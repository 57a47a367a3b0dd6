import StackScript.Proofs.Abiding
import StackScript.Proofs.Operators

/-!
What keeps to a regime in small does so as a whole: every expression, every function that waits to be written, and every
program.
-/
namespace StackScript

open Compile (core)

theorem Expr.nests_core {p : Header → Bool} : ∀ {e : Expr}, e.nests p → (core e).nests p
  | .group e _, h => nests_core (e := e) h
  | .variable _ _, h | .literal _ _, h | .unary _ _ _, h | .field _ _ _, h | .binary _ _ _ _, h | .index _ _ _, h
  | .call _ _ _, h | .tuple _ _, h | .list _ _, h | .lambda _ _ _, h | .block _ _ _, h | .cond _ _ _ _, h => h

theorem Expr.uses_core {n : String} : ∀ {e : Expr}, (core e).Uses n → e.Uses n
  | .group e _, h => uses_core (e := e) h
  | .variable _ _, h | .literal _ _, h | .unary _ _ _, h | .field _ _ _, h | .binary _ _ _ _, h | .index _ _ _, h
  | .call _ _ _, h | .tuple _ _, h | .list _ _, h | .lambda _ _ _, h | .block _ _ _, h | .cond _ _ _ _, h => h

/-- What follows a statement is all that the statement has to leave free. -/
theorem Stmt.blockUses_cons {n : String} {last : Prop} : ∀ {s : Stmt} {ss : List Stmt},
    BlockUses n (BlockUses n last ss) [s] → BlockUses n last (s :: ss)
  | .expr _ _, _, h | .function _ _ _, _, h | .bind _ _ (.lambda _ _ _) _, _, h | .bind _ _ (.variable _ _) _, _, h
  | .bind _ _ (.literal _ _) _, _, h | .bind _ _ (.unary _ _ _) _, _, h | .bind _ _ (.field _ _ _) _, _, h
  | .bind _ _ (.binary _ _ _ _) _, _, h | .bind _ _ (.index _ _ _) _, _, h | .bind _ _ (.call _ _ _) _, _, h
  | .bind _ _ (.tuple _ _) _, _, h | .bind _ _ (.list _ _) _, _, h | .bind _ _ (.block _ _ _) _, _, h
  | .bind _ _ (.cond _ _ _ _) _, _, h | .bind _ _ (.group _ _) _, _, h => by
    simpa only [BlockUses] using h

namespace Header

theorem names_fill : ∀ {ps : List Param} {ts : List TypeExpr}, ts.length = ps.length →
    (List.zipWith fillParam ps ts).map (·.name) = ps.map (·.name)
  | [], _, _ => rfl
  | p :: ps, t :: ts, h => by
    rw [List.zipWith_cons_cons, List.map_cons, List.map_cons, names_fill (Nat.succ.inj h), fillParam]

/-- A lambda that is bound to a name takes the name and keeps those of its parameters. -/
theorem bindTo_spec {h h' : Header} {name : String} {written : Option TypeExpr} (e : h.bindTo name written = .ok h') :
    h'.name = name ∧ FreeNames.paramNames h' = FreeNames.paramNames h := by
  unfold bindTo at e
  split at e
  · cases e
    exact ⟨rfl, rfl⟩
  · split at e
    · next length =>
      cases e
      exact ⟨rfl, names_fill length⟩
    · cases e
  · cases e

end Header

namespace Regime

variable {R : Regime} {c d : Compilation} {span : Span} {deferred : Deferred}

namespace Keeps

variable (L : R.Lawful)
include L

/-! ### Calls and closures -/

section

variable (hw : R.Installs deferred)
include hw

theorem pushLambda (decl : FunctionDecl) (hn : R.Reads c fun n => n ∈ decl.freeNames) {body : Option Ty → Compile Ty}
    (hbody : R.Embodies (fun n => decl.body.Uses n) body) (expected : Option Ty) :
    R.Keeps c (Compile.pushLambda deferred decl expected body) R.Gives := by
  refine lift L (.signatureAs _ _) fun s hs => guarded L rfl fun specific => ?_
  have declares := Header.signatureAs_spec hs
  refine bind L (L.lambda c decl s body (Bool.eq_false_iff.2 specific) ?_ (Header.length_signatureAs hs) hn hbody)
    fun i d on hi => here (pushFunction L hw (pushVariable L hw) ?_ none _)
  · exact (Signature.known_effectiveResult.1 declares.result).imp_right (L.types.known _)
  · rwa [L.target _ _ on]

theorem emitCallOf (callee : Expr) (hn : R.Reads c fun n => callee.Uses n) {push lambdaBody : Option Ty → Compile Ty}
    (hp : R.Embodies (fun n => callee.Uses n) push)
    (hbody : ∀ h body span, core callee = .lambda h body span → R.Embodies (fun n => body.Uses n) lambdaBody)
    {args : Compile.Arguments} (ha : R.Supplies c args) (span : Span) :
    R.Keeps c (Compile.emitCallOf deferred callee push lambdaBody args span) R.Gives := by
  have value : R.Keeps c (Compile.callValue (core callee) push args span) R.Gives :=
    callValue L _ (fun d t on => hp d t (hn.later L on)) ha span
  unfold Compile.emitCallOf
  split
  · next name nameSpan hcore =>
    have used : callee.Uses name := Expr.uses_core (by rw [hcore]; exact rfl)
    refine resolve L (hn.sees name used) fun meaning hm => ?_
    cases meaning with
    | function f => exact callFunction L hw hm ha span
    | stored _ _ _ | computed _ | value _ _ => exact value
  · next h body lambdaSpan hcore =>
    refine callLambda L hw ⟨h, body⟩ (hn.sub fun n free => Expr.uses_core ?_) (hbody h body lambdaSpan hcore) ha span
    obtain ⟨used, unbound, -⟩ := FunctionDecl.mem_freeNames.1 free
    rw [hcore]
    exact ⟨used, unbound⟩
  · exact value

end

/-! ### Operators and conditions -/

theorem binary {left right : Option Ty → Compile Ty} (op : BinaryOp) (a b : Expr) (expected : Option Ty)
    (hl : R.Embodies (fun n => a.Uses n) left) (hr : R.Embodies (fun n => b.Uses n) right)
    (hn : R.Reads c fun n => (Expr.binary op a b span).Uses n) : R.Keeps c (do
      let hint ← Compile.operandHint op a b expected
      let r ← right hint
      let l ← left (some r)
      if !l.agrees r then Compile.fail (.mismatch r l) a.span
      Compile.emitLowering (op.lowering? r) op.sign r span
      return op.resultType r) R.Gives := by
  refine seq L (operandHint L op a b expected) fun hint c₁ on₁ => ?_
  refine bind L (hr c₁ hint ((hn.sub fun _ => .inr).later L on₁)) fun r c₂ on₂ typed => ?_
  refine seq L (hl c₂ (some r) ((hn.sub fun _ => .inl).later L (L.trans _ _ _ on₁ on₂))).forget fun l c₃ _ => ?_
  refine guarded L rfl fun _ => seq L (emitLowering L (fun _ h => (BinaryOp.lowers h).1) _ _ _) fun _ _ _ => pure L ?_
  unfold BinaryOp.resultType
  split
  · exact L.types.known .bool rfl
  · exact typed

theorem when (span : Span) {test' yes' : Option Ty → Compile Ty} (test yes : Expr) (ht : R.Embodies (fun n => test.Uses n) test')
    (hy : R.Embodies (fun n => yes.Uses n) yes') (hn : R.Reads c fun n => (Expr.cond test yes none span).Uses n) :
    R.Keeps c (do
      let skip ← Compile.branch test (← test' (some .bool))
      Compile.discard (← yes' none) yes.span
      Compile.bindLabel skip
      return .void) R.Gives := by
  refine seq L (ht c _ (hn.sub fun _ => .inl)).forget fun t c₁ on₁ => seq L (branch L test t) fun skip c₂ on₂ => ?_
  refine seq L (hy c₂ _ ((hn.sub fun _ h => .inr (.inl h)).later L (L.trans _ _ _ on₁ on₂))).forget fun t _ _ => ?_
  exact seq L (discard L t _) fun _ _ _ => seq L (bindLabel L skip) fun _ _ _ => pure L (L.types.known .void rfl)

theorem either (span : Span) {test' yes' no' : Option Ty → Compile Ty} (test yes no : Expr) (expected : Option Ty)
    (ht : R.Embodies (fun n => test.Uses n) test') (hy : R.Embodies (fun n => yes.Uses n) yes')
    (hno : R.Embodies (fun n => no.Uses n) no') (hn : R.Reads c fun n => (Expr.cond test yes (some no) span).Uses n) :
    R.Keeps c (do
      let other ← Compile.branch test (← test' (some .bool))
      let depth := (← Compile.getDraft).depth
      let t ← yes' expected
      let done ← Compile.jump .jump
      Compile.bindLabel other
      Compile.setDepth depth
      let u ← no' (some t)
      if !t.agrees u then Compile.fail (.mismatch t u) no.span
      Compile.bindLabel done
      return (t.unify? u).getD t) R.Gives := by
  refine seq L (ht c _ (hn.sub fun _ => .inl)).forget fun t c₁ on₁ => seq L (branch L test t) fun other c₂ on₂ => ?_
  have on := L.trans _ _ _ on₁ on₂
  refine getDraft (bind L (hy c₂ _ ((hn.sub fun _ h => .inr (.inl h)).later L on)) fun t c₃ on₃ typed => ?_)
  refine seq L (jump L rfl) fun done c₄ on₄ => seq L (bindLabel L other) fun _ c₅ on₅ => seq L (setDepth L _) fun _ c₆ on₆ => ?_
  have on := L.trans _ _ _ (L.trans _ _ _ (L.trans _ _ _ (L.trans _ _ _ on on₃) on₄) on₅) on₆
  refine bind L (hno c₆ _ ((hn.sub fun _ h => .inr (.inr h)).later L on)) fun u _ _ typed' => ?_
  refine guarded L rfl fun _ => seq L (bindLabel L done) fun _ _ _ => pure L ?_
  cases e : t.unify? u with
  | none => exact typed
  | some v => exact L.types.unify t u v typed typed' e

/-! ### Every expression -/

section

variable (hw : R.Installs deferred)
include hw

mutual

theorem expr : ∀ {e : Expr}, e.nests R.nested → R.Embodies (fun n => e.Uses n) (Compile.expr deferred e)
  | .literal v span, _ => fun c expected _ => by
    unfold Compile.expr
    exact leaving L (pushLiteral L v expected span)
  | .variable name span, _ => fun c expected hn => by
    unfold Compile.expr
    exact leaving L (pushVariable L hw c name expected span (hn.sees name rfl))
  | .group e _, h => fun c expected hn => by
    unfold Compile.expr
    exact expr (e := e) h c expected hn
  | .binary op a b span, h => fun c expected hn => by
    unfold Compile.expr
    obtain ⟨ha, hb⟩ : a.nests R.nested ∧ b.nests R.nested := by simpa [Expr.nests] using h
    exact leaving L (binary L op a b expected (expr ha) (expr hb) hn)
  | .unary op e span, h => fun c expected hn => by
    unfold Compile.expr
    exact leaving L (bind L (expr (e := e) h c expected hn) fun t _ _ typed =>
      seq L (emitLowering L (fun _ h => (UnaryOp.lowers h).1) _ _ _) fun _ _ _ => pure L typed)
  | .call callee args span, h => fun c expected hn => by
    unfold Compile.expr
    obtain ⟨hcallee, hargs⟩ : callee.nests R.nested ∧ Expr.allNest R.nested args := by simpa [Expr.nests] using h
    exact leaving L (emitCallOf L hw callee (hn.sub fun _ => .inl) (expr hcallee)
      (fun _ _ _ => lambdaBody hcallee) (arguments hargs (hn.sub fun _ => .inr)) span)
  | .index a b span, h => fun c expected hn => by
    unfold Compile.expr
    obtain ⟨ha, hb⟩ : a.nests R.nested ∧ b.nests R.nested := by simpa [Expr.nests] using h
    exact leaving L (seq L (expr hb c _ (hn.sub fun _ => .inr)).forget fun t c₁ on => guarded L rfl fun _ =>
      seq L (expr ha c₁ none ((hn.sub fun _ => .inl).later L on)).forget fun t _ _ => emitSubscript L a t span)
  | .field a i span, h => fun c expected hn => by
    unfold Compile.expr
    exact leaving L (bind L (expr (e := a) h c none hn) fun t _ _ typed => selectItem L a typed i span)
  | .tuple es _, h => fun c expected hn => by
    unfold Compile.expr
    exact leaving L (bind L (items (show Expr.allNest R.nested es from h) hn _) fun ts _ _ typed =>
      pure L ((L.types.tuple ts).2 typed))
  | .list es span, h => fun c expected hn => by
    unfold Compile.expr
    exact leaving L (seq L (elements (show Expr.allNest R.nested es from h) hn _) fun t _ _ => emitList L es.length t span)
  | .lambda header body _, h => fun c expected hn => by
    unfold Compile.expr
    refine leaving L (pushLambda L hw ⟨header, body⟩ (hn.sub fun n free => ?_) (expr (e := body) h) expected)
    obtain ⟨used, unbound, -⟩ := FunctionDecl.mem_freeNames.1 free
    exact ⟨used, unbound⟩
  | .block ss value span, h => fun c expected hn => by
    unfold Compile.expr
    obtain ⟨hss, hvalue⟩ : Stmt.allNest R.nested ss ∧ Expr.optionNests R.nested value := by simpa [Expr.nests] using h
    refine leaving L (L.block c _ _ hn.inside fun d inside sees => ?_)
    refine bind L (statements hss ⟨inside, fun n h => sees n (hn.sees n h)⟩) fun locals d₁ on hs => ?_
    exact bind L (optional hvalue d₁ expected hs) fun t _ _ typed => seq L (releaseLocals L locals t span) fun _ _ _ =>
      pure L typed
  | .cond test yes none span, h => fun c expected hn => by
    unfold Compile.expr
    obtain ⟨⟨ht, hy⟩, -⟩ : (test.nests R.nested ∧ yes.nests R.nested) ∧ Expr.optionNests R.nested none := by
      simpa [Expr.nests] using h
    exact leaving L (when L span test yes (expr ht) (expr hy) hn)
  | .cond test yes (some no) span, h => fun c expected hn => by
    unfold Compile.expr
    obtain ⟨⟨ht, hy⟩, hno⟩ : (test.nests R.nested ∧ yes.nests R.nested) ∧ no.nests R.nested := by
      simpa [Expr.nests, Expr.optionNests] using h
    exact leaving L (either L span test yes no expected (expr ht) (expr hy) (expr hno) hn)

theorem lambdaBody : ∀ {e : Expr}, e.nests R.nested → ∀ {h : Header} {body : Expr} {span : Span},
    core e = .lambda h body span → R.Embodies (fun n => body.Uses n) (Compile.lambdaBody deferred e)
  | .group e _, hnests, _, _, _, hcore => fun c expected hn => by
    unfold Compile.lambdaBody
    exact lambdaBody (e := e) hnests hcore c expected hn
  | .lambda _ body _, hnests, _, _, _, hcore => fun c expected hn => by
    unfold Compile.lambdaBody
    cases hcore
    exact expr (e := body) hnests c expected hn

theorem optional : ∀ {e : Option Expr}, Expr.optionNests R.nested e →
    R.Embodies (fun n => Expr.OptionUses n e) (Compile.optional deferred e)
  | none, _ => fun c _ _ => by
    unfold Compile.optional
    exact pure L (L.types.known .void rfl)
  | some e, h => fun c expected hn => by
    unfold Compile.optional
    exact expr (e := e) h c expected hn

theorem arguments : ∀ {es : List Expr} {c : Compilation}, Expr.allNest R.nested es →
    R.Reads c (fun n => Expr.AnyUses n es) → R.Supplies c ⟨es.map Expr.span, Compile.arguments deferred es⟩
  | [], c, _, _ => fun params => by
    dsimp only
    unfold Compile.arguments
    exact pure L rfl
  | e :: es, c, h, hn => fun params => by
    obtain ⟨he, hes⟩ : e.nests R.nested ∧ Expr.allNest R.nested es := by simpa [Expr.allNest] using h
    dsimp only
    unfold Compile.arguments
    refine bind L (arguments hes (hn.sub fun _ => .inr) params.tail) fun ts c₁ on length => ?_
    refine seq L (expr he c₁ _ ((hn.sub fun _ => .inl).later L on)).forget fun t _ _ => guarded L rfl fun _ => pure L ?_
    exact congrArg Nat.succ length

theorem items : ∀ {es : List Expr} {c : Compilation}, Expr.allNest R.nested es →
    R.Reads c (fun n => Expr.AnyUses n es) → ∀ hints, R.Keeps c (Compile.items deferred es hints) fun ts _ => ∀ t ∈ ts, R.Typed t
  | [], c, _, _, _ => by
    unfold Compile.items
    exact pure L nofun
  | e :: es, c, h, hn, hints => by
    obtain ⟨he, hes⟩ : e.nests R.nested ∧ Expr.allNest R.nested es := by simpa [Expr.allNest] using h
    unfold Compile.items
    refine bind L (expr he c _ (hn.sub fun _ => .inl)) fun t c₁ on typed => ?_
    refine bind L (items hes ((hn.sub fun _ => .inr).later L on) _) fun ts _ _ typed' => pure L ?_
    exact List.forall_mem_cons.2 ⟨typed, typed'⟩

theorem elements : ∀ {es : List Expr} {c : Compilation}, Expr.allNest R.nested es →
    R.Reads c (fun n => Expr.AnyUses n es) → ∀ elem, R.Keeps c (Compile.elements deferred es elem) Any
  | [], c, _, _, elem => by
    unfold Compile.elements
    exact done L elem
  | e :: es, c, h, hn, none => by
    obtain ⟨he, hes⟩ : e.nests R.nested ∧ Expr.allNest R.nested es := by simpa [Expr.allNest] using h
    unfold Compile.elements
    exact seq L (expr he c _ (hn.sub fun _ => .inl)).forget fun t c₁ on => elements hes ((hn.sub fun _ => .inr).later L on) _
  | e :: es, c, h, hn, some elem => by
    obtain ⟨he, hes⟩ : e.nests R.nested ∧ Expr.allNest R.nested es := by simpa [Expr.allNest] using h
    unfold Compile.elements
    exact seq L (expr he c _ (hn.sub fun _ => .inl)).forget fun t c₁ on => guarded L rfl fun _ =>
      elements hes ((hn.sub fun _ => .inr).later L on) _

theorem statements : ∀ {ss : List Stmt} {c : Compilation} {q : String → Prop}, Stmt.allNest R.nested ss →
    R.Reads c (fun n => Stmt.BlockUses n (q n) ss) →
    R.Keeps c (Compile.statements deferred ss) fun _ d => R.Reads d q
  | [], c, _, _, hn => by
    unfold Compile.statements
    exact pure L hn
  | s :: ss, c, q, h, hn => by
    obtain ⟨hs, hss⟩ : s.nests R.nested ∧ Stmt.allNest R.nested ss := by simpa [Stmt.allNest] using h
    unfold Compile.statements
    refine bind L (statement hs (q := fun n => Stmt.BlockUses n (q n) ss) (hn.sub fun _ => Stmt.blockUses_cons))
      fun _ c₁ _ hn₁ => ?_
    exact bind L (statements hss hn₁) fun _ _ _ hn₂ => pure L hn₂

theorem statement : ∀ {s : Stmt} {c : Compilation} {q : String → Prop}, s.nests R.nested →
    R.Reads c (fun n => Stmt.BlockUses n (q n) [s]) →
    R.Keeps c (Compile.statement deferred s) fun _ d => R.Reads d q
  | .expr e _, c, _, h, hn => by
    unfold Compile.statement
    refine seq L (expr (e := e) h c none (hn.sub fun _ => .inl)).forget fun t c₁ on₁ => ?_
    exact seq L (discard L t e.span) fun _ c₂ on₂ => pure L ((hn.sub fun _ => .inr).later L (L.trans _ _ _ on₁ on₂))
  | .function header body _, c, q, h, hn => by
    unfold Compile.statement
    obtain ⟨hheader, hbody⟩ : R.nested header ∧ body.nests R.nested := by simpa [Stmt.nests] using h
    refine lift L (.signature _) fun s hs => bind L (L.declared c ⟨header, body⟩ s _ hs hheader hbody (hn.sub fun n free => ?_)
      (expr hbody)) fun _ c₁ on sees => pure L ⟨L.inside c c₁ on hn.inside, fun n used => ?_⟩
    · obtain ⟨used, unbound, -⟩ := FunctionDecl.mem_freeNames.1 free.1
      exact ⟨.inl ⟨used, unbound⟩, free.2⟩
    · by_cases e : n = header.name
      · exact e ▸ sees
      · exact L.sees c c₁ n on (hn.sees n ⟨.inr used, e⟩)
  | .bind name written (.lambda header body _) _, c, q, h, hn => by
    unfold Compile.statement
    refine lift L (.bindTo _ _ _) fun header' hbind => lift L (.signature _) fun s hs => ?_
    obtain ⟨named, params⟩ := Header.bindTo_spec hbind
    obtain ⟨hheader, hbody⟩ : R.nested header' ∧ body.nests R.nested := by
      simpa [Stmt.nests, Header.passes, hbind] using h
    refine bind L (L.declared c ⟨header', body⟩ s _ hs hheader hbody (hn.sub fun n free => ?_)
      (expr hbody)) fun _ c₁ on sees => pure L ⟨L.inside c c₁ on hn.inside, fun n used => ?_⟩
    · obtain ⟨used, unbound, -⟩ := FunctionDecl.mem_freeNames.1 free.1
      exact ⟨.inl ⟨used, params ▸ unbound⟩, named ▸ free.2⟩
    · by_cases e : n = header'.name
      · exact e ▸ sees
      · exact L.sees c c₁ n on (hn.sees n ⟨.inr used, named ▸ e⟩)
  | .bind name written (.variable _ _) span, c, q, h, hn | .bind name written (.literal _ _) span, c, q, h, hn
  | .bind name written (.unary _ _ _) span, c, q, h, hn | .bind name written (.field _ _ _) span, c, q, h, hn
  | .bind name written (.binary _ _ _ _) span, c, q, h, hn | .bind name written (.index _ _ _) span, c, q, h, hn
  | .bind name written (.call _ _ _) span, c, q, h, hn | .bind name written (.tuple _ _) span, c, q, h, hn
  | .bind name written (.list _ _) span, c, q, h, hn | .bind name written (.block _ _ _) span, c, q, h, hn
  | .bind name written (.cond _ _ _ _) span, c, q, h, hn | .bind name written (.group _ _) span, c, q, h, hn => by
    unfold Compile.statement
    refine lift L (.annotated _) fun annotated _ => getDraft ?_
    refine bind L (expr h c annotated (hn.sub fun _ => .inl)) fun t c₁ on₁ _ => ?_
    refine bind L (bindLocal L (L.inside c c₁ on₁ hn.inside) name annotated _ t _ span) fun _ c₂ on₂ sees => ?_
    have on := L.trans _ _ _ on₁ on₂
    refine pure L ⟨L.inside c c₂ on hn.inside, fun n used => ?_⟩
    by_cases e : n = name
    · exact e ▸ sees
    · exact L.sees c c₂ n on (hn.sees n (.inr ⟨used, e⟩))

end

end

/-! ### Functions that wait -/

theorem installs_deferred : ∀ n, R.Installs (Compile.writeDeferred n)
  | 0 => fun _ _ _ _ _ _ => fail L rfl
  | n + 1 => fun c f _ scope ready hd => L.function c f _ scope _ _ _ _ ready (expr L (installs_deferred n) hd)

/-! ### Programs -/

theorem declareLiteral {name : String} (hc : c.Resting) (hn : R.Declares name) (v : Literal) (written : Option TypeExpr)
    (span : Span) :
    R.Keeps c (Compile.declareLiteral name v written span) Any := by
  refine get (lift L (.annotated _) fun expected _ => ?_)
  refine bind L (onHeap (p := fun value : Value => R.Typed value.ty) L (v.adapt expected).ages_value fun heap =>
    L.types.known _ ((v.adapt expected).known_value heap)) fun value d on typed => ?_
  have bound : R.Keeps d (Compile.addValue c.module value >>= fun i =>
      Compile.bindIn c.module ScopeTable.root name (.value i)) Any := seq L (addValue L typed _) fun i e on' => by
    have on := L.trans _ _ _ on on'
    have rests := L.rests c e on hc
    rw [← hc.target, ← L.target c e on, rests.target]
    exact L.static e name i rests hn
  split
  · split
    · exact releasing L (fun heap => heap.ages_decrefs value.handles) rfl
    · exact bound
  · exact bound

theorem declare {s : Stmt} (hc : c.Resting) (h : s.nestsBelow R.nested) (hn : ∀ n ∈ s.name?, R.Declares n) :
    R.Keeps c (Compile.declare s) Any := by
  unfold Compile.declare
  split
  · exact done L _
  · exact L.global c _ hc h (hn _ rfl)
  · exact lift L (.bindTo _ _ _) fun header bound => L.global c ⟨header, _⟩ hc h ((Header.bindTo_spec bound).1 ▸ hn _ rfl)
  · exact declareLiteral L hc (hn _ rfl) _ _ _
  · exact L.computed c _ _ _ _ hc h (hn _ rfl)

theorem finishStatement (invoke : Bool) (t : Ty) (span : Span) : R.Keeps c (Compile.finishStatement invoke t span) Any := by
  unfold Compile.finishStatement
  split
  · split
    · exact seq L (typeOperand L t) fun i _ _ => seq L (emit1 L rfl rfl i _) fun _ _ _ => sink L _
    · exact discard L t span
  · exact done L _

theorem writeMain (invoke : Bool) {p : Program} (h : p.nests R.nested) : R.Keeps c (Compile.writeMain invoke p) Any := by
  obtain ⟨hss, hvalue⟩ := Bool.and_eq_true_iff.1 h
  have hw := installs_deferred L Compile.nestingLimit
  refine get (bind L (L.main c) fun i d on ready => seq L (L.function d _ _ _ _ _ _ _ ready fun e _ reads => ?_)
    fun _ _ _ => done L i)
  refine seq L (forM L (k := fun d => R.Reads d fun _ => True) (fun d e on h => h.later L on) p.statements reads
    fun s hs d reads => ?_) fun _ d on => optional L hw hvalue d none ((reads.sub fun _ _ => trivial).later L on)
  split
  · next a _ =>
    exact seq L (expr L hw (List.all_eq_true.1 hss _ hs) d none (reads.sub fun _ _ => trivial)).forget fun t _ _ =>
      finishStatement L invoke t a.span
  · exact done L _

/-- A program is compiled within the regime, from whatever state holds. -/
theorem program (hc : c.Resting) (invoke : Bool) {p : Program} (h : p.nests R.nested)
    (hn : ∀ s ∈ p.statements, ∀ n ∈ s.name?, R.Declares n) :
    R.Keeps c (Compile.program invoke p) Any := by
  obtain ⟨hss, -⟩ := Bool.and_eq_true_iff.1 h
  have hw := installs_deferred L Compile.nestingLimit
  refine get (seq L (forM L (k := Compilation.Resting) (fun d e on => L.rests d e on) _ hc fun s hs d hd =>
    declare L hd (List.all_eq_true.1 hss s hs) (hn s hs)) fun _ d _ => get ?_)
  exact seq L (loop L (fun i _ => ensureWritten L hw _) _) fun _ _ _ => writeMain L invoke h

end Keeps

end Regime

end StackScript
