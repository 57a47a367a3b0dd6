import StackScript.Proofs.Blocks
import StackScript.Proofs.Operators

/-!
The code of expressions. Whatever the stack holds, the code of an expression leaves one value of the type of the
expression on top of it; by induction on the expression, and then on how many functions wait for one another.
-/
namespace StackScript

open Compile (Arguments)

namespace Expr

theorem isPlain_core {called : Bool} : ∀ {e : Expr}, e.isPlain called → (Compile.core e).isPlain called
  | .group e _, h => isPlain_core (e := e) h
  | .variable _ _, h | .literal _ _, h | .unary _ _ _, h | .field _ _ _, h | .binary _ _ _ _, h | .index _ _ _, h
  | .call _ _ _, h | .tuple _ _, h | .list _ _, h | .lambda _ _ _, h | .block _ _ _, h | .cond _ _ _ _, h => h

end Expr

theorem BinaryOp.known_resultType {t : Ty} (op : BinaryOp) (ht : t.Known) : (op.resultType t).Known := by
  unfold resultType
  split
  · rfl
  · exact ht

namespace Compilation

variable {o : Surroundings} {c d : Compilation} {s u : Shape} {span : Span} {t : Ty} {ts : List Ty}
  {deferred : Deferred} {args : Arguments} {expected : Option Ty}

/-! ### Operators -/

theorem meets_operandHint {ok : Option Ty → Compilation → Prop} {bad : CompileError → Compilation → Prop}
    {op : BinaryOp} {a b : Expr} (h : ∀ hint, ok hint c) : Meets (Compile.operandHint op a b expected) c ok bad := by
  refine meets_bind.2 (meets_bind.2 (meets_get.2 (meets_pure.2 (meets_bind.2 (meets_bind.2 (meets_get.2
    (meets_pure.2 ?_)))))))
  cases op <;> exact meets_pure.2 (h _)

theorem Yields.binary {left right : Option Ty → Compile Ty} (op : BinaryOp) (a b : Expr) (expected : Option Ty)
    (hl : ∀ h, Leaves o (left h)) (hr : ∀ h, Leaves o (right h)) : Yields o (do
      let hint ← Compile.operandHint op a b expected
      let r ← right hint
      let l ← left (some r)
      if !l.agrees r then Compile.fail (.mismatch r l) a.span
      Compile.emitLowering (op.lowering? r) op.sign r span
      return op.resultType r) := by
  intro c s hc hs hlevel
  refine meets_bind.2 (meets_operandHint fun hint => ?_)
  refine (hr hint c s hc hs hlevel).seq fun r c₁ h₁ => ?_
  obtain ⟨known, h₁, level₁⟩ := h₁
  refine (hl (some r) c₁ _ h₁.ready (hs.push hc h₁ (Shape.settled_ofTy r)) level₁).seq fun l c₂ h₂ => ?_
  obtain ⟨known', h₂, -⟩ := h₂
  dsimp only
  split
  · exact h₂.failed
  · next hagree =>
    obtain rfl : l = r := Ty.eq_of_agrees known' known (by simpa using hagree)
    have h := h₁.trans h₂
    have lowers : ∀ low, op.lowering? l = some low → low.Lowers [l, l] (op.resultType l) := fun _ => BinaryOp.lowers
    refine (h.ready.emitLowering hs.settled lowers).seq fun _ d hd => meets_pure.2 ⟨BinaryOp.known_resultType op known, ?_⟩
    rw [Shape.ofTys_cons, Shape.ofTys_cons, Shape.ofTys_nil, List.append_nil, List.append_assoc] at hd
    exact h.trans hd

theorem Yields.unary {operand : Option Ty → Compile Ty} (op : UnaryOp) (expected : Option Ty)
    (hy : ∀ h, Leaves o (operand h)) : Yields o (do
      let t ← operand expected
      Compile.emitLowering (op.lowering? t) op.sign t span
      return t) := by
  intro c s hc hs hl
  refine (hy expected c s hc hs hl).seq fun t c₁ h₁ => ?_
  obtain ⟨known, h₁, -⟩ := h₁
  have lowers : ∀ low, op.lowering? t = some low → low.Lowers [t] t := fun _ => UnaryOp.lowers
  refine (h₁.ready.emitLowering hs.settled lowers).seq fun _ d hd => meets_pure.2 ⟨known, ?_⟩
  rw [Shape.ofTys_cons, Shape.ofTys_nil, List.append_nil] at hd
  exact h₁.trans hd

/-! ### Tuples and lists -/

/-- Code that leaves values one above another. -/
def Heaps (o : Surroundings) (x : Compile (List Ty)) : Prop :=
  ∀ (c : Compilation) (s : Shape), c.Ready o → c.Sees s → c.Level s → Meets x c
    (fun ts d => Ty.AllKnown ts ∧ c.Reaches o (fun _ => none) d s (Shape.ofTys ts.reverse ++ s) ∧
      d.Level (Shape.ofTys ts.reverse ++ s)) fun _ => Failed o

theorem heaps_nil : Heaps o (pure []) := fun _ s hc _ hl => meets_pure.2 ⟨Ty.allKnown_nil, .refl hc _ s, hl⟩

theorem Heaps.cons {x : Compile Ty} {y : Compile (List Ty)} (hx : Leaves o x) (hy : Heaps o y) : Heaps o (do
    let t ← x
    let ts ← y
    return t :: ts) := by
  intro c s hc hs hl
  refine (hx c s hc hs hl).seq fun t c₁ h₁ => ?_
  obtain ⟨known, h₁, level₁⟩ := h₁
  refine (hy c₁ _ h₁.ready (hs.push hc h₁ (Shape.settled_ofTy t)) level₁).seq fun ts c₂ h₂ => ?_
  obtain ⟨known', h₂, level₂⟩ := h₂
  have shape : Shape.ofTys ts.reverse ++ (Shape.ofTy t ++ s) = Shape.ofTys (t :: ts).reverse ++ s := by simp
  rw [shape] at h₂ level₂
  exact meets_pure.2 ⟨Ty.allKnown_cons.2 ⟨known, known'⟩, h₁.trans h₂, level₂⟩

theorem Heaps.tuple {x : Compile (List Ty)} (hx : Heaps o x) : Yields o (do return .tuple (← x)) := by
  intro c s hc hs hl
  refine (hx c s hc hs hl).seq fun ts d hd => meets_pure.2 ⟨Ty.known_tuple.2 hd.1, ?_⟩
  rw [Shape.ofTy_tuple]
  exact hd.2.1

/-- Code that leaves the elements of a list, all of one type. -/
def Fills (o : Surroundings) (n : Nat) (x : Option Ty → Compile (Option Ty)) : Prop :=
  ∀ (elem : Option Ty) (c : Compilation) (s : Shape), (∀ t, elem = some t → t.Known) → c.Ready o → c.Sees s →
    c.Level s → Meets (x elem) c (fun r d => (∀ t, elem = some t → r = some t) ∧ ∃ u,
      c.Reaches o (fun _ => none) d s (u ++ s) ∧
      ∀ t, r = some t → t.Known ∧ u = Shape.ofTys (List.replicate n t)) fun _ => Failed o

theorem fills_nil : Fills o 0 pure := fun _ _ s helem hc _ _ =>
  meets_pure.2 ⟨fun _ h => h, [], .refl hc _ s, fun t ht => ⟨helem t ht, rfl⟩⟩

/-- The elements after one of a type have the same type. -/
theorem Fills.after {n : Nat} {y : Option Ty → Compile (Option Ty)} (hy : Fills o n y) (hc : c.Ready o) (hs : c.Sees s)
    (ht : t.Known) (h : c.Reaches o (fun _ => none) d s (Shape.ofTy t ++ s)) (hl : d.Level (Shape.ofTy t ++ s)) :
    Meets (y (some t)) d (fun r e => r = some t ∧ ∃ u, c.Reaches o (fun _ => none) e s (u ++ s) ∧
      u = Shape.ofTys (List.replicate (n + 1) t)) fun _ => Failed o := by
  refine (hy (some t) d _ (fun _ h => Option.some.inj h ▸ ht) h.ready (hs.push hc h (Shape.settled_ofTy t)) hl).imp
    (fun r e he => ?_) fun _ _ h => h
  obtain ⟨hr, u, he, htypes⟩ := he
  obtain ⟨-, rfl⟩ := htypes t (hr t rfl)
  have shape : Shape.ofTys (List.replicate n t) ++ (Shape.ofTy t ++ s) =
      Shape.ofTys (List.replicate (n + 1) t) ++ s := by
    simp [List.replicate_succ']
  exact ⟨hr t rfl, _, shape ▸ h.trans he, rfl⟩

/-- The first element decides the type. -/
theorem Fills.first {n : Nat} {x : Option Ty → Compile Ty} {y : Option Ty → Compile (Option Ty)}
    (hx : ∀ h, Leaves o (x h)) (hy : Fills o n y) (hc : c.Ready o) (hs : c.Sees s) (hl : c.Level s) :
    Meets (do
      let t ← x none
      y (some t)) c (fun r d => ∃ u, c.Reaches o (fun _ => none) d s (u ++ s) ∧
        ∀ t, r = some t → t.Known ∧ u = Shape.ofTys (List.replicate (n + 1) t)) fun _ => Failed o := by
  refine (hx none c s hc hs hl).seq fun t d hd => ?_
  obtain ⟨known, hd, level⟩ := hd
  refine (hy.after hc hs known hd level).imp (fun r e he => ?_) fun _ _ h => h
  obtain ⟨rfl, u, he, hu⟩ := he
  exact ⟨u, he, fun t h => Option.some.inj h ▸ ⟨known, hu⟩⟩

/-- The other elements have the type that is known. -/
theorem Fills.next {n : Nat} {x : Option Ty → Compile Ty} {y : Option Ty → Compile (Option Ty)} (a : Expr)
    (hx : ∀ h, Leaves o (x h)) (hy : Fills o n y) (hc : c.Ready o) (hs : c.Sees s) (hl : c.Level s) (ht : t.Known) :
    Meets (do
      let u ← x (some t)
      if !t.agrees u then Compile.fail (.mismatch t u) a.span
      y (some t)) c (fun r d => r = some t ∧ ∃ u, c.Reaches o (fun _ => none) d s (u ++ s) ∧
        u = Shape.ofTys (List.replicate (n + 1) t)) fun _ => Failed o := by
  refine (hx (some t) c s hc hs hl).seq fun r d hd => ?_
  obtain ⟨known, hd, level⟩ := hd
  dsimp only
  split
  · exact hd.failed
  · next hagree =>
    obtain rfl : t = r := Ty.eq_of_agrees ht known (by simpa using hagree)
    exact hy.after hc hs ht hd level

theorem Fills.list {n : Nat} {x : Option Ty → Compile (Option Ty)} (hx : Fills o n x) (expected : Option Ty) :
    Yields o (do
      let elem ← x ((expected.bind Ty.elem?).filter fun t => !t.isGeneric)
      Compile.emitList n elem span) := by
  intro c s hc hs hl
  have known : ∀ t, ((expected.bind Ty.elem?).filter fun t => !t.isGeneric) = some t → t.Known := fun t ht => by
    simpa [Ty.Known] using (Option.filter_eq_some_iff.1 ht).2
  refine (hx _ c s known hc hs hl).seq fun r d hd => ?_
  obtain ⟨-, u, hd, htypes⟩ := hd
  exact (hd.ready.emitList (s := s) (fun t ht => (htypes t ht).1) fun t ht => (htypes t ht).2).imp
    (fun r e he => ⟨he.1, hd.trans he.2⟩) fun _ _ h => h

theorem Yields.index {object position : Option Ty → Compile Ty} (a b : Expr) (ho : ∀ h, Leaves o (object h))
    (hp : ∀ h, Leaves o (position h)) : Yields o (do
      let t ← position (some .int32)
      if t ≠ .int32 then Compile.fail (.mismatch .int32 t) b.span
      Compile.emitSubscript a (← object none) span) := by
  intro c s hc hs hl
  refine (hp _ c s hc hs hl).seq fun t c₁ h₁ => ?_
  obtain ⟨-, h₁, level⟩ := h₁
  dsimp only
  split
  · exact h₁.failed
  · next ht =>
    obtain rfl : t = .int32 := Decidable.not_not.1 ht
    refine (ho none c₁ _ h₁.ready (hs.push hc h₁ (Shape.settled_ofTy _)) level).seq fun t c₂ h₂ => ?_
    obtain ⟨known, h₂, -⟩ := h₂
    exact (h₂.ready.emitSubscript hs.settled known).imp (fun r d hd => ⟨hd.1, (h₁.trans h₂).trans hd.2⟩) fun _ _ h => h

theorem Yields.field {object : Option Ty → Compile Ty} (a : Expr) (i : Nat) (ho : ∀ h, Leaves o (object h)) :
    Yields o (do Compile.selectItem a (← object none) i span) := by
  intro c s hc hs hl
  refine (ho none c s hc hs hl).seq fun t c₁ h₁ => ?_
  obtain ⟨known, h₁, -⟩ := h₁
  exact (h₁.ready.selectItem hs.settled known).imp (fun r d hd => ⟨hd.1, h₁.trans hd.2⟩) fun _ _ h => h

/-! ### Lambdas and calls -/

theorem Yields.lambda {decl : FunctionDecl} {body : Option Ty → Compile Ty} (hw : Writes o deferred)
    (hd : decl.isPlain) (hbody : ∀ h, Leaves o (body h)) (expected : Option Ty) :
    Yields o (Compile.pushLambda deferred decl expected body) := by
  intro c s hc hs hl
  refine meets_bind.2 (meets_lift hc.failed fun sg hsg => ?_)
  split
  · exact hc.failed
  next hgen =>
  refine (hc.declareNested hd (Header.signatureAs_spec hsg) hbody s).seq fun i d h => ?_
  obtain ⟨h, hdraft, g, hg, -, bound, hcode⟩ := h
  obtain ⟨bytes, hbytes⟩ := hcode (by simpa using hgen)
  refine meets_bind.2 (meets_here.2 ?_)
  rw [← hdraft] at hg
  have sees := hs.push (u := []) hc h Shape.settled_nil
  exact ((pushes_pushVariable hw).function (f := ⟨d.draft.target.module, i⟩) hw h.ready sees h.ready.reachable hg bound
    (by rw [hbytes]; nofun)).imp (fun t e he => ⟨he.1, h.trans he.2⟩) fun _ _ h => h

theorem Yields.call {callee : Expr} {push lambdaBody : Option Ty → Compile Ty} (hw : Writes o deferred)
    (hplain : callee.isPlain true) (hp : callee.isPlain false → ∀ h, Leaves o (push h))
    (hbody : ∀ h, Leaves o (lambdaBody h)) (ha : Suitable o args) :
    Yields o (Compile.emitCallOf deferred callee push lambdaBody args span) := by
  intro c s hc hs hl
  have core := Expr.isPlain_core hplain
  have value (h : ∀ span, Compile.core callee ≠ .variable Plain.reserved span) :
      Meets (Compile.callValue (Compile.core callee) push args span) c
        (fun t d => t.Known ∧ c.Reaches o (fun _ => none) d s (Shape.ofTy t ++ s)) fun _ => Failed o :=
    hc.callValue ha (hp (Expr.isPlain_of_called hplain h)) hs hl
  unfold Compile.emitCallOf
  split
  · next name nameSpan hcore =>
    refine meets_bind.2 (hc.meets_resolve hs fun meaning hm => ?_)
    have other (hn : name ≠ Plain.reserved) : ∀ span, Compile.core callee ≠ .variable Plain.reserved span :=
      fun _ h => hn (by injection hcore.symm.trans h)
    cases meaning with
    | function f => exact hc.callFunction hw ha hs hl hm
    | stored op offset t => exact value (other hm.1)
    | computed f => exact value (other hm.1)
    | value id index => exact value (other hm.1)
  · next header body lambdaSpan hcore =>
    rw [hcore] at core
    exact hc.callLambda hw ha core hbody hs hl
  · next target _ =>
    exact value fun span h => by simp_all

/-! ### Arguments -/

theorem suitable_nil : Suitable o ⟨[], fun _ => pure []⟩ := fun _ _ s hc _ hl =>
  meets_pure.2 ⟨Ty.allKnown_nil, rfl, trivial, .refl hc _ s, hl⟩

/-- An argument is pushed on top of those that come after it. -/
theorem Suitable.cons {x : Option Ty → Compile Ty} (a : Expr) (hx : ∀ h, Leaves o (x h)) (ha : Suitable o args) :
    Suitable o ⟨a.span :: args.spans, fun params => do
      let ts ← args.push params.tail
      let param := params.headD .unknown
      let t ← x (if param.isUnknown then none else some param)
      if !param.agrees t then Compile.fail (.mismatch param t) a.span
      return t :: ts⟩ := by
  intro params c s hc hs hl
  refine (ha params.tail c s hc hs hl).seq fun ts c₁ h₁ => ?_
  obtain ⟨known, hlen, suits, h₁, level₁⟩ := h₁
  refine (hx _ c₁ _ h₁.ready (hs.push hc h₁ (Shape.settled_ofTys ts)) level₁).seq fun t c₂ h₂ => ?_
  obtain ⟨known', h₂, level₂⟩ := h₂
  dsimp only
  split
  · exact h₂.failed
  · next hagree =>
    rw [← List.append_assoc, ← Shape.ofTys_cons] at h₂ level₂
    exact meets_pure.2 ⟨Ty.allKnown_cons.2 ⟨known', known⟩, by simp [hlen, Arguments.count],
      ⟨by simpa using hagree, suits⟩, h₁.trans h₂, level₂⟩

/-! ### Every expression -/

theorem leaves_void : Leaves o (pure .void) := fun _ s hc _ hl => meets_pure.2 ⟨rfl, .refl hc _ s, hl⟩

section

variable (hw : Writes o deferred)
include hw

mutual

theorem leaves_expr : ∀ {e : Expr}, e.isPlain false → ∀ expected, Leaves o (Compile.expr deferred e expected)
  | .literal v span, _, expected => by
    unfold Compile.expr
    exact Yields.leaving fun c s hc _ _ => hc.pushLiteral
  | .variable name span, h, expected => by
    unfold Compile.expr
    have hn : name ≠ Plain.reserved := by simpa [Expr.isPlain] using h
    exact Yields.leaving fun c s hc hs _ => pushes_pushVariable hw name expected span c s hn hc hs
  | .group e _, h, expected => by
    unfold Compile.expr
    exact leaves_expr (e := e) h expected
  | .binary op a b span, h, expected => by
    unfold Compile.expr
    obtain ⟨ha, hb⟩ : a.isPlain false ∧ b.isPlain false := by simpa [Expr.isPlain] using h
    exact (Yields.binary op a b expected (leaves_expr ha) (leaves_expr hb)).leaving
  | .unary op e span, h, expected => by
    unfold Compile.expr
    exact (Yields.unary op expected (leaves_expr (e := e) h)).leaving
  | .call callee args span, h, expected => by
    unfold Compile.expr
    obtain ⟨hcallee, hargs⟩ : callee.isPlain true ∧ Expr.arePlain args := by simpa [Expr.isPlain] using h
    exact (Yields.call hw hcallee leaves_expr (leaves_lambdaBody hcallee) (suitable_arguments hargs)).leaving
  | .index a b span, h, expected => by
    unfold Compile.expr
    obtain ⟨ha, hb⟩ : a.isPlain false ∧ b.isPlain false := by simpa [Expr.isPlain] using h
    exact (Yields.index a b (leaves_expr ha) (leaves_expr hb)).leaving
  | .field a i span, h, expected => by
    unfold Compile.expr
    exact (Yields.field a i (leaves_expr (e := a) h)).leaving
  | .tuple es _, h, expected => by
    unfold Compile.expr
    exact (heaps_items (show Expr.arePlain es from h) _).tuple.leaving
  | .list es span, h, expected => by
    unfold Compile.expr
    exact ((fills_elements (show Expr.arePlain es from h)).list expected).leaving
  | .lambda header body _, h, expected => by
    unfold Compile.expr
    obtain ⟨hheader, hbody⟩ : header.isPlain ∧ body.isPlain false := by simpa [Expr.isPlain] using h
    exact (Yields.lambda hw (show FunctionDecl.isPlain ⟨header, body⟩ from h) (leaves_expr hbody) expected).leaving
  | .block ss value span, h, expected => by
    unfold Compile.expr
    obtain ⟨hss, hvalue⟩ : Stmt.arePlain ss ∧ Expr.isPlainOption value := by simpa [Expr.isPlain] using h
    exact (Yields.block (places_statements hss) (leaves_optional hvalue) expected span).leaving
  | .cond test yes none _, h, expected => by
    unfold Compile.expr
    obtain ⟨⟨ht, hy⟩, -⟩ : (test.isPlain false ∧ yes.isPlain false) ∧ Expr.isPlainOption none := by
      simpa [Expr.isPlain] using h
    exact (Yields.when test yes (leaves_expr ht) (leaves_expr hy)).leaving
  | .cond test yes (some no) _, h, expected => by
    unfold Compile.expr
    obtain ⟨⟨ht, hy⟩, hn⟩ : (test.isPlain false ∧ yes.isPlain false) ∧ no.isPlain false := by
      simpa [Expr.isPlain, Expr.isPlainOption] using h
    exact (Yields.either test no expected (leaves_expr ht) (leaves_expr hy) (leaves_expr hn)).leaving

theorem leaves_lambdaBody : ∀ {e : Expr}, e.isPlain true → ∀ expected,
    Leaves o (Compile.lambdaBody deferred e expected)
  | .group e _, h, expected => by
    unfold Compile.lambdaBody
    exact leaves_lambdaBody (e := e) h expected
  | .lambda header body _, h, expected => by
    unfold Compile.lambdaBody
    obtain ⟨-, hbody⟩ : header.isPlain ∧ body.isPlain false := by simpa [Expr.isPlain] using h
    exact leaves_expr hbody expected
  | .variable _ _, _, _ | .literal _ _, _, _ | .unary _ _ _, _, _ | .field _ _ _, _, _ | .binary _ _ _ _, _, _
  | .index _ _ _, _, _ | .call _ _ _, _, _ | .tuple _ _, _, _ | .list _ _, _, _ | .block _ _ _, _, _
  | .cond _ _ _ _, _, _ => by
    unfold Compile.lambdaBody
    exact leaves_void

theorem leaves_optional : ∀ {e : Option Expr}, Expr.isPlainOption e → ∀ expected,
    Leaves o (Compile.optional deferred e expected)
  | none, _, _ => by
    unfold Compile.optional
    exact leaves_void
  | some e, h, expected => by
    unfold Compile.optional
    exact leaves_expr (e := e) h expected

theorem suitable_arguments : ∀ {es : List Expr}, Expr.arePlain es →
    Suitable o ⟨es.map Expr.span, Compile.arguments deferred es⟩
  | [], _ => by
    intro params c s
    dsimp only
    unfold Compile.arguments
    exact suitable_nil params c s
  | e :: es, h => by
    obtain ⟨he, hes⟩ : e.isPlain false ∧ Expr.arePlain es := by simpa [Expr.arePlain] using h
    intro params c s
    dsimp only
    unfold Compile.arguments
    exact Suitable.cons e (leaves_expr he) (suitable_arguments hes) params c s

theorem heaps_items : ∀ {es : List Expr}, Expr.arePlain es → ∀ hints, Heaps o (Compile.items deferred es hints)
  | [], _, _ => by
    unfold Compile.items
    exact heaps_nil
  | e :: es, h, hints => by
    unfold Compile.items
    obtain ⟨he, hes⟩ : e.isPlain false ∧ Expr.arePlain es := by simpa [Expr.arePlain] using h
    exact Heaps.cons (leaves_expr he _) (heaps_items hes _)

theorem fills_elements : ∀ {es : List Expr}, Expr.arePlain es → Fills o es.length (Compile.elements deferred es)
  | [], _ => by
    intro elem c s
    unfold Compile.elements
    exact fills_nil elem c s
  | e :: es, h => by
    obtain ⟨he, hes⟩ : e.isPlain false ∧ Expr.arePlain es := by simpa [Expr.arePlain] using h
    intro elem c s helem hc hs hl
    unfold Compile.elements
    cases elem with
    | none =>
      refine (Fills.first (leaves_expr he) (fills_elements hes) hc hs hl).imp (fun r d hd => ?_) fun _ _ h => h
      exact ⟨nofun, hd⟩
    | some t =>
      have known := helem t rfl
      refine (Fills.next e (leaves_expr he) (fills_elements hes) hc hs hl known).imp (fun r d hd => ?_) fun _ _ h => h
      obtain ⟨rfl, u, hd, hu⟩ := hd
      exact ⟨fun _ h => h, u, hd, fun _ h => Option.some.inj h ▸ ⟨known, hu⟩⟩

theorem places_statements : ∀ {ss : List Stmt}, Stmt.arePlain ss → Places o id (Compile.statements deferred ss)
  | [], _ => by
    unfold Compile.statements
    exact places_nil
  | s :: ss, h => by
    unfold Compile.statements
    obtain ⟨hs, hss⟩ : s.isPlain ∧ Stmt.arePlain ss := by simpa [Stmt.arePlain] using h
    exact (places_statement hs).cons (places_statements hss)

theorem places_statement : ∀ {s : Stmt}, s.isPlain → Places o Option.toList (Compile.statement deferred s)
  | .expr e _, h => by
    unfold Compile.statement
    exact Places.discard (leaves_expr (e := e) h) e.span
  | .function header body _, h => by
    unfold Compile.statement
    obtain ⟨hheader, hbody⟩ : header.isPlain ∧ body.isPlain false := by simpa [Stmt.isPlain] using h
    intro c s hc hs hl
    refine meets_bind.2 (meets_lift hc.failed fun sg hsg => ?_)
    exact Places.declare (show FunctionDecl.isPlain ⟨header, body⟩ from h) (Header.signature_spec hsg).1 (leaves_expr hbody)
      c s hc hs hl
  | .bind name written (.lambda header body _) _, h => by
    unfold Compile.statement
    obtain ⟨hn, hheader, hbody⟩ : name ≠ Plain.reserved ∧ header.isPlain ∧ body.isPlain false := by
      simpa [Stmt.isPlain, Expr.isPlain] using h
    intro c s hc hs hl
    refine meets_bind.2 (meets_lift hc.failed fun header' hbind => ?_)
    refine meets_bind.2 (meets_lift hc.failed fun sg hsg => ?_)
    have plain : FunctionDecl.isPlain ⟨header', body⟩ := by
      simp [FunctionDecl.isPlain, Header.isPlain_bindTo hheader hn hbind, hbody]
    exact Places.declare plain (Header.signature_spec hsg).1 (leaves_expr hbody) c s hc hs hl
  | .bind name written (.variable _ _) span, h | .bind name written (.literal _ _) span, h
  | .bind name written (.unary _ _ _) span, h | .bind name written (.field _ _ _) span, h
  | .bind name written (.binary _ _ _ _) span, h | .bind name written (.index _ _ _) span, h
  | .bind name written (.call _ _ _) span, h | .bind name written (.tuple _ _) span, h
  | .bind name written (.list _ _) span, h | .bind name written (.block _ _ _) span, h
  | .bind name written (.cond _ _ _ _) span, h | .bind name written (.group _ _) span, h => by
    unfold Compile.statement
    have plain := (Bool.and_eq_true_iff.1 h)
    exact Places.bind (by simpa using plain.1) (leaves_expr plain.2) span

end

end

/-! ### Functions that wait -/

theorem writes_deferred : ∀ n, Writes o (Compile.writeDeferred n)
  | 0 => fun _ _ _ _ _ h _ => h.good.failed
  | n + 1 => fun c f g decl scope h hd => by
    obtain ⟨hheader, hbody⟩ : decl.header.isPlain ∧ decl.body.isPlain false := by simpa [FunctionDecl.isPlain] using hd
    have params : Plain.reserved ∉ FreeNames.paramNames decl.header := fun hmem => by
      obtain ⟨p, hp, hname⟩ := List.mem_map.1 hmem
      exact (Header.isPlain_iff.1 hheader).2 p hp hname
    exact h.writeFunction params (leaves_expr (writes_deferred n) hbody)

end Compilation

end StackScript
