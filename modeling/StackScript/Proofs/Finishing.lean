import StackScript.Compile.Program
import StackScript.Proofs.Settling

/-!
Expressions, statements and programs settle: whatever is compiled, and whether it succeeds or fails, all modules but the one
that it is compiled into keep what they have.
-/
namespace StackScript

namespace Compilation

variable {l : Library} {α β : Type} {c : Compilation} {span : Span} {t : Ty} {deferred : Deferred}

namespace Settles

/-! ### Literals and operators -/

theorem pushLiteral (v : Literal) (expected : Option Ty) (span : Span) : Settles l (Compile.pushLiteral v expected span) := by
  refine here.bind fun id => (onHeap _).bind fun value => bind ?_ fun i => (emit1 _ _ _).bind fun _ => pure _
  cases v with
  | string s => exact onModule id fun m => m.grows_addValue value
  | _ => exact onModule id fun m => m.grows_internValue value

theorem emitLowering (lowering? : Option Lowering) (sign : String) (t : Ty) (span : Span) :
    Settles l (Compile.emitLowering lowering? sign t span) := by
  unfold Compile.emitLowering
  split
  · exact fail _ _
  · exact emit _
  · exact callNative _ _
  · exact (callNative _ _).bind fun _ => emit _

theorem operandHint (op : BinaryOp) (a b : Expr) (expected : Option Ty) :
    Settles l (Compile.operandHint op a b expected) := by
  refine (hint? a).bind fun x => (hint? b).bind fun y => ?_
  split <;> exact pure _

/-! ### Control flow and blocks -/

theorem branch (test : Expr) (t : Ty) : Settles l (Compile.branch test t) := by
  unfold Compile.branch
  exact guarded ((jump _).bind fun label => (sink 1).bind fun _ => pure label)

/-- A name is bound in the scope of the draft, which is behind all that is kept. -/
theorem bindHere (name : String) (symbol : Symbol) {k : Compile α} (hk : Settles l k) :
    Settles l (Compile.getDraft >>= fun d => Compile.bindIn d.target.module d.scope name symbol >>= fun _ => k) := fun c hc => by
  refine meets_bind.2 (meets_getDraft.2 (meets_bind.2 ((hc.bindIn (fun n hn hid => (hc.fresh n hn hid).2) name symbol).imp
    (fun _ d hd => ?_) fun _ _ h => h)))
  obtain ⟨hd, library, rfl⟩ := hd
  have within : c.Within { c with library := library } := ⟨rfl, rfl, rfl, fun _ h => h, fun _ h => h⟩
  exact (hk _ hd).imp (fun _ _ he => ⟨he.1, within.trans he.2⟩) fun _ _ he => he.before within

theorem bindLocal (name : String) (annotated : Option Ty) (offset : Nat) (t : Ty) (init : Expr) (span : Span) :
    Settles l (Compile.bindLocal name annotated offset t init span) := by
  have bound (t : Ty) : Settles l (if t.isGeneric then Compile.fail (.cannotInfer ("variable '" ++ name ++ "'")) span >>= fun _ =>
        Compile.getDraft >>= fun d => Compile.bindIn d.target.module d.scope name (.slot offset t) >>= fun _ => Pure.pure (offset, t)
      else Compile.getDraft >>= fun d => Compile.bindIn d.target.module d.scope name (.slot offset t) >>= fun _ =>
        Pure.pure (offset, t)) :=
    guarded (k := fun _ => Compile.getDraft >>= fun d => Compile.bindIn d.target.module d.scope name (.slot offset t) >>= fun _ =>
        Pure.pure (offset, t)) (bindHere name _ (pure _))
  unfold Compile.bindLocal
  split
  · exact bound t
  · split
    · exact bound _
    · exact (fail _ _).bind bound

theorem releaseLocals (locals : List (Nat × Ty)) (value : Ty) (span : Span) :
    Settles l (Compile.releaseLocals locals value span) := by
  refine getDraft.bind fun d => (forM (fun p => releaseAt _ _) _).bind fun _ => ?_
  dsimp only
  split
  · exact emit2 _ _ _ _
  · exact pure _

/-- A new scope is behind all scopes that are kept, and the draft comes back to its own. -/
theorem inBlock {x : Compile α} (hx : Settles l x) : Settles l (Compile.inBlock x) := fun c hc => by
  refine meets_bind.2 (meets_getDraft.2 (meets_bind.2 ?_))
  have rest (i : Nat) (library : Library) (hd : ({ c with library := library } : Compilation).Settled l none)
      (behind : ∀ n, l.modules[c.draft.target.module]? = some n → c.draft.target.module ≠ c.module → n.scopes.size ≤ i) :
      Meets (Compile.modifyDraft (fun d => { d with scope := i }) >>= fun _ => x >>= fun a =>
          Compile.modifyDraft (fun e => { e with scope := c.draft.scope }) >>= fun _ => Pure.pure a)
        { c with library := library } (fun _ e => e.Settled l none ∧ c.Within e)
        fun e d => Spoiled l c c.draft.target.module e d := by
    have opened : ({ c with library := library, draft := { c.draft with scope := i } } : Compilation).Settled l none :=
      ⟨hd.grows, hd.instantiates, hd.undefined, fun n hn hid => ⟨(hc.fresh n hn hid).1, behind n hn hid⟩⟩
    refine meets_bind.2 (meets_modify.2 (meets_bind.2 ((hx _ opened).imp (fun a e he => ?_) fun _ _ he =>
      ⟨he.grows, he.instantiates, he.undefined⟩)))
    obtain ⟨he, w⟩ := he
    refine meets_bind.2 (meets_modify.2 ⟨⟨he.grows, he.instantiates, he.undefined, fun n hn hid => ?_⟩, w.module, w.target, rfl,
      w.unfinished, w.pending⟩)
    change l.modules[e.draft.target.module]? = some n at hn
    change e.draft.target.module ≠ e.module at hid
    rw [w.target] at hn hid
    change n.functions.size ≤ e.draft.target.index ∧ _
    rw [w.target]
    exact hc.fresh n hn (w.module ▸ hid)
  cases hm : c.library.modules[c.draft.target.module]? with
  | none =>
    unfold Compile.addScope Compile.onModule Meets Library.update
    simp only [hm]
    refine rest _ c.library hc fun n hn hid => ?_
    have inside := (Array.getElem?_eq_some_iff.1 hn).1
    rw [← hc.grows.size] at inside
    rw [Array.getElem?_eq_getElem inside] at hm
    cases hm
  | some m =>
    exact (meets_onModule hm).2 (rest _ _ (hc.grow hm (m.grows_addScope _ _ _)) fun n hn hid => (hc.sizes hm n hn hid).2)

/-! ### Tuples and lists -/

theorem selectItem (object : Expr) (t : Ty) (i : Nat) (span : Span) : Settles l (Compile.selectItem object t i span) := by
  unfold Compile.selectItem
  split
  · split
    · exact fail _ _
    · next item _ =>
      refine (releaseAt _ _).bind fun _ => ?_
      dsimp only
      have last (n : Nat) : Settles l (if 0 < n then Compile.emit2 .drop item.size n span >>= fun _ => Pure.pure item
          else Pure.pure item) := by
        split
        · exact (emit2 _ _ _ _).bind fun _ => pure _
        · exact pure _
      split
      · exact (emit2 _ _ _ _).bind fun _ => last _
      · exact last _
  · exact fail _ _

theorem emitSubscript (object : Expr) (t : Ty) (span : Span) : Settles l (Compile.emitSubscript object t span) := by
  unfold Compile.emitSubscript
  split
  · exact fail _ _
  · exact guarded ((typeOperand _).bind fun _ => (emit1 _ _ _).bind fun _ => pure _)

theorem emitList (count : Nat) (elem : Option Ty) (span : Span) : Settles l (Compile.emitList count elem span) := by
  unfold Compile.emitList
  split
  · exact fail _ _
  · exact (typeOperand _).bind fun _ => (emit2 _ _ _ _).bind fun _ => pure _

/-! ### Expressions -/

section

variable (hl : l.Instantiates) (hw : Finishes l deferred)
include hl hw

theorem pushLambda (decl : FunctionDecl) (expected : Option Ty) {body : Option Ty → Compile Ty}
    (hbody : ∀ t, Settles l (body t)) : Settles l (Compile.pushLambda deferred decl expected body) :=
  (lift _).bind fun s => guarded ((declareNested decl s hbody).bind fun _ => here.bind fun _ =>
    pushFunction hl hw (pushVariable hl hw) _ _ _)

theorem emitCallOf (callee : Expr) {push lambdaBody : Option Ty → Compile Ty} (hp : ∀ t, Settles l (push t))
    (hb : ∀ t, Settles l (lambdaBody t)) {args : Compile.Arguments} (ha : ∀ ts, Settles l (args.push ts)) (span : Span) :
    Settles l (Compile.emitCallOf deferred callee push lambdaBody args span) := by
  unfold Compile.emitCallOf
  split
  · refine (resolve _ _).bind fun meaning => ?_
    split
    · exact callFunction hl hw _ ha span
    · exact callValue _ hp ha span
  · exact callLambda hl hw _ hb ha span
  · exact callValue _ hp ha span

mutual

theorem expr : ∀ (e : Expr) (expected : Option Ty), Settles l (Compile.expr deferred e expected)
  | .literal v span, expected => by
    unfold Compile.expr
    exact (pushLiteral v expected span).leaving
  | .variable name span, expected => by
    unfold Compile.expr
    exact (pushVariable hl hw name expected span).leaving
  | .group e _, expected => by
    unfold Compile.expr
    exact expr e expected
  | .binary op a b span, expected => by
    unfold Compile.expr
    exact leaving <| (operandHint op a b expected).bind fun hint => (expr b hint).bind fun r => (expr a (some r)).bind fun t =>
      guarded ((emitLowering _ _ _ _).bind fun _ => pure _)
  | .unary op e span, expected => by
    unfold Compile.expr
    exact leaving <| (expr e expected).bind fun t => (emitLowering _ _ _ _).bind fun _ => pure _
  | .call callee args span, _ => by
    unfold Compile.expr
    exact leaving (emitCallOf hl hw callee (expr callee) (lambdaBody callee) (fun ts => arguments args ts) span)
  | .index object position span, _ => by
    unfold Compile.expr
    exact leaving <| (expr position (some .int32)).bind fun t => guarded ((expr object none).bind fun u =>
      emitSubscript object u span)
  | .field object i span, _ => by
    unfold Compile.expr
    exact leaving <| (expr object none).bind fun t => selectItem object t i span
  | .tuple es _, expected => by
    unfold Compile.expr
    exact leaving <| (items es _).bind fun ts => pure _
  | .list es span, expected => by
    unfold Compile.expr
    exact leaving <| (elements es _).bind fun elem => emitList es.length elem span
  | .lambda h body _, expected => by
    unfold Compile.expr
    exact leaving (pushLambda hl hw ⟨h, body⟩ expected (expr body))
  | .block ss value span, expected => by
    unfold Compile.expr
    exact leaving <| inBlock <| (statements ss).bind fun locals => (optional value expected).bind fun t =>
      (releaseLocals locals t span).bind fun _ => pure t
  | .cond test yes none _, _ => by
    unfold Compile.expr
    exact leaving <| (expr test (some .bool)).bind fun t => (branch test t).bind fun skip => (expr yes none).bind fun u =>
      (discard u yes.span).bind fun _ => (bindLabel skip).bind fun _ => pure _
  | .cond test yes (some no) _, expected => by
    unfold Compile.expr
    exact leaving <| (expr test (some .bool)).bind fun t => (branch test t).bind fun other => getDraft.bind fun d =>
      (expr yes expected).bind fun u => (jump _).bind fun fin => (bindLabel other).bind fun _ => (setDepth _).bind fun _ =>
        (expr no (some u)).bind fun v => guarded ((bindLabel fin).bind fun _ => pure _)

theorem lambdaBody : ∀ (e : Expr) (expected : Option Ty), Settles l (Compile.lambdaBody deferred e expected)
  | .group e _, expected => by
    unfold Compile.lambdaBody
    exact lambdaBody e expected
  | .lambda h body _, expected => by
    unfold Compile.lambdaBody
    exact expr body expected
  | .variable _ _, _ | .literal _ _, _ | .unary _ _ _, _ | .field _ _ _, _ | .binary _ _ _ _, _ | .index _ _ _, _
  | .call _ _ _, _ | .tuple _ _, _ | .list _ _, _ | .block _ _ _, _ | .cond _ _ _ _, _ => by
    unfold Compile.lambdaBody
    exact pure _

theorem optional : ∀ (e : Option Expr) (expected : Option Ty), Settles l (Compile.optional deferred e expected)
  | none, _ => by
    unfold Compile.optional
    exact pure _
  | some e, expected => by
    unfold Compile.optional
    exact expr e expected

theorem arguments : ∀ (es : List Expr) (params : List Ty), Settles l (Compile.arguments deferred es params)
  | [], _ => by
    unfold Compile.arguments
    exact pure _
  | e :: es, params => by
    unfold Compile.arguments
    exact (arguments es _).bind fun ts => (expr e _).bind fun t => guarded (pure _)

theorem items : ∀ (es : List Expr) (hints : List Ty), Settles l (Compile.items deferred es hints)
  | [], _ => by
    unfold Compile.items
    exact pure _
  | e :: es, hints => by
    unfold Compile.items
    exact (expr e _).bind fun t => (items es _).bind fun ts => pure _

theorem elements : ∀ (es : List Expr) (elem : Option Ty), Settles l (Compile.elements deferred es elem)
  | [], _ => by
    unfold Compile.elements
    exact pure _
  | e :: es, none => by
    unfold Compile.elements
    exact (expr e none).bind fun t => elements es (some t)
  | e :: es, some elem => by
    unfold Compile.elements
    exact (expr e (some elem)).bind fun t => guarded (elements es (some elem))

theorem statements : ∀ ss : List Stmt, Settles l (Compile.statements deferred ss)
  | [] => by
    unfold Compile.statements
    exact pure _
  | s :: ss => by
    unfold Compile.statements
    exact (statement s).bind fun here => (statements ss).bind fun rest => pure _

theorem statement : ∀ s : Stmt, Settles l (Compile.statement deferred s)
  | .expr e _ => by
    unfold Compile.statement
    exact (expr e none).bind fun t => (discard t e.span).bind fun _ => pure _
  | .function h body _ => by
    unfold Compile.statement
    exact (lift _).bind fun s => (declareNested ⟨h, body⟩ s (expr body)).bind fun _ => pure _
  | .bind name written (.lambda h body _) _ => by
    unfold Compile.statement
    exact (lift _).bind fun h => (lift _).bind fun s => (declareNested ⟨h, body⟩ s (expr body)).bind fun _ => pure _
  | .bind name written (.variable _ _) span | .bind name written (.literal _ _) span
  | .bind name written (.unary _ _ _) span | .bind name written (.field _ _ _) span
  | .bind name written (.binary _ _ _ _) span | .bind name written (.index _ _ _) span
  | .bind name written (.call _ _ _) span | .bind name written (.tuple _ _) span
  | .bind name written (.list _ _) span | .bind name written (.block _ _ _) span
  | .bind name written (.cond _ _ _ _) span | .bind name written (.group _ _) span => by
    unfold Compile.statement
    exact (lift _).bind fun annotated => getDraft.bind fun d => (expr _ annotated).bind fun t =>
      (bindLocal name annotated _ t _ span).bind fun x => pure _

end

end

end Settles

/-- Bodies are written to any depth that is allowed. -/
theorem finishes_deferred (hl : l.Instantiates) : ∀ n, Finishes l (Compile.writeDeferred n)
  | 0 => fun _ _ _ _ hc _ => hc.spoiled_but _
  | n + 1 => fun _ _ decl _ hc new => hc.writeFunction new (Settles.expr hl (finishes_deferred hl n) decl.body) _ _ _ _

/-! ### Programs -/

/-- All modules but the one that receives the program are kept, whatever becomes of it. -/
structure Conserves (l : Library) (k : Nat) (d : Compilation) : Prop where
  grows : l.Grows d.library k
  instantiates : d.library.Instantiates

/-- Nothing is left to be written by a program that compiles. -/
structure Finished (l : Library) (k : Nat) (d : Compilation) : Prop extends Conserves l k d where
  undefined : ∀ f, d.library.Undefined f → l.Undefined f

/-- What a failure leaves unwritten is in the module that receives the program, unless an instance failed. -/
structure Abandons (l : Library) (k : Nat) (e : CompileError) (d : Compilation) : Prop extends Conserves l k d where
  undefined : e.isInstantiation ∨ ∀ f, d.library.Undefined f → l.Undefined f ∨ f.module = k

/-- No function is being written, and the draft is one of the module that receives the program. -/
structure Idle (l : Library) (k : Nat) (c : Compilation) : Prop where
  settled : c.Settled l none
  module : c.module = k
  target : c.draft.target.module = k
  unfinished : c.unfinished = []

variable {k : Nat} {d : Compilation}

theorem Spoiled.abandons {e : CompileError} (h : Spoiled l c k e d) (module : c.module = k) (unfinished : c.unfinished = []) :
    Abandons l k e d := by
  refine ⟨⟨module ▸ h.grows, h.instantiates⟩, h.undefined.imp_right fun hu f hf => (hu f hf).imp_right fun there => ?_⟩
  rcases there with here | here | begun
  · exact here.trans module
  · exact here
  · rw [unfinished] at begun
    cases begun

theorem Idle.abandons (h : c.Idle l k) (e : CompileError) : Abandons l k e c :=
  (h.settled.spoiled k e).abandons h.module h.unfinished

theorem Idle.within (h : c.Idle l k) (hd : d.Settled l none) (w : c.Within d) : d.Idle l k :=
  ⟨hd, w.module.trans h.module, (congrArg FunctionRef.module w.target).trans h.target,
    List.eq_nil_iff_forall_not_mem.2 fun f hf => by
      have begun := w.unfinished f hf
      rw [h.unfinished] at begun
      cases begun⟩

theorem Settles.idle {x : Compile α} (h : Settles l x) (hc : c.Idle l k) :
    Meets x c (fun _ d => d.Idle l k ∧ c.Within d) (Abandons l k) :=
  (h c hc.settled).imp (fun _ _ hd => ⟨hc.within hd.1 hd.2, hd.2⟩) fun _ _ hd =>
    (hc.target ▸ hd : Spoiled l c k _ _).abandons hc.module hc.unfinished

/-- A declaration of the program is entered into its module. -/
def Enters (l : Library) (k : Nat) (x : Compile PUnit) : Prop :=
  ∀ c : Compilation, c.Idle l k → Meets x c (fun _ d => d.Idle l k) (Abandons l k)

theorem Settles.enters {x : Compile PUnit} (h : Settles l x) : Enters l k x := fun _ hc =>
  (h.idle hc).imp (fun _ _ hd => hd.1) fun _ _ hd => hd

/-- A name of the module that is compiled is bound. -/
theorem Idle.bindRoot (h : c.Idle l k) (name : String) (symbol : Symbol) {bad : CompileError → Compilation → Prop} :
    Meets (Compile.bindIn k ScopeTable.root name symbol) c (fun _ d => d.Idle l k) bad :=
  (h.settled.bindIn (fun _ _ other => absurd h.module.symm other) name symbol).imp (fun _ d hd => by
    obtain ⟨hd, library, rfl⟩ := hd
    exact ⟨hd, h.module, h.target, h.unfinished⟩) fun _ _ h => h

/-- A function of the program waits until all are declared. -/
theorem Settled.enqueue {i : Nat} (h : c.Settled l (some ⟨k, i⟩)) (module : c.module = k) (decl : FunctionDecl) :
    ({ c with pending := c.pending ++ [(i, decl)] } : Compilation).Settled l none := by
  refine ⟨h.grows, h.instantiates, fun f hf => ?_, h.fresh⟩
  rcases h.undefined f hf with (⟨hk, p, hp, e⟩ | hu) | e | hl
  · exact .inl (.inl ⟨hk, p, List.mem_append_left _ hp, e⟩)
  · exact .inl (.inr hu)
  · obtain rfl := Option.some.inj e
    exact .inl (.inl ⟨module.symm, (i, decl), List.mem_append_right _ (.head _), rfl⟩)
  · exact .inr (.inr hl)

theorem enters_declareFunction (decl : FunctionDecl) : Enters l k (Compile.declareFunction decl) := fun c hc => by
  unfold Compile.declareFunction
  refine meets_bind.2 (meets_get.2 (meets_bind.2 (meets_lifted (fun s _ => ?_) fun _ => hc.abandons _)))
  obtain rfl := hc.module
  dsimp only
  cases generic : s.isGeneric with
  | true =>
    refine (hc.settled.addWritten c.module (by simp)).seq fun i d hd => ?_
    obtain ⟨hd, library, rfl⟩ := hd
    exact Idle.bindRoot ⟨hd, rfl, hc.target, hc.unfinished⟩ _ _
  | false =>
    refine (hc.settled.declare c.module _).seq fun i d hd => ?_
    obtain ⟨hd, -, library, rfl⟩ := hd
    have idle := hd.enqueue rfl decl
    exact meets_bind.2 (meets_modify.2 (Idle.bindRoot ⟨idle, rfl, hc.target, hc.unfinished⟩ _ _))

theorem enters_declareComputed (name : String) (written : Option TypeExpr) (init : Expr) (span : Span) :
    Enters l k (Compile.declareComputed name written init span) := fun c hc => by
  unfold Compile.declareComputed
  refine meets_bind.2 (meets_get.2 (meets_bind.2 (meets_lifted (fun result _ => ?_) fun _ => hc.abandons _)))
  obtain rfl := hc.module
  refine (hc.settled.declare c.module _).seq fun i d hd => ?_
  obtain ⟨hd, -, library, rfl⟩ := hd
  have idle := hd.enqueue rfl ⟨⟨name, [], written, span⟩, init⟩
  exact meets_bind.2 (meets_modify.2 (Idle.bindRoot ⟨idle, rfl, hc.target, hc.unfinished⟩ _ _))

theorem enters_declareLiteral (name : String) (v : Literal) (written : Option TypeExpr) (span : Span) :
    Enters l k (Compile.declareLiteral name v written span) := fun c hc => by
  unfold Compile.declareLiteral
  refine meets_bind.2 (meets_get.2 (meets_bind.2 (meets_lifted (fun expected _ => meets_bind.2 ?_) fun _ => hc.abandons _)))
  obtain rfl := hc.module
  refine ((Settles.onHeap (v.adapt expected).value).idle hc).imp (fun value d hd => ?_) fun _ _ h => h
  obtain ⟨hd, -⟩ := hd
  have bound : Meets (Compile.addValue c.module value >>= fun i => Compile.bindIn c.module ScopeTable.root name (.value i)) d
      (fun _ e => e.Idle l c.module) (Abandons l c.module) :=
    ((Settles.addValue c.module value).idle hd).seq fun i e he => he.1.bindRoot _ _
  dsimp only
  split
  · split
    · exact ((Settles.onHeap value.decref).idle hd).seq fun _ e he => meets_bind.2 (he.1.abandons _)
    · exact bound
  · exact bound

theorem enters_declare : ∀ s : Stmt, Enters l k (Compile.declare s)
  | .expr _ _ => (Settles.pure _).enters
  | .function h body _ => enters_declareFunction ⟨h, body⟩
  | .bind _ _ (.lambda _ body _) _ => fun c hc =>
    meets_bind.2 (meets_lifted (fun h _ => enters_declareFunction ⟨h, body⟩ c hc) fun _ => hc.abandons _)
  | .bind name written (.literal v span) _ => enters_declareLiteral name v written span
  | .bind _ _ (.variable _ _) _ | .bind _ _ (.unary _ _ _) _ | .bind _ _ (.field _ _ _) _
  | .bind _ _ (.binary _ _ _ _) _ | .bind _ _ (.index _ _ _) _ | .bind _ _ (.call _ _ _) _
  | .bind _ _ (.tuple _ _) _ | .bind _ _ (.list _ _) _ | .bind _ _ (.block _ _ _) _
  | .bind _ _ (.cond _ _ _ _) _ | .bind _ _ (.group _ _) _ => enters_declareComputed _ _ _ _

theorem Settles.finishStatement (invoked : Bool) (t : Ty) (span : Span) :
    Settles l (Compile.finishStatement invoked t span) := by
  unfold Compile.finishStatement
  split
  · split
    · exact (typeOperand t).bind fun _ => (emit1 _ _ _).bind fun _ => sink _
    · exact discard t span
  · exact pure _

/-- All declared functions are written, and none pends any more. -/
theorem Idle.ensureAll (hl : l.Instantiates) (hc : c.Idle l k) :
    Meets ((c.pending.map (·.1)).forM fun i => Compile.ensureWritten (Compile.writeDeferred Compile.nestingLimit) ⟨k, i⟩) c
      (fun _ d => d.Idle l k ∧ d.pending = []) (Abandons l k) := by
  refine (Meets.forM (fun left d => d.Idle l k ∧ ∀ p ∈ d.pending, p.1 ∈ left) (fun i left d hd => ?_) _ c
    ⟨hc, fun p hp => List.mem_map_of_mem hp⟩).imp (fun _ d hd => ⟨hd.1, ?_⟩) fun _ _ h => h
  · obtain ⟨hd, among⟩ := hd
    refine (hd.settled.ensureWritten (finishes_deferred hl _)).imp (fun _ e he => ?_) fun _ u hu => ?_
    · obtain ⟨he, w, gone⟩ := he
      refine ⟨hd.within he w, fun p hp => ?_⟩
      exact (List.mem_cons.1 (among p (w.pending p hp))).resolve_left (gone hd.module.symm p hp)
    · rw [hd.target] at hu
      exact hu.abandons hd.module hd.unfinished
  · exact List.eq_nil_iff_forall_not_mem.2 fun p hp => nomatch hd.2 p hp

theorem Idle.finished (h : c.Idle l k) (written : c.pending = []) : Finished l k c := by
  refine ⟨⟨h.module ▸ h.settled.grows, h.settled.instantiates⟩, fun f hf => ?_⟩
  rcases h.settled.undefined f hf with (⟨-, p, hp, -⟩ | begun) | e | before
  · rw [written] at hp
    cases hp
  · rw [h.unfinished] at begun
    cases begun
  · cases e
  · exact before

theorem Idle.writeMain (hl : l.Instantiates) (hc : c.Idle l k) (written : c.pending = []) (invoked : Bool) (p : Program) :
    Meets (Compile.writeMain invoked p) c (fun _ d => Finished l k d) (Abandons l k) := by
  unfold Compile.writeMain
  obtain rfl := hc.module
  refine meets_bind.2 (meets_get.2 ((hc.settled.declare c.module _).seq fun i d hd => ?_))
  obtain ⟨hd, new, library, rfl⟩ := hd
  refine meets_bind.2 ((hd.writeFunction new (fun _ => ?_) _ _ _ _).imp (fun _ e he => ?_) fun _ _ h =>
    h.abandons rfl hc.unfinished)
  · refine (Settles.forM (fun s => ?_) _).bind fun _ => Settles.optional hl (finishes_deferred hl _) _ _
    split
    · exact (Settles.expr hl (finishes_deferred hl _) _ _).bind fun t => .finishStatement _ _ _
    · exact .pure _
  · obtain ⟨he, w⟩ := he
    have idle : e.Idle l c.module := hc.within he ⟨w.module, w.target, w.scope, w.unfinished, w.pending⟩
    exact idle.finished (List.eq_nil_iff_forall_not_mem.2 fun p hp => by
      have pends : p ∈ c.pending := w.pending p hp
      rw [written] at pends
      cases pends)

/-- A program is compiled into one module, and the others are kept. -/
theorem Idle.program (hl : l.Instantiates) (hc : c.Idle l k) (invoked : Bool) (p : Program) :
    Meets (Compile.program invoked p) c (fun _ d => Finished l k d) (Abandons l k) := by
  unfold Compile.program
  refine meets_bind.2 (meets_get.2 (meets_bind.2 ?_))
  have declared : Meets (p.statements.forM Compile.declare) c (fun _ d => d.Idle l k) (Abandons l k) :=
    Meets.forM (fun _ d => d.Idle l k) (fun s _ d hd => enters_declare s d hd) _ c hc
  refine declared.imp (fun _ d hd => meets_bind.2 (meets_get.2 ?_)) fun _ _ h => h
  rw [hc.module]
  exact (hd.ensureAll hl).seq fun _ e he => he.1.writeMain hl he.2 invoked p

end Compilation

end StackScript
