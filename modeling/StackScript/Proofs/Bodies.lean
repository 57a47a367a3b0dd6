import StackScript.Proofs.Installing
import StackScript.Proofs.Operators

/-!
Expressions, statements and programs are compiled to whole instructions that name what is there.
-/
namespace StackScript

variable {l : Library} {k : Nat} {span : Span} {t : Ty} {deferred : Deferred}

namespace Compile

namespace Forms

/-! ### Literals and operators -/

theorem pushLiteral (v : Literal) (expected : Option Ty) (span : Span) :
    Forms l k (Compile.pushLiteral v expected span) Any := by
  refine here.bind fun id l' _ e => (onHeap _).seq fun value => ?_
  subst e
  refine bind (?_ : Forms l' id _ fun i l'' => ∀ m, l''.modules[id]? = some m → i < m.values.size) fun i _ _ hi =>
    (loadStatic hi).seq fun _ => done _
  cases v with
  | string s =>
    exact onModule id (fun m => m.widens_addValue value) (fun _ _ hg => .inl hg) (P := fun i m => i < m.values.size)
      fun m => m.size_addValue value
  | _ =>
    exact onModule id (fun m => (m.widens_internValue value).1) (fun m g hg => .inl ((m.widens_internValue value).2.1 ▸ hg))
      (P := fun i m => i < m.values.size) fun m => (m.widens_internValue value).2.2

theorem callNative (n : Native) (span : Span) : Forms l k (Compile.callNative n span) Any := by
  refine get fun c _ _ _ => ?_
  dsimp only
  split
  · exact fail _ _
  · split
    · exact fail _ _
    · exact emitCall _ _

theorem emitLowering {ts : List Ty} {r : Ty} {lowering? : Option Lowering}
    (h : ∀ l, lowering? = some l → l.Lowers ts r) (sign : String) (t : Ty) (span : Span) :
    Forms l k (Compile.emitLowering lowering? sign t span) Any := by
  unfold Compile.emitLowering
  split
  · exact fail _ _
  · exact emit (h _ rfl).1
  · exact callNative _ _
  · exact (callNative _ _).seq fun _ => emit rfl

theorem operandHint (op : BinaryOp) (a b : Expr) (expected : Option Ty) :
    Forms l k (Compile.operandHint op a b expected) Any := by
  refine (hint? a).seq fun x => (hint? b).seq fun y => ?_
  split <;> exact done _

/-! ### Control flow and blocks -/

theorem branch (test : Expr) (t : Ty) : Forms l k (Compile.branch test t) Any := by
  unfold Compile.branch
  exact guarded fun _ => (jump rfl).seq fun label => (sink 1).seq fun _ => done label

theorem bindLocal (name : String) (annotated : Option Ty) (offset : Nat) (t : Ty) (init : Expr) (span : Span) :
    Forms l k (Compile.bindLocal name annotated offset t init span) Any := by
  have bound (t : Ty) : Forms l k (if t.isGeneric then Compile.fail (.cannotInfer ("variable '" ++ name ++ "'")) span >>= fun _ =>
        Compile.getDraft >>= fun d => Compile.bindIn d.target.module d.scope name (.slot offset t) >>= fun _ => Pure.pure (offset, t)
      else Compile.getDraft >>= fun d => Compile.bindIn d.target.module d.scope name (.slot offset t) >>= fun _ =>
        Pure.pure (offset, t)) Any :=
    guarded (y := fun _ => Compile.getDraft >>= fun d => Compile.bindIn d.target.module d.scope name (.slot offset t) >>= fun _ =>
        Pure.pure (offset, t)) fun _ => getDraft.seq fun d => (bindIn _ _ _ _).seq fun _ => done _
  unfold Compile.bindLocal
  split
  · exact bound t
  · split
    · exact bound _
    · exact (fails _ _).seq bound

theorem releaseLocals (locals : List (Nat × Ty)) (value : Ty) (span : Span) :
    Forms l k (Compile.releaseLocals locals value span) Any := by
  refine getDraft.seq fun d => (forM (fun p => releaseAt _ _) _).seq fun _ => ?_
  dsimp only
  split
  · exact drop _ _ _
  · exact done _

theorem setScope (i : Nat) : Forms l k (Compile.modifyDraft fun d => { d with scope := i }) Any :=
  modifyDraft (fun _ => rfl) fun _ => rfl

theorem inBlock {α : Type} {x : Compile α} (hx : Forms l k x Any) : Forms l k (Compile.inBlock x) Any :=
  getDraft.seq fun d => (addScope _ _ _ _).seq fun i => (setScope i).seq fun _ => hx.seq fun a =>
    (setScope d.scope).seq fun _ => done a

/-! ### Tuples and lists -/

theorem selectItem (object : Expr) (t : Ty) (i : Nat) (span : Span) :
    Forms l k (Compile.selectItem object t i span) Any := by
  unfold Compile.selectItem
  split
  · split
    · exact fail _ _
    · next item _ =>
      refine (releaseAt _ _).seq fun _ => ?_
      dsimp only
      have last (n : Nat) : Forms l k (if 0 < n then Compile.emit2 .drop item.size n span >>= fun _ => Pure.pure item
          else Pure.pure item) Any := by
        split
        · exact (drop _ _ _).seq fun _ => done _
        · exact done _
      split
      · exact (drop _ _ _).seq fun _ => last _
      · exact last _
  · exact fail _ _

theorem emitSubscript (object : Expr) (t : Ty) (span : Span) : Forms l k (Compile.emitSubscript object t span) Any := by
  unfold Compile.emitSubscript
  split
  · exact fail _ _
  · next elem _ =>
    exact guarded fun _ => (typeOperand elem).bind fun _ _ _ hi => (subscript hi).seq fun _ => done _

theorem emitList (count : Nat) (elem : Option Ty) (span : Span) : Forms l k (Compile.emitList count elem span) Any := by
  unfold Compile.emitList
  split
  · exact fail _ _
  · next elem => exact (typeOperand elem).bind fun _ _ _ hi => (makeList hi).seq fun _ => done _

/-! ### Expressions -/

section

variable (hw : Installs deferred)
include hw

theorem pushLambda (decl : FunctionDecl) (expected : Option Ty) {body : Option Ty → Compile Ty}
    (hbody : ∀ t l k, Forms l k (body t) Any) : Forms l k (Compile.pushLambda deferred decl expected body) Any :=
  (lift _).seq fun s => guarded fun _ => (declareNested decl s hbody).seq fun _ => here.forget.seq fun _ =>
    pushFunction hw (fun _ _ _ _ => pushVariable hw _ _ _) _ _ _

theorem emitCallOf (callee : Expr) {push lambdaBody : Option Ty → Compile Ty} (hp : ∀ t l k, Forms l k (push t) Any)
    (hb : ∀ t l k, Forms l k (lambdaBody t) Any) {args : Compile.Arguments} (ha : ∀ ts l, Forms l k (args.push ts) Any)
    (span : Span) : Forms l k (Compile.emitCallOf deferred callee push lambdaBody args span) Any := by
  unfold Compile.emitCallOf
  split
  · next name nameSpan h =>
    refine (resolve name nameSpan).seq fun meaning => ?_
    split
    · exact callFunction hw _ ha span
    · exact callValue _ (fun t => hp t l k) ha span
  · exact callLambda hw _ hb ha span
  · exact callValue _ (fun t => hp t l k) ha span

mutual

theorem expr : ∀ (e : Expr) (expected : Option Ty) (l : Library) (k : Nat), Forms l k (Compile.expr deferred e expected) Any
  | .literal v span, expected, l, k => by
    unfold Compile.expr
    exact (pushLiteral v expected span).leaving
  | .variable name span, expected, l, k => by
    unfold Compile.expr
    exact (pushVariable hw name expected span).leaving
  | .group e _, expected, l, k => by
    unfold Compile.expr
    exact expr e expected l k
  | .binary op a b span, expected, l, k => by
    unfold Compile.expr
    exact leaving <| (operandHint op a b expected).seq fun hint => (expr b hint l k).seq fun r => (expr a (some r) l k).seq fun t =>
      guarded fun _ => (emitLowering (fun _ => BinaryOp.lowers) _ _ _).seq fun _ => done _
  | .unary op e span, expected, l, k => by
    unfold Compile.expr
    exact leaving <| (expr e expected l k).seq fun t =>
      (emitLowering (fun _ => UnaryOp.lowers) _ _ _).seq fun _ => done _
  | .call callee args span, _, l, k => by
    unfold Compile.expr
    exact leaving (emitCallOf hw callee (expr callee) (lambdaBody callee) (fun ts l => arguments args ts l k) span)
  | .index object position span, _, l, k => by
    unfold Compile.expr
    exact leaving <| (expr position (some .int32) l k).seq fun t => guarded fun _ => (expr object none l k).seq fun u =>
      emitSubscript object u span
  | .field object i span, _, l, k => by
    unfold Compile.expr
    exact leaving <| (expr object none l k).seq fun t => selectItem object t i span
  | .tuple es _, expected, l, k => by
    unfold Compile.expr
    exact leaving <| (items es _ l k).seq fun ts => done _
  | .list es span, expected, l, k => by
    unfold Compile.expr
    exact leaving <| (elements es _ l k).seq fun elem => emitList es.length elem span
  | .lambda h body _, expected, l, k => by
    unfold Compile.expr
    exact leaving (pushLambda hw ⟨h, body⟩ expected (expr body))
  | .block ss value span, expected, l, k => by
    unfold Compile.expr
    exact leaving <| inBlock <| (statements ss l k).seq fun locals => (optional value expected l k).seq fun t =>
      (releaseLocals locals t span).seq fun _ => done t
  | .cond test yes none _, _, l, k => by
    unfold Compile.expr
    exact leaving <| (expr test (some .bool) l k).seq fun t => (branch test t).seq fun skip => (expr yes none l k).seq fun u =>
      (discard u yes.span).seq fun _ => (bindLabel skip).seq fun _ => done _
  | .cond test yes (some no) _, expected, l, k => by
    unfold Compile.expr
    exact leaving <| (expr test (some .bool) l k).seq fun t => (branch test t).seq fun other => getDraft.seq fun d =>
      (expr yes expected l k).seq fun u => (jump rfl).seq fun fin => (bindLabel other).seq fun _ => (setDepth _).seq fun _ =>
        (expr no (some u) l k).seq fun v => guarded fun _ => (bindLabel fin).seq fun _ => done _

theorem lambdaBody : ∀ (e : Expr) (expected : Option Ty) (l : Library) (k : Nat),
    Forms l k (Compile.lambdaBody deferred e expected) Any
  | .group e _, expected, l, k => by
    unfold Compile.lambdaBody
    exact lambdaBody e expected l k
  | .lambda h body _, expected, l, k => by
    unfold Compile.lambdaBody
    exact expr body expected l k
  | .variable _ _, _, _, _ | .literal _ _, _, _, _ | .unary _ _ _, _, _, _ | .field _ _ _, _, _, _ | .binary _ _ _ _, _, _, _
  | .index _ _ _, _, _, _ | .call _ _ _, _, _, _ | .tuple _ _, _, _, _ | .list _ _, _, _, _ | .block _ _ _, _, _, _
  | .cond _ _ _ _, _, _, _ => by
    unfold Compile.lambdaBody
    exact done _

theorem optional : ∀ (e : Option Expr) (expected : Option Ty) (l : Library) (k : Nat),
    Forms l k (Compile.optional deferred e expected) Any
  | none, _, _, _ => by
    unfold Compile.optional
    exact done _
  | some e, expected, l, k => by
    unfold Compile.optional
    exact expr e expected l k

theorem arguments : ∀ (es : List Expr) (params : List Ty) (l : Library) (k : Nat),
    Forms l k (Compile.arguments deferred es params) Any
  | [], _, _, _ => by
    unfold Compile.arguments
    exact done _
  | e :: es, params, l, k => by
    unfold Compile.arguments
    exact (arguments es _ l k).seq fun ts => (expr e _ l k).seq fun t => guarded fun _ => done _

theorem items : ∀ (es : List Expr) (hints : List Ty) (l : Library) (k : Nat), Forms l k (Compile.items deferred es hints) Any
  | [], _, _, _ => by
    unfold Compile.items
    exact done _
  | e :: es, hints, l, k => by
    unfold Compile.items
    exact (expr e _ l k).seq fun t => (items es _ l k).seq fun ts => done _

theorem elements : ∀ (es : List Expr) (elem : Option Ty) (l : Library) (k : Nat),
    Forms l k (Compile.elements deferred es elem) Any
  | [], _, _, _ => by
    unfold Compile.elements
    exact done _
  | e :: es, none, l, k => by
    unfold Compile.elements
    exact (expr e none l k).seq fun t => elements es (some t) l k
  | e :: es, some elem, l, k => by
    unfold Compile.elements
    exact (expr e (some elem) l k).seq fun t => guarded fun _ => elements es (some elem) l k

theorem statements : ∀ (ss : List Stmt) (l : Library) (k : Nat), Forms l k (Compile.statements deferred ss) Any
  | [], _, _ => by
    unfold Compile.statements
    exact done _
  | s :: ss, l, k => by
    unfold Compile.statements
    exact (statement s l k).seq fun here => (statements ss l k).seq fun rest => done _

theorem statement : ∀ (s : Stmt) (l : Library) (k : Nat), Forms l k (Compile.statement deferred s) Any
  | .expr e _, l, k => by
    unfold Compile.statement
    exact (expr e none l k).seq fun t => (discard t e.span).seq fun _ => done _
  | .function h body _, l, k => by
    unfold Compile.statement
    exact (lift _).seq fun s => (declareNested ⟨h, body⟩ s (expr body)).seq fun _ => done _
  | .bind name written (.lambda h body _) _, l, k => by
    unfold Compile.statement
    exact (lift _).seq fun h => (lift _).seq fun s => (declareNested ⟨h, body⟩ s (expr body)).seq fun _ => done _
  | .bind name written (.variable _ _) span, l, k | .bind name written (.literal _ _) span, l, k
  | .bind name written (.unary _ _ _) span, l, k | .bind name written (.field _ _ _) span, l, k
  | .bind name written (.binary _ _ _ _) span, l, k | .bind name written (.index _ _ _) span, l, k
  | .bind name written (.call _ _ _) span, l, k | .bind name written (.tuple _ _) span, l, k
  | .bind name written (.list _ _) span, l, k | .bind name written (.block _ _ _) span, l, k
  | .bind name written (.cond _ _ _ _) span, l, k | .bind name written (.group _ _) span, l, k => by
    unfold Compile.statement
    exact (lift _).seq fun annotated => getDraft.seq fun d => (expr _ annotated l k).seq fun t =>
      (bindLocal name annotated _ t _ span).seq fun x => done _

end

end

end Forms

/-- Bodies are written to any depth that is allowed. -/
theorem installs_deferred : ∀ n, Installs (writeDeferred n)
  | 0 => fun _ decl _ _ _ => .fail _ decl.header.span
  | n + 1 => fun _ decl _ _ _ => .writeFunction (fun t l => .expr (installs_deferred n) decl.body t l _) _ _ _ _

namespace Forms

/-! ### Programs -/

theorem enqueue (i : Nat) (decl : FunctionDecl) :
    Forms l k (modify fun c => { c with pending := c.pending ++ [(i, decl)] }) Any := fun _ hc _ _ =>
  ⟨⟨hc.formed, hc.valid, hc.draft⟩, ⟨.refl _, rfl, .refl _⟩, trivial⟩

theorem declareFunction (decl : FunctionDecl) : Forms l k (Compile.declareFunction decl) Any := by
  refine get fun c _ _ _ => (lift _).seq fun s => ?_
  dsimp only
  have admits (l : Library) (id : Nat) : l.AdmitsAt id (if s.isGeneric then .generic decl ScopeTable.root else .undefined) :=
    fun _ _ => by split <;> trivial
  refine (addFunction _ (admits _ _)).forget.seq fun i => ?_
  split
  · exact (enqueue i decl).seq fun _ => bindIn _ _ _ _
  · exact bindIn _ _ _ _

theorem declareLiteral (name : String) (v : Literal) (written : Option TypeExpr) (span : Span) :
    Forms l k (Compile.declareLiteral name v written span) Any := by
  refine get fun c _ _ _ => (lift _).seq fun expected => (onHeap _).seq fun value => ?_
  dsimp only
  have bound (l : Library) : Forms l k (Compile.addValue c.module value >>= fun i =>
      Compile.bindIn c.module ScopeTable.root name (.value i)) Any := (addValue _ _).forget.seq fun i => bindIn _ _ _ _
  split
  · split
    · exact (onHeap _).seq fun _ => (fails _ _).seq fun _ => bound _
    · exact bound _
  · exact bound _

theorem declareComputed (name : String) (written : Option TypeExpr) (init : Expr) (span : Span) :
    Forms l k (Compile.declareComputed name written init span) Any := by
  refine get fun c _ _ _ => (lift _).seq fun result => seq (addFunction _ fun _ _ => ?_).forget fun i =>
    (enqueue i _).seq fun _ => bindIn _ _ _ _
  trivial

theorem declare (s : Stmt) : Forms l k (Compile.declare s) Any := by
  unfold Compile.declare
  split
  · exact done _
  · exact declareFunction _
  · exact (lift _).seq fun h => declareFunction _
  · exact declareLiteral _ _ _ _
  · exact declareComputed _ _ _ _

theorem finishStatement (invoked : Bool) (t : Ty) (span : Span) : Forms l k (Compile.finishStatement invoked t span) Any := by
  unfold Compile.finishStatement
  split
  · split
    · exact (typeOperand t).bind fun _ _ _ hi => (invoke hi).seq fun _ => sink _
    · exact discard t span
  · exact done _

theorem writeMain (invoked : Bool) (p : Program) : Forms l k (Compile.writeMain invoked p) Any := by
  refine get fun c _ _ _ => seq (addFunction _ fun _ _ => ?_).forget fun i =>
    (writeFunction (fun _ _ => ?_) _ _ _ _).seq fun _ => done _
  · trivial
  · refine (forM (fun s => ?_) _).seq fun _ => optional (installs_deferred _) _ _ _ _
    split
    · exact (expr (installs_deferred _) _ _ _ _).seq fun t => finishStatement _ _ _
    · exact done _

theorem program (invoked : Bool) (p : Program) : Forms l k (Compile.program invoked p) Any :=
  get fun _ _ _ _ => (forM declare _).seq fun _ => get fun _ _ _ _ =>
    (forM (fun _ => ensureWritten (installs_deferred _) _) _).seq fun _ => writeMain _ _

end Forms

end Compile

end StackScript
