import StackScript.Compile.Call
import StackScript.Compile.Operator

/-!
Compiling expressions. The code of an expression leaves exactly the bytes of its value on the stack. The type
that the context expects is a hint for literals and lambdas; the context itself checks what it gets.
-/
namespace StackScript

namespace Compile

/-! ### Literals and operators -/

def pushLiteral (v : Literal) (expected : Option Ty) (span : Span) : Compile Ty := do
  let module ← here
  let value ← onHeap (v.adapt expected).value
  let index ← onModule module fun m => match v with
    | .string _ => m.addValue value
    | _ => m.internValue value
  emit1 .loadStatic index span
  return value.ty

def emitLowering (lowering? : Option Lowering) (sign : String) (t : Ty) (span : Span) : Compile Unit :=
  match lowering? with
  | none => fail (.unsupportedOperator sign t) span
  | some (.opcode op) => emit op
  | some (.native n) => callNative n span
  | some (.negated n) => do
    callNative n span
    emit .logicalNot

/-- The type that operands are likely to have. -/
def operandHint (op : BinaryOp) (left right : Expr) (expected : Option Ty) : Compile (Option Ty) := do
  let own := (← hint? left).or (← hint? right)
  match op with
  | .and | .or => return some .bool
  | .compare _ => return own
  | .arith _ => return (expected.filter fun t => !t.isUnknown).or own

/-! ### Control flow and blocks -/

/-- Jumps over what follows unless the truth value on top holds. -/
def branch (test : Expr) (t : Ty) : Compile Nat := do
  if t ≠ .bool then fail (.mismatch .bool t) test.span
  let label ← jump .jumpIfNot
  sink 1
  return label

/-- Declares a variable of a block at the place where its value was pushed. -/
def bindLocal (name : String) (annotated : Option Ty) (offset : Nat) (t : Ty) (init : Expr) (span : Span) :
    Compile (Nat × Ty) := do
  let t ← match annotated with
    | none => pure t
    | some a => if a.agrees t then pure ((a.unify? t).getD t) else fail (.mismatch a t) init.span
  if t.isGeneric then fail (.cannotInfer ("variable '" ++ name ++ "'")) span
  let d ← getDraft
  bindIn d.target.module d.scope name (.slot offset t)
  return (offset, t)

/-- Releases the variables of a block and removes them from under its value. -/
def releaseLocals (locals : List (Nat × Ty)) (value : Ty) (span : Span) : Compile Unit := do
  let depth := (← getDraft).depth
  locals.forM fun (offset, t) =>
    releaseAt (t.slots.map fun slot => depth - (offset + slot) - handleSize) span
  let size := Ty.sizes (locals.map (·.2))
  if 0 < size then emit2 .drop value.size size span

/-- Runs code in a new scope of the draft. -/
def inBlock {α : Type} (x : Compile α) : Compile α := do
  let d ← getDraft
  let scope ← addScope d.target.module d.scope .block ""
  modifyDraft fun d => { d with scope := scope }
  let a ← x
  modifyDraft fun e => { e with scope := d.scope }
  return a

/-! ### Tuples and lists -/

def itemHints : Option Ty → List Ty
  | some (.tuple hints) => hints
  | _ => []

/-- Distances below the top of the handles in the items of a tuple, one item left out. -/
def otherDistances (total skip : Nat) : Nat → Nat → List Ty → List Nat
  | _, _, [] => []
  | i, pos, t :: ts =>
    (if i = skip then [] else t.slots.map fun slot => total - (pos + slot) - handleSize) ++
      otherDistances total skip (i + 1) (pos + t.size) ts

/-- Keeps one item of the tuple on top. -/
def selectItem (object : Expr) (t : Ty) (i : Nat) (span : Span) : Compile Ty := do
  match t with
  | .tuple items =>
    match items[i]? with
    | none => fail (.noField t i) span
    | some item =>
      releaseAt (otherDistances t.size i 0 0 items) span
      let before := Ty.sizes (items.take i)
      let after := t.size - before - item.size
      if 0 < after then emit2 .drop 0 after span
      if 0 < before then emit2 .drop item.size before span
      return item
  | _ => fail (.notTuple t) object.span

def emitSubscript (object : Expr) (t : Ty) (span : Span) : Compile Ty := do
  match t.elem? with
  | none => fail (.notList t) object.span
  | some elem =>
    if elem.isGeneric then fail (.cannotInfer "list element type") object.span
    emit1 .subscript (← typeOperand elem) span
    return elem

def emitList (count : Nat) (elem : Option Ty) (span : Span) : Compile Ty := do
  match elem with
  | none => fail (.cannotInfer "empty list") span
  | some elem =>
    emit2 .makeList count (← typeOperand elem) span
    return .list elem

/-! ### Expressions -/

section

variable (deferred : Deferred)

/-- Pushes a closure over a lambda. -/
def pushLambda (decl : FunctionDecl) (expected : Option Ty) (body : Option Ty → Compile Ty) : Compile Ty := do
  let s ← lift (decl.header.signatureAs expected)
  if s.isGeneric then fail (.cannotInfer "lambda parameter types") decl.header.span
  let i ← declareNested decl s body
  pushFunction deferred (pushVariable deferred) ⟨← here, i⟩ none decl.header.span

/-- The callee of a call without the parentheses around it. -/
def core : Expr → Expr
  | .group e _ => core e
  | e => e

/-- Calls by what the callee is: a named function, a lambda or a value. -/
def emitCallOf (callee : Expr) (push lambdaBody : Option Ty → Compile Ty) (args : Arguments) (span : Span) :
    Compile Ty := do
  match core callee with
  | .variable name nameSpan =>
    match ← resolve name nameSpan with
    | .function f => callFunction deferred f args span
    | _ => callValue (core callee) push args span
  | .lambda h body _ => callLambda deferred ⟨h, body⟩ lambdaBody args span
  | target => callValue target push args span

mutual

/-- Compiles an expression and gives its type. -/
def expr : Expr → Option Ty → Compile Ty
  | .literal v span, expected => leaving (pushLiteral v expected span)
  | .variable name span, expected => leaving (pushVariable deferred name expected span)
  | .group e _, expected => expr e expected
  | .binary op left right span, expected => leaving do
    let hint ← operandHint op left right expected
    let r ← expr right hint
    let l ← expr left (some r)
    if !l.agrees r then fail (.mismatch r l) left.span
    emitLowering (op.lowering? r) op.sign r span
    return op.resultType r
  | .unary op e span, expected => leaving do
    let t ← expr e expected
    emitLowering (op.lowering? t) op.sign t span
    return t
  | .call callee args span, _ =>
    leaving (emitCallOf deferred callee (expr callee) (lambdaBody callee)
      ⟨args.map Expr.span, arguments args⟩ span)
  | .index object position span, _ => leaving do
    let t ← expr position (some .int32)
    if t ≠ .int32 then fail (.mismatch .int32 t) position.span
    emitSubscript object (← expr object none) span
  | .field object i span, _ => leaving do
    selectItem object (← expr object none) i span
  | .tuple es _, expected => leaving do
    return .tuple (← items es (itemHints expected))
  | .list es span, expected => leaving do
    let elem ← elements es ((expected.bind Ty.elem?).filter fun t => !t.isGeneric)
    emitList es.length elem span
  | .lambda h body _, expected => leaving (pushLambda deferred ⟨h, body⟩ expected (expr body))
  | .block ss value span, expected => leaving (inBlock do
    let locals ← statements ss
    let t ← optional value expected
    releaseLocals locals t span
    return t)
  | .cond test yes none _, _ => leaving do
    let skip ← branch test (← expr test (some .bool))
    discard (← expr yes none) yes.span
    bindLabel skip
    return .void
  | .cond test yes (some no) _, expected => leaving do
    let other ← branch test (← expr test (some .bool))
    let depth := (← getDraft).depth
    let t ← expr yes expected
    let done ← jump .jump
    bindLabel other
    setDepth depth
    let u ← expr no (some t)
    if !t.agrees u then fail (.mismatch t u) no.span
    bindLabel done
    return (t.unify? u).getD t

/-- The body of a lambda that is called where it is written. -/
def lambdaBody : Expr → Option Ty → Compile Ty
  | .group e _, expected => lambdaBody e expected
  | .lambda _ body _, expected => expr body expected
  | _, _ => return .void

/-- An expression that may be left out. -/
def optional : Option Expr → Option Ty → Compile Ty
  | none, _ => return .void
  | some e, expected => expr e expected

/-- Pushes arguments, the last one first, and gives their types. -/
def arguments : List Expr → List Ty → Compile (List Ty)
  | [], _ => return []
  | e :: es, params => do
    let ts ← arguments es params.tail
    let param := params.headD .unknown
    let t ← expr e (if param.isUnknown then none else some param)
    if !param.agrees t then fail (.mismatch param t) e.span
    return t :: ts

/-- Pushes the items of a tuple, the first one first. -/
def items : List Expr → List Ty → Compile (List Ty)
  | [], _ => return []
  | e :: es, hints => do
    let t ← expr e hints.head?
    let ts ← items es hints.tail
    return t :: ts

/-- Pushes the elements of a list. The first one decides their type if it is not known. -/
def elements : List Expr → Option Ty → Compile (Option Ty)
  | [], elem => return elem
  | e :: es, none => do
    let t ← expr e none
    elements es (some t)
  | e :: es, some elem => do
    let t ← expr e (some elem)
    if !elem.agrees t then fail (.mismatch elem t) e.span
    elements es (some elem)

/-- Compiles the statements of a block and gives its variables with their places. -/
def statements : List Stmt → Compile (List (Nat × Ty))
  | [] => return []
  | s :: ss => do
    let here ← statement s
    let rest ← statements ss
    return here.toList ++ rest

def statement : Stmt → Compile (Option (Nat × Ty))
  | .expr e _ => do
    discard (← expr e none) e.span
    return none
  | .bind name written (.lambda h body _) _ => do
    let h ← lift (h.bindTo name written)
    let s ← lift h.signature
    let _ ← declareNested ⟨h, body⟩ s (expr body)
    return none
  | .bind name written e span => do
    let annotated ← lift (written.mapM TypeExpr.resolve)
    let offset := (← getDraft).depth
    let t ← expr e annotated
    return some (← bindLocal name annotated offset t e span)
  | .function h body _ => do
    let s ← lift h.signature
    let _ ← declareNested ⟨h, body⟩ s (expr body)
    return none

end

end

/-- Writes functions whose bodies wait for others, up to a number of levels. -/
def writeDeferred : Nat → Deferred
  | 0 => fun _ decl _ => fail .tooDeep decl.header.span
  | levels + 1 => fun f decl scope =>
    writeFunction f (FreeNames.paramNames decl.header) scope decl.header.span decl.body.span
      (expr (writeDeferred levels) decl.body)

end Compile

end StackScript
