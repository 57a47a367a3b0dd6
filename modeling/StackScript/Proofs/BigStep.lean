import StackScript.Compile.Expr

/-!
The meaning of expressions without calls: an evaluator on trees that knows neither bytes nor handles. A literal takes
the type that its context expects, so that the evaluator follows the types of expressions as well.
-/
namespace StackScript

/-- What an expression stands for, apart from where it lies. Floats are bit patterns. -/
inductive Datum
  | void
  | bool (b : Bool)
  | byte (n : UInt8)
  | char (c : Char)
  | int32 (n : Int32)
  | int64 (n : Int64)
  | float32 (bits : UInt32)
  | float64 (bits : UInt64)
  | string (s : String)
  | list (elem : Ty) (items : List Datum)
  | tuple (items : List Datum)
deriving Repr, Inhabited

namespace Datum

mutual

def ty : Datum → Ty
  | void => .void
  | bool _ => .bool
  | byte _ => .byte
  | char _ => .char
  | int32 _ => .int32
  | int64 _ => .int64
  | float32 _ => .float32
  | float64 _ => .float64
  | string _ => .string
  | list elem _ => .list elem
  | tuple items => .tuple (tys items)

def tys : List Datum → List Ty
  | [] => []
  | d :: ds => d.ty :: tys ds

end

def ofLiteral : Literal → Datum
  | .bool b => bool b
  | .byte n => byte n
  | .char c => char c
  | .int32 n => int32 n
  | .int64 n => int64 n
  | .float32 bits => float32 bits
  | .float64 bits => float64 bits
  | .string s => string s

/-- A list of data of a type. Elements without a size leave no trace in it. -/
def ofItems (elem : Ty) (items : List Datum) : Datum := list elem (if elem.size = 0 then [] else items)

/-! ### Operators -/

def ofWord : {w : Width} → Word w → Datum
  | .w8, a => byte (.ofBitVec a)
  | .w32, a => int32 (.ofBitVec a)
  | .w64, a => int64 (.ofBitVec a)

/-- Integers wrap around; a text is only added to. -/
def arith (op : Arith) : Datum → Datum → Except Fault Datum
  | byte a, byte b => (Word.arith (w := .w8) op a.toBitVec b.toBitVec).map ofWord
  | int32 a, int32 b => (Word.arith (w := .w32) op a.toBitVec b.toBitVec).map ofWord
  | int64 a, int64 b => (Word.arith (w := .w64) op a.toBitVec b.toBitVec).map ofWord
  | float32 a, float32 b => .ok (((Lowering.floatOp? op).map fun op => float32 (op.run32 a b)).getD void)
  | float64 a, float64 b => .ok (((Lowering.floatOp? op).map fun op => float64 (op.run64 a b)).getD void)
  | string a, string b => .ok (string (a ++ b))
  | _, _ => .ok void

/-- Characters are ordered by their code points, bytes as unsigned numbers and integers as signed ones. -/
def test (c : Comparison) : Datum → Datum → Bool
  | bool a, bool b => c.ofOrdering (compare a.toNat b.toNat)
  | byte a, byte b => c.ofOrdering (compare a.toNat b.toNat)
  | char a, char b => c.ofOrdering (compare a.toNat b.toNat)
  | int32 a, int32 b => c.ofOrdering (compare a.toInt b.toInt)
  | int64 a, int64 b => c.ofOrdering (compare a.toInt b.toInt)
  | float32 a, float32 b => Binary.single.test c a.toNat b.toNat
  | float64 a, float64 b => Binary.double.test c a.toNat b.toNat
  | string a, string b =>
    match c with
    | .equal => a = b
    | .notEqual => a ≠ b
    | _ => false
  | _, _ => false

/-- The element of a list at an index; negative indices count from the end. -/
def element : Datum → Datum → Except Fault Datum
  | list _ items, int32 n =>
    let position := if n.toInt < 0 then n.toInt + items.length else n.toInt
    if position < 0 ∨ (items.length : Int) ≤ position then .error (.indexOutOfBounds n.toInt items.length)
    else .ok (items.getD position.toNat void)
  | _, _ => .ok void

/-- The item of a tuple. -/
def item (i : Nat) : Datum → Datum
  | tuple items => items.getD i void
  | _ => void

/-- Whether a test holds. -/
def holds : Datum → Bool
  | bool b => b
  | _ => false

end Datum

/-- The operators on data of the types that they are defined on. -/
def BinaryOp.apply : BinaryOp → Datum → Datum → Except Fault Datum
  | and, .bool a, .bool b => .ok (.bool (a && b))
  | or, .bool a, .bool b => .ok (.bool (a || b))
  | arith op, a, b => a.arith op b
  | compare c, a, b => .ok (.bool (a.test c b))
  | _, _, _ => .ok .void

def UnaryOp.apply : UnaryOp → Datum → Datum
  | not, .bool b => .bool !b
  | negate, .byte a => .byte (-a)
  | negate, .int32 a => .int32 (-a)
  | negate, .int64 a => .int64 (-a)
  | negate, .float32 a => .float32 (.ofNat (Binary.single.neg a.toNat))
  | negate, .float64 a => .float64 (.ofNat (Binary.double.neg a.toNat))
  | bitNot, .byte a => .byte (~~~a)
  | bitNot, .int32 a => .int32 (~~~a)
  | bitNot, .int64 a => .int64 (~~~a)
  | _, _ => .void

/-! ### Types -/

/-- The variables that are seen, the innermost first, with their types. -/
abbrev Context := List (String × Ty)

/-- The type that a binding is written with. -/
def TypeExpr.annotation (written : Option TypeExpr) : Option Ty := written.bind fun t => t.resolve.toOption

namespace Expr

/-- The likely type of an expression. Plain integer literals give none. -/
def hintIn (Γ : Context) : Expr → Option Ty
  | .literal (.int32 _) _ => none
  | .literal v _ => some v.ty
  | .variable name _ => Γ.lookup name
  | .group e _ | .unary _ e _ => e.hintIn Γ
  | .binary op a b _ =>
    match op with
    | .compare _ | .and | .or => some .bool
    | .arith _ => (a.hintIn Γ).or (b.hintIn Γ)
  | .index e _ _ => (e.hintIn Γ).bind Ty.elem?
  | .field e i _ =>
    match e.hintIn Γ with
    | some (.tuple items) => items[i]?
    | _ => none
  | _ => none

/-- The type that operands are expected to have. -/
def operandIn (Γ : Context) (op : BinaryOp) (a b : Expr) (expected : Option Ty) : Option Ty :=
  match op with
  | .and | .or => some .bool
  | .compare _ => (a.hintIn Γ).or (b.hintIn Γ)
  | .arith _ => (expected.filter fun t => !t.isUnknown).or ((a.hintIn Γ).or (b.hintIn Γ))

/-- The type that the elements of a list are expected to have. -/
def elementHint (expected : Option Ty) : Option Ty := (expected.bind Ty.elem?).filter fun t => !t.isGeneric

end Expr

mutual

/-- The type of an expression under the type that its context expects. -/
def Expr.typeIn (Γ : Context) : Expr → Option Ty → Ty
  | .literal v _, expected => (v.adapt expected).ty
  | .variable name _, _ => (Γ.lookup name).getD .void
  | .group e _, expected | .unary _ e _, expected => e.typeIn Γ expected
  | .binary op a b _, expected => op.resultType (b.typeIn Γ (Expr.operandIn Γ op a b expected))
  | .index object _ _, _ => (object.typeIn Γ none).elem?.getD .void
  | .field object i _, _ =>
    match object.typeIn Γ none with
    | .tuple items => items.getD i .void
    | _ => .void
  | .tuple es _, expected => .tuple (Expr.typesIn Γ es (Compile.itemHints expected))
  | .list es _, expected => .list ((Expr.elementIn Γ es (Expr.elementHint expected)).getD .void)
  | .block ss value _, expected => Expr.optionIn (Stmt.contextAfter Γ ss) value expected
  | .cond _ yes (some _) _, expected => yes.typeIn Γ expected
  | _, _ => .void

def Expr.optionIn (Γ : Context) : Option Expr → Option Ty → Ty
  | none, _ => .void
  | some e, expected => e.typeIn Γ expected

def Expr.typesIn (Γ : Context) : List Expr → List Ty → List Ty
  | [], _ => []
  | e :: es, hints => e.typeIn Γ hints.head? :: Expr.typesIn Γ es hints.tail

/-- The element type of a list. The first element decides it if it is not known. -/
def Expr.elementIn (Γ : Context) : List Expr → Option Ty → Option Ty
  | _, some t => some t
  | [], none => none
  | e :: _, none => some (e.typeIn Γ none)

/-- The variables that are seen after statements. -/
def Stmt.contextAfter (Γ : Context) : List Stmt → Context
  | [] => Γ
  | s :: ss => Stmt.contextAfter (s.extend Γ) ss

def Stmt.extend (Γ : Context) : Stmt → Context
  | .bind name written e _ => (name, e.typeIn Γ (TypeExpr.annotation written)) :: Γ
  | _ => Γ

end

/-! ### Values -/

/-- The variables that are seen, the innermost first, with their data. -/
abbrev Env := List (String × Datum)

def Env.types (ρ : Env) : Context := ρ.map fun p => (p.1, p.2.ty)

mutual

/-- The datum of an expression. The right operand is evaluated before the left one and the index before the list. -/
def Expr.evalIn (ρ : Env) : Expr → Option Ty → Except Fault Datum
  | .literal v _, expected => .ok (.ofLiteral (v.adapt expected))
  | .variable name _, _ => .ok ((ρ.lookup name).getD .void)
  | .group e _, expected => e.evalIn ρ expected
  | .binary op a b _, expected => do
    let r ← b.evalIn ρ (Expr.operandIn ρ.types op a b expected)
    let l ← a.evalIn ρ (some r.ty)
    op.apply l r
  | .unary op e _, expected => do
    return op.apply (← e.evalIn ρ expected)
  | .index object position _, _ => do
    let i ← position.evalIn ρ (some .int32)
    let l ← object.evalIn ρ none
    l.element i
  | .field object i _, _ => do
    return (← object.evalIn ρ none).item i
  | .tuple es _, expected => do
    return .tuple (← Expr.evalItems ρ es (Compile.itemHints expected))
  | .list es _, expected => do
    let (t, items) ← Expr.evalElements ρ es (Expr.elementHint expected)
    return .ofItems (t.getD .void) items
  | .block ss value _, expected => do
    let ρ ← Stmt.evalAll ρ ss
    Expr.evalOption ρ value expected
  | .cond test yes none _, _ => do
    if (← test.evalIn ρ (some .bool)).holds then
      let _ ← yes.evalIn ρ none
    return .void
  | .cond test yes (some no) _, expected => do
    if (← test.evalIn ρ (some .bool)).holds then yes.evalIn ρ expected
    else no.evalIn ρ (some (yes.typeIn ρ.types expected))
  | .call _ _ _, _ | .lambda _ _ _, _ => .ok .void

def Expr.evalOption (ρ : Env) : Option Expr → Option Ty → Except Fault Datum
  | none, _ => .ok .void
  | some e, expected => e.evalIn ρ expected

def Expr.evalItems (ρ : Env) : List Expr → List Ty → Except Fault (List Datum)
  | [], _ => .ok []
  | e :: es, hints => do
    let d ← e.evalIn ρ hints.head?
    let ds ← Expr.evalItems ρ es hints.tail
    return d :: ds

/-- The elements of a list with their type. -/
def Expr.evalElements (ρ : Env) : List Expr → Option Ty → Except Fault (Option Ty × List Datum)
  | [], t => .ok (t, [])
  | e :: es, t => do
    let d ← e.evalIn ρ t
    let (u, ds) ← Expr.evalElements ρ es (some (t.getD d.ty))
    return (u, d :: ds)

/-- Runs the statements of a block, and gives the variables that are seen behind them. -/
def Stmt.evalAll (ρ : Env) : List Stmt → Except Fault Env
  | [] => .ok ρ
  | s :: ss => do Stmt.evalAll (← s.eval ρ) ss

def Stmt.eval (ρ : Env) : Stmt → Except Fault Env
  | .expr e _ => do
    let _ ← e.evalIn ρ none
    return ρ
  | .bind name written e _ => do
    let d ← e.evalIn ρ (TypeExpr.annotation written)
    return (name, d) :: ρ
  | .function _ _ _ => .ok ρ

end

/-! ### Expressions without calls -/

/-- The name that a statement binds. -/
def Stmt.binds : Stmt → List String
  | .bind name _ _ _ => [name]
  | _ => []

/-- The names that are seen after statements. -/
def Stmt.namesAfter : List String → List Stmt → List String
  | names, [] => names
  | names, s :: ss => Stmt.namesAfter (s.binds ++ names) ss

mutual

/-- Whether an expression neither calls nor makes functions, and uses no variables but the given ones and its own. -/
def Expr.isCallFree (names : List String) : Expr → Bool
  | .literal _ _ => true
  | .variable name _ => names.contains name
  | .group e _ | .unary _ e _ | .field e _ _ => e.isCallFree names
  | .binary _ a b _ | .index a b _ => a.isCallFree names && b.isCallFree names
  | .tuple es _ | .list es _ => Expr.areCallFree names es
  | .block ss value _ => Stmt.areCallFree names ss && Expr.isCallFreeOption (Stmt.namesAfter names ss) value
  | .cond test yes no _ => test.isCallFree names && yes.isCallFree names && Expr.isCallFreeOption names no
  | .call _ _ _ | .lambda _ _ _ => false

def Expr.isCallFreeOption (names : List String) : Option Expr → Bool
  | none => true
  | some e => e.isCallFree names

def Expr.areCallFree (names : List String) : List Expr → Bool
  | [] => true
  | e :: es => e.isCallFree names && Expr.areCallFree names es

def Stmt.areCallFree (names : List String) : List Stmt → Bool
  | [] => true
  | s :: ss => s.isCallFree names && Stmt.areCallFree (s.binds ++ names) ss

def Stmt.isCallFree (names : List String) : Stmt → Bool
  | .expr e _ | .bind _ _ e _ => e.isCallFree names
  | .function _ _ _ => false

end

end StackScript
