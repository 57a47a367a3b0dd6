import StackScript.Builtin
import StackScript.Expr

/-!
How the operators are carried out on each type: by an opcode or by a native function. Where nothing is
given, the operator is not defined for the type.
-/
namespace StackScript

inductive Lowering
  | opcode (op : Opcode)
  | native (n : Native)
  /-- A native function whose answer is negated. -/
  | negated (n : Native)
deriving DecidableEq, Repr

namespace Lowering

/-- The width at which numbers of a type are computed. -/
def width? : Ty → Option Width
  | .byte => some .w8
  | .int32 => some .w32
  | .int64 => some .w64
  | _ => none

def floatWidth? : Ty → Option FloatWidth
  | .float32 => some .f32
  | .float64 => some .f64
  | _ => none

def floatOp? : Arith → Option FloatOp
  | .add => some .add
  | .sub => some .sub
  | .mul => some .mul
  | .div => some .div
  | .mod => some .mod
  | .exp => some .exp
  | _ => none

def ofArith? (op : Arith) (t : Ty) : Option Lowering :=
  match width? t, floatWidth? t with
  | some w, _ => some (opcode (.word (.arith op) w))
  | none, some w => (floatOp? op).map fun op => native (.floatArith w op)
  | none, none => if t = .string ∧ op = .add then some (native .stringConcat) else none

/-- The width at which values of a type are compared. -/
def comparisonWidth? (c : Comparison) : Ty → Option Width
  | .bool => if c = .equal ∨ c = .notEqual then some .w8 else none
  | .char => some .w32
  | t => width? t

def ofComparison? (c : Comparison) (t : Ty) : Option Lowering :=
  match comparisonWidth? c t, floatWidth? t with
  | some w, _ => some (opcode (.word (.compare c) w))
  | none, some w => some (native (.floatTest w c))
  | none, none =>
    if t ≠ .string then none
    else if c = .equal then some (native .stringEqual)
    else if c = .notEqual then some (negated .stringEqual)
    else none

end Lowering

namespace BinaryOp

def lowering? : BinaryOp → Ty → Option Lowering
  | and, t => if t = .bool then some (.opcode .logicalAnd) else none
  | or, t => if t = .bool then some (.opcode .logicalOr) else none
  | compare c, t => Lowering.ofComparison? c t
  | arith op, t => Lowering.ofArith? op t

/-- The type of the result on operands of a type. -/
def resultType (op : BinaryOp) (t : Ty) : Ty := if op.isComparison then .bool else t

end BinaryOp

def UnaryOp.lowering? : UnaryOp → Ty → Option Lowering
  | not, t => if t = .bool then some (.opcode .logicalNot) else none
  | negate, t =>
    match Lowering.width? t, Lowering.floatWidth? t with
    | some w, _ => some (.opcode (.word .negate w))
    | none, some w => some (.native (.floatNegate w))
    | none, none => none
  | bitNot, t => (Lowering.width? t).map fun w => .opcode (.word .bitNot w)

/-! ### Literals -/

namespace Literal

/-- A number is read as another number type that its context expects, where it fits. -/
def adapt : Literal → Option Ty → Literal
  | int32 n, some .int64 => int64 n.toInt64
  | int32 n, some .byte => if 0 ≤ n.toInt ∧ n.toInt < 256 then byte (.ofNat n.toInt.toNat) else int32 n
  | int32 n, some .float64 => float64 (.ofNat (Binary.double.ofInt n.toInt))
  | int32 n, some .float32 => float32 (.ofNat (Binary.single.ofInt n.toInt))
  | float64 bits, some .float32 => float32 (.ofNat (Binary.double.convert .single bits.toNat))
  | v, _ => v

/-- The value of a literal. A text is allocated. -/
def value (h : Heap) : Literal → Heap × Value
  | bool b => (h, .bool b)
  | byte n => (h, .byte n)
  | char c => (h, .char c)
  | int32 n => (h, .int32 n)
  | int64 n => (h, .int64 n)
  | float32 bits => (h, .float32 bits)
  | float64 bits => (h, .float64 bits)
  | string s => Value.ofString h s

end Literal

end StackScript
