import StackScript.Number.Word

/-!
Operation codes. The byte of an opcode decides how many one-byte operands follow it: codes without
operands come first, then those with one, then those with two.
-/
namespace StackScript

/-- What the opcodes on words do, at any width. -/
inductive WordOp
  | compare (c : Comparison)
  | bitNot
  | negate
  | arith (op : Arith)
deriving DecidableEq, Repr, Inhabited

namespace WordOp

/-- In the order of their codes. -/
def all : List WordOp :=
  Comparison.all.map compare ++
  [bitNot, arith .bitOr, arith .bitAnd, arith .bitXor, arith .shiftLeft, arith .shiftRight,
   negate, arith .add, arith .sub, arith .mul, arith .div, arith .mod, arith .exp]

def name : WordOp → String
  | compare c => c.name
  | bitNot => "bitwise_not"
  | negate => "neg"
  | arith .bitOr => "bitwise_or"
  | arith .bitAnd => "bitwise_and"
  | arith .bitXor => "bitwise_xor"
  | arith .shiftLeft => "shift_left"
  | arith .shiftRight => "shift_right"
  | arith .add => "add"
  | arith .sub => "sub"
  | arith .mul => "mul"
  | arith .div => "div"
  | arith .mod => "mod"
  | arith .exp => "exp"

def isUnary : WordOp → Bool
  | bitNot | negate => true
  | _ => false

def isComparison : WordOp → Bool
  | compare _ => true
  | _ => false

end WordOp

inductive Opcode
  | noop | logicalNot | logicalOr | logicalAnd
  | word (op : WordOp) (w : Width)
  /-- Pulls a closure and enters its function with the captured values pushed back. -/
  | execute
  /-- Pulls a value of a type of the module and hands it to the host. -/
  | invoke
  | loadStatic
  /-- Pushes a closure that captures nothing. -/
  | loadFunction
  /-- Calls in the current module, in the first import, in any import. -/
  | call0 | call1
  /-- Pulls captured values into a closure. -/
  | makeClosure
  | incRef | decRef
  | jump | jumpIfNot
  | subscript
  | call
  | copyVariable | copyArgument
  /-- Removes bytes under the top ones. -/
  | drop
  | makeList
deriving DecidableEq, Repr, Inhabited

namespace Opcode

/-- Every opcode at the index that is its code. -/
def table : Array Opcode :=
  (#[noop, logicalNot, logicalOr, logicalAnd] ++
    WordOp.all.flatMap fun op => Width.all.map (word op)) ++
  #[execute, invoke, loadStatic, loadFunction, call0, call1, makeClosure, incRef, decRef, jump, jumpIfNot,
    subscript, call, copyVariable, copyArgument, drop, makeList]

def ofByte? (b : UInt8) : Option Opcode := table[b.toNat]?

def arithCode : Arith → Nat
  | .bitOr => 7
  | .bitAnd => 8
  | .bitXor => 9
  | .shiftLeft => 10
  | .shiftRight => 11
  | .add => 13
  | .sub => 14
  | .mul => 15
  | .div => 16
  | .mod => 17
  | .exp => 18

def wordCode : WordOp → Nat
  | .compare .equal => 0
  | .compare .notEqual => 1
  | .compare .lessEqual => 2
  | .compare .greaterEqual => 3
  | .compare .lessThan => 4
  | .compare .greaterThan => 5
  | .bitNot => 6
  | .negate => 12
  | .arith op => arithCode op

def widthCode : Width → Nat
  | .w8 => 0
  | .w32 => 1
  | .w64 => 2

def code : Opcode → Nat
  | noop => 0
  | logicalNot => 1
  | logicalOr => 2
  | logicalAnd => 3
  | word op w => 4 + 3 * wordCode op + widthCode w
  | execute => 61
  | invoke => 62
  | loadStatic => 63
  | loadFunction => 64
  | call0 => 65
  | call1 => 66
  | makeClosure => 67
  | incRef => 68
  | decRef => 69
  | jump => 70
  | jumpIfNot => 71
  | subscript => 72
  | call => 73
  | copyVariable => 74
  | copyArgument => 75
  | drop => 76
  | makeList => 77

def toByte (op : Opcode) : UInt8 := .ofNat op.code

/-- The number of operands. -/
def arity (op : Opcode) : Nat :=
  if op.code ≤ 61 then 0 else if op.code ≤ 72 then 1 else 2

/-- The length of the instruction with its operands. -/
def length (op : Opcode) : Nat := 1 + op.arity

def width? : Opcode → Option Width
  | word _ w => some w
  | _ => none

/-- The same operation at another width. -/
def withWidth? (w : Width) : Opcode → Option Opcode
  | word op _ => some (word op w)
  | _ => none

def isUnary : Opcode → Bool
  | logicalNot => true
  | word op _ => op.isUnary
  | _ => false

def isComparison : Opcode → Bool
  | word op _ => op.isComparison
  | _ => false

def name : Opcode → String
  | noop => "noop"
  | logicalNot => "logical_not"
  | logicalOr => "logical_or"
  | logicalAnd => "logical_and"
  | word op w => op.name ++ "_" ++ w.text
  | execute => "execute"
  | invoke => "invoke"
  | loadStatic => "load_static"
  | loadFunction => "load_function"
  | call0 => "call_0"
  | call1 => "call_1"
  | makeClosure => "make_closure"
  | incRef => "inc_ref"
  | decRef => "dec_ref"
  | jump => "jump"
  | jumpIfNot => "jump_if_not"
  | subscript => "subscript"
  | call => "call"
  | copyVariable => "copy_variable"
  | copyArgument => "copy_argument"
  | drop => "drop"
  | makeList => "make_list"

/-- As listings show it. -/
def text (op : Opcode) : String := op.name.toUpper

def ofName? (s : String) : Option Opcode := table.find? fun op => op.name = s

theorem table_code : ∀ i : Fin table.size, table[i].code = i := by decide +kernel

end Opcode

end StackScript
