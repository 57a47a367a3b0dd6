import StackScript.Bytecode.Opcode

/-!
Code under construction: the bytes written so far and the forward jumps whose distance is still open.
-/
namespace StackScript

/-- A jump whose operand is to be filled in once its target is bound. -/
structure Patch where
  operand : Nat
  target : Option Nat
deriving DecidableEq, Repr

/-- A bound jump that one byte cannot span. -/
structure JumpTooFar where
  origin : Nat
  target : Nat
deriving DecidableEq, Repr

structure Code where
  bytes : Array UInt8 := #[]
  patches : Array Patch := #[]
deriving DecidableEq, Repr, Inhabited

namespace Code

def ofBytes (bs : List UInt8) : Code := ⟨bs.toArray, #[]⟩

def size (c : Code) : Nat := c.bytes.size

def byte (c : Code) (b : UInt8) : Code := { c with bytes := c.bytes.push b }

def opcode (c : Code) (op : Opcode) : Code := c.byte op.toByte

def setArg (c : Code) (i : Nat) (b : UInt8) : Code := { c with bytes := c.bytes.setIfInBounds i b }

/-- The address of the byte written last. -/
def lastAddress (c : Code) : Nat := c.size - 1

def nextAddress (c : Code) : Nat := c.size

def append (c d : Code) : Code := { c with bytes := c.bytes ++ d.bytes }

/-- Writes a jump with an open operand. Its label is the number of its patch. -/
def jump (c : Code) (op : Opcode) : Code × Nat :=
  let c := (c.opcode op).byte 0
  ({ c with patches := c.patches.push ⟨c.lastAddress, none⟩ }, c.patches.size)

/-- Lets a jump land at the next byte to be written. -/
def bind (c : Code) (label : Nat) : Code :=
  { c with patches := c.patches.modify label fun p => { p with target := some c.nextAddress } }

/-- Fills in the distances from the byte after each operand, up to the first that does not fit. -/
def fill (bytes : Array UInt8) : List Patch → Array UInt8 × Option JumpTooFar
  | [] => (bytes, none)
  | p :: ps =>
    match p.target with
    | none => fill bytes ps
    | some t =>
      let origin := p.operand + 1
      if origin ≤ t ∧ t - origin < 256 then
        fill (bytes.setIfInBounds p.operand (.ofNat (t - origin))) ps
      else (bytes, some ⟨origin, t⟩)

/-- The code with its jumps resolved; no patch is left, also after a failure. -/
def resolve (c : Code) : Code × Option JumpTooFar :=
  let (bytes, failure) := fill c.bytes c.patches.toList
  (⟨bytes, #[]⟩, failure)

def hasPatches (c : Code) : Bool := !c.patches.isEmpty

/-- Addresses at which instructions start, from `i` on; a byte that is no opcode counts as one instruction. -/
def addressesFrom (bytes : Array UInt8) : Nat → Nat → List Nat
  | 0, _ => []
  | fuel + 1, i =>
    match bytes[i]? with
    | none => []
    | some b => i :: addressesFrom bytes fuel (i + ((Opcode.ofByte? b).map Opcode.length).getD 1)

def addresses (c : Code) : List Nat := addressesFrom c.bytes c.size 0

@[simp] theorem size_byte (c : Code) (b : UInt8) : (c.byte b).size = c.size + 1 := by
  simp [byte, size]

@[simp] theorem size_append (c d : Code) : (c.append d).size = c.size + d.size := by
  simp [append, size]

end Code

/-! ### Instructions -/

/-- What stands at an address of finished code. -/
inductive Instruction
  | ofOpcode (op : Opcode) (first second : Nat)
  | truncated (op : Opcode)
  | unknown (byte : UInt8)
deriving DecidableEq, Repr

namespace Instruction

/-- Reads the instruction that starts with byte `b` at address `i`; operands it does not have are zero. -/
def read (code : Array UInt8) (i : Nat) (b : UInt8) : Instruction :=
  match Opcode.ofByte? b with
  | none => unknown b
  | some op =>
    if code.size < i + op.length then truncated op
    else
      let arg (k : Nat) : Nat := if k ≤ op.arity then (code.getD (i + k) 0).toNat else 0
      ofOpcode op (arg 1) (arg 2)

end Instruction

end StackScript
