import StackScript.Text.Quoted

/-!
What can go wrong while a program runs. Byte code carries no positions, so a fault has none.
-/
namespace StackScript

inductive Fault
  | unknownOpcode (byte : UInt8)
  | indexOutOfBounds (index : Int) (length : Nat)
  | divisionByZero
  | stackUnderflow (needed available : Nat)
  | stackOverflow (limit : Nat)
  | unexpectedValueType (expected found : String)
  | danglingHandle (raw : Nat)
  | notCallable (kind name : String)
  | badFunctionIndex (module : String) (index : Nat)
  | aborted (steps : Nat)
  | exponentOutOfRange (exponent : Int)
  | truncatedInstruction (opcode function : String)
  | staticOutOfRange (index : Nat)
  | typeOutOfRange (index : Nat)
  | noImport (module : String) (index : Nat)
  | droppedModule
  | noFrame
deriving DecidableEq, Repr

namespace Fault

def message : Fault → String
  | unknownOpcode b => "Not implemented: opcode 0x" ++ Text.padded 2 (Text.hex b.toNat)
  | indexOutOfBounds i n => "Index out of bounds: " ++ toString i ++ " (length " ++ toString n ++ ")"
  | divisionByZero => "Division by zero"
  | stackUnderflow n a =>
    "Stack underflow: need " ++ toString n ++ " bytes, have " ++ toString a
  | stackOverflow n => "Stack overflow: limit is " ++ toString n ++ " bytes"
  | unexpectedValueType e f => "Unexpected value type: expected " ++ e ++ ", found " ++ f
  | danglingHandle r => "Dangling heap handle 0x" ++ Text.hex r
  | notCallable k n => "Cannot call " ++ k ++ " function '" ++ n ++ "'"
  | badFunctionIndex m i =>
    "Function index " ++ toString i ++ " out of range in module '" ++ m ++ "'"
  | aborted n => "Execution aborted after " ++ toString n ++ " steps"
  | exponentOutOfRange e => "exponent out of range: " ++ toString e
  | truncatedInstruction o f => "truncated instruction " ++ o ++ " in '" ++ f ++ "'"
  | staticOutOfRange i => "static value " ++ toString i ++ " out of range"
  | typeOutOfRange i => "type " ++ toString i ++ " out of range"
  | noImport m i => "module '" ++ m ++ "' has no import " ++ toString i
  | droppedModule => "closure refers to a dropped module"
  | noFrame => "return without a call frame"

end Fault

end StackScript
