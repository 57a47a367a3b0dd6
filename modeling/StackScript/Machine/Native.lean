import StackScript.Machine

/-!
What the native functions do. They pull their arguments, the first parameter first, give up the references
in them, and push their result.
-/
namespace StackScript

namespace FloatWidth

def size : FloatWidth → Nat
  | f32 => 4
  | f64 => 8

def format : FloatWidth → Binary
  | f32 => .single
  | f64 => .double

def arith (w : FloatWidth) (op : FloatOp) (a b : Nat) : Nat :=
  match w with
  | f32 => (op.run32 (.ofNat a) (.ofNat b)).toNat
  | f64 => (op.run64 (.ofNat a) (.ofNat b)).toNat

end FloatWidth

namespace Native

open Run

def run : Native → Run Unit
  | stringConcat => do
    let a ← pullString
    let b ← pullString
    pushString (a ++ b)
  | stringEqual => do
    let a ← pullString
    let b ← pullString
    pushBool (a = b)
  | stringLength => do
    let s ← pullString
    pushInt32 (.ofNat s.length)
  | listLength => do
    let r ← pullHandle
    let (elem, bytes) ← readHeap fun h => h.list r
    let _ ← decref r
    pushInt32 (.ofNat (Content.count elem bytes))
  | print => do record (.printed (← pullString))
  | int32ToInt64 => do
    let n ← pullInt32
    pushInt64 n.toInt64
  | int64ToInt32 => do
    let n ← pullInt64
    pushInt32 n.toInt32
  | int32ToFloat64 => do
    let n ← pullInt32
    pushNat 8 (Binary.double.ofInt n.toInt)
  | float64ToInt32 => do
    let bits ← pullNat 8
    pushInt32 (.ofInt (Binary.double.toInt (-0x80000000) 0x7FFFFFFF bits))
  | int32ToString => do
    let n ← pullInt32
    pushString (toString n.toInt)
  | int64ToString => do
    let n ← pullInt64
    pushString (toString n.toInt)
  | float64ToString => do
    let bits ← pullNat 8
    pushString (Binary.double.text bits)
  | floatArith w op => do
    let a ← pullNat w.size
    let b ← pullNat w.size
    pushNat w.size (w.arith op a b)
  | floatTest w c => do
    let a ← pullNat w.size
    let b ← pullNat w.size
    pushBool (w.format.test c a b)
  | floatNegate w => do
    let a ← pullNat w.size
    pushNat w.size (w.format.neg a)

end Native

end StackScript
