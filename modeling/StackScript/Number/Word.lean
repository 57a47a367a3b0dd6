import StackScript.Fault
import StackScript.Number.Comparison

/-!
Words: bytes, and signed integers of 32 and 64 bits. Arithmetic wraps around, shifts take their amount
modulo the width, and division truncates.
-/
namespace StackScript

inductive Width
  | w8 | w32 | w64
deriving DecidableEq, Repr, Inhabited

namespace Width

def all : List Width := [w8, w32, w64]

def size : Width → Nat
  | w8 => 1
  | w32 => 4
  | w64 => 8

def bits (w : Width) : Nat := 8 * w.size

/-- Bytes are unsigned, wider words are signed. -/
def signed : Width → Bool
  | w8 => false
  | _ => true

def text : Width → String
  | w8 => "8"
  | w32 => "32"
  | w64 => "64"

end Width

abbrev Word (w : Width) := BitVec w.bits

/-- Binary operations from two words to a word. -/
inductive Arith
  | bitOr | bitAnd | bitXor | shiftLeft | shiftRight | add | sub | mul | div | mod | exp
deriving DecidableEq, Repr, Inhabited

namespace Word

variable {w : Width}

def toInt (a : Word w) : Int := if w.signed then BitVec.toInt a else BitVec.toNat a

/-- `acc * a ^ e` by squaring, for exponents below `2 ^ fuel`. -/
def powerFrom : Nat → Word w → Nat → Word w → Word w
  | 0, _, _, acc => acc
  | fuel + 1, a, e, acc => powerFrom fuel (a * a) (e / 2) (if e % 2 = 1 then acc * a else acc)

/-- The exponents that words are raised to fit into 32 bits. -/
def power (a : Word w) (e : Nat) : Word w := powerFrom 32 a e 1

def arith (op : Arith) (a b : Word w) : Except Fault (Word w) :=
  match op with
  | .bitOr => .ok (a ||| b)
  | .bitAnd => .ok (a &&& b)
  | .bitXor => .ok (a ^^^ b)
  | .shiftLeft => .ok (a <<< (b.toNat % w.bits))
  | .shiftRight =>
    .ok (if w.signed then a.sshiftRight (b.toNat % w.bits) else a >>> (b.toNat % w.bits))
  | .add => .ok (a + b)
  | .sub => .ok (a - b)
  | .mul => .ok (a * b)
  | .div => if b = 0 then .error .divisionByZero else .ok (if w.signed then a.sdiv b else a / b)
  | .mod => if b = 0 then .error .divisionByZero else .ok (if w.signed then a.srem b else a % b)
  | .exp =>
    let e := toInt b
    if 0 ≤ e ∧ e < 0x100000000 then .ok (a.power e.toNat) else .error (.exponentOutOfRange e)

def test (c : Comparison) (a b : Word w) : Bool := c.ofOrdering (compare a.toInt b.toInt)

theorem powerFrom_eq (fuel : Nat) (a : Word w) (e : Nat) (acc : Word w) (h : e < Nat.pow 2 fuel) :
    powerFrom fuel a e acc = acc * BitVec.pow a e := by
  change e < 2 ^ fuel at h
  change _ = acc * a ^ e
  induction fuel generalizing a e acc with
  | zero =>
    have : e = 0 := by simpa using h
    simp [powerFrom, this]
  | succ n ih =>
    have he : e / 2 < 2 ^ n := by
      rw [Nat.pow_succ] at h
      omega
    have sq : ∀ k, (a * a) ^ k = a ^ (2 * k) := by
      intro k
      induction k with
      | zero => simp
      | succ k ihk => rw [BitVec.pow_succ, ihk, Nat.mul_succ, BitVec.pow_succ, BitVec.pow_succ, BitVec.mul_assoc]
    rw [powerFrom, ih _ _ _ he, sq]
    split
    next hodd =>
      have : e = 2 * (e / 2) + 1 := by omega
      conv => rhs; rw [this, BitVec.pow_succ]
      rw [BitVec.mul_assoc, BitVec.mul_comm a]
    next heven =>
      have : e = 2 * (e / 2) := by omega
      conv => rhs; rw [this]

end Word

end StackScript
