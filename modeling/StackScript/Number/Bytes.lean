/-!
Little-endian bytes of natural numbers.
-/
namespace StackScript

abbrev Bytes := List UInt8

namespace Bytes

/-- The lowest `count` bytes of a number, the least significant first. -/
def ofNat : Nat → Nat → Bytes
  | 0, _ => []
  | count + 1, n => UInt8.ofNat n :: ofNat count (n / 256)

def toNat : Bytes → Nat
  | [] => 0
  | b :: bs => b.toNat + 256 * toNat bs

@[simp] theorem length_ofNat (count n : Nat) : (ofNat count n).length = count := by
  induction count generalizing n with
  | zero => rfl
  | succ k ih => simp [ofNat, ih]

theorem toNat_ofNat (count n : Nat) : toNat (ofNat count n) = n % Nat.pow 256 count := by
  show _ = n % 256 ^ count
  induction count generalizing n with
  | zero => simp [ofNat, toNat, Nat.mod_one]
  | succ k ih =>
    have h : (UInt8.ofNat n).toNat = n % 256 := by simp
    rw [ofNat, toNat, ih, h, Nat.pow_succ, Nat.mul_comm (256 ^ k), Nat.mod_mul]

theorem toNat_lt (bs : Bytes) : toNat bs < Nat.pow 256 bs.length := by
  show _ < 256 ^ bs.length
  induction bs with
  | nil => simp [toNat]
  | cons b bs ih =>
    have := b.toNat_lt
    simp only [toNat, List.length_cons, Nat.pow_succ]
    omega

theorem ofNat_toNat (bs : Bytes) : ofNat bs.length (toNat bs) = bs := by
  induction bs with
  | nil => rfl
  | cons b bs ih =>
    have hb := b.toNat_lt
    have h : (b.toNat + 256 * toNat bs) / 256 = toNat bs := by omega
    have h' : UInt8.ofNat (b.toNat + 256 * toNat bs) = b := by
      apply UInt8.toNat.inj
      simp only [UInt8.toNat_ofNat']
      omega
    simp [ofNat, toNat, h, h', ih]

end Bytes

end StackScript
