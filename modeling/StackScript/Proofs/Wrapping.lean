import Mathlib.Data.Int.Bitwise
import StackScript.Proofs.Contents

/-!
Integers of a width. An operation on words is the operation on the integers that they stand for, reduced to the width.
On the stack the result takes the place of the operands.
-/
namespace StackScript

/-! ### Operations on integers -/

/-- What an operation makes of two integers. Shifts take their amount modulo the number of bits. -/
def Arith.exact (bits : Nat) (x y : Int) : Arith → Except Fault Int
  | .bitOr => .ok (x.lor y)
  | .bitAnd => .ok (x.land y)
  | .bitXor => .ok (x.xor y)
  | .shiftLeft => .ok (x * 2 ^ (y % bits).toNat)
  | .shiftRight => .ok (x / 2 ^ (y % bits).toNat)
  | .add => .ok (x + y)
  | .sub => .ok (x - y)
  | .mul => .ok (x * y)
  | .div => if y = 0 then .error .divisionByZero else .ok (x.tdiv y)
  | .mod => if y = 0 then .error .divisionByZero else .ok (x.tmod y)
  | .exp => if 0 ≤ y ∧ y < 2 ^ 32 then .ok (x ^ y.toNat) else .error (.exponentOutOfRange y)

/-- Whether a comparison holds of two integers. -/
def Comparison.holds (x y : Int) : Comparison → Bool
  | .equal => x = y
  | .notEqual => x ≠ y
  | .lessEqual => x ≤ y
  | .greaterEqual => x ≥ y
  | .lessThan => x < y
  | .greaterThan => x > y

namespace Word

variable {w : Width}

/-- The word that an integer is reduced to. -/
def reduce (w : Width) (x : Int) : Word w := BitVec.ofInt w.bits x

/-- The bytes of a word on the stack. -/
def bytes (a : Word w) : Bytes := Bytes.ofNat w.size a.toNat

/-! ### Reducing -/

theorem toInt_of_signed (h : w.signed) (a : Word w) : toInt a = BitVec.toInt a := if_pos h

theorem toInt_of_unsigned (h : ¬ w.signed) (a : Word w) : toInt a = a.toNat := if_neg h

/-- The integer that is left by reducing is the one in the range of the width that differs by a multiple of `2 ^ bits`. -/
theorem toInt_reduce (x : Int) :
    toInt (reduce w x) = if w.signed then x.bmod (2 ^ w.bits) else x % (2 ^ w.bits : Nat) := by
  by_cases h : w.signed
  · rw [toInt_of_signed h, if_pos h]
    exact BitVec.toInt_ofInt x
  · rw [toInt_of_unsigned h, if_neg h, reduce, BitVec.toNat_ofInt]
    exact Int.toNat_of_nonneg (Int.emod_nonneg _ (by simp))

theorem reduce_toInt (a : Word w) : reduce w (toInt a) = a := by
  by_cases h : w.signed
  · rw [toInt_of_signed h]
    exact BitVec.ofInt_toInt
  · rw [toInt_of_unsigned h, reduce, BitVec.ofInt_natCast, BitVec.ofNat_toNat, BitVec.setWidth_eq]

theorem toInt_eq_zero {a : Word w} : toInt a = 0 ↔ a = 0 := by
  refine ⟨fun h => ?_, fun h => ?_⟩
  · rw [← reduce_toInt a, h]
    rfl
  · subst h
    cases w <;> rfl

theorem reduce_add (x y : Int) : reduce w (x + y) = reduce w x + reduce w y := BitVec.ofInt_add x y

theorem reduce_mul (x y : Int) : reduce w (x * y) = reduce w x * reduce w y := BitVec.ofInt_mul x y

theorem reduce_neg (x : Int) : reduce w (-x) = -reduce w x := BitVec.ofInt_neg

theorem reduce_sub (x y : Int) : reduce w (x - y) = reduce w x - reduce w y := by
  rw [Int.sub_eq_add_neg, reduce_add, reduce_neg, BitVec.sub_eq_add_neg]

theorem reduce_pow (x : Int) (k : Nat) : reduce w (x ^ k) = BitVec.pow (reduce w x) k := by
  induction k with
  | zero =>
    rw [pow_zero]
    cases w <;> rfl
  | succ k ih =>
    rw [pow_succ, reduce_mul, ih]
    rfl

/-! ### Bits -/

theorem getLsbD_reduce (x : Int) {i : Nat} (h : i < w.bits) : (reduce w x).getLsbD i = x.testBit i := by
  cases x with
  | ofNat k =>
    change (BitVec.ofInt w.bits (k : Int)).getLsbD i = k.testBit i
    rw [BitVec.ofInt_natCast, BitVec.getLsbD_ofNat]
    simp [h]
  | negSucc k =>
    change (BitVec.ofInt w.bits (Int.negSucc k)).getLsbD i = !k.testBit i
    rw [BitVec.ofInt_negSucc_eq_not_ofNat, BitVec.getLsbD_not, BitVec.getLsbD_ofNat]
    simp [h]

theorem testBit_toInt (a : Word w) {i : Nat} (h : i < w.bits) : (toInt a).testBit i = a.getLsbD i := by
  rw [← getLsbD_reduce _ h, reduce_toInt]

/-- Integers are combined bit by bit, as words are. -/
theorem reduce_bitwise {f : Int → Int → Int} {g : Word w → Word w → Word w} {bit : Bool → Bool → Bool}
    (hf : ∀ x y i, (f x y).testBit i = bit (x.testBit i) (y.testBit i))
    (hg : ∀ a b i, i < w.bits → (g a b).getLsbD i = bit (a.getLsbD i) (b.getLsbD i)) (a b : Word w) :
    reduce w (f (toInt a) (toInt b)) = g a b := by
  refine BitVec.eq_of_getLsbD_eq fun i hi => ?_
  rw [getLsbD_reduce _ hi, hf, testBit_toInt a hi, testBit_toInt b hi, hg a b i hi]

/-! ### Shifts -/

/-- The amount of a shift. A multiple of `2 ^ bits` is one of the number of bits. -/
theorem toNat_mod_bits (b : Word w) : (toInt b % w.bits).toNat = b.toNat % w.bits := by
  have multiple : (w.bits : Int) ∣ (2 ^ w.bits : Nat) := by cases w <;> decide
  have same : toInt b % w.bits = (b.toNat : Int) % w.bits := by
    by_cases h : w.signed
    · rw [toInt_of_signed h, BitVec.toInt_eq_toNat_bmod, ← Int.emod_emod_of_dvd _ multiple, Int.bmod_emod,
        Int.emod_emod_of_dvd _ multiple]
    · rw [toInt_of_unsigned h]
  rw [same, ← Int.natCast_emod, Int.toNat_natCast]

theorem reduce_shiftLeft (a : Word w) (k : Nat) : reduce w (toInt a * 2 ^ k) = a <<< k := by
  have power : reduce w (2 ^ k) = BitVec.twoPow w.bits k := by
    rw [show (2 : Int) ^ k = (2 ^ k : Nat) by push_cast; rfl, reduce, BitVec.ofInt_natCast]
    exact BitVec.eq_of_toNat_eq (by rw [BitVec.toNat_ofNat, BitVec.toNat_twoPow])
  rw [reduce_mul, reduce_toInt, power, BitVec.shiftLeft_eq_mul_twoPow]

theorem reduce_shiftRight (a : Word w) (k : Nat) :
    reduce w (toInt a / 2 ^ k) = if w.signed then a.sshiftRight k else a >>> k := by
  have power : (2 : Int) ^ k = (2 ^ k : Nat) := by push_cast; rfl
  by_cases h : w.signed
  · rw [if_pos h, toInt_of_signed h, power, ← Int.shiftRight_eq_div_pow, ← BitVec.toInt_sshiftRight]
    exact BitVec.ofInt_toInt
  · rw [if_neg h, toInt_of_unsigned h, power, ← Int.natCast_ediv, reduce, BitVec.ofInt_natCast]
    refine BitVec.eq_of_toNat_eq ?_
    rw [BitVec.toNat_ofNat, BitVec.toNat_ushiftRight, Nat.shiftRight_eq_div_pow]
    exact Nat.mod_eq_of_lt (Nat.lt_of_le_of_lt (Nat.div_le_self _ _) a.isLt)

/-! ### Division -/

theorem reduce_tdiv (a b : Word w) : reduce w ((toInt a).tdiv (toInt b)) = if w.signed then a.sdiv b else a / b := by
  by_cases h : w.signed
  · rw [if_pos h, toInt_of_signed h, toInt_of_signed h]
    refine BitVec.eq_of_toInt_eq ?_
    rw [BitVec.toInt_sdiv]
    exact BitVec.toInt_ofInt _
  · rw [if_neg h, toInt_of_unsigned h, toInt_of_unsigned h, ← Int.ofNat_tdiv, reduce, BitVec.ofInt_natCast]
    refine BitVec.eq_of_toNat_eq ?_
    rw [BitVec.toNat_ofNat, BitVec.toNat_udiv]
    exact Nat.mod_eq_of_lt (Nat.lt_of_le_of_lt (Nat.div_le_self _ _) a.isLt)

theorem reduce_tmod (a b : Word w) : reduce w ((toInt a).tmod (toInt b)) = if w.signed then a.srem b else a % b := by
  by_cases h : w.signed
  · rw [if_pos h, toInt_of_signed h, toInt_of_signed h, ← BitVec.toInt_srem]
    exact BitVec.ofInt_toInt
  · rw [if_neg h, toInt_of_unsigned h, toInt_of_unsigned h, ← Int.ofNat_tmod, reduce, BitVec.ofInt_natCast]
    refine BitVec.eq_of_toNat_eq ?_
    rw [BitVec.toNat_ofNat, BitVec.toNat_umod]
    exact Nat.mod_eq_of_lt (Nat.lt_of_le_of_lt (Nat.mod_le _ _) a.isLt)

/-- Quotient and remainder make up the dividend, also where the quotient is out of range. -/
theorem reduce_quotient_remainder (a b : Word w) :
    reduce w ((toInt a).tdiv (toInt b)) * b + reduce w ((toInt a).tmod (toInt b)) = a := by
  have whole := congrArg (reduce w) (Int.tdiv_mul_add_tmod (toInt a) (toInt b))
  rwa [reduce_add, reduce_mul, reduce_toInt b, reduce_toInt a] at whole

/-! ### Words and integers -/

/-- Operations on words are those on integers, reduced. -/
theorem arith_eq (op : Arith) (a b : Word w) :
    Word.arith op a b = (op.exact w.bits (toInt a) (toInt b)).map (reduce w) := by
  cases op with
  | bitOr => exact congrArg Except.ok (reduce_bitwise Int.testBit_lor (fun a b i _ => BitVec.getLsbD_or) a b).symm
  | bitAnd => exact congrArg Except.ok (reduce_bitwise Int.testBit_land (fun a b i _ => BitVec.getLsbD_and) a b).symm
  | bitXor => exact congrArg Except.ok (reduce_bitwise Int.testBit_lxor (fun a b i _ => BitVec.getLsbD_xor) a b).symm
  | shiftLeft =>
    refine congrArg Except.ok ?_
    rw [toNat_mod_bits, reduce_shiftLeft]
  | shiftRight =>
    refine congrArg Except.ok ?_
    rw [toNat_mod_bits, reduce_shiftRight]
  | add => exact congrArg Except.ok (by rw [reduce_add, reduce_toInt, reduce_toInt])
  | sub => exact congrArg Except.ok (by rw [reduce_sub, reduce_toInt, reduce_toInt])
  | mul => exact congrArg Except.ok (by rw [reduce_mul, reduce_toInt, reduce_toInt])
  | div =>
    simp only [Word.arith, Arith.exact, toInt_eq_zero]
    split
    · rfl
    · exact congrArg Except.ok (reduce_tdiv a b).symm
  | mod =>
    simp only [Word.arith, Arith.exact, toInt_eq_zero]
    split
    · rfl
    · exact congrArg Except.ok (reduce_tmod a b).symm
  | exp =>
    have bound : (0x100000000 : Int) = 2 ^ 32 := rfl
    simp only [Word.arith, Arith.exact, bound]
    split
    next fits =>
      have small : (toInt b).toNat < Nat.pow 2 32 := by
        change (toInt b).toNat < 2 ^ 32
        omega
      refine congrArg Except.ok ?_
      rw [power, powerFrom_eq 32 a _ 1 small, reduce_pow, reduce_toInt]
      exact BitVec.one_mul _
    next => rfl

theorem not_eq_reduce (a : Word w) : ~~~a = reduce w (toInt a).lnot := by
  refine BitVec.eq_of_getLsbD_eq fun i hi => ?_
  rw [getLsbD_reduce _ hi, Int.testBit_lnot, testBit_toInt a hi, BitVec.getLsbD_not, decide_eq_true hi, Bool.true_and]

theorem test_eq (c : Comparison) (a b : Word w) : Word.test c a b = c.holds (toInt a) (toInt b) := by
  unfold Word.test
  generalize toInt a = x
  generalize toInt b = y
  have order : compare x y = if x < y then .lt else if x = y then .eq else .gt := rfl
  rw [order]
  unfold Comparison.ofOrdering Comparison.holds
  cases c <;> grind

theorem toNat_lt (a : Word w) : a.toNat < Nat.pow 256 w.size := by
  have same : Nat.pow 256 w.size = 2 ^ w.bits := by cases w <;> rfl
  rw [same]
  exact a.isLt

theorem length_bytes (a : Word w) : a.bytes.length = w.size := Bytes.length_ofNat ..

end Word

namespace Run

variable {w : Width} {m : Machine} {low : Bytes} {h : Heap}

/-! ### On the stack -/

theorem pullWord_given (a : Word w) : pullWord w (m.given (low ++ a.bytes) h) = .ok a (m.given low h) := by
  have pulled : pullNat w.size (m.given (low ++ a.bytes) h) = .ok a.toNat (m.given low h) := pullNat_given a.toNat_lt
  rw [pullWord, bind_of_ok pulled, BitVec.ofNat_toNat, BitVec.setWidth_eq]
  rfl

theorem pushWord_given (a : Word w) (room : low.length + w.size ≤ m.stack.limit) :
    pushWord a (m.given low h) = .ok () (m.given (low ++ a.bytes) h) := push_given (by rwa [Bytes.length_ofNat])

theorem pushBool_given (x : Bool) (room : low.length < m.stack.limit) :
    pushBool x (m.given low h) = .ok () (m.given (low ++ [if x then 1 else 0]) h) := push_given room

theorem runWord_arith (op : Arith) (a b : Word w) (room : low.length + w.size ≤ m.stack.limit) :
    runWord w (.arith op) (m.given (low ++ b.bytes ++ a.bytes) h) =
      match op.exact w.bits a.toInt b.toInt with
      | .ok x => .ok () (m.given (low ++ (Word.reduce w x).bytes) h)
      | .error e => .error e (m.given low h) := by
  rw [runWord, bind_of_ok (pullWord_given a), bind_of_ok (pullWord_given b), Word.arith_eq]
  cases op.exact w.bits a.toInt b.toInt with
  | error e => rfl
  | ok x => exact pushWord_given (Word.reduce w x) room

theorem runWord_compare (c : Comparison) (a b : Word w) (room : low.length < m.stack.limit) :
    runWord w (.compare c) (m.given (low ++ b.bytes ++ a.bytes) h) =
      .ok () (m.given (low ++ [if c.holds a.toInt b.toInt then 1 else 0]) h) := by
  rw [runWord, bind_of_ok (pullWord_given a), bind_of_ok (pullWord_given b), Word.test_eq, pushBool_given _ room]

theorem runWord_negate (a : Word w) (room : low.length + w.size ≤ m.stack.limit) :
    runWord w .negate (m.given (low ++ a.bytes) h) = .ok () (m.given (low ++ (Word.reduce w (-a.toInt)).bytes) h) := by
  rw [runWord, bind_of_ok (pullWord_given a), Word.reduce_neg, Word.reduce_toInt, pushWord_given _ room]

theorem runWord_bitNot (a : Word w) (room : low.length + w.size ≤ m.stack.limit) :
    runWord w .bitNot (m.given (low ++ a.bytes) h) = .ok () (m.given (low ++ (Word.reduce w a.toInt.lnot).bytes) h) := by
  rw [runWord, bind_of_ok (pullWord_given a), ← Word.not_eq_reduce, pushWord_given _ room]

/-- An instruction on words takes its operands `a`, which is on top, and `b` from the stack, and leaves there the exact
result on integers, reduced to the width. There is none for a divisor of zero and for an exponent that takes more than 32
bits or is negative. Quotients are truncated, and what they leave over makes up the dividend; only the least integer has
a quotient, by minus one, that is out of range, and it comes back to the least integer. -/
theorem word_exact (l : Library) (act : Activation) (p q : Nat) (a b : Word w)
    (fits : (low ++ b.bytes ++ a.bytes).length ≤ m.stack.limit) :
    (∀ x, (Word.reduce w x).toInt = if w.signed then x.bmod (2 ^ w.bits) else x % (2 ^ w.bits : Nat)) ∧
    (∀ op, execute l act (.word (.arith op) w) p q (m.given (low ++ b.bytes ++ a.bytes) h) =
      match op.exact w.bits a.toInt b.toInt with
      | .ok x => .ok none (m.given (low ++ (Word.reduce w x).bytes) h)
      | .error e => .error e (m.given low h)) ∧
    (∀ c, execute l act (.word (.compare c) w) p q (m.given (low ++ b.bytes ++ a.bytes) h) =
      .ok none (m.given (low ++ [if c.holds a.toInt b.toInt then 1 else 0]) h)) ∧
    execute l act (.word .negate w) p q (m.given (low ++ b.bytes ++ a.bytes) h) =
      .ok none (m.given (low ++ b.bytes ++ (Word.reduce w (-a.toInt)).bytes) h) ∧
    execute l act (.word .bitNot w) p q (m.given (low ++ b.bytes ++ a.bytes) h) =
      .ok none (m.given (low ++ b.bytes ++ (Word.reduce w a.toInt.lnot).bytes) h) ∧
    Word.reduce w (a.toInt.tdiv b.toInt) * b + Word.reduce w (a.toInt.tmod b.toInt) = a ∧
    (w.signed → a = BitVec.intMin w.bits → b = -1 →
      Word.reduce w (a.toInt.tdiv b.toInt) = a ∧ Word.reduce w (a.toInt.tmod b.toInt) = 0) ∧
    ∀ x y, Comparison.notEqual.holds x y = !Comparison.equal.holds x y ∧
      Comparison.lessThan.holds x y = Comparison.greaterThan.holds y x := by
  have size : 0 < w.size := by cases w <;> decide
  rw [List.length_append, List.length_append, a.length_bytes, b.length_bytes] at fits
  have room : low.length + w.size ≤ m.stack.limit := by omega
  have above : (low ++ b.bytes).length + w.size ≤ m.stack.limit := by
    rwa [List.length_append, b.length_bytes]
  refine ⟨Word.toInt_reduce, fun op => ?_, fun c => ?_, ?_, ?_, Word.reduce_quotient_remainder a b, ?_,
    fun x y => ⟨?_, rfl⟩⟩
  · have ran := runWord_arith (h := h) op a b room
    change (runWord w (.arith op) >>= fun _ => pure none) _ = _
    cases hx : op.exact w.bits a.toInt b.toInt with
    | ok x =>
      rw [hx] at ran
      exact bind_of_ok ran _
    | error e =>
      rw [hx] at ran
      exact bind_of_error ran _
  · exact bind_of_ok (runWord_compare c a b (by omega)) _
  · exact bind_of_ok (runWord_negate a above) _
  · exact bind_of_ok (runWord_bitNot a above) _
  · rintro signed rfl rfl
    cases w with
    | w8 => cases signed
    | w32 | w64 => decide
  · simp [Comparison.holds]

/-- The least integer over minus one, above another byte. -/
theorem word_exact_least :
    let least : Word .w32 := BitVec.intMin 32
    let minusOne : Word .w32 := -1
    execute {} default (.word (.arith .div) .w32) 0 0 (Machine.given {} ([7] ++ minusOne.bytes ++ least.bytes) {}) =
        .ok none (Machine.given {} ([7] ++ least.bytes) {}) ∧
      Word.reduce .w32 (least.toInt.tmod minusOne.toInt) = 0 := by
  intro least minusOne
  have quotient : Arith.exact Width.w32.bits least.toInt minusOne.toInt .div = .ok 0x80000000 := rfl
  have ran := @word_exact .w32 {} [7] {} {} default 0 0 least minusOne (by decide)
  have divided := ran.2.1 .div
  rw [quotient] at divided
  exact ⟨divided, (ran.2.2.2.2.2.2.1 rfl rfl rfl).2⟩

end Run

end StackScript
