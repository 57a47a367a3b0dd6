import StackScript.Proofs.Decimals

/-!
Data of floating point as decimals. The decimal that a finite datum is shown as lies in the interval of numbers that round to the
datum, and the intervals of different data have nothing in common; so different data have different texts.
-/
namespace StackScript

namespace Binary

/-- A datum that is a number. -/
def isFinite (f : Binary) (bits : Nat) : Bool :=
  match f.decode bits with
  | .finite .. => true
  | _ => false

/-! ### Canonical data -/

/-- The quotient of a pair of numbers. -/
def ratio (x : Nat × Nat) : ℚ := x.1 / x.2

theorem ratio_scaled {num den : Nat} (pos : 0 < den) (q : Int) :
    ratio (scaled num den q) = num / den * 2 ^ q ∧ 0 < (scaled num den q).2 := by
  unfold scaled ratio
  split
  · next h =>
    obtain ⟨k, rfl⟩ : ∃ k : Nat, q = k := ⟨q.toNat, by omega⟩
    refine ⟨?_, pos⟩
    simp [Nat.shiftLeft_eq]
    ring
  · next h =>
    obtain ⟨k, rfl⟩ : ∃ k : Nat, q = -(k : Int) := ⟨(-q).toNat, by omega⟩
    refine ⟨?_, by simpa [Nat.shiftLeft_eq] using pos⟩
    simp [Nat.shiftLeft_eq]
    ring

/-- Significands and scales of finite data: only those of the least scale may have leading zeros. -/
structure Canonical (f : Binary) (m : Nat) (q : Int) : Prop where
  small : m < 2 ^ (f.fraction + 1)
  least : f.least ≤ q
  normal : 2 ^ f.fraction ≤ m ∨ q = f.least

variable {f : Binary} {m m' bits : Nat} {q q' : Int} {s : Bool}

/-- A finite datum is determined by its sign, significand and scale. -/
theorem decode_finite (h : f.decode bits = .finite s m q) : f.Canonical m q ∧ s = decide (f.signBit ≤ bits) ∧
    bits % f.signBit = (q - f.least).toNat * 2 ^ f.fraction + m ∧ q ≤ f.least + 2 ^ f.exponent := by
  unfold decode at h
  dsimp only at h
  have pos : 0 < 2 ^ f.fraction := Nat.two_pow_pos _
  have rest : bits % f.signBit % 2 ^ f.fraction < 2 ^ f.fraction := Nat.mod_lt _ pos
  have split := Nat.div_add_mod (bits % f.signBit) (2 ^ f.fraction)
  have double : 2 ^ (f.fraction + 1) = 2 ^ f.fraction + 2 ^ f.fraction := by ring
  simp only [Nat.pow_eq] at h
  split_ifs at h with finite zero inf
  · cases h
    refine ⟨⟨by omega, le_refl _, .inr rfl⟩, rfl, ?_, ?_⟩
    · rw [zero, Nat.mul_zero, Nat.zero_add] at split
      simp [split]
    · have : (0 : Int) ≤ 2 ^ f.exponent := by positivity
      omega
  · have below : bits % f.signBit / 2 ^ f.fraction < 2 ^ f.exponent := by
      have bound : bits % f.signBit < 2 ^ f.exponent * 2 ^ f.fraction :=
        finite.trans_le (Nat.mul_le_mul_right _ (Nat.sub_le _ _))
      exact Nat.div_lt_of_lt_mul (by rwa [Nat.mul_comm] at bound)
    cases h
    generalize bits % f.signBit / 2 ^ f.fraction = field at *
    refine ⟨⟨by omega, by omega, .inl (by omega)⟩, rfl, ?_, ?_⟩
    · have scale : (f.least + (field - 1 : Nat) - f.least).toNat = field - 1 := by omega
      obtain ⟨k, rfl⟩ : ∃ k, field = k + 1 := ⟨field - 1, by omega⟩
      have shift : 2 ^ f.fraction * (k + 1) = k * 2 ^ f.fraction + 2 ^ f.fraction := by ring
      rw [scale, Nat.add_sub_cancel]
      omega
    · have : (field : Int) < 2 ^ f.exponent := by exact_mod_cast below
      omega

/-- A finite datum by its parts. -/
theorem eq_of_decode {bits' : Nat} (h : f.decode bits = .finite s m q) (h' : f.decode bits' = .finite s m q)
    (small : bits < 2 * f.signBit) (small' : bits' < 2 * f.signBit) : bits = bits' := by
  obtain ⟨-, sign, magnitude, -⟩ := decode_finite h
  obtain ⟨-, sign', magnitude', -⟩ := decode_finite h'
  have same : bits % f.signBit = bits' % f.signBit := magnitude.trans magnitude'.symm
  have signs : f.signBit ≤ bits ↔ f.signBit ≤ bits' := by
    rw [← decide_eq_decide, ← sign, ← sign']
  by_cases high : f.signBit ≤ bits
  · have low := signs.1 high
    rw [Nat.mod_eq_sub_mod high, Nat.mod_eq_sub_mod low, Nat.mod_eq_of_lt (by omega), Nat.mod_eq_of_lt (by omega)] at same
    omega
  · have low := mt signs.2 high
    rwa [Nat.mod_eq_of_lt (by omega), Nat.mod_eq_of_lt (by omega)] at same

end Binary

namespace Decimal

open Binary (ratio Canonical)

theorem ratio_scaled {num den : Nat} (pos : 0 < den) (k : Int) :
    ratio (scaled num den k) = num / den * 10 ^ k ∧ 0 < (scaled num den k).2 := by
  unfold scaled ratio
  split
  · next h =>
    obtain ⟨n, rfl⟩ : ∃ n : Nat, k = n := ⟨k.toNat, by omega⟩
    refine ⟨?_, pos⟩
    simp
    ring
  · next h =>
    obtain ⟨n, rfl⟩ : ∃ n : Nat, k = -(n : Int) := ⟨(-k).toNat, by omega⟩
    refine ⟨?_, by simpa using pos⟩
    simp
    ring

/-! ### Intervals -/

/-- A number belongs to the interval. -/
def Interval.Has (i : Interval) (x : ℚ) : Prop :=
  if i.closed then (i.low : ℚ) * 2 ^ i.scale ≤ x ∧ x ≤ i.high * 2 ^ i.scale
  else (i.low : ℚ) * 2 ^ i.scale < x ∧ x < i.high * 2 ^ i.scale

theorem Interval.holds_iff (i : Interval) (d : Nat) (k : Int) : i.holds d k ↔ i.Has (d * 10 ^ k) := by
  obtain ⟨decimal, posDecimal⟩ := @ratio_scaled d 1 Nat.one_pos k
  obtain ⟨binary, posBinary⟩ := @Binary.ratio_scaled 1 1 Nat.one_pos i.scale
  rw [Nat.cast_one, div_one] at decimal binary
  rw [one_mul] at binary
  unfold holds Has
  rw [← decimal, ← binary, ratio, ratio]
  generalize scaled d 1 k = x at *
  generalize Binary.scaled 1 1 i.scale = y at *
  obtain ⟨n, m⟩ := x
  obtain ⟨p, r⟩ := y
  dsimp only at *
  have hm : (0 : ℚ) < m := by exact_mod_cast posDecimal
  have hr : (0 : ℚ) < r := by exact_mod_cast posBinary
  have cross (a : Nat) : ((a : ℚ) * (p / r) ≤ n / m ↔ a * p * m ≤ n * r) ∧ ((a : ℚ) * (p / r) < n / m ↔ a * p * m < n * r) := by
    rw [← mul_div_assoc, div_le_div_iff₀ hr hm, div_lt_div_iff₀ hr hm]
    exact ⟨by exact_mod_cast Iff.rfl, by exact_mod_cast Iff.rfl⟩
  have cross' (a : Nat) : ((n : ℚ) / m ≤ a * (p / r) ↔ n * r ≤ a * p * m) ∧ ((n : ℚ) / m < a * (p / r) ↔ n * r < a * p * m) := by
    rw [← mul_div_assoc, div_le_div_iff₀ hm hr, div_lt_div_iff₀ hm hr]
    exact ⟨by exact_mod_cast Iff.rfl, by exact_mod_cast Iff.rfl⟩
  cases i.closed with
  | true => simp [(cross i.low).1, (cross' i.high).1]
  | false => simp [(cross i.low).2, (cross' i.high).2]

section

variable {f : Binary} {m m' : Nat} {q q' : Int} {v : ℚ}

/-- What belongs to the interval of a datum lies between the middles to its neighbours. -/
theorem interval_bounds (h : (interval f m q).Has v) :
    ((interval f m q).low : ℚ) * 2 ^ (q - 2) ≤ v ∧ v ≤ (4 * m + 2 : Nat) * 2 ^ (q - 2) ∧
      (m % 2 ≠ 0 → ((interval f m q).low : ℚ) * 2 ^ (q - 2) < v ∧ v < (4 * m + 2 : Nat) * 2 ^ (q - 2)) := by
  change if decide (m % 2 = 0) = true then (_ : ℚ) * 2 ^ (q - 2) ≤ _ ∧ _ ≤ ((4 * m + 2 : Nat) : ℚ) * 2 ^ (q - 2)
    else (_ : ℚ) * 2 ^ (q - 2) < _ ∧ _ < ((4 * m + 2 : Nat) : ℚ) * 2 ^ (q - 2) at h
  split at h
  · next even => exact ⟨h.1, h.2, fun odd => absurd (of_decide_eq_true even) odd⟩
  · exact ⟨h.1.le, h.2.le, fun _ => h⟩

/-- The intervals of data of different scales have no decimal in common. -/
theorem not_has_both (canonical : Canonical f m q) (canonical' : Canonical f m' q') (lower : q < q')
    (h : (interval f m q).Has v) : ¬ (interval f m' q').Has v := by
  intro h'
  obtain ⟨-, high, open_⟩ := interval_bounds h
  obtain ⟨low, -, -⟩ := interval_bounds h'
  have normal : 2 ^ f.fraction ≤ m' := canonical'.normal.resolve_right (by have := canonical.least; omega)
  have small := canonical.small
  have double : 2 ^ (f.fraction + 1) = 2 * 2 ^ f.fraction := by ring
  -- one unit of the higher scale is at least two of the lower one
  have units : (2 : ℚ) * 2 ^ (q - 2) ≤ 2 ^ (q' - 2) := by
    rw [← zpow_one_add₀ (by norm_num)]
    exact zpow_le_zpow_right₀ (by norm_num) (by omega)
  have unit : (0 : ℚ) < 2 ^ (q - 2) := by positivity
  have bound : 8 * 2 ^ f.fraction ≤ 2 * (interval f m' q').low + 2 := by
    change _ ≤ 2 * (if m' = Nat.pow 2 f.fraction ∧ f.least < q' then 4 * m' - 1 else 4 * m' - 2) + 2
    split
    · omega
    · next other =>
      have : m' ≠ 2 ^ f.fraction := fun e => other ⟨e, by have := canonical.least; omega⟩
      omega
  have middle : ((2 * (interval f m' q').low : Nat) : ℚ) * 2 ^ (q - 2) ≤ (interval f m' q').low * 2 ^ (q' - 2) := by
    calc ((2 * (interval f m' q').low : Nat) : ℚ) * 2 ^ (q - 2) = (interval f m' q').low * (2 * 2 ^ (q - 2)) := by push_cast; ring
      _ ≤ (interval f m' q').low * 2 ^ (q' - 2) := by gcongr
  by_cases odd : m % 2 ≠ 0
  · have ends : ((4 * m + 2 : Nat) : ℚ) * 2 ^ (q - 2) ≤ (2 * (interval f m' q').low : Nat) * 2 ^ (q - 2) := by
      gcongr
      omega
    linarith [(open_ odd).2]
  · -- an even significand is not the largest one
    have ends : ((4 * m + 2 : Nat) : ℚ) * 2 ^ (q - 2) < (2 * (interval f m' q').low : Nat) * 2 ^ (q - 2) := by
      gcongr
      omega
    linarith

/-- A decimal belongs to the interval of one datum. -/
theorem eq_of_has (canonical : Canonical f m q) (canonical' : Canonical f m' q') (h : (interval f m q).Has v)
    (h' : (interval f m' q').Has v) : m = m' ∧ q = q' := by
  rcases lt_trichotomy q q' with lower | rfl | higher
  · exact absurd h' (not_has_both canonical canonical' lower h)
  · refine ⟨?_, rfl⟩
    -- of two significands the lower one ends where the higher one begins
    have apart {m m' : Nat} (less : m < m') (h : (interval f m q).Has v) (h' : (interval f m' q).Has v) : False := by
      obtain ⟨-, high, open_⟩ := interval_bounds h
      obtain ⟨low, -, open'⟩ := interval_bounds h'
      have unit : (0 : ℚ) < 2 ^ (q - 2) := by positivity
      have bound : 4 * m' ≤ (interval f m' q).low + 2 := by
        change _ ≤ (if m' = Nat.pow 2 f.fraction ∧ f.least < q then 4 * m' - 1 else 4 * m' - 2) + 2
        split <;> omega
      have ends : ((4 * m + 2 : Nat) : ℚ) * 2 ^ (q - 2) ≤ (interval f m' q).low * 2 ^ (q - 2) := by
        gcongr
        omega
      by_cases odd : m % 2 ≠ 0
      · linarith [(open_ odd).2]
      by_cases odd' : m' % 2 ≠ 0
      · linarith [(open' odd').1]
      have ends : ((4 * m + 2 : Nat) : ℚ) * 2 ^ (q - 2) < (interval f m' q).low * 2 ^ (q - 2) := by
        gcongr
        omega
      linarith
    rcases Nat.lt_trichotomy m m' with less | same | more
    · exact (apart less h h').elim
    · exact same
    · exact (apart more h' h).elim
  · exact absurd h (not_has_both canonical' canonical higher h')

/-! ### The search for the fewest digits -/

variable {i : Interval} {num den d : Nat} {k : Int} {x : Decimal}

theorem holds_of_onGrid (h : i.onGrid num den k = some d) : i.holds d k := by
  unfold Interval.onGrid at h
  dsimp only at h
  split at h
  · next below above =>
    cases h
    split
    · exact below
    · exact above
  · next below _ =>
    cases h
    exact below
  · next _ above =>
    cases h
    exact above
  · cases h

theorem holds_of_search : ∀ {fuel : Nat} {k : Int}, search i num den fuel k = some x → i.holds x.digits x.scale
  | 0, _, h => by cases h
  | fuel + 1, k, h => by
    rw [search] at h
    split at h
    · next d hd =>
      cases h
      exact holds_of_onGrid hd
    · exact holds_of_search h

/-- The search comes down to every grid within its bound. -/
theorem search_isSome : ∀ {fuel : Nat} {k l : Int}, (i.onGrid num den l).isSome → l ≤ k → k < l + fuel →
    (search i num den fuel k).isSome
  | 0, k, l, _, low, high => by omega
  | fuel + 1, k, l, h, low, high => by
    rw [search]
    cases hk : i.onGrid num den k with
    | some d => rfl
    | none =>
      have : k ≠ l := by
        rintro rfl
        rw [hk] at h
        cases h
      exact search_isSome (k := k - 1) h (by omega) (by omega)

/-- A power of ten that is not above the number is found, from one that is not far above it. -/
theorem pow_magnitude (pos : 0 < den) : ∀ {fuel : Nat} {k : Int}, (10 : ℚ) ^ (k - 1) ≤ num / den →
    (10 : ℚ) ^ (magnitude num den fuel k - 1) ≤ num / den
  | 0, _, h => h
  | fuel + 1, k, h => by
    obtain ⟨value, pos'⟩ := @ratio_scaled num den pos (-k)
    unfold magnitude
    dsimp only
    split
    · exact h
    · next large =>
      refine pow_magnitude pos ?_
      have one : (1 : ℚ) ≤ ratio (scaled num den (-k)) := by
        rw [ratio, one_le_div (by exact_mod_cast pos')]
        exact_mod_cast Nat.le_of_not_lt large
      rw [value, zpow_neg, ← div_eq_mul_inv, le_div_iff₀ (by positivity), one_mul] at one
      rwa [add_sub_cancel_right]

/-- A grid that is fine enough has a decimal in the interval: the one next below the datum. -/
theorem onGrid_isSome (pos : 0 < den) (value : (num : ℚ) / den = m * 2 ^ q) (fine : (10 : ℚ) ^ k ≤ 2 ^ (q - 2)) (nonzero : 0 < m) :
    ((interval f m q).onGrid num den k).isSome := by
  obtain ⟨quotient, pos'⟩ := @ratio_scaled num den pos (-k)
  have unit : (0 : ℚ) < 2 ^ (q - 2) := by positivity
  have ten : (0 : ℚ) < 10 ^ k := by positivity
  have four : (2 : ℚ) ^ q = 4 * 2 ^ (q - 2) := by
    rw [show q = 2 + (q - 2) by ring, zpow_add₀ (by norm_num)]
    norm_num
  unfold Interval.onGrid
  dsimp only
  generalize hx : scaled num den (-k) = x at quotient pos'
  obtain ⟨n, e⟩ := x
  have he : (0 : ℚ) < e := by exact_mod_cast pos'
  rw [ratio, value, zpow_neg, ← div_eq_mul_inv, div_eq_div_iff he.ne' ten.ne'] at quotient
  -- the datum lies between two points of the grid
  have below : ((n / e : Nat) : ℚ) * 10 ^ k ≤ m * 2 ^ q := by
    have : ((n / e : Nat) : ℚ) * e ≤ n := by exact_mod_cast Nat.div_mul_le_self n e
    nlinarith
  have above : (m : ℚ) * 2 ^ q < ((n / e : Nat) + 1) * 10 ^ k := by
    have : (n : ℚ) < e * ((n / e : Nat) + 1) := by exact_mod_cast Nat.lt_mul_div_succ n pos'
    nlinarith
  have holds : (interval f m q).holds (n / e) k := by
    have low : ((interval f m q).low : ℚ) * 2 ^ (q - 2) < (n / e : Nat) * 10 ^ k := by
      have bound : (interval f m q).low + 1 ≤ 4 * m := by
        change (if m = Nat.pow 2 f.fraction ∧ f.least < q then 4 * m - 1 else 4 * m - 2) + 1 ≤ _
        split <;> omega
      have : ((interval f m q).low + 1 : ℚ) * 2 ^ (q - 2) ≤ (4 * m) * 2 ^ (q - 2) := by
        gcongr
        exact_mod_cast bound
      nlinarith
    have high : ((n / e : Nat) : ℚ) * 10 ^ k < (4 * m + 2 : Nat) * 2 ^ (q - 2) := by
      push_cast
      nlinarith
    rw [Interval.holds_iff, Interval.Has]
    split
    · exact ⟨low.le, high.le⟩
    · exact ⟨low, high⟩
  rw [holds]
  cases (interval f m q).holds (n / e + 1) k <;> rfl

end

end Decimal

namespace Binary

variable {num den : Nat}

/-- The binade of a number. -/
theorem binade_bounds (hnum : 0 < num) (hden : 0 < den) :
    (2 : ℚ) ^ binade num den ≤ num / den ∧ (num : ℚ) / den < 2 ^ (binade num den + 1) := by
  have n_pos : (0 : ℚ) < num := by exact_mod_cast hnum
  have d_pos : (0 : ℚ) < den := by exact_mod_cast hden
  have nl : (2 : ℚ) ^ (num.log2 : Int) ≤ num := by
    rw [zpow_natCast]
    exact_mod_cast Nat.log2_self_le hnum.ne'
  have nh : (num : ℚ) < 2 ^ ((num.log2 : Int) + 1) := by
    have := Nat.lt_log2_self (n := num)
    exact_mod_cast this
  have dl : (2 : ℚ) ^ (den.log2 : Int) ≤ den := by
    rw [zpow_natCast]
    exact_mod_cast Nat.log2_self_le hden.ne'
  have dh : (den : ℚ) < 2 ^ ((den.log2 : Int) + 1) := by
    have := Nat.lt_log2_self (n := den)
    exact_mod_cast this
  -- the quotient of the leading powers is off by less than a factor of two
  have high : (num : ℚ) / den < 2 ^ ((num.log2 : Int) - den.log2 + 1) := by
    rw [div_lt_iff₀ d_pos]
    calc (num : ℚ) < 2 ^ ((num.log2 : Int) + 1) := nh
      _ = 2 ^ ((num.log2 : Int) - den.log2 + 1) * 2 ^ (den.log2 : Int) := by
        rw [← zpow_add₀ (by norm_num)]
        congr 1
        ring
      _ ≤ _ := by gcongr
  have low : (2 : ℚ) ^ ((num.log2 : Int) - den.log2 - 1) ≤ num / den := by
    rw [le_div_iff₀ d_pos]
    calc (2 : ℚ) ^ ((num.log2 : Int) - den.log2 - 1) * den
        ≤ 2 ^ ((num.log2 : Int) - den.log2 - 1) * 2 ^ ((den.log2 : Int) + 1) := by gcongr
      _ = 2 ^ (num.log2 : Int) := by
        rw [← zpow_add₀ (by norm_num)]
        congr 1
        ring
      _ ≤ num := nl
  obtain ⟨quotient, pos⟩ := @ratio_scaled num den hden (-((num.log2 : Int) - den.log2))
  have d_pos' : (0 : ℚ) < (scaled num den (-((num.log2 : Int) - den.log2))).2 := by exact_mod_cast pos
  have reaches : (scaled num den (-((num.log2 : Int) - den.log2))).2 ≤ (scaled num den (-((num.log2 : Int) - den.log2))).1 ↔
      (2 : ℚ) ^ ((num.log2 : Int) - den.log2) ≤ num / den := by
    rw [← Nat.cast_le (α := ℚ), ← one_le_div d_pos']
    change (1 : ℚ) ≤ ratio _ ↔ _
    rw [quotient, zpow_neg, ← div_eq_mul_inv, one_le_div (by positivity)]
  unfold binade
  dsimp only
  split
  · next h => exact ⟨reaches.1 h, high⟩
  · next h =>
    rw [sub_add_cancel]
    exact ⟨low, lt_of_not_ge (mt reaches.2 h)⟩

/-- The decimal exponent that is guessed from a binade is not too high. -/
theorem pow_guess {b : Int} (low : -3588 ≤ b) (high : b ≤ 1941) : (10 : ℚ) ^ (b * 30103 / 100000 - 2) ≤ 2 ^ b := by
  rcases le_or_gt 0 b with positive | negative
  · refine le_of_pow_le_pow_left₀ (n := 10) (by decide) (by positivity) ?_
    obtain ⟨k, rfl⟩ : ∃ k : Nat, b = k := ⟨b.toNat, by omega⟩
    calc ((10 : ℚ) ^ ((k : Int) * 30103 / 100000 - 2)) ^ 10 = 10 ^ (((k : Int) * 30103 / 100000 - 2) * 10) := by
          rw [← zpow_natCast, ← zpow_mul]
          rfl
      _ ≤ 10 ^ (3 * (k : Int)) := zpow_le_zpow_right₀ (by norm_num) (by omega)
      _ = (10 ^ 3) ^ k := by rw [zpow_mul, zpow_natCast]; rfl
      _ ≤ (2 ^ 10) ^ k := by gcongr; norm_num
      _ = (2 ^ (k : Int)) ^ 10 := by rw [zpow_natCast, ← pow_mul, ← pow_mul, Nat.mul_comm]
  · refine le_of_pow_le_pow_left₀ (n := 63) (by decide) (by positivity) ?_
    obtain ⟨k, rfl⟩ : ∃ k : Nat, b = -(k : Int) := ⟨(-b).toNat, by omega⟩
    calc ((10 : ℚ) ^ (-(k : Int) * 30103 / 100000 - 2)) ^ 63 = 10 ^ ((-(k : Int) * 30103 / 100000 - 2) * 63) := by
          rw [← zpow_natCast, ← zpow_mul]
          rfl
      _ ≤ 10 ^ (-(19 * k : Int)) := zpow_le_zpow_right₀ (by norm_num) (by omega)
      _ = ((10 ^ 19) ^ k)⁻¹ := by rw [zpow_neg, zpow_mul, zpow_natCast]; rfl
      _ ≤ ((2 ^ 63) ^ k)⁻¹ := by gcongr; norm_num
      _ = (2 ^ (-(k : Int))) ^ 63 := by rw [zpow_neg, zpow_natCast, inv_pow, ← pow_mul, ← pow_mul, Nat.mul_comm]

end Binary

namespace Decimal

open Binary (Canonical)

/-- A format whose data are not beyond the bounds of the search. -/
structure Modest (f : Binary) : Prop where
  fraction : f.fraction ≤ 52
  least : -1200 ≤ f.least
  top : f.least + 2 ^ f.exponent ≤ 1800

variable {f : Binary} {m : Nat} {q : Int}

/-- The shortest decimal for a datum belongs to its interval. -/
theorem shortest_holds (modest : Modest f) (canonical : Canonical f m q) (top : q ≤ f.least + 2 ^ f.exponent) (nonzero : 0 < m) :
    (interval f m q).Has (shortest f m q).value := by
  obtain ⟨value, pos⟩ := @Binary.ratio_scaled m 1 Nat.one_pos q
  rw [Nat.cast_one, div_one] at value
  unfold shortest
  generalize Binary.scaled m 1 q = x at value pos
  obtain ⟨num, den⟩ := x
  change (num : ℚ) / den = m * 2 ^ q at value
  dsimp only at pos ⊢
  have m_pos : (0 : ℚ) < m := by exact_mod_cast nonzero
  have num_pos : 0 < num := by
    rcases Nat.eq_zero_or_pos num with rfl | h
    · have : (0 : ℚ) < m * 2 ^ q := by positivity
      rw [← value, Nat.cast_zero, zero_div] at this
      exact absurd this (lt_irrefl _)
    · exact h
  obtain ⟨low, high⟩ := Binary.binade_bounds num_pos pos
  have small : (m : ℚ) * 2 ^ q < 2 ^ (53 + q) := by
    have bound : m < 2 ^ 53 := canonical.small.trans_le (Nat.pow_le_pow_right (by decide) (by have := modest.fraction; omega))
    rw [zpow_add₀ (by norm_num)]
    gcongr
    exact_mod_cast bound
  have large : (2 : ℚ) ^ q ≤ m * 2 ^ q := le_mul_of_one_le_left (by positivity) (by exact_mod_cast nonzero)
  rw [value] at low high
  have binade_low : q < Binary.binade num den + 1 := (zpow_lt_zpow_iff_right₀ (by norm_num)).1 (large.trans_lt high)
  have binade_high : Binary.binade num den < 53 + q := (zpow_lt_zpow_iff_right₀ (by norm_num)).1 (low.trans_lt small)
  have := canonical.least
  have := modest.least
  have := modest.top
  have guess : (10 : ℚ) ^ (Binary.binade num den * 30103 / 100000 - 1 - 1) ≤ num / den := by
    rw [value, show Binary.binade num den * 30103 / 100000 - 1 - 1 = Binary.binade num den * 30103 / 100000 - 2 by ring]
    exact (Binary.pow_guess (by omega) (by omega)).trans low
  have reached : (10 : ℚ) ^ (magnitude num den 8 (Binary.binade num den * 30103 / 100000 - 1) - 1) ≤ num / den :=
    pow_magnitude pos guess
  rw [value] at reached
  generalize magnitude num den 8 (Binary.binade num den * 30103 / 100000 - 1) = t at reached
  -- twenty digits are enough
  have fine : (10 : ℚ) ^ (t - 20) ≤ 2 ^ (q - 2) := by
    have : (10 : ℚ) ^ (t - 20) * 10 ^ (19 : Int) < 2 ^ (q - 2) * 2 ^ (55 : Int) := by
      rw [← zpow_add₀ (by norm_num), ← zpow_add₀ (by norm_num), show t - 20 + 19 = t - 1 by ring, show q - 2 + 55 = 53 + q by ring]
      exact reached.trans_lt small
    have room : (2 : ℚ) ^ (55 : Int) ≤ 10 ^ (19 : Int) := by norm_num
    have unit : (0 : ℚ) < 2 ^ (q - 2) := by positivity
    nlinarith
  have found : (search (interval f m q) num den 20 (t - 1)).isSome :=
    search_isSome (onGrid_isSome pos value fine nonzero) (by omega) (by omega)
  cases hs : search (interval f m q) num den 20 (t - 1) with
  | none =>
    rw [hs] at found
    cases found
  | some x =>
    change (interval f m q).Has (strip 32 x).value
    rw [value_strip]
    exact (Interval.holds_iff ..).1 (holds_of_search hs)

end Decimal

namespace Binary

open Decimal (interval shown shortest)

variable {f : Binary} {m m' bits bits' : Nat} {q q' : Int}

/-- A finite datum is shown as a number. -/
theorem numeric_text (finite : f.isFinite bits) : Text.Numeric (f.text bits).toList := by
  unfold isFinite at finite
  unfold text
  split at finite
  · next s m q hd =>
    rw [hd]
    obtain ⟨d, ds, shape, digit, all⟩ := Decimal.text_cons .plain (if m = 0 then ⟨0, 0⟩ else Decimal.shortest f m q)
    have unsigned := Text.Numeric.of_digit digit all
    dsimp only
    rw [String.toList_append, shape]
    cases s with
    | true => exact unsigned.minus digit
    | false => exact unsigned
  · cases finite

/-- The text of a finite datum ends in a digit, and it has a point or an exponent. -/
theorem text_ends (finite : f.isFinite bits) :
    Text.EndsInDigit (f.text bits).toList ∧ ('.' ∈ (f.text bits).toList ∨ 'e' ∈ (f.text bits).toList) := by
  unfold isFinite at finite
  unfold text
  split at finite
  · next s m q hd =>
    rw [hd]
    obtain ⟨ends, mark⟩ := Decimal.text_ends .plain (if m = 0 then ⟨0, 0⟩ else Decimal.shortest f m q)
    dsimp only
    rw [String.toList_append]
    exact ⟨ends.append, mark.imp (List.mem_append_right _) (List.mem_append_right _)⟩
  · cases finite

/-- The decimal that a datum is shown as. -/
def decimalOf (f : Binary) (m : Nat) (q : Int) : Decimal := if m = 0 then ⟨0, 0⟩ else shortest f m q

theorem value_decimalOf (modest : Decimal.Modest f) (canonical : Canonical f m q) (top : q ≤ f.least + 2 ^ f.exponent) :
    m = 0 ∧ q = f.least ∧ (decimalOf f m q).value = 0 ∨
      (interval f m q).Has (decimalOf f m q).value ∧ 0 < (decimalOf f m q).value := by
  unfold decimalOf
  split
  · next zero =>
    have : 0 < 2 ^ f.fraction := Nat.two_pow_pos _
    exact .inl ⟨zero, canonical.normal.resolve_left (by omega), by simp [Decimal.value]⟩
  · next nonzero =>
    have has := Decimal.shortest_holds modest canonical top (Nat.pos_of_ne_zero nonzero)
    refine .inr ⟨has, lt_of_lt_of_le ?_ (Decimal.interval_bounds has).1⟩
    have : 0 < (interval f m q).low := by
      change 0 < if m = Nat.pow 2 f.fraction ∧ f.least < q then 4 * m - 1 else 4 * m - 2
      split <;> omega
    positivity

/-- Different finite data are shown as different decimals. -/
theorem decimalOf_inj (modest : Decimal.Modest f) (canonical : Canonical f m q) (canonical' : Canonical f m' q')
    (top : q ≤ f.least + 2 ^ f.exponent) (top' : q' ≤ f.least + 2 ^ f.exponent)
    (h : (decimalOf f m q).value = (decimalOf f m' q').value) : m = m' ∧ q = q' := by
  rcases value_decimalOf modest canonical top with ⟨hm, hq, zero⟩ | ⟨has, positive⟩ <;>
    rcases value_decimalOf modest canonical' top' with ⟨hm', hq', zero'⟩ | ⟨has', positive'⟩
  · exact ⟨hm.trans hm'.symm, hq.trans hq'.symm⟩
  · rw [← h, zero] at positive'
    exact absurd positive' (lt_irrefl _)
  · rw [h, zero'] at positive
    exact absurd positive (lt_irrefl _)
  · rw [← h] at has'
    exact Decimal.eq_of_has canonical canonical' has has'

/-- Different finite data have different texts. -/
theorem text_inj (modest : Decimal.Modest f) (finite : f.isFinite bits) (finite' : f.isFinite bits')
    (small : bits < 2 * f.signBit) (small' : bits' < 2 * f.signBit) (h : f.text bits = f.text bits') : bits = bits' := by
  unfold isFinite at finite finite'
  split at finite
  · next s m q hd =>
    split at finite'
    · next s' m' q' hd' =>
      have texts : f.text bits = (if s then "-" else "") ++ (decimalOf f m q).text .plain := by
        unfold text
        rw [hd]
        rfl
      have texts' : f.text bits' = (if s' then "-" else "") ++ (decimalOf f m' q').text .plain := by
        unfold text
        rw [hd']
        rfl
      rw [texts, texts', ← String.toList_inj, String.toList_append, String.toList_append] at h
      obtain ⟨canonical, -, -, top⟩ := decode_finite hd
      obtain ⟨canonical', -, -, top'⟩ := decode_finite hd'
      obtain ⟨a, as, ha, digit, -⟩ := Decimal.text_cons .plain (decimalOf f m q)
      obtain ⟨b, bs, hb, digit', -⟩ := Decimal.text_cons .plain (decimalOf f m' q')
      -- a sign is no digit
      have same : s = s' ∧ ((decimalOf f m q).text .plain).toList = ((decimalOf f m' q').text .plain).toList := by
        rw [ha, hb] at h ⊢
        cases s <;> cases s'
        · exact ⟨rfl, h⟩
        · obtain ⟨rfl, -⟩ := List.cons.inj h
          exact absurd digit (by decide)
        · obtain ⟨rfl, -⟩ := List.cons.inj h
          exact absurd digit' (by decide)
        · exact ⟨rfl, (List.cons.inj h).2⟩
      obtain ⟨rfl, same⟩ := same
      have value := congrArg shown same
      rw [Decimal.shown_text, Decimal.shown_text] at value
      obtain ⟨rfl, rfl⟩ := decimalOf_inj modest canonical canonical' top top' value
      exact eq_of_decode hd hd' small small'
    · cases finite'
  · cases finite

theorem modest_single : Decimal.Modest single := ⟨by decide, by decide, by decide⟩

theorem modest_double : Decimal.Modest double := ⟨by decide, by decide, by decide⟩

end Binary

end StackScript
