import StackScript.Proofs.Spelling

/-!
Decimal texts. However a decimal is laid out, its text begins and ends with a digit, has a point or an exponent, and shows the
value of the decimal.
-/
namespace StackScript

open Token (digitsOf isDigit_digitsOf digitsOf_cons digitsValue_digitsOf toList_toString_int)

/-! ### Characters of numbers -/

namespace Text

variable {p : Char → Bool} {w r cs ds : List Char} {c d : Char}

/-- A text is cut behind the characters of one kind. -/
theorem cut_append (all : ∀ c ∈ w, p c) (stop : ∀ c ∈ r.head?, ¬ p c) : (w ++ r).takeWhile p = w ∧ (w ++ r).dropWhile p = r := by
  rw [List.takeWhile_append_of_pos all, List.dropWhile_append_of_pos all]
  cases r with
  | nil => exact ⟨List.append_nil w, rfl⟩
  | cons c r =>
    have other : ¬ p c := stop c rfl
    rw [List.takeWhile_cons_of_neg other, List.dropWhile_cons_of_neg other]
    exact ⟨List.append_nil w, rfl⟩

/-- What numbers are shown with. -/
def inNumber (c : Char) : Bool := continuesName c || c = '.' || c = '-'

theorem continuesName_of_digit (digit : isDigit c) : continuesName c := of_digit (by decide) digit

theorem not_startsName_of_digit (digit : isDigit c) : ¬ startsName c := by
  have : (!startsName c) = true := of_digit (p := fun c => !startsName c) (by decide) digit
  simpa using this

theorem inNumber_of_digit (digit : isDigit c) : inNumber c := by
  rw [inNumber, continuesName_of_digit digit]
  rfl

theorem ne_of_digit (digit : isDigit c) (other : ¬ isDigit d) : c ≠ d := by
  rintro rfl
  exact other digit

/-- A text that begins with a digit, perhaps behind a minus sign, and goes on like a number. -/
def Numeric (cs : List Char) : Prop :=
  (∀ c ∈ cs, inNumber c) ∧ ∃ d ds, isDigit d ∧ (cs = d :: ds ∨ cs = '-' :: d :: ds)

namespace Numeric

theorem of_digit (digit : isDigit d) (all : ∀ c ∈ ds, inNumber c) : Numeric (d :: ds) :=
  ⟨List.forall_mem_cons.2 ⟨inNumber_of_digit digit, all⟩, d, ds, digit, .inl rfl⟩

theorem minus (h : Numeric (d :: ds)) (digit : isDigit d) : Numeric ('-' :: d :: ds) :=
  ⟨List.forall_mem_cons.2 ⟨by decide, h.1⟩, d, ds, digit, .inr rfl⟩

theorem of_nat (n : Nat) : ∃ d ds, digitsOf n = d :: ds ∧ isDigit d ∧ Numeric (d :: ds) := by
  obtain ⟨d, ds, shape, digit⟩ := digitsOf_cons n
  exact ⟨d, ds, shape, digit, .of_digit digit fun c hc =>
    inNumber_of_digit (isDigit_digitsOf (n := n) c (shape ▸ List.mem_cons_of_mem d hc))⟩

theorem of_int (i : Int) : Numeric (toString i).toList := by
  rw [toList_toString_int]
  split
  · obtain ⟨d, ds, shape, -, numeric⟩ := of_nat i.toNat
    rwa [shape]
  · obtain ⟨d, ds, shape, digit, numeric⟩ := of_nat i.natAbs
    rw [shape]
    exact numeric.minus digit

theorem append (h : Numeric cs) (all : ∀ c ∈ ds, inNumber c) : Numeric (cs ++ ds) := by
  obtain ⟨before, d, es, digit, rfl | rfl⟩ := h
  · exact ⟨List.forall_mem_append.2 ⟨before, all⟩, d, es ++ ds, digit, .inl rfl⟩
  · exact ⟨List.forall_mem_append.2 ⟨before, all⟩, d, es ++ ds, digit, .inr rfl⟩

end Numeric

/-- A digit stands at the end. -/
def EndsInDigit (cs : List Char) : Prop := ∃ ds d, cs = ds ++ [d] ∧ isDigit d

namespace EndsInDigit

theorem of_digits (all : ∀ c ∈ cs, isDigit c) (there : cs ≠ []) : EndsInDigit cs :=
  ⟨cs.dropLast, cs.getLast there, (List.dropLast_concat_getLast there).symm, all _ (List.getLast_mem there)⟩

theorem append (h : EndsInDigit ds) : EndsInDigit (cs ++ ds) := by
  obtain ⟨es, d, rfl, digit⟩ := h
  exact ⟨cs ++ es, d, (List.append_assoc ..).symm, digit⟩

theorem cons (h : EndsInDigit ds) : EndsInDigit (c :: ds) := show EndsInDigit ([c] ++ ds) from h.append

theorem of_int (i : Int) : EndsInDigit (toString i).toList := by
  have digits (n : Nat) : EndsInDigit (digitsOf n) := of_digits isDigit_digitsOf Nat.toDigits_ne_nil
  rw [toList_toString_int]
  split
  · exact digits _
  · exact (digits _).cons

end EndsInDigit

end Text

namespace Decimal

open Text (isDigit inNumber inNumber_of_digit ne_of_digit cut_append Numeric EndsInDigit)

/-! ### Layouts -/

variable {x : Decimal} {style : Layout} {cs ds : List Char}

/-- The exponent of the first digit. -/
def top (x : Decimal) : Int := x.scale + (digitsOf x.digits).length - 1

/-- The digits behind as many zeros as it takes to put the point behind a digit. -/
def padded (x : Decimal) : List Char := zeros ((-x.scale).toNat + 1 - (digitsOf x.digits).length) ++ digitsOf x.digits

def HasExponent (style : Layout) (x : Decimal) : Prop := x.digits ≠ 0 ∧ (x.top < style.low ∨ style.high ≤ x.top)

instance : Decidable (x.HasExponent style) := inferInstanceAs (Decidable (_ ∧ _))

theorem text_eq : x.text style = if x.HasExponent style then
      String.ofList ((digitsOf x.digits).take 1 ++
        if ((digitsOf x.digits).drop 1).isEmpty then [] else '.' :: (digitsOf x.digits).drop 1) ++ "e" ++ toString x.top
    else if 0 ≤ x.scale then String.ofList (digitsOf x.digits ++ zeros x.scale.toNat) ++ ".0"
    else String.ofList (x.padded.take (x.padded.length - (-x.scale).toNat) ++
      '.' :: x.padded.drop (x.padded.length - (-x.scale).toNat)) := rfl

theorem text_exponent (h : x.HasExponent style) : (x.text style).toList = (digitsOf x.digits).take 1 ++
    ((if ((digitsOf x.digits).drop 1).isEmpty then [] else '.' :: (digitsOf x.digits).drop 1) ++ 'e' :: (toString x.top).toList) := by
  rw [text_eq, if_pos h, String.toList_append, String.toList_append, String.toList_ofList, List.append_assoc, List.append_assoc]
  rfl

theorem text_whole (h : ¬ x.HasExponent style) (whole : 0 ≤ x.scale) :
    (x.text style).toList = digitsOf x.digits ++ (zeros x.scale.toNat ++ ['.', '0']) := by
  rw [text_eq, if_neg h, if_pos whole, String.toList_append, String.toList_ofList, List.append_assoc]
  rfl

theorem text_point (h : ¬ x.HasExponent style) (part : ¬ 0 ≤ x.scale) : (x.text style).toList =
    x.padded.take (x.padded.length - (-x.scale).toNat) ++ '.' :: x.padded.drop (x.padded.length - (-x.scale).toNat) := by
  rw [text_eq, if_neg h, if_neg part, String.toList_ofList]

theorem isDigit_zeros {n : Nat} : ∀ c ∈ zeros n, isDigit c := fun c hc => by
  rw [List.eq_of_mem_replicate hc]
  rfl

theorem isDigit_padded : ∀ c ∈ x.padded, isDigit c := List.forall_mem_append.2 ⟨isDigit_zeros, isDigit_digitsOf⟩

/-- There are more digits than decimal places. -/
theorem lt_length_padded : (-x.scale).toNat < x.padded.length := by
  rw [padded, List.length_append, zeros, List.length_replicate]
  omega

/-- The text of a decimal begins with a digit. -/
theorem text_cons (style : Layout) (x : Decimal) :
    ∃ d ds, (x.text style).toList = d :: ds ∧ isDigit d ∧ ∀ c ∈ ds, inNumber c := by
  obtain ⟨d, ds, shape, digit, numeric⟩ := Numeric.of_nat x.digits
  have others := (List.forall_mem_cons.1 numeric.1).2
  by_cases exponent : x.HasExponent style
  · rw [text_exponent exponent, shape, List.take_succ_cons, List.take_zero, List.drop_one, List.tail_cons, List.singleton_append]
    refine ⟨d, _, rfl, digit, List.forall_mem_append.2 ⟨?_, List.forall_mem_cons.2 ⟨by decide, (Numeric.of_int _).1⟩⟩⟩
    split
    · exact nofun
    · exact List.forall_mem_cons.2 ⟨by decide, others⟩
  by_cases whole : 0 ≤ x.scale
  · rw [text_whole exponent whole, shape]
    refine ⟨d, _, rfl, digit, List.forall_mem_append.2 ⟨others, List.forall_mem_append.2 ⟨fun c hc => ?_, ?_⟩⟩⟩
    · exact inNumber_of_digit (isDigit_zeros c hc)
    · exact List.forall_mem_cons.2 ⟨by decide, List.forall_mem_cons.2 ⟨by decide, nofun⟩⟩
  · rw [text_point exponent whole]
    have long := lt_length_padded (x := x)
    have all := isDigit_padded (x := x)
    generalize x.padded = cs at long all
    obtain ⟨a, as, rfl⟩ : ∃ a as, cs = a :: as := List.exists_cons_of_length_pos (by omega)
    obtain ⟨k, hk⟩ : ∃ k, (a :: as).length - (-x.scale).toNat = k + 1 := ⟨(a :: as).length - (-x.scale).toNat - 1, by omega⟩
    obtain ⟨first, rest⟩ := List.forall_mem_cons.1 all
    rw [hk]
    refine ⟨a, as.take k ++ '.' :: as.drop k, rfl, first, List.forall_mem_append.2 ⟨fun c hc => ?_, ?_⟩⟩
    · exact inNumber_of_digit (rest c (List.mem_of_mem_take hc))
    · exact List.forall_mem_cons.2 ⟨by decide, fun c hc => inNumber_of_digit (rest c (List.mem_of_mem_drop hc))⟩

/-- The text of a decimal ends in a digit, and it has a point or an exponent. -/
theorem text_ends (style : Layout) (x : Decimal) :
    EndsInDigit (x.text style).toList ∧ ('.' ∈ (x.text style).toList ∨ 'e' ∈ (x.text style).toList) := by
  by_cases exponent : x.HasExponent style
  · rw [text_exponent exponent]
    exact ⟨(EndsInDigit.of_int _).cons.append.append, .inr (by simp)⟩
  by_cases whole : 0 ≤ x.scale
  · rw [text_whole exponent whole]
    have zero : EndsInDigit ['.', '0'] := ⟨['.'], '0', rfl, by decide⟩
    exact ⟨zero.append.append, .inl (by simp)⟩
  · rw [text_point exponent whole]
    have long := lt_length_padded (x := x)
    refine ⟨(EndsInDigit.of_digits (fun c hc => isDigit_padded c (List.mem_of_mem_drop hc)) ?_).cons.append, .inl (by simp)⟩
    rw [Ne, List.drop_eq_nil_iff]
    omega

/-! ### Values -/

/-- What a decimal stands for. -/
def value (x : Decimal) : ℚ := x.digits * 10 ^ x.scale

theorem digitsValue_foldl (cs : List Char) (n : Nat) :
    cs.foldl (fun n c => 10 * n + (c.toNat - 48)) n = n * 10 ^ cs.length + digitsValue cs := by
  induction cs generalizing n with
  | nil => simp [digitsValue]
  | cons c cs ih =>
    rw [digitsValue, List.foldl_cons, List.foldl_cons, ih, ih (10 * 0 + _), List.length_cons, pow_succ]
    ring

theorem digitsValue_append (cs ds : List Char) : digitsValue (cs ++ ds) = digitsValue cs * 10 ^ ds.length + digitsValue ds := by
  rw [digitsValue, List.foldl_append, digitsValue_foldl]
  rfl

theorem digitsValue_zeros (n : Nat) : digitsValue (zeros n) = 0 := by
  induction n with
  | zero => rfl
  | succ n ih =>
    change digitsValue ('0' :: zeros n) = 0
    rw [digitsValue, List.foldl_cons]
    exact ih

theorem digitsValue_padded (x : Decimal) : digitsValue x.padded = x.digits := by
  rw [padded, digitsValue_append, digitsValue_zeros, digitsValue_digitsOf, Nat.zero_mul, Nat.zero_add]

theorem value_strip : ∀ (fuel : Nat) (x : Decimal), (strip fuel x).value = x.value
  | 0, x => rfl
  | fuel + 1, x => by
    rw [strip]
    split
    · next h =>
      rw [value_strip fuel]
      have whole : (x.digits : ℚ) = (x.digits / 10 : Nat) * 10 := by
        have : x.digits = x.digits / 10 * 10 := by omega
        exact_mod_cast this
      rw [value, value, whole, zpow_add₀ (by norm_num), zpow_one]
      ring
    · rfl

/-! ### Texts show values -/

/-- An exponent, if there is one. -/
def exponentOf : List Char → Int
  | [] => 0
  | _ :: '-' :: ds => -digitsValue ds
  | _ :: ds => digitsValue ds

/-- The value that a text shows. -/
def shown (cs : List Char) : ℚ := (ofChars (cs.takeWhile (· ≠ 'e'))).value * 10 ^ exponentOf (cs.dropWhile (· ≠ 'e'))

theorem exponentOf_toString (i : Int) : exponentOf ('e' :: (toString i).toList) = i := by
  rw [toList_toString_int]
  split
  · next h =>
    obtain ⟨d, ds, shape, digit⟩ := digitsOf_cons i.toNat
    have value := digitsValue_digitsOf i.toNat
    rw [shape] at value ⊢
    rw [exponentOf, value]
    · omega
    · rintro t ⟨⟩
      exact absurd digit (by decide)
  · rw [exponentOf, digitsValue_digitsOf]
    omega

/-- Digits with a point among them. -/
theorem value_ofChars (digits : ∀ c ∈ cs, isDigit c) :
    (ofChars (cs ++ '.' :: ds)).value = digitsValue (cs ++ ds) * 10 ^ (-(ds.length : Int)) := by
  obtain ⟨whole, rest⟩ := cut_append (p := (· ≠ '.')) (w := cs) (r := '.' :: ds)
    (fun c hc => by simpa using ne_of_digit (digits c hc) (by decide)) (by simp)
  rw [ofChars, whole, rest]
  rfl

theorem value_ofChars_digits (digits : ∀ c ∈ cs, isDigit c) : (ofChars cs).value = digitsValue cs := by
  obtain ⟨whole, rest⟩ := cut_append (p := (· ≠ '.')) (w := cs) (r := [])
    (fun c hc => by simpa using ne_of_digit (digits c hc) (by decide)) (by simp)
  rw [List.append_nil] at whole rest
  rw [ofChars, whole, rest, value]
  simp

theorem shown_plain (plain : ∀ c ∈ cs, isDigit c ∨ c = '.') : shown cs = (ofChars cs).value := by
  obtain ⟨whole, rest⟩ := cut_append (p := (· ≠ 'e')) (w := cs) (r := [])
    (fun c hc => by
      rcases plain c hc with digit | rfl
      · simpa using ne_of_digit digit (by decide)
      · decide) (by simp)
  rw [List.append_nil] at whole rest
  rw [shown, whole, rest, exponentOf, zpow_zero, mul_one]

/-- The first digit, and the others behind a point if there are any. -/
theorem shown_exponent {d : Char} (digits : ∀ c ∈ d :: ds, isDigit c) (i : Int) :
    shown ([d] ++ (if ds.isEmpty then [] else '.' :: ds) ++ 'e' :: (toString i).toList) =
      digitsValue (d :: ds) * 10 ^ (i - ds.length) := by
  obtain ⟨first, others⟩ := List.forall_mem_cons.1 digits
  have single : ∀ c ∈ [d], isDigit c := List.forall_mem_singleton.2 first
  have mantissa : (ofChars ([d] ++ (if ds.isEmpty then [] else '.' :: ds))).value =
      digitsValue (d :: ds) * 10 ^ (-(ds.length : Int)) := by
    cases ds with
    | nil =>
      rw [List.isEmpty_nil, if_pos rfl, List.append_nil, value_ofChars_digits single]
      simp
    | cons b bs => rw [List.isEmpty_cons, if_neg (by decide), value_ofChars single, List.singleton_append]
  have plain : ∀ c ∈ [d] ++ (if ds.isEmpty then [] else '.' :: ds), (c ≠ 'e' : Bool) := by
    have digit {c : Char} (h : isDigit c) : (c ≠ 'e' : Bool) := by simpa using ne_of_digit h (by decide)
    refine List.forall_mem_append.2 ⟨fun c hc => digit (single c hc), ?_⟩
    split
    · exact nofun
    · exact List.forall_mem_cons.2 ⟨by decide, fun c hc => digit (others c hc)⟩
  obtain ⟨whole, rest⟩ := cut_append (p := (· ≠ 'e')) (r := 'e' :: (toString i).toList) plain (by simp)
  rw [shown, whole, rest, exponentOf_toString, mantissa, mul_assoc, ← zpow_add₀ (by norm_num)]
  congr 2
  ring

/-- The text of a decimal shows its value. -/
theorem shown_text (style : Layout) (x : Decimal) : shown (x.text style).toList = x.value := by
  have digits : ∀ c ∈ digitsOf x.digits, isDigit c := isDigit_digitsOf
  by_cases exponent : x.HasExponent style
  · rw [text_exponent exponent]
    have number := digitsValue_digitsOf x.digits
    have top : x.top = x.scale + (digitsOf x.digits).length - 1 := rfl
    obtain ⟨d, ds, shape, -⟩ := digitsOf_cons x.digits
    rw [shape] at digits number top ⊢
    rw [List.take_succ_cons, List.take_zero, List.drop_one, List.tail_cons, ← List.append_assoc, shown_exponent digits, number, top,
      value, List.length_cons]
    congr 2
    push_cast
    ring
  by_cases whole : 0 ≤ x.scale
  · rw [text_whole exponent whole, ← List.append_assoc]
    have inside : ∀ c ∈ digitsOf x.digits ++ zeros x.scale.toNat, isDigit c := List.forall_mem_append.2 ⟨digits, isDigit_zeros⟩
    rw [shown_plain, value_ofChars inside, digitsValue_append, digitsValue_append, digitsValue_zeros, digitsValue_digitsOf]
    · obtain ⟨k, hk⟩ : ∃ k : Nat, x.scale = k := ⟨x.scale.toNat, by omega⟩
      rw [value, hk, Int.toNat_natCast, zpow_natCast]
      simp [zeros, digitsValue]
    · refine List.forall_mem_append.2 ⟨fun c hc => .inl (inside c hc), ?_⟩
      exact List.forall_mem_cons.2 ⟨.inr rfl, List.forall_mem_singleton.2 (.inl (by decide))⟩
  · rw [text_point exponent whole]
    have long := lt_length_padded (x := x)
    have all := isDigit_padded (x := x)
    rw [shown_plain, value_ofChars, List.take_append_drop, digitsValue_padded, List.length_drop]
    · have scale : x.scale = -((x.padded.length - (x.padded.length - (-x.scale).toNat) : Nat) : Int) := by omega
      rw [value, ← scale]
    · exact fun c hc => all c (List.mem_of_mem_take hc)
    · exact List.forall_mem_append.2 ⟨fun c hc => .inl (all c (List.mem_of_mem_take hc)),
        List.forall_mem_cons.2 ⟨.inr rfl, fun c hc => .inl (all c (List.mem_of_mem_drop hc))⟩⟩

end Decimal

end StackScript
