import StackScript.Proofs.Lexemes
import StackScript.Proofs.Rounding

/-!
Different literals have different texts. The text of a literal tells its kind, the texts of numbers of one kind tell the number,
and quoted texts tell their characters; no literal is shown as a name.
-/
namespace StackScript

namespace Text

/-! ### Hexadecimal digits -/

theorem digitChar_plain {n : Nat} (h : n < 16) : n.digitChar ≠ '\\' ∧ n.digitChar ≠ '"' ∧ n.digitChar ≠ '\'' ∧
    n.digitChar ≠ '\x7d' := by
  have all : ∀ n < 16, n.digitChar ≠ '\\' ∧ n.digitChar ≠ '"' ∧ n.digitChar ≠ '\'' ∧ n.digitChar ≠ '\x7d' := by decide
  exact all n h

theorem digitChar_inj {n m : Nat} (hn : n < 16) (hm : m < 16) (h : n.digitChar = m.digitChar) : n = m := by
  have all : ∀ n < 16, ∀ m < 16, n.digitChar = m.digitChar → n = m := by decide
  exact all n hn m hm h

theorem mem_hex {n : Nat} {c : Char} (h : c ∈ Nat.toDigits 16 n) : ∃ k, k < 16 ∧ c = k.digitChar := by
  induction n using Nat.strong_induction_on with
  | _ n ih =>
    rw [Nat.toDigits_eq_if (by decide)] at h
    split at h
    · next small => exact ⟨n, small, List.mem_singleton.1 h⟩
    · rcases List.mem_append.1 h with h | h
      · exact ih (n / 16) (by omega) h
      · exact ⟨n % 16, by omega, List.mem_singleton.1 h⟩

theorem hex_inj {n : Nat} : ∀ {m : Nat}, Nat.toDigits 16 n = Nat.toDigits 16 m → n = m := by
  induction n using Nat.strong_induction_on with
  | _ n ih =>
    intro m h
    rw [Nat.toDigits_eq_if (by decide), Nat.toDigits_eq_if (n := m) (by decide)] at h
    split_ifs at h with hn hm hm
    · exact digitChar_inj hn hm (List.singleton_inj.1 h)
    · exact absurd (congrArg List.length h) (by simp [Nat.toDigits_ne_nil])
    · exact absurd (congrArg List.length h) (by simp [Nat.toDigits_ne_nil])
    · obtain ⟨whole, last⟩ := List.append_inj' h rfl
      have whole := ih (n / 16) (by omega) whole
      have last := digitChar_inj (by omega) (by omega) (List.singleton_inj.1 last)
      omega

/-! ### Quoted texts -/

variable {q c d : Char} {r s : List Char}

theorem escape_inj (quotes : q = '"' ∨ q = '\'') (h : escape q c ++ r = escape q d ++ s) : c = d ∧ r = s := by
  rcases escape_cases (c := c) quotes with ⟨a, ha, known⟩ | ⟨ha, plain, -⟩ | ⟨ha, -⟩ <;>
    rcases escape_cases (c := d) quotes with ⟨b, hb, known'⟩ | ⟨hb, plain', -⟩ | ⟨hb, -⟩ <;> rw [ha, hb] at h
  · simp only [List.cons_append, List.nil_append, List.cons.injEq, true_and] at h
    obtain ⟨rfl, rfl⟩ := h
    exact ⟨Option.some.inj (known.symm.trans known'), rfl⟩
  · exact absurd (List.cons.inj h).1.symm plain'
  · simp only [List.cons_append, List.cons.injEq, true_and] at h
    rw [h.1] at known
    cases known
  · exact absurd (List.cons.inj h).1 plain
  · exact List.cons.inj h
  · exact absurd (List.cons.inj h).1 plain
  · simp only [List.cons_append, List.cons.injEq, true_and] at h
    rw [← h.1] at known'
    cases known'
  · exact absurd (List.cons.inj h).1.symm plain'
  · simp only [List.cons_append, List.cons.injEq, true_and, List.append_assoc, List.nil_append] at h
    have inside (n : Nat) : ∀ c ∈ Nat.toDigits 16 n, (c != '\x7d') = true := fun c hc => by
      obtain ⟨k, small, rfl⟩ := mem_hex hc
      simp [(digitChar_plain small).2.2.2]
    have cut (n : Nat) (t : List Char) := cut_append (r := '\x7d' :: t) (inside n) (by simp)
    have left := cut c.toNat r
    rw [h] at left
    have right := cut d.toNat s
    have code := hex_inj (left.1.symm.trans right.1)
    exact ⟨Char.toNat_inj.1 code, (List.cons.inj (left.2.symm.trans right.2)).2⟩

theorem escapes_inj (quotes : q = '"' ∨ q = '\'') : ∀ {r s : List Char}, r.flatMap (escape q) = s.flatMap (escape q) → r = s
  | [], [], _ => rfl
  | [], d :: s, h | d :: s, [], h => by
    rw [List.flatMap_nil, List.flatMap_cons] at h
    rcases escape_cases (c := d) quotes with ⟨a, ha, -⟩ | ⟨ha, -⟩ | ⟨ha, -⟩ <;> rw [ha] at h <;> cases h
  | c :: r, d :: s, h => by
    rw [List.flatMap_cons, List.flatMap_cons] at h
    obtain ⟨rfl, rest⟩ := escape_inj quotes h
    rw [escapes_inj quotes rest]

end Text


namespace Literal

open Text (isDigit inNumber ne_of_digit Numeric EndsInDigit)
open Token (isDigit_digitsOf toList_toString_int)

/-! ### Shapes of texts -/

def isNumber : Literal → Bool
  | bool _ | char _ | string _ => false
  | _ => true

/-- A literal that is no infinity. -/
def isFinite : Literal → Bool
  | float32 bits => Binary.single.isFinite bits.toNat
  | float64 bits => Binary.double.isFinite bits.toNat
  | _ => true

theorem numeric_text {v : Literal} (number : v.isNumber) (finite : v.isFinite) : Numeric v.text.toList := by
  have letter {c : Char} (h : inNumber c) : ∀ a ∈ [c], inNumber a := fun a ha => List.mem_singleton.1 ha ▸ h
  cases v with
  | bool | char | string => cases number
  | byte n =>
    rw [text, String.toList_append]
    exact (Numeric.of_int n.toNat).append (letter (by decide))
  | int32 n => exact .of_int _
  | int64 n =>
    rw [text, String.toList_append]
    exact (Numeric.of_int _).append (letter (by decide))
  | float32 bits =>
    rw [text, String.toList_append]
    exact (Binary.numeric_text finite).append (letter (by decide))
  | float64 bits => exact Binary.numeric_text finite

/-- A literal is shown as a word, as a number or in quotes. -/
theorem text_cases (v : Literal) (finite : v.isFinite) : (∃ b, v = bool b) ∨ v.isNumber ∧ Numeric v.text.toList ∨
    ∃ (q : Char) (cs : List Char), (q = '"' ∨ q = '\'') ∧ v.text.toList = q :: (cs.flatMap (Text.escape q) ++ [q]) := by
  cases v with
  | bool b => exact .inl ⟨b, rfl⟩
  | char c =>
    refine .inr (.inr ⟨'\'', [c], .inr rfl, ?_⟩)
    rw [List.flatMap_cons, List.flatMap_nil, List.append_nil]
    exact String.toList_ofList
  | string s => exact .inr (.inr ⟨'"', s.toList, .inl rfl, String.toList_ofList⟩)
  | _ => exact .inr (.inl ⟨rfl, numeric_text rfl finite⟩)

/-- No name is the text of a literal. -/
theorem text_ne_identifier {v : Literal} (finite : v.isFinite) {s : String} (named : Text.isIdentifier s) : v.text ≠ s := by
  rintro rfl
  obtain ⟨⟨c, cs, hc, first⟩, -, word⟩ := Text.identifier_cases named
  rcases v.text_cases finite with ⟨b, rfl⟩ | ⟨-, -, d, ds, digit, shape⟩ | ⟨q, ds, quote, shape⟩
  · cases b <;> exact absurd word (by decide)
  · rw [hc] at shape
    rcases shape with shape | shape <;> obtain ⟨rfl, -⟩ := List.cons.inj shape
    · exact Text.not_startsName_of_digit digit first
    · exact absurd first (by decide)
  · rw [hc] at shape
    obtain ⟨rfl, -⟩ := List.cons.inj shape
    rcases quote with rfl | rfl <;> exact absurd first (by decide)

/-! ### Kinds -/

/-- The constructor of a literal, as its text tells it. -/
def kindOf (cs : List Char) : Nat :=
  if cs.head? = some '"' then 7
  else if cs.head? = some '\'' then 2
  else if cs.head? = some 't' ∨ cs.head? = some 'f' then 0
  else if cs.getLast? = some 'b' then 1
  else if cs.getLast? = some 'L' then 4
  else if cs.getLast? = some 'f' then 5
  else if '.' ∈ cs ∨ 'e' ∈ cs then 6
  else 3

/-- The kind of a number is told by its last letter, or by its point or exponent. -/
theorem kindOf_numeric {cs : List Char} {c : Char} (h : Numeric (cs ++ [c])) : kindOf (cs ++ [c]) =
    if c = 'b' then 1 else if c = 'L' then 4 else if c = 'f' then 5
    else if '.' ∈ cs ++ [c] ∨ 'e' ∈ cs ++ [c] then 6 else 3 := by
  have other : ∀ d, (cs ++ [c]).head? = some d → d ≠ '"' ∧ d ≠ '\'' ∧ d ≠ 't' ∧ d ≠ 'f' := by
    obtain ⟨-, d, ds, digit, shape | shape⟩ := h <;> rw [shape] <;> rintro _ ⟨⟩
    · exact ⟨ne_of_digit digit (by decide), ne_of_digit digit (by decide),
        ne_of_digit digit (by decide), ne_of_digit digit (by decide)⟩
    · decide
  rw [kindOf, if_neg fun e => (other _ e).1 rfl, if_neg fun e => (other _ e).2.1 rfl,
    if_neg fun e => e.elim (fun e => (other _ e).2.2.1 rfl) fun e => (other _ e).2.2.2 rfl]
  simp only [List.getLast?_concat, Option.some.injEq]

/-- A number without a letter behind it. -/
theorem kindOf_digit {cs : List Char} (h : Numeric cs) (ends : EndsInDigit cs) :
    kindOf cs = if '.' ∈ cs ∨ 'e' ∈ cs then 6 else 3 := by
  obtain ⟨ds, d, rfl, digit⟩ := ends
  rw [kindOf_numeric h, if_neg (ne_of_digit digit (by decide)), if_neg (ne_of_digit digit (by decide)),
    if_neg (ne_of_digit digit (by decide))]

theorem kindOf_text {v : Literal} (finite : v.isFinite) : kindOf v.text.toList = v.ctorIdx := by
  cases v with
  | bool b => cases b <;> decide +kernel
  | char c =>
    rw [text, Text.quotedChar, String.toList_ofList]
    rfl
  | string s =>
    rw [text, Text.quoted, String.toList_ofList]
    rfl
  | byte n =>
    have shape := numeric_text (v := .byte n) rfl rfl
    rw [text, String.toList_append] at shape ⊢
    exact kindOf_numeric shape
  | int64 n =>
    have shape := numeric_text (v := .int64 n) rfl rfl
    rw [text, String.toList_append] at shape ⊢
    exact kindOf_numeric shape
  | float32 bits =>
    have shape := numeric_text (v := .float32 bits) rfl finite
    rw [text, String.toList_append] at shape ⊢
    exact kindOf_numeric shape
  | int32 n =>
    rw [kindOf_digit (numeric_text (v := .int32 n) rfl rfl) (.of_int _), if_neg]
    · rfl
    · have plain : ∀ c ∈ (toString n.toInt).toList, isDigit c ∨ c = '-' := by
        rw [toList_toString_int]
        split
        · exact fun c hc => .inl (isDigit_digitsOf c hc)
        · exact List.forall_mem_cons.2 ⟨.inr rfl, fun c hc => .inl (isDigit_digitsOf c hc)⟩
      rintro (mark | mark)
      · exact absurd (plain _ mark) (by decide)
      · exact absurd (plain _ mark) (by decide)
  | float64 bits =>
    obtain ⟨ends, mark⟩ := Binary.text_ends finite
    exact (kindOf_digit (numeric_text (v := .float64 bits) rfl finite) ends).trans (if_pos mark)

/-! ### Contents -/

theorem toString_int_inj {i j : Int} (h : (toString i).toList = (toString j).toList) : i = j := by
  have := congrArg (fun cs => Decimal.exponentOf ('e' :: cs)) h
  simpa only [Decimal.exponentOf_toString] using this

/-- Different literals have different texts. -/
theorem text_inj {v w : Literal} (finite : v.isFinite) (finite' : w.isFinite) (h : v.text = w.text) : v = w := by
  have kinds : v.ctorIdx = w.ctorIdx := by rw [← kindOf_text finite, ← kindOf_text finite', h]
  have chars := congrArg String.toList h
  cases v <;> cases w <;> cases kinds
  · next b b' => cases b <;> cases b' <;> first | rfl | exact absurd h (by decide)
  · next n n' =>
    simp only [text, String.toList_append, List.append_left_inj] at chars
    have := toString_int_inj (i := n.toNat) (j := n'.toNat) chars
    rw [byte.injEq, ← UInt8.toNat_inj]
    exact_mod_cast this
  · next c c' =>
    simp only [text, Text.quotedChar, String.toList_ofList] at chars
    rw [(Text.escape_inj (.inr rfl) (List.cons.inj chars).2).1]
  · next n n' => rw [Int32.toInt_inj.1 (toString_int_inj chars)]
  · next n n' =>
    simp only [text, String.toList_append, List.append_left_inj] at chars
    rw [Int64.toInt_inj.1 (toString_int_inj chars)]
  · next n n' =>
    simp only [text, String.toList_append, List.append_left_inj, String.toList_inj] at chars
    rw [UInt32.toNat_inj.1 (Binary.text_inj Binary.modest_single finite finite' n.toNat_lt n'.toNat_lt chars)]
  · next n n' =>
    rw [UInt64.toNat_inj.1 (Binary.text_inj Binary.modest_double finite finite' n.toNat_lt n'.toNat_lt h)]
  · next s s' =>
    simp only [text, Text.quoted, String.toList_ofList, List.cons.injEq, List.append_left_inj, true_and] at chars
    rw [String.toList_inj.1 (Text.escapes_inj (.inl rfl) chars)]

end Literal

end StackScript
