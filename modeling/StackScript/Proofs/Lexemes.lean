import Mathlib.Data.List.TakeWhile
import Mathlib.Tactic.SplitIfs
import StackScript.Token.Lexer

/-!
Lexemes by themselves. What follows a lexeme decides where it ends but not what it is: the characters that were read,
taken alone, are read as the same lexeme.
-/
namespace StackScript

namespace Text

theorem continuesName_of_startsName {c : Char} (h : startsName c) : continuesName c := by
  rw [startsName, Bool.or_eq_true] at h
  rw [continuesName, isLetterOrNumber, Bool.or_assoc, Bool.or_eq_true, Bool.or_eq_true]
  exact h.imp id .inr

/-- A name that is no keyword and no truth value. -/
def isIdentifier (s : String) : Bool :=
  s.toList.head?.any startsName && s.toList.all continuesName && Token.Kind.ofWord s = .name s

theorem identifier_cases {s : String} (h : isIdentifier s) :
    (∃ c cs, s.toList = c :: cs ∧ startsName c) ∧ (∀ c ∈ s.toList, continuesName c) ∧ Token.Kind.ofWord s = .name s := by
  simp only [isIdentifier, Bool.and_eq_true, List.all_eq_true, decide_eq_true_eq] at h
  obtain ⟨⟨first, all⟩, word⟩ := h
  refine ⟨?_, all, word⟩
  cases hs : s.toList with
  | nil =>
    rw [hs] at first
    cases first
  | cons c cs =>
    rw [hs] at first
    exact ⟨c, cs, rfl, first⟩

theorem identifier_ne {s w : String} (h : isIdentifier s) (hw : Token.Kind.ofWord w ≠ .name w) : s ≠ w := by
  rintro rfl
  exact hw (identifier_cases h).2.2

end Text

namespace Token

variable {a : Char} {r cs ds ds' text : List Char} {k : Kind} {n m : Nat} {pointed f f' : Bool}

theorem lexString_alone (h : lexString r text n = (.ok k, m)) :
    ∃ word rest, r = word ++ rest ∧ m = n + word.length ∧ lexString word text n = (.ok k, m) := by
  fun_induction lexString r text n with
  | case1 | case3 | case5 | case6 => cases h
  | case2 r text n => exact ⟨['"'], r, rfl, (Prod.mk.inj h).2.symm, h⟩
  | case4 c r text n d known ih =>
    obtain ⟨word, rest, rfl, rfl, alone⟩ := ih h
    have length : n + 2 + word.length = n + ('\\' :: c :: word).length := by
      simp only [List.length_cons]
      omega
    refine ⟨'\\' :: c :: word, rest, rfl, length, ?_⟩
    rw [lexString, known]
    exact alone
  | case7 c r text n quote last escape newline ih =>
    obtain ⟨word, rest, rfl, rfl, alone⟩ := ih h
    have length : n + 1 + word.length = n + (c :: word).length := by
      rw [List.length_cons]
      omega
    refine ⟨c :: word, rest, rfl, length, ?_⟩
    -- a backslash would have been an escape, since the literal goes on after it
    have plain : c ≠ '\\' := by
      rintro rfl
      cases hr : word ++ rest with
      | nil => exact last rfl hr
      | cons d s => exact escape d s rfl hr
    rw [lexString, if_neg newline]
    · exact alone
    · exact quote
    · exact fun e => absurd e plain
    · exact fun _ _ e => absurd e plain

theorem closeChar_alone {c : Char} (h : closeChar c n r = (.ok k, m)) :
    ∃ rest, r = '\'' :: rest ∧ m = n + 1 ∧ closeChar c n ['\''] = (.ok k, m) := by
  unfold closeChar at h
  split at h
  · exact ⟨_, rfl, (Prod.mk.inj h).2.symm, h⟩
  · cases h

theorem lexChar_alone (h : lexChar r = (.ok k, m)) :
    ∃ word rest, r = word ++ rest ∧ m = word.length + 1 ∧ lexChar word = (.ok k, m) := by
  unfold lexChar at h
  split at h
  · cases h
  · cases h
  · next c r =>
    split at h
    · next d known =>
      obtain ⟨rest, rfl, rfl, alone⟩ := closeChar_alone h
      refine ⟨['\\', c, '\''], rest, rfl, rfl, ?_⟩
      rw [lexChar, known]
      exact alone
    · cases h
  · next c r last escape =>
    split at h
    · cases h
    · next plain =>
      obtain ⟨rest, rfl, rfl, alone⟩ := closeChar_alone h
      refine ⟨[c, '\''], rest, rfl, rfl, ?_⟩
      have : c ≠ '\\' := fun e => escape '\'' rest e rfl
      rw [lexChar, if_neg plain]
      · exact alone
      · exact fun _ => nofun
      · exact fun _ _ e => absurd e this

/-! ### Numbers -/

/-- A character that the digits of a number cannot go on with. -/
def EndsDigits (c : Char) : Prop := ¬ Text.isDigit c ∧ c ≠ '_' ∧ c ≠ '.'

theorem lexDigits_ended {tail : List Char} (h : ∀ c ∈ tail.head?, EndsDigits c) :
    lexDigits pointed tail ds f n = (ds.reverse, f, n) := by
  cases tail with
  | nil => rfl
  | cons c tail =>
    obtain ⟨digit, gap, point⟩ := h c rfl
    rw [lexDigits, if_neg digit, if_neg gap, if_neg fun e => point e.1]

/-- The digits that were read are read again whether or not a point is allowed: one that is there was allowed. -/
theorem lexDigits_alone (h : lexDigits pointed cs ds f n = (ds', f', m)) :
    ∃ word rest, cs = word ++ rest ∧ m = n + word.length ∧
      (cs.head?.any Text.isDigit → word.head? = cs.head?) ∧
      ∀ tail : List Char, (∀ c ∈ tail.head?, EndsDigits c) → lexDigits true (word ++ tail) ds f n = (ds', f', m) := by
  fun_induction lexDigits pointed cs ds f n with
  | case1 ds f n =>
    refine ⟨[], [], rfl, (Prod.mk.inj (Prod.mk.inj h).2).2.symm, nofun, fun tail ends => ?_⟩
    rw [← h]
    exact lexDigits_ended ends
  | case2 c r ds f n digit ih =>
    obtain ⟨word, rest, rfl, rfl, -, alone⟩ := ih h
    refine ⟨c :: word, rest, rfl, by rw [List.length_cons]; omega, fun _ => rfl, fun tail ends => ?_⟩
    rw [List.cons_append, lexDigits, if_pos digit]
    exact alone tail ends
  | case3 r ds f n digit ih =>
    obtain ⟨word, rest, rfl, rfl, -, alone⟩ := ih h
    refine ⟨'_' :: word, rest, rfl, by rw [List.length_cons]; omega, fun _ => rfl, fun tail ends => ?_⟩
    rw [List.cons_append, lexDigits, if_neg digit, if_pos rfl]
    exact alone tail ends
  | case4 c r ds f n digit gap point ih =>
    obtain ⟨word, rest, rfl, rfl, begins, alone⟩ := ih h
    refine ⟨c :: word, rest, rfl, by rw [List.length_cons]; omega, fun _ => rfl, fun tail ends => ?_⟩
    -- the digit after the point was read, so it is there again
    have next : ((word ++ tail).head?).any Text.isDigit := by
      have same := begins point.2.2.2
      cases word with
      | nil =>
        rw [← same] at point
        exact absurd point.2.2.2 nofun
      | cons d word =>
        rw [List.cons_append, List.head?_cons] at point ⊢
        exact point.2.2.2
    rw [List.cons_append, lexDigits, if_neg digit, if_neg gap, if_pos ⟨point.1, point.2.1, rfl, next⟩]
    exact alone tail ends
  | case5 c r ds f n digit gap point =>
    refine ⟨[], c :: r, rfl, (Prod.mk.inj (Prod.mk.inj h).2).2.symm, fun e => absurd e digit, fun tail ends => ?_⟩
    rw [← h]
    exact lexDigits_ended ends

theorem suffix?_eq_some {s : Char} (h : suffix? cs = some s) :
    (∃ rest, cs = s :: rest) ∧ EndsDigits s ∧ suffix? [s] = some s := by
  cases cs with
  | nil => cases h
  | cons c r =>
    rw [suffix?] at h
    split_ifs at h with letter
    · obtain rfl : c = s := Option.some.inj h
      refine ⟨⟨r, rfl⟩, ?_, ?_⟩
      · rcases letter.1 with rfl | rfl | rfl | rfl <;> exact ⟨by decide, by decide, by decide⟩
      · rw [suffix?, if_pos ⟨letter.1, rfl⟩]

theorem lexNumber_alone {afterDot : Bool} (h : lexNumber afterDot cs = (.ok k, n)) :
    ∃ word rest, cs = word ++ rest ∧ n = word.length ∧ (cs.head?.any Text.isDigit → word.head? = cs.head?) ∧
      lexNumber false word = (.ok k, n) := by
  unfold lexNumber at h
  split at h
  next ds isFloat m digits =>
  obtain ⟨word, rest, rfl, rfl, begins, alone⟩ := lexDigits_alone digits
  simp only [Nat.zero_add, List.drop_left] at h alone
  cases hs : suffix? rest with
  | none =>
    rw [hs] at h
    have read : lexDigits true word [] false 0 = (ds, isFloat, word.length) := by
      simpa using alone [] nofun
    cases hk : numberOf? none isFloat ds with
    | none =>
      rw [hk] at h
      cases h
    | some k' =>
      rw [hk] at h
      refine ⟨word, rest, rfl, (Prod.mk.inj h).2.symm, begins, ?_⟩
      simp only [lexNumber, Bool.not_false, read, List.drop_length, suffix?, hk]
      exact h
  | some s =>
    obtain ⟨⟨rest, rfl⟩, ends, suffix⟩ := suffix?_eq_some hs
    rw [hs] at h
    have read : lexDigits true (word ++ [s]) [] false 0 = (ds, isFloat, word.length) := by
      refine alone [s] fun c hc => ?_
      rwa [← Option.some.inj hc]
    cases hk : numberOf? (some s) isFloat ds with
    | none =>
      rw [hk] at h
      cases h
    | some k' =>
      rw [hk] at h
      -- the suffix belongs to the number, and the digits end before it also when nothing else follows
      refine ⟨word ++ [s], rest, by simp, ?_, fun digit => ?_, ?_⟩
      · rw [List.length_append]
        exact (Prod.mk.inj h).2.symm
      · have same := begins digit
        cases word with
        | nil =>
          rw [← same] at digit
          exact absurd digit nofun
        | cons d word => rfl
      · simp only [lexNumber, Bool.not_false, read, List.drop_left, suffix, hk]
        exact h

/-! ### Any lexeme -/

theorem lexWord_alone (c : Char) (hc : Text.continuesName c) (h : lexWord (c :: r) = (.ok k, n)) :
    ∃ word rest, r = word ++ rest ∧ n = word.length + 1 ∧ lexWord (c :: word) = (.ok k, n) := by
  have same : (c :: r.takeWhile Text.continuesName).takeWhile Text.continuesName =
      (c :: r).takeWhile Text.continuesName := by
    rw [List.takeWhile_cons_of_pos hc, List.takeWhile_cons_of_pos hc, List.takeWhile_idem]
  refine ⟨r.takeWhile Text.continuesName, r.dropWhile Text.continuesName,
    (List.takeWhile_append_dropWhile ..).symm, ?_, ?_⟩
  · rw [← (Prod.mk.inj h).2, List.takeWhile_cons_of_pos hc]
    rfl
  · rw [← h]
    simp only [lexWord, same]

/-- A mark takes another character only if the two form a longer mark. -/
theorem mark_alone {mark : Mark}
    (h : (match r.head?.bind mark.double? with
      | some d => (.ok (.mark d), 2)
      | none => (.ok (.mark mark), 1) : Lexeme) = (.ok k, n)) :
    ∃ word rest, r = word ++ rest ∧ n = word.length + 1 ∧
      (match word.head?.bind mark.double? with
        | some d => (.ok (.mark d), 2)
        | none => (.ok (.mark mark), 1) : Lexeme) = (.ok k, n) := by
  cases r with
  | nil => exact ⟨[], [], rfl, (Prod.mk.inj h).2.symm, h⟩
  | cons c r =>
    cases hd : mark.double? c with
    | none =>
      simp only [List.head?_cons, Option.bind_some, hd] at h
      exact ⟨[], c :: r, rfl, (Prod.mk.inj h).2.symm, h⟩
    | some d =>
      refine ⟨[c], r, rfl, ?_, h⟩
      simp only [List.head?_cons, Option.bind_some, hd] at h
      exact (Prod.mk.inj h).2.symm

theorem lexeme_alone {afterDot : Bool} (h : lexeme afterDot a r = (.ok k, n)) :
    ∃ word rest, r = word ++ rest ∧ n = word.length + 1 ∧ lexeme false a word = (.ok k, n) := by
  unfold lexeme at h ⊢
  by_cases quote : a = '"'
  · rw [if_pos quote] at h
    obtain ⟨word, rest, rfl, rfl, alone⟩ := lexString_alone h
    exact ⟨word, rest, rfl, Nat.add_comm .., by rw [if_pos quote]; exact alone⟩
  · by_cases tick : a = '\''
    · rw [if_neg quote, if_pos tick] at h
      obtain ⟨word, rest, rfl, rfl, alone⟩ := lexChar_alone h
      exact ⟨word, rest, rfl, rfl, by rw [if_neg quote, if_pos tick]; exact alone⟩
    · simp only [if_neg quote, if_neg tick] at h ⊢
      cases hm : Mark.single? a with
      | some mark =>
        rw [hm] at h
        exact mark_alone h
      | none =>
        simp only [hm] at h ⊢
        by_cases digit : Text.isDigit a
        · simp only [if_pos digit] at h ⊢
          obtain ⟨word, rest, hcs, rfl, begins, alone⟩ := lexNumber_alone h
          cases word with
          | nil => exact absurd (begins digit) nofun
          | cons b word =>
            obtain ⟨rfl, rfl⟩ := List.cons.inj hcs
            exact ⟨word, rest, rfl, rfl, alone⟩
        · simp only [if_neg digit] at h ⊢
          by_cases start : Text.startsName a
          · rw [if_pos start] at h
            obtain ⟨word, rest, rfl, rfl, alone⟩ := lexWord_alone a (Text.continuesName_of_startsName start) h
            exact ⟨word, rest, rfl, rfl, by rw [if_pos start]; exact alone⟩
          · rw [if_neg start] at h
            cases h

/-! ### No lexeme is the end of input, and every name is an identifier -/

def Kind.Proper : Kind → Prop
  | .endOfInput => False
  | .name s => Text.isIdentifier s
  | _ => True

theorem Kind.Proper.ne_end (h : k.Proper) : k ≠ .endOfInput := by
  rintro rfl
  exact h

theorem Kind.proper_ofWord {s : String} (first : s.toList.head?.any Text.startsName) (all : s.toList.all Text.continuesName) :
    (Kind.ofWord s).Proper := by
  by_cases name : ofWord s = .name s
  · rw [name]
    change Text.isIdentifier s
    rw [Text.isIdentifier, first, all, decide_eq_true name, Bool.and_self, Bool.and_self]
  · unfold ofWord at name ⊢
    split_ifs at name ⊢ <;> trivial

theorem numberOf?_proper {suffix : Option Char} {isFloat : Bool} (h : numberOf? suffix isFloat ds = some k) : k.Proper := by
  unfold numberOf? at h
  dsimp only at h
  repeat' split at h
  all_goals cases h
  all_goals trivial

theorem lexNumber_proper {afterDot : Bool} (h : lexNumber afterDot cs = (.ok k, n)) : k.Proper := by
  unfold lexNumber at h
  split at h
  next ds isFloat m _ =>
  dsimp only at h
  cases hk : numberOf? (suffix? (cs.drop m)) isFloat ds with
  | none =>
    rw [hk] at h
    cases h
  | some k' =>
    rw [hk] at h
    obtain rfl : k' = k := Except.ok.inj (Prod.mk.inj h).1
    exact numberOf?_proper hk

theorem lexString_proper (h : lexString r text n = (.ok k, m)) : k.Proper := by
  fun_induction lexString r text n with
  | case1 | case3 | case5 | case6 => cases h
  | case2 =>
    cases h
    trivial
  | case4 _ _ _ _ _ _ ih => exact ih h
  | case7 _ _ _ _ _ _ _ _ ih => exact ih h

theorem lexChar_proper (h : lexChar r = (.ok k, n)) : k.Proper := by
  unfold lexChar closeChar at h
  repeat' split at h
  all_goals cases h
  all_goals trivial

/-- Only the end of the text is read as the end of input, and names are identifiers. -/
theorem lexeme_proper {afterDot : Bool} (h : lexeme afterDot a r = (.ok k, n)) : k.Proper := by
  unfold lexeme at h
  split at h
  · exact lexString_proper h
  · split at h
    · exact lexChar_proper h
    · cases hm : Mark.single? a with
      | some mark =>
        rw [hm] at h
        dsimp only at h
        split at h <;> cases h <;> trivial
      | none =>
        simp only [hm] at h
        split_ifs at h with digit start
        · exact lexNumber_proper h
        · have word : Kind.ofWord _ = k := Except.ok.inj (Prod.mk.inj h).1
          rw [← word]
          refine Kind.proper_ofWord ?_ ?_ <;> rw [String.toList_ofList]
          · rw [List.takeWhile_cons_of_pos (Text.continuesName_of_startsName start)]
            exact start
          · exact List.all_eq_true.2 fun c hc => List.mem_takeWhile_imp hc
        · cases h

end Token

end StackScript
