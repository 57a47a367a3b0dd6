import Mathlib
import StackScript.Prompt
import StackScript.Proofs.Tiling

/-!
Braces of lines and brace tokens. Where no comment holds a brace or a quote, the braces that are counted line by line
are those of the tokens: no token but the braces counts, what is quoted is quoted for both, and no token goes on in
the next line.
-/
open String (utf8Len)

namespace StackScript

/-! ### What a lexeme counts -/

namespace Braces

/-- Characters that stand for themselves outside quotes, within a line. -/
def Inert (c : Char) : Prop := c ∉ ['\n', '"', '\'', '\x7b', '\x7d']

instance (c : Char) : Decidable (Inert c) := inferInstanceAs (Decidable (_ ∉ _))

/-- Characters within a line that begin and end outside quotes, with what they count. -/
structure Counts (word : List Char) (n : Int) : Prop where
  within : '\n' ∉ word
  count (rest : List Char) : countFrom .plain (word ++ rest) = n + countFrom .plain rest

theorem countFrom_plain {c : Char} (cs : List Char) (unquoted : c ≠ '"' ∧ c ≠ '\'') : countFrom .plain (c :: cs) =
    (if c = '\x7b' then 1 else if c = '\x7d' then -1 else 0) + countFrom .plain cs := by
  rw [countFrom, if_neg (not_or.2 unquoted)]

theorem Counts.nil : Counts [] 0 := ⟨nofun, fun _ => (Int.zero_add _).symm⟩

theorem Counts.cons {c : Char} {word : List Char} {n : Int} (inert : Inert c) (h : Counts word n) : Counts (c :: word) n := by
  simp only [Inert, List.mem_cons, List.not_mem_nil, or_false, not_or] at inert
  obtain ⟨line, double, single, opening, closing⟩ := inert
  refine ⟨List.not_mem_cons_of_ne_of_not_mem (Ne.symm line) h.within, fun rest => ?_⟩
  rw [List.cons_append, countFrom_plain _ ⟨double, single⟩, if_neg opening, if_neg closing, Int.zero_add, h.count]

theorem Counts.of_inert {word : List Char} (inert : ∀ c ∈ word, Inert c) : Counts word 0 := by
  induction word with
  | nil => exact .nil
  | cons c word ih => exact .cons (inert c (List.mem_cons_self ..)) (ih fun d hd => inert d (.tail _ hd))

end Braces

namespace Token

open Braces (Inert Counts countFrom)

/-- What a token adds to the braces that are open. -/
def Kind.brace : Kind → Int
  | .mark .leftBrace => 1
  | .mark .rightBrace => -1
  | _ => 0

variable {a c : Char} {r cs ds ds' text word : List Char} {k : Kind} {n m : Nat} {pointed f f' : Bool}

theorem lexString_counts (h : lexString word text n = (.ok k, n + word.length)) : k.brace = 0 ∧ '\n' ∉ word ∧
    ∀ rest, countFrom (.inside '"') (word ++ rest) = countFrom .plain rest := by
  fun_induction lexString word text n with
  | case1 | case3 | case5 | case6 => cases h
  | case2 r text n =>
    obtain ⟨kind, length⟩ := Prod.mk.inj h
    obtain rfl : r = [] := List.length_eq_zero_iff.1 (by rw [List.length_cons] at length; omega)
    cases kind
    exact ⟨rfl, by decide, fun rest => rfl⟩
  | case4 c r text n d known ih =>
    obtain ⟨kind, line, count⟩ := ih (by rw [h, List.length_cons, List.length_cons]; congr 1; omega)
    have : c ≠ '\n' := by
      rintro rfl
      cases known
    refine ⟨kind, by simp [line, this.symm], fun rest => ?_⟩
    rw [← count rest]
    rfl
  | case7 c r text n quote last escape newline ih =>
    obtain ⟨kind, line, count⟩ := ih (by rw [h, List.length_cons]; congr 1; omega)
    -- a backslash would have been an escape or the end of the text
    have plain : c ≠ '\\' := by
      rintro rfl
      cases r with
      | nil => exact last rfl rfl
      | cons d s => exact escape d s rfl rfl
    refine ⟨kind, by simp [line, Ne.symm newline], fun rest => ?_⟩
    rw [List.cons_append, countFrom, if_neg plain, if_neg quote, count]

theorem closeChar_counts (h : closeChar c n r = (.ok k, n + r.length)) : k = .char c ∧ r = ['\''] := by
  unfold closeChar at h
  split at h
  · next r =>
    obtain ⟨kind, length⟩ := Prod.mk.inj h
    obtain rfl : r = [] := List.length_eq_zero_iff.1 (by rw [List.length_cons] at length; omega)
    exact ⟨(Except.ok.inj kind).symm, rfl⟩
  · cases h

theorem lexChar_counts (h : lexChar word = (.ok k, word.length + 1)) : k.brace = 0 ∧ '\n' ∉ word ∧
    ∀ rest, countFrom (.inside '\'') (word ++ rest) = countFrom .plain rest := by
  unfold lexChar at h
  split at h
  · cases h
  · cases h
  · next c r =>
    split at h
    · next d known =>
      obtain ⟨rfl, rfl⟩ := closeChar_counts (h.trans (by rw [List.length_cons, List.length_cons]; congr 1; omega))
      have : c ≠ '\n' := by
        rintro rfl
        cases known
      exact ⟨rfl, by simp [this.symm], fun rest => rfl⟩
    · cases h
  · next c r last escape =>
    split at h
    · cases h
    · next plain =>
      obtain ⟨quote, newline⟩ := not_or.1 plain
      obtain ⟨rfl, rfl⟩ := closeChar_counts (h.trans (by rw [List.length_cons]; congr 1; omega))
      have : c ≠ '\\' := fun e => escape '\'' [] e rfl
      refine ⟨rfl, by simp [Ne.symm newline], fun rest => ?_⟩
      rw [List.cons_append, countFrom, if_neg this, if_neg quote]
      rfl

/-! ### Numbers and words -/

theorem inert_of_isDigit (digit : Text.isDigit c) : Inert c := by
  simp only [Inert, List.mem_cons, List.not_mem_nil, or_false, not_or]
  refine ⟨?_, ?_, ?_, ?_, ?_⟩ <;> (rintro rfl; revert digit; decide)

theorem inert_of_continuesName (continues : Text.continuesName c) : Inert c := by
  simp only [Inert, List.mem_cons, List.not_mem_nil, or_false, not_or]
  refine ⟨?_, ?_, ?_, ?_, ?_⟩ <;> (rintro rfl; revert continues; decide)

theorem inert_take_cons (inert : Inert c) (h : n + 1 ≤ m ∧ ∀ c ∈ r.take (m - (n + 1)), Inert c) :
    n ≤ m ∧ ∀ d ∈ (c :: r).take (m - n), Inert d := by
  have length : m - n = m - (n + 1) + 1 := by omega
  rw [length, List.take_succ_cons]
  exact ⟨Nat.le_of_succ_le h.1, List.forall_mem_cons.2 ⟨inert, h.2⟩⟩

theorem lexDigits_inert (h : lexDigits pointed cs ds f n = (ds', f', m)) :
    n ≤ m ∧ ∀ c ∈ cs.take (m - n), Inert c := by
  fun_induction lexDigits pointed cs ds f n with
  | case1 | case5 =>
    obtain rfl := (Prod.mk.inj (Prod.mk.inj h).2).2
    exact ⟨Nat.le_refl _, by simp⟩
  | case2 c r ds f n digit ih => exact inert_take_cons (inert_of_isDigit digit) (ih h)
  | case3 r ds f n digit ih => exact inert_take_cons (by decide) (ih h)
  | case4 c r ds f n digit gap point ih =>
    obtain rfl := point.1
    exact inert_take_cons (by decide) (ih h)

theorem numberOf?_brace {suffix : Option Char} {isFloat : Bool} (h : numberOf? suffix isFloat ds = some k) :
    k.brace = 0 := by
  unfold numberOf? at h
  dsimp only at h
  repeat' split at h
  all_goals cases h
  all_goals rfl

theorem lexNumber_counts (h : lexNumber false cs = (.ok k, cs.length)) : k.brace = 0 ∧ ∀ c ∈ cs, Inert c := by
  unfold lexNumber at h
  split at h
  next ds isFloat m digits =>
  have inert := (lexDigits_inert digits).2
  dsimp only at h
  cases hk : numberOf? (suffix? (cs.drop m)) isFloat ds with
  | none =>
    rw [hk] at h
    cases h
  | some k' =>
    rw [hk] at h
    obtain ⟨kind, length⟩ := Prod.mk.inj h
    obtain rfl : k' = k := Except.ok.inj kind
    refine ⟨numberOf?_brace hk, fun c hc => ?_⟩
    rw [← List.take_append_drop m cs] at hc
    rcases List.mem_append.1 hc with hc | hc
    · exact inert c hc
    · -- behind the digits there is only the suffix
      cases hs : suffix? (cs.drop m) with
      | none =>
        rw [hs] at length
        have nothing : cs.drop m = [] := List.drop_of_length_le (Nat.le_of_eq length.symm)
        rw [nothing] at hc
        cases hc
      | some s =>
        obtain ⟨⟨rest, split⟩, -, suffix⟩ := suffix?_eq_some hs
        have only : rest = [] := by
          have := congrArg List.length split
          rw [hs] at length
          simp only [Option.isSome_some, if_true, List.length_drop, List.length_cons] at length this
          exact List.length_eq_zero_iff.1 (by omega)
        rw [split, only, List.mem_singleton] at hc
        subst hc
        rw [suffix?] at suffix
        split_ifs at suffix with letter
        rcases letter.1 with rfl | rfl | rfl | rfl <;> decide

theorem lexWord_counts (h : lexWord cs = (.ok k, cs.length)) : k.brace = 0 ∧ ∀ c ∈ cs, Inert c := by
  obtain ⟨kind, length⟩ := Prod.mk.inj h
  constructor
  · rw [← Except.ok.inj kind]
    unfold Kind.ofWord
    split_ifs <;> rfl
  · have all : cs.takeWhile Text.continuesName = cs := (List.takeWhile_prefix _).eq_of_length length
    intro c hc
    rw [← all] at hc
    exact inert_of_continuesName (List.mem_takeWhile_imp hc)

/-! ### Marks and any lexeme -/

theorem eq_of_single?_leftBrace (h : Mark.single? c = some .leftBrace) : c = '\x7b' := by
  simp [Mark.single?, ite_eq_iff] at h
  exact h.2.2

theorem eq_of_single?_rightBrace (h : Mark.single? c = some .rightBrace) : c = '\x7d' := by
  simp [Mark.single?, ite_eq_iff] at h
  exact h.2.2.2

theorem single?_brace {mark : Mark} (h : Mark.single? c = some mark) :
    (Kind.mark mark).brace = if c = '\x7b' then 1 else if c = '\x7d' then -1 else 0 := by
  split_ifs with opening closing
  · subst opening
    cases h
    rfl
  · subst closing
    cases h
    rfl
  · have left : mark ≠ .leftBrace := fun e => opening (eq_of_single?_leftBrace (e ▸ h))
    have right : mark ≠ .rightBrace := fun e => closing (eq_of_single?_rightBrace (e ▸ h))
    cases mark <;> first | rfl | contradiction

theorem double?_brace {mark d : Mark} (h : mark.double? c = some d) :
    (Kind.mark mark).brace = 0 ∧ (Kind.mark d).brace = 0 ∧ Inert c := by
  cases mark <;> simp only [Mark.double?] at h <;> (try split_ifs at h) <;> cases h <;> subst_vars <;> decide

/-- A lexeme begins and ends outside quotes, in one line, and counts what its token does. -/
theorem lexeme_counts (h : lexeme false a word = (.ok k, word.length + 1)) : Counts (a :: word) k.brace := by
  unfold lexeme at h
  split at h
  · next quote =>
    subst quote
    obtain ⟨kind, line, count⟩ := lexString_counts (h.trans (by rw [Nat.add_comm]))
    refine ⟨by simp [line], fun rest => ?_⟩
    rw [kind, Int.zero_add, ← count rest]
    rfl
  · split at h
    · next quote =>
      subst quote
      obtain ⟨kind, line, count⟩ := lexChar_counts h
      refine ⟨by simp [line], fun rest => ?_⟩
      rw [kind, Int.zero_add, ← count rest]
      rfl
    · next double single =>
      cases hm : Mark.single? a with
      | some mark =>
        have line : a ≠ '\n' := by
          rintro rfl
          cases hm
        have first (word : List Char) := Braces.countFrom_plain word ⟨double, single⟩
        rw [← single?_brace hm] at first
        simp only [hm] at h
        split at h
        · next d hd =>
          obtain ⟨kind, length⟩ := Prod.mk.inj h
          obtain ⟨c, rfl⟩ : ∃ c, word = [c] := List.length_eq_one_iff.1 (by omega)
          obtain ⟨nothing, same, inert⟩ := double?_brace hd
          obtain rfl := Except.ok.inj kind
          rw [nothing] at first
          have behind : Counts [c] 0 := .of_inert (List.forall_mem_singleton.2 inert)
          refine ⟨List.not_mem_cons_of_ne_of_not_mem (Ne.symm line) behind.within, fun rest => ?_⟩
          rw [List.cons_append, first, Int.zero_add, behind.count, same]
        · obtain ⟨kind, length⟩ := Prod.mk.inj h
          obtain rfl : word = [] := List.length_eq_zero_iff.1 (by omega)
          obtain rfl := Except.ok.inj kind
          exact ⟨by simpa using Ne.symm line, fun rest => first rest⟩
      | none =>
        simp only [hm] at h
        split at h
        · obtain ⟨kind, inert⟩ := lexNumber_counts h
          rw [kind]
          exact .of_inert inert
        · split at h
          · obtain ⟨kind, inert⟩ := lexWord_counts h
            rw [kind]
            exact .of_inert inert
          · cases h

end Token

/-! ### What lines count -/

namespace Braces

/-- What the first lines of a text count, each of them from outside quotes on. -/
def firstLines : Nat → List Char → Int
  | 0, _ => 0
  | n + 1, cs => countFrom .plain (cs.takeWhile (· ≠ '\n')) + firstLines n ((cs.dropWhile (· ≠ '\n')).drop 1)

variable {n : Nat} {w : Int} {word gap line rest : List Char} {lines : List String}

@[simp] theorem firstLines_nil : firstLines n [] = 0 := by
  induction n with
  | zero => rfl
  | succ n ih => exact (congrArg (countFrom .plain [] + ·) ih).trans (Int.add_zero 0)

theorem firstLines_newline : firstLines (n + 1) ('\n' :: rest) = firstLines n rest := by
  simp [firstLines, countFrom]

theorem unbroken (within : '\n' ∉ word) : ∀ c ∈ word, decide (c ≠ '\n') = true := fun _ hc =>
  decide_eq_true fun e => within (e ▸ hc)

/-- Characters within a line count for that line only. -/
theorem firstLines_word (h : Counts word w) :
    firstLines n (word ++ rest) = (if n = 0 then 0 else w) + firstLines n rest := by
  cases n with
  | zero => rfl
  | succ n =>
    rw [firstLines, firstLines, List.takeWhile_append_of_pos (unbroken h.within),
      List.dropWhile_append_of_pos (unbroken h.within), h.count, if_neg (Nat.succ_ne_zero n), Int.add_assoc]

/-- What a text needs for no line to count any of it. -/
def Quiet (text : List Char) : Prop := ∀ c ∈ text, c ∉ ['"', '\'', '\x7b', '\x7d']

instance (text : List Char) : Decidable (Quiet text) := List.decidableBAll _ text

theorem firstLines_gap (quiet : Quiet gap) : firstLines n (gap ++ rest) = firstLines (n - gap.count '\n') rest := by
  induction gap generalizing n with
  | nil => rfl
  | cons c gap ih =>
    have later : Quiet gap := fun d hd => quiet d (.tail _ hd)
    by_cases newline : c = '\n'
    · subst newline
      cases n with
      | zero => rw [Nat.zero_sub, firstLines, firstLines]
      | succ n => rw [List.cons_append, firstLines_newline, ih later, List.count_cons_self, Nat.add_sub_add_right]
    · have inert : Counts [c] 0 := .of_inert (List.forall_mem_singleton.2
        (List.not_mem_cons_of_ne_of_not_mem newline (quiet c (List.mem_cons_self ..))))
      have here : firstLines n ([c] ++ (gap ++ rest)) = _ + firstLines n (gap ++ rest) := firstLines_word inert
      rw [ite_self, Int.zero_add] at here
      change firstLines n ([c] ++ (gap ++ rest)) = _
      rw [here, ih later, List.count_cons_of_ne newline]

theorem firstLines_line (within : '\n' ∉ line) :
    firstLines (n + 1) (line ++ '\n' :: rest) = countFrom .plain line + firstLines n rest := by
  rw [firstLines, List.takeWhile_append_of_pos (unbroken within), List.dropWhile_append_of_pos (unbroken within)]
  simp

theorem firstLines_lastLine (within : '\n' ∉ line) : firstLines (n + 1) line = countFrom .plain line := by
  rw [firstLines, List.takeWhile_eq_self_iff.2 (unbroken within), List.dropWhile_eq_nil_iff.2 (unbroken within)]
  simp

/-- The lines of a text count by themselves what they count in the text. -/
theorem firstLines_intercalate (unbroken : ∀ l ∈ lines, '\n' ∉ l.toList) :
    firstLines n ("\n".intercalate lines).toList = ((lines.take n).map count).sum := by
  induction lines generalizing n with
  | nil => simp
  | cons l lines ih =>
    obtain ⟨first, others⟩ := List.forall_mem_cons.1 unbroken
    cases n with
    | zero => rfl
    | succ n =>
      rw [List.take_succ_cons, List.map_cons, List.sum_cons, ← ih others]
      cases lines with
      | nil =>
        rw [String.intercalate_singleton, firstLines_lastLine first]
        simp [count]
      | cons l' lines =>
        rw [String.intercalate_cons_cons, String.toList_append, String.toList_append, List.append_assoc]
        exact firstLines_line first

end Braces

/-! ### Tokens and lines -/

namespace Token

/-- The opening brace tokens less the closing ones. -/
def balance (tokens : List Token) : Int :=
  (tokens.countP (·.kind = .mark .leftBrace) : Int) - tokens.countP (·.kind = .mark .rightBrace)

/-- The tokens on the first lines. -/
def upTo (line : Nat) (tokens : List Token) : List Token := tokens.filter (·.span.line ≤ line)

def gapsFrom (source : String) : Nat → List Token → List String
  | _, [] => []
  | offset, t :: tokens => Text.excerpt source offset t.span.start :: gapsFrom source t.span.stop tokens

/-- What is before the tokens of a text: blanks and comments. -/
def gaps (source : String) (tokens : List Token) : List String := gapsFrom source 0 tokens

theorem upTo_cons (line : Nat) (t : Token) (tokens : List Token) :
    upTo line (t :: tokens) = if t.span.line ≤ line then t :: upTo line tokens else upTo line tokens := by
  simp only [upTo, List.filter_cons, decide_eq_true_eq]

theorem balance_cons (t : Token) (tokens : List Token) : balance (t :: tokens) = t.kind.brace + balance tokens := by
  simp only [balance, List.countP_cons, decide_eq_true_eq]
  generalize t.kind = k
  by_cases left : k = .mark .leftBrace
  · subst left
    simp [Kind.brace]
    omega
  · by_cases right : k = .mark .rightBrace
    · subst right
      simp [Kind.brace]
      omega
    · have : k.brace = 0 := by
        unfold Kind.brace
        split <;> first | rfl | contradiction
      simp [left, right, this]

/-- Lexemes, blanks and comments one after another, from the characters before them on. -/
inductive Lexed : List Char → List Char → List Token → Prop
  | last {before gap : List Char} :
      Lexed before gap [⟨.endOfInput, Span.between (.after (before ++ gap)) (.after (before ++ gap))⟩]
  | token {before gap word more : List Char} {a : Char} {k : Kind} {tokens : List Token}
      (alone : lexeme false a word = (.ok k, word.length + 1)) (lexed : Lexed (before ++ gap ++ (a :: word)) more tokens) :
      Lexed before (gap ++ (a :: word) ++ more)
        (⟨k, Span.between (.after (before ++ gap)) (.after (before ++ gap ++ (a :: word)))⟩ :: tokens)

theorem scanFrom_lexed : ∀ (fuel : Nat) (afterDot : Bool) (before rest : List Char) (tokens : List Token),
    rest.length < fuel → scanFrom fuel afterDot ⟨rest, .after before⟩ = .ok tokens → Lexed before rest tokens
  | 0, _, _, _, _, enough, _ => absurd enough (Nat.not_lt_zero _)
  | fuel + 1, afterDot, before, rest, tokens, enough, scanned => by
    have turn := next_turn afterDot before rest
    rw [scanFrom] at scanned
    generalize next afterDot ⟨rest, .after before⟩ = result at turn scanned
    cases turn with
    | ended filler =>
      obtain rfl := Except.ok.inj scanned
      exact .last
    | failed split span => cases scanned
    | @token gap word more a k split filler begins alone kind =>
      have shorter : more.length < fuel := by
        have := congrArg List.length split
        simp only [List.length_append, List.length_cons] at this
        omega
      simp only [bind, Except.bind, if_neg kind] at scanned
      split at scanned
      · cases scanned
      · next others rest =>
        obtain rfl := Except.ok.inj scanned
        rw [split]
        exact .token alone (scanFrom_lexed fuel _ _ more others shorter rest)

theorem scan_lexed {source : String} {tokens : List Token} (h : scan source = .ok tokens) :
    Lexed [] source.toList tokens :=
  scanFrom_lexed (source.length + 1) false [] source.toList tokens
    (by rw [String.length_toList]; exact Nat.lt_succ_self _) h

variable {source : String} {before rest : List Char} {tokens : List Token}

/-- Where the text between tokens is quiet, its first lines count what the tokens on them do. -/
theorem Lexed.firstLines (h : Lexed before rest tokens) (split : source.toList = before ++ rest)
    (quiet : ∀ g ∈ gapsFrom source (utf8Len before) tokens, Braces.Quiet g.toList) (line : Nat) :
    Braces.firstLines (line - before.count '\n') rest = balance (upTo line tokens) := by
  induction h with
  | @last before gap =>
    have parts : source.toList = before ++ gap ++ [] := by rw [split, List.append_nil]
    have gap_quiet := quiet _ (List.mem_cons_self ..)
    simp only [Span.between, Position.offset_after, Text.excerpt_eq parts, String.toList_ofList] at gap_quiet
    have nothing : Braces.firstLines (line - before.count '\n') (gap ++ []) = _ := Braces.firstLines_gap gap_quiet
    rw [List.append_nil, Braces.firstLines_nil] at nothing
    rw [nothing, upTo_cons]
    split_ifs <;> rfl
  | @token before gap word more a k tokens alone lexed ih =>
    have parts : source.toList = before ++ gap ++ (a :: word ++ more) := by
      rw [split]
      simp only [List.append_assoc]
    obtain ⟨gap_quiet, later⟩ := List.forall_mem_cons.1 quiet
    simp only [Span.between, Position.offset_after, Text.excerpt_eq parts, String.toList_ofList] at gap_quiet later
    have counts := lexeme_counts alone
    have rest := ih (by rw [parts]; simp only [List.append_assoc]) later
    -- the token is on the first lines if any are left behind the gap, and the tokens after it begin on its line
    have lines : (before ++ gap ++ (a :: word)).count '\n' = before.count '\n' + gap.count '\n' := by
      rw [List.count_append, List.count_append, List.count_eq_zero.2 counts.within, Nat.add_zero]
    rw [lines, ← Nat.sub_sub] at rest
    rw [List.append_assoc, Braces.firstLines_gap gap_quiet, Braces.firstLines_word counts, rest]
    have place : (Span.between (.after (before ++ gap)) (.after (before ++ gap ++ (a :: word)))).line =
        1 + (before.count '\n' + gap.count '\n') := by
      simp only [Span.between, Position.after_eq, List.count_append]
    rw [upTo_cons]
    simp only [place]
    by_cases there : line - before.count '\n' - gap.count '\n' = 0
    · rw [if_pos there, if_neg (by omega), Int.zero_add]
    · rw [if_neg there, if_pos (by omega), balance_cons]

/-- The first lines of a text with quiet comments count what the tokens on them do. -/
theorem count_lines {lines : List String} (unbroken : ∀ l ∈ lines, '\n' ∉ l.toList)
    (scanned : scan ("\n".intercalate lines) = .ok tokens)
    (quiet : ∀ g ∈ gaps ("\n".intercalate lines) tokens, Braces.Quiet g.toList) (k : Nat) :
    ((lines.take k).map Braces.count).sum = balance (upTo k tokens) := by
  rw [← Braces.firstLines_intercalate unbroken]
  exact (scan_lexed scanned).firstLines rfl quiet k

/-- All tokens of a text are on its lines. -/
theorem count_all_lines {lines : List String} (unbroken : ∀ l ∈ lines, '\n' ∉ l.toList)
    (scanned : scan ("\n".intercalate lines) = .ok tokens)
    (quiet : ∀ g ∈ gaps ("\n".intercalate lines) tokens, Braces.Quiet g.toList) :
    (lines.map Braces.count).sum = balance tokens := by
  -- so many lines that they reach every token
  have reaches := count_lines unbroken scanned quiet (lines.length + (tokens.map (·.span.line)).sum)
  have all : upTo (lines.length + (tokens.map (·.span.line)).sum) tokens = tokens := by
    refine List.filter_eq_self.2 fun t ht => decide_eq_true ?_
    have line : t.span.line ∈ tokens.map (·.span.line) := List.mem_map_of_mem ht
    exact (List.single_le_sum (fun _ _ => Nat.zero_le _) _ line).trans (Nat.le_add_left ..)
  rwa [all, List.take_of_length_le (Nat.le_add_right ..)] at reaches

end Token

end StackScript
