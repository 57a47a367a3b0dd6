import Mathlib
import StackScript.Session.Failure
import StackScript.Proofs.Meets
import StackScript.Proofs.Tiling
import StackScript.Value

/-!
Displayed scalars and texts as literals. What a value is displayed as is read again as one literal, with a minus sign
before it if the value is a negative number; only the least number of 64 bits is not.
-/
namespace StackScript

/-! ### Quoted characters -/

namespace Text

/-- Characters that literals can show: those of ASCII that print, line feed, tab, carriage return and NUL. -/
def Showable (c : Char) : Prop := 0x20 ≤ c.toNat ∧ c.toNat ≤ 0x7E ∨ c ∈ ['\n', '\t', '\r', '\x00']

instance : DecidablePred Showable := fun _ => inferInstanceAs (Decidable (_ ∨ _))

theorem isPrintable_of_ascii {c : Char} (low : 0x20 ≤ c.toNat) (high : c.toNat ≤ 0x7E) : isPrintable c := by
  have all : ∀ n ∈ List.range' 0x20 0x5F, (!unprintable.any fun r => decide (r.1 ≤ n) && decide (n ≤ r.2)) = true := by
    decide
  exact all c.toNat (List.mem_range'_1.2 ⟨low, Nat.lt_succ_of_le high⟩)

/-- A character is shown by a letter behind a backslash that stands for it, by itself, or by its code point if it does not
print. -/
theorem escape_cases {quote c : Char} (quotes : quote = '"' ∨ quote = '\'') :
    (∃ d, escape quote c = ['\\', d] ∧ unescape d = some c) ∨
      (escape quote c = [c] ∧ c ≠ '\\' ∧ c ≠ quote ∧ c ≠ '\n') ∨
      (escape quote c = '\\' :: 'u' :: '\x7b' :: (Nat.toDigits 16 c.toNat ++ ['\x7d']) ∧ ¬ isPrintable c ∧
        c ∉ ['\n', '\t', '\r', '\x00']) := by
  unfold escape
  split_ifs with null tab return_ line slash same printable
  · exact .inl ⟨'0', rfl, by rw [null]; rfl⟩
  · exact .inl ⟨'t', rfl, by rw [tab]; rfl⟩
  · exact .inl ⟨'r', rfl, by rw [return_]; rfl⟩
  · exact .inl ⟨'n', rfl, by rw [line]; rfl⟩
  · exact .inl ⟨'\\', rfl, by rw [slash]; rfl⟩
  · refine .inl ⟨c, rfl, ?_⟩
    rw [same]
    rcases quotes with rfl | rfl <;> rfl
  · exact .inr (.inl ⟨rfl, slash, same, line⟩)
  · exact .inr (.inr ⟨rfl, printable, by simp [null, tab, return_, line]⟩)

theorem escape_showable {quote c : Char} (quotes : quote = '"' ∨ quote = '\'') (showable : Showable c) :
    (∃ d, escape quote c = ['\\', d] ∧ unescape d = some c) ∨
      escape quote c = [c] ∧ c ≠ '\\' ∧ c ≠ quote ∧ c ≠ '\n' := by
  rcases escape_cases (c := c) quotes with named | plain | ⟨-, unprintable, other⟩
  · exact .inl named
  · exact .inr plain
  · rcases showable with ⟨low, high⟩ | special
    · exact absurd (isPrintable_of_ascii low high) unprintable
    · exact absurd special other

/-- What holds of all ten digits holds of any. -/
theorem of_digit {c : Char} {p : Char → Bool} (all : (List.range' 48 10).all fun n => p (Char.ofNat n)) (digit : isDigit c) :
    p c := by
  rw [isDigit, Bool.and_eq_true, decide_eq_true_eq, decide_eq_true_eq] at digit
  have low : 48 ≤ c.toNat := digit.1
  have high : c.toNat ≤ 57 := digit.2
  have this := List.all_eq_true.1 all c.toNat (List.mem_range'_1.2 ⟨low, Nat.lt_succ_of_le high⟩)
  rwa [Char.ofNat_toNat] at this

end Text

namespace Token

open Text (Showable escape isDigit)

variable {cs ds tail w : List Char} {k : Kind} {a c : Char} {n : Nat} {pointed f : Bool}

theorem lexString_escaped (showable : ∀ c ∈ cs, Showable c) : lexString (cs.flatMap (escape '"') ++ ['"']) w n =
    (.ok (.string (String.ofList (w.reverse ++ cs))), n + (cs.flatMap (escape '"') ++ ['"']).length) := by
  induction cs generalizing w n with
  | nil => simp [lexString]
  | cons c cs ih =>
    obtain ⟨first, others⟩ := List.forall_mem_cons.1 showable
    have more {w n} := ih (w := w) (n := n) others
    rw [List.flatMap_cons, List.append_assoc]
    rcases Text.escape_showable (.inl rfl) first with ⟨d, shown, known⟩ | ⟨shown, slash, quote, line⟩
    · rw [shown, List.cons_append, List.cons_append, List.nil_append, lexString, known]
      dsimp only
      rw [more, List.reverse_cons, List.append_assoc]
      simp only [List.length_cons, List.cons_append, List.nil_append]
      congr 1
      omega
    · rw [shown, List.cons_append, List.nil_append, lexString, if_neg line]
      · rw [more, List.reverse_cons, List.append_assoc]
        simp only [List.length_cons, List.cons_append, List.nil_append]
        congr 1
        omega
      · exact quote
      · exact fun e => absurd e slash
      · exact fun _ _ e => absurd e slash

theorem lexChar_escaped (showable : Showable c) :
    lexChar (escape '\'' c ++ ['\'']) = (.ok (.char c), (escape '\'' c ++ ['\'']).length + 1) := by
  rcases Text.escape_showable (.inr rfl) showable with ⟨d, shown, known⟩ | ⟨shown, slash, quote, line⟩
  · rw [shown]
    change lexChar ['\\', d, '\''] = _
    rw [lexChar, known]
    rfl
  · rw [shown]
    change lexChar [c, '\''] = _
    rw [lexChar, if_neg (not_or.2 ⟨quote, line⟩)]
    · rfl
    · intro _ e
      cases e
    · exact fun _ _ e => absurd e slash

/-! ### Digits -/

theorem lexDigits_append (digits : ∀ c ∈ ds, isDigit c) (ends : ∀ c ∈ tail.head?, EndsDigits c) :
    lexDigits pointed (ds ++ tail) w f n = (w.reverse ++ ds, f, n + ds.length) := by
  induction ds generalizing w n with
  | nil => simpa using lexDigits_ended ends
  | cons d ds ih =>
    obtain ⟨first, others⟩ := List.forall_mem_cons.1 digits
    rw [List.cons_append, lexDigits, if_pos first, ih others, List.reverse_cons, List.append_assoc, List.length_cons]
    congr 2
    omega

/-- The decimal digits of a number. -/
def digitsOf (n : Nat) : List Char := Nat.toDigits 10 n

theorem isDigit_digitsOf : ∀ c ∈ digitsOf n, isDigit c := by
  intro c hc
  have digit := Nat.isDigit_of_mem_toDigits (by decide) (by decide) hc
  rw [Char.isDigit, Bool.and_eq_true, decide_eq_true_eq, decide_eq_true_eq] at digit
  rw [isDigit, Bool.and_eq_true, decide_eq_true_eq, decide_eq_true_eq]
  exact digit

theorem digitsValue_digitsOf (n : Nat) : Decimal.digitsValue (digitsOf n) = n := by
  have := Nat.ofDigitChars_ten_toDigits (n := n)
  rwa [Nat.ofDigitChars_eq_foldl] at this

theorem digitsOf_cons (n : Nat) : ∃ d ds, digitsOf n = d :: ds ∧ isDigit d := by
  cases h : digitsOf n with
  | nil => exact absurd h Nat.toDigits_ne_nil
  | cons d ds => exact ⟨d, ds, rfl, isDigit_digitsOf d (h ▸ List.mem_cons_self ..)⟩

/-- Digits and a type letter are read as the number that they stand for. -/
theorem lexNumber_digits {s : Option Char} (tail : suffix? s.toList = s)
    (ends : ∀ c ∈ s, EndsDigits c) (number : numberOf? s false (digitsOf n) = some k) :
    lexNumber false (digitsOf n ++ s.toList) = (.ok k, (digitsOf n ++ s.toList).length) := by
  have read : lexDigits true (digitsOf n ++ s.toList) [] false 0 = (digitsOf n, false, (digitsOf n).length) := by
    have behind : ∀ c ∈ s.toList.head?, EndsDigits c := by
      cases s with
      | none => exact nofun
      | some c => exact ends
    have digits : ∀ c ∈ digitsOf n, isDigit c := isDigit_digitsOf
    have read : lexDigits true (digitsOf n ++ s.toList) [] false 0 = ([].reverse ++ digitsOf n, _) :=
      lexDigits_append digits behind
    rwa [List.reverse_nil, List.nil_append, Nat.zero_add] at read
  rw [lexNumber]
  simp only [Bool.not_false, read, List.drop_left, tail, number, List.length_append]
  cases s <;> rfl

theorem numberOf?_int (small : n < 0x8000000000000000) : numberOf? none false (digitsOf n) = some (.int n) := by
  change (if Decimal.digitsValue (digitsOf n) < _ then some (Kind.int (Decimal.digitsValue (digitsOf n))) else none) = _
  rw [digitsValue_digitsOf, if_pos small]

theorem numberOf?_int64 (small : n < 0x8000000000000000) : numberOf? (some 'L') false (digitsOf n) = some (.int64 n) := by
  change (if Decimal.digitsValue (digitsOf n) < _ then some (Kind.int64 (Decimal.digitsValue (digitsOf n))) else none) = _
  rw [digitsValue_digitsOf, if_pos small]

theorem numberOf?_byte (small : n < 256) : numberOf? (some 'b') false (digitsOf n) = some (.byte (.ofNat n)) := by
  change (if Decimal.digitsValue (digitsOf n) < _ then some (Kind.byte (.ofNat (Decimal.digitsValue (digitsOf n)))) else none) = _
  rw [digitsValue_digitsOf, if_pos small]

theorem single?_digit (digit : isDigit c) : Mark.single? c = none ∧ c ≠ '"' ∧ c ≠ '\'' ∧ c ≠ '>' :=
  of_decide_eq_true (Text.of_digit (p := fun c => decide (Mark.single? c = none ∧ c ≠ '"' ∧ c ≠ '\'' ∧ c ≠ '>')) (by decide) digit)

theorem lexeme_digit {r : List Char} (digit : isDigit a) : lexeme false a r = lexNumber false (a :: r) := by
  obtain ⟨mark, double, single, -⟩ := single?_digit digit
  rw [lexeme, if_neg double, if_neg single, mark]
  exact if_pos digit

/-! ### Texts of one literal -/

/-- The text is read as tokens of the given kinds, and then it ends. -/
def Scans (text : List Char) (kinds : List Kind) : Prop :=
  (scan (String.ofList text)).map (List.map Token.kind) = .ok (kinds ++ [.endOfInput])

theorem scanFrom_lexeme {fuel : Nat} {afterDot : Bool} {word : List Char} {p : Position} (begins : Begins a word)
    (lexed : lexeme afterDot a word = (.ok k, n)) (kind : k ≠ .endOfInput) :
    scanFrom (fuel + 1) afterDot ⟨a :: word, p⟩ =
      (scanFrom fuel (decide (k = .mark .dot)) (Cursor.skip n ⟨a :: word, p⟩)).map
        (⟨k, Span.between p (Cursor.skip n ⟨a :: word, p⟩).pos⟩ :: ·) := by
  rw [scanFrom, next, skipGap_of_begins begins]
  simp only [lexed, Cursor.skip, bind, Except.bind, if_neg kind]
  rfl

theorem scanFrom_nil {fuel : Nat} {afterDot : Bool} {p : Position} :
    scanFrom (fuel + 1) afterDot ⟨[], p⟩ = .ok [⟨.endOfInput, Span.between p p⟩] := rfl

/-- A lexeme is all there is in its text. -/
theorem scans_lexeme {word : List Char} (begins : Begins a word)
    (alone : lexeme false a word = (.ok k, (a :: word).length)) (kind : k ≠ .endOfInput) : Scans (a :: word) [k] := by
  rw [Scans, scan, Cursor.start, String.toList_ofList, scanFrom_lexeme begins alone kind, String.length_ofList,
    Cursor.skip, List.drop_length, List.length_cons, scanFrom_nil]
  rfl

theorem begins_digit {word : List Char} (digit : isDigit a) : Begins a word := by
  refine ⟨?_, fun c _ => ?_⟩
  · rintro (rfl | rfl | rfl | rfl) <;> exact absurd digit (by decide)
  · rintro rfl
    exact absurd digit (by decide)

/-- A minus sign before a number is a token of its own. -/
theorem scans_negative {word : List Char} (digit : isDigit a)
    (alone : lexeme false a word = (.ok k, (a :: word).length)) (kind : k ≠ .endOfInput) :
    Scans ('-' :: a :: word) [.mark .minus, k] := by
  have minus : lexeme false '-' (a :: word) = (.ok (.mark .minus), 1) := by
    have alone : (a :: word).head?.bind Mark.minus.double? = none := if_neg (single?_digit digit).2.2.2
    have mark : Mark.single? '-' = some .minus := rfl
    simp only [lexeme, mark, alone, ↓reduceIte, Char.reduceEq]
  have first : Begins '-' (a :: word) := ⟨by decide, fun _ _ slash => absurd slash (by decide)⟩
  have pointed : decide (Kind.mark .minus = .mark .dot) = false := rfl
  rw [Scans, scan, Cursor.start, String.toList_ofList, scanFrom_lexeme first minus (by decide), String.length_ofList,
    Cursor.skip, List.drop_succ_cons, List.drop_zero, List.length_cons, List.length_cons, pointed,
    scanFrom_lexeme (begins_digit digit) alone kind, Cursor.skip, List.drop_length, scanFrom_nil]
  rfl

/-- Digits with a type letter spell a number, by itself and behind a minus sign. -/
theorem scans_digits {s : Option Char} (tail : suffix? s.toList = s)
    (ends : ∀ c ∈ s, EndsDigits c) (number : numberOf? s false (digitsOf n) = some k) :
    Scans (digitsOf n ++ s.toList) [k] ∧ Scans ('-' :: (digitsOf n ++ s.toList)) [.mark .minus, k] := by
  have read := lexNumber_digits tail ends number
  have kind : k ≠ .endOfInput := (numberOf?_proper number).ne_end
  obtain ⟨d, ds, digits, digit⟩ := digitsOf_cons n
  rw [digits] at read ⊢
  rw [List.cons_append] at read ⊢
  rw [← lexeme_digit digit] at read
  exact ⟨scans_lexeme (begins_digit digit) read kind, scans_negative digit read kind⟩

theorem scans_int (small : n < 0x8000000000000000) :
    Scans (digitsOf n) [.int n] ∧ Scans ('-' :: digitsOf n) [.mark .minus, .int n] := by
  have bare : Scans (digitsOf n ++ (none : Option Char).toList) [.int n] ∧
      Scans ('-' :: (digitsOf n ++ (none : Option Char).toList)) [.mark .minus, .int n] :=
    scans_digits rfl nofun (numberOf?_int small)
  rwa [Option.toList_none, List.append_nil] at bare

theorem scans_int64 (small : n < 0x8000000000000000) :
    Scans (digitsOf n ++ ['L']) [.int64 n] ∧ Scans ('-' :: (digitsOf n ++ ['L'])) [.mark .minus, .int64 n] :=
  scans_digits (s := some 'L') (by decide) (fun _ h => Option.some.inj h ▸ ⟨by decide, by decide, by decide⟩)
    (numberOf?_int64 small)

theorem scans_byte (n : UInt8) : Scans (digitsOf n.toNat ++ ['b']) [.byte n] := by
  have := scans_digits (s := some 'b') (by decide)
    (fun _ h => Option.some.inj h ▸ ⟨by decide, by decide, by decide⟩) (numberOf?_byte n.toNat_lt)
  rw [UInt8.ofNat_toNat] at this
  exact this.1

theorem scans_char (showable : Showable c) : Scans (Text.quotedChar c).toList [.char c] := by
  rw [Text.quotedChar, String.toList_ofList]
  refine scans_lexeme ⟨by decide, fun _ _ => nofun⟩ ?_ nofun
  exact lexChar_escaped showable

theorem scans_string {s : String} (showable : ∀ c ∈ s.toList, Showable c) : Scans (Text.quoted s).toList [.string s] := by
  rw [Text.quoted, String.toList_ofList]
  refine scans_lexeme ⟨by decide, fun _ _ => nofun⟩ ?_ nofun
  have read := lexString_escaped (w := []) (n := 1) showable
  rw [List.reverse_nil, List.nil_append, String.ofList_toList, Nat.add_comm] at read
  exact read

theorem scans_bool (b : Bool) : Scans (if b then "true" else "false").toList [.bool b] := by
  unfold Scans
  cases b <;> decide +kernel

theorem toList_toString_nat (n : Nat) : (toString n).toList = digitsOf n := by
  rw [Nat.toString_eq_ofList_toDigits, String.toList_ofList]
  rfl

theorem toList_toString_int (i : Int) :
    (toString i).toList = if 0 ≤ i then digitsOf i.toNat else '-' :: digitsOf i.natAbs := by
  cases i with
  | ofNat n => exact toList_toString_nat n
  | negSucc n =>
    have negative : ¬ 0 ≤ Int.negSucc n := by simp
    rw [Int.toString_eq_repr, Int.repr_eq_if, if_neg negative, if_neg negative, String.toList_append]
    exact congrArg ('-' :: ·) (toList_toString_nat (n + 1))

end Token

/-! ### Reading literals -/

namespace Parser

variable {n least : Nat} {m t e : Token} {r : List Token} {last : Span} {v : Literal} {left : Expr}

theorem operand_literal (h : literal? t.kind t.span = some (.ok v)) (kind : t.kind ≠ .endOfInput) :
    operand (n + 1) ⟨t :: r, last⟩ = .ok (.literal v t.span, ⟨r, t.span⟩) := by
  unfold operand
  simp [h, kind, bind, StateT.bind, Except.bind, peek, get, getThe, MonadStateOf.get, StateT.get, pure, Except.pure,
    StateT.pure, advance, modify, modifyGet, MonadStateOf.modifyGet, StateT.modifyGet]

theorem operand_negated (minus : m.kind = .mark .minus) (h : negatedLiteral? t.kind m.span = some (.ok v))
    (kind : t.kind ≠ .endOfInput) :
    operand (n + 1) ⟨m :: t :: r, last⟩ = .ok (.literal v (m.span.merge t.span), ⟨r, t.span⟩) := by
  have sign : literal? (.mark .minus) m.span = none := rfl
  unfold operand
  simp [minus, sign, h, kind, bind, StateT.bind, Except.bind, peek, get, getThe, MonadStateOf.get, StateT.get, pure,
    Except.pure, StateT.pure, advance, modify, modifyGet, MonadStateOf.modifyGet, StateT.modifyGet, upToLast, Parser.last]

theorem operators_end (h : e.kind = .endOfInput) : operators (n + 1) least left ⟨[e], last⟩ = .ok (left, ⟨[e], last⟩) := by
  unfold operators
  simp [h, bind, StateT.bind, Except.bind, peek, get, getThe, MonadStateOf.get, StateT.get, pure, Except.pure, StateT.pure]

theorem level_end {s : Stream} (read : operand (n + 1) s = .ok (left, ⟨[e], last⟩)) (h : e.kind = .endOfInput) :
    level (n + 2) least s = .ok (left, ⟨[e], last⟩) := by
  unfold level
  simp [bind, StateT.bind, Except.bind, read, operators_end h]

theorem peekSecond_keeps (s : Stream) : ∃ k, peekSecond s = .ok (k, s) := by
  obtain ⟨rest, last⟩ := s
  rcases rest with _ | ⟨t, _ | ⟨u, rest⟩⟩ <;> exact ⟨_, rfl⟩

/-- An expression up to the end of the input is the value of a program. -/
theorem sequence_end {span : Span} (read : level n Level.lowest ⟨t :: r, last⟩ = .ok (left, ⟨[e], span⟩))
    (h : e.kind = .endOfInput) (end_ : t.kind ≠ .endOfInput) (semicolon : t.kind ≠ .mark .semicolon)
    (let_ : t.kind ≠ .keyword .let_) (fn : t.kind ≠ .keyword .fn) :
    sequence (n + 1) .endOfInput ⟨t :: r, last⟩ = .ok (([], some left), ⟨[e], span⟩) := by
  obtain ⟨k, second⟩ := peekSecond_keeps ⟨t :: r, last⟩
  unfold sequence
  simp [end_, semicolon, let_, fn, h, read, second, bind, StateT.bind, Except.bind, peek, get, getThe, MonadStateOf.get,
    StateT.get, pure, Except.pure, StateT.pure, accept, check]

end Parser

namespace Program

variable {t m e : Token} {v : Literal} {k : Token.Kind} {text : List Char}

theorem ofTokens_literal (h : Parser.literal? t.kind t.span = some (.ok v)) (he : e.kind = .endOfInput) :
    ofTokens [t, e] = .ok ⟨[], some (.literal v t.span)⟩ := by
  have other {k : Token.Kind} (hk : Parser.literal? k t.span = none) : t.kind ≠ k := by
    rintro rfl
    cases hk.symm.trans h
  have operand : Parser.operand 22 ⟨[t, e], {}⟩ = _ := Parser.operand_literal h (other rfl)
  have read : Parser.sequence 24 .endOfInput ⟨[t, e], {}⟩ = _ :=
    Parser.sequence_end (Parser.level_end operand he) he (other rfl) (other rfl) (other rfl) (other rfl)
  simp [ofTokens, nesting, StateT.run, read, bind, Except.bind, pure, Except.pure]

theorem ofTokens_negated (minus : m.kind = .mark .minus) (h : Parser.negatedLiteral? t.kind m.span = some (.ok v))
    (he : e.kind = .endOfInput) : ofTokens [m, t, e] = .ok ⟨[], some (.literal v (m.span.merge t.span))⟩ := by
  have kind : t.kind ≠ .endOfInput := by
    intro hk
    rw [hk] at h
    cases h
  have other {k : Token.Kind} (hk : k ≠ .mark .minus) : m.kind ≠ k := minus ▸ Ne.symm hk
  have operand : Parser.operand 30 ⟨[m, t, e], {}⟩ = _ := Parser.operand_negated minus h kind
  have read : Parser.sequence 32 .endOfInput ⟨[m, t, e], {}⟩ = _ :=
    Parser.sequence_end (Parser.level_end operand he) he (other nofun) (other nofun) (other nofun) (other nofun)
  simp [ofTokens, nesting, StateT.run, read, bind, Except.bind, pure, Except.pure]

theorem read_of_tokens {tokens : List Token} {p : Program} {source : String} (scanned : Token.scan source = .ok tokens)
    (parsed : ofTokens tokens = .ok p) : read source = .ok p := by
  rw [read, scanned]
  simp only [parsed]

/-- A text of one token is what is parsed from the token. -/
theorem read_of_scans {source : String} {f : Span → Expr} (spelled : Token.Scans source.toList [k])
    (parsed : ∀ t e : Token, t.kind = k → e.kind = .endOfInput → ofTokens [t, e] = .ok ⟨[], some (f t.span)⟩) :
    ∃ span, read source = .ok ⟨[], some (f span)⟩ := by
  obtain ⟨tokens, scanned, kinds⟩ := map_eq_ok.1 spelled
  rw [String.ofList_toList] at scanned
  obtain ⟨t, rest, rfl, ht, rest_kinds⟩ := List.map_eq_cons_iff.1 kinds
  obtain ⟨e, rfl, he⟩ := List.map_eq_singleton_iff.1 rest_kinds
  exact ⟨t.span, read_of_tokens scanned (parsed t e ht he)⟩

theorem read_literal {source : String} (spelled : Token.Scans source.toList [k])
    (h : ∀ span, Parser.literal? k span = some (.ok v)) : ∃ span, read source = .ok ⟨[], some (.literal v span)⟩ :=
  read_of_scans spelled fun t _ ht he => ofTokens_literal (ht ▸ h t.span) he

theorem read_negated {source : String} (spelled : Token.Scans source.toList [.mark .minus, k])
    (h : ∀ span, Parser.negatedLiteral? k span = some (.ok v)) : ∃ span, read source = .ok ⟨[], some (.literal v span)⟩ := by
  obtain ⟨tokens, scanned, kinds⟩ := map_eq_ok.1 spelled
  rw [String.ofList_toList] at scanned
  obtain ⟨m, others, rfl, hm, others_kinds⟩ := List.map_eq_cons_iff.1 kinds
  obtain ⟨t, rest, rfl, ht, rest_kinds⟩ := List.map_eq_cons_iff.1 others_kinds
  obtain ⟨e, rfl, he⟩ := List.map_eq_singleton_iff.1 rest_kinds
  exact ⟨m.span.merge t.span, read_of_tokens scanned (ofTokens_negated hm (ht ▸ h m.span) he)⟩

end Program

/-! ### Values as literals -/

namespace Value

/-- The literal of a scalar or a text. -/
def literal? (h : Heap) : Value → Option Literal
  | bool b => some (.bool b)
  | byte n => some (.byte n)
  | char c => some (.char c)
  | int32 n => some (.int32 n)
  | int64 n => some (.int64 n)
  | float32 bits => some (.float32 bits)
  | float64 bits => some (.float64 bits)
  | string r => (h.string r).toOption.map .string
  | _ => none

/-- Values that are displayed as literals. The digits of the least number of 64 bits are not those of a token, and
characters that are shown by their code points are not read. -/
def IsShown (h : Heap) : Value → Prop
  | bool _ | byte _ | int32 _ => True
  | int64 n => n ≠ Int64.minValue
  | char c => Text.Showable c
  | string r => ∃ s, h.string r = .ok s ∧ ∀ c ∈ s.toList, Text.Showable c
  | _ => False

theorem int32?_eq {negative : Bool} {k : Nat} {n : Int32} (h : (if negative then -(k : Int) else k) = n.toInt) :
    Parser.int32? negative k = some n := by
  have low := n.le_toInt
  have high := n.toInt_lt
  simp only [Parser.int32?, h]
  rw [if_pos (by omega), Int32.ofInt_toInt]

theorem read_int32 (n : Int32) : ∃ span, Program.read (toString n.toInt) = .ok ⟨[], some (.literal (.int32 n) span)⟩ := by
  have low := n.le_toInt
  have high := n.toInt_lt
  have text := Token.toList_toString_int n.toInt
  split_ifs at text with sign
  · have same : Parser.int32? false n.toInt.toNat = some n := int32?_eq (Int.toNat_of_nonneg sign)
    refine Program.read_literal (text ▸ (Token.scans_int (by omega)).1) fun span => ?_
    simp only [Parser.literal?, same]
  · have same : Parser.int32? true n.toInt.natAbs = some n := int32?_eq (by rw [if_pos rfl]; omega)
    refine Program.read_negated (text ▸ (Token.scans_int (by omega)).2) fun span => ?_
    simp only [Parser.negatedLiteral?, same]

theorem read_int64 {n : Int64} (above : n ≠ Int64.minValue) :
    ∃ span, Program.read (toString n.toInt ++ "L") = .ok ⟨[], some (.literal (.int64 n) span)⟩ := by
  have low := n.le_toInt
  have high := n.toInt_lt
  have least : n.toInt ≠ -2 ^ 63 := fun e => above (Int64.toInt_inj.1 e)
  have text : (toString n.toInt ++ "L").toList = _ := (String.toList_append ..).trans
    (congrArg (· ++ ['L']) (Token.toList_toString_int n.toInt))
  split_ifs at text with sign
  · have same : Int64.ofNat n.toInt.toNat = n := by
      rw [← Int64.ofInt_eq_ofNat, Int.toNat_of_nonneg sign, Int64.ofInt_toInt]
    refine Program.read_literal (text ▸ (Token.scans_int64 (by omega)).1) fun span => ?_
    simp only [Parser.literal?, same]
  · have same : -(Int64.ofNat n.toInt.natAbs) = n := by
      have size : (n.toInt.natAbs : Int) = -n.toInt := by omega
      rw [← Int64.ofInt_eq_ofNat, ← Int64.ofInt_neg, size, Int.neg_neg, Int64.ofInt_toInt]
    have spelled : Token.Scans (toString n.toInt ++ "L").toList [.mark .minus, .int64 n.toInt.natAbs] := by
      rw [text, List.cons_append]
      exact (Token.scans_int64 (by omega)).2
    refine Program.read_negated spelled fun span => ?_
    simp only [Parser.negatedLiteral?, same]

/-- The text of a value is a program that is the literal of the value. -/
theorem read_text {h : Heap} {v : Value} (shown : v.IsShown h) :
    ∃ l span, v.literal? h = some l ∧ Program.read (v.text h) = .ok ⟨[], some (.literal l span)⟩ := by
  cases v with
  | bool b =>
    obtain ⟨span, read⟩ := Program.read_literal (v := .bool b) (Token.scans_bool b) fun _ => rfl
    exact ⟨_, span, rfl, read⟩
  | byte n =>
    have spelled : Token.Scans (toString n.toNat ++ "b").toList [.byte n] := by
      rw [String.toList_append, Token.toList_toString_nat]
      exact Token.scans_byte n
    obtain ⟨span, read⟩ := Program.read_literal (v := .byte n) spelled fun _ => rfl
    exact ⟨_, span, rfl, read⟩
  | char c =>
    obtain ⟨span, read⟩ := Program.read_literal (v := .char c) (Token.scans_char shown) fun _ => rfl
    exact ⟨_, span, rfl, read⟩
  | int32 n =>
    obtain ⟨span, read⟩ := read_int32 n
    exact ⟨_, span, rfl, read⟩
  | int64 n =>
    obtain ⟨span, read⟩ := read_int64 shown
    exact ⟨_, span, rfl, read⟩
  | string r =>
    obtain ⟨s, hs, showable⟩ := shown
    obtain ⟨span, read⟩ := Program.read_literal (v := .string s) (Token.scans_string showable) fun _ => rfl
    have text : Value.text h (.string r) = Text.quoted s := by
      rw [Value.text, ty, textAs, hs]
    refine ⟨.string s, span, ?_, text ▸ read⟩
    rw [literal?, hs]
    rfl
  | _ => exact shown.elim

end Value

end StackScript
