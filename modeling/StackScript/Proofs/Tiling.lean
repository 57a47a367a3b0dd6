import Mathlib.Data.List.Induction
import Mathlib.Data.String.Basic
import StackScript.Proofs.Lexemes

/-!
Tokens tile their text. They lie in order, what is between them is blanks and comments, every span is where its line and
column say, and each token is read again from its own characters.
-/
namespace StackScript

open String (utf8Len)

/-! ### Places -/

/-- The part of a text between two byte offsets. -/
def Text.excerpt (source : String) (start stop : Nat) : String :=
  String.Pos.Raw.extract source ⟨start⟩ ⟨stop⟩

/-- A span whose ends are between characters, and whose line and column are those of its start: lines are counted by
line feeds, and columns by the characters since the last one. -/
structure Span.Exact (source : String) (s : Span) : Prop where
  start_valid : (⟨s.start⟩ : String.Pos.Raw).IsValid source
  stop_valid : (⟨s.stop⟩ : String.Pos.Raw).IsValid source
  start_le_stop : s.start ≤ s.stop
  line : s.line = 1 + (Text.excerpt source 0 s.start).toList.count '\n'
  column : s.column = 1 + ((Text.excerpt source 0 s.start).toList.reverse.takeWhile (· ≠ '\n')).length

namespace Position

theorem advance_append (p : Position) (xs ys : List Char) : p.advance (xs ++ ys) = (p.advance xs).advance ys :=
  List.foldl_append

/-- The position after the first characters of a text. -/
def after (before : List Char) : Position := advance {} before

theorem after_append (xs ys : List Char) : after (xs ++ ys) = (after xs).advance ys := advance_append ..

theorem after_eq (before : List Char) :
    after before = ⟨utf8Len before, 1 + before.count '\n', 1 + (before.reverse.takeWhile (· ≠ '\n')).length⟩ := by
  induction before using List.reverseRecOn with
  | nil => rfl
  | append_singleton before c ih =>
    have step : after (before ++ [c]) = (after before).next c := after_append ..
    rw [step, ih, next, List.reverse_append, List.count_append, String.utf8Len_append]
    by_cases newline : c = '\n'
    · simp [newline, Nat.add_assoc]
    · simp [newline, Nat.add_comm]

@[simp] theorem offset_after (before : List Char) : (after before).offset = utf8Len before := by rw [after_eq]

end Position

section

variable {source : String} {before text rest : List Char}

theorem Text.excerpt_eq (h : source.toList = before ++ text ++ rest) :
    excerpt source (utf8Len before) (utf8Len (before ++ text)) = String.ofList text := by
  have same : source = String.ofList (before ++ text ++ rest) := by rw [← h, String.ofList_toList]
  rw [same, String.utf8Len_append]
  exact String.extract_of_valid before text rest

theorem String.isValid_utf8Len (h : source.toList = before ++ rest) :
    (⟨utf8Len before⟩ : String.Pos.Raw).IsValid source := by
  rw [String.Pos.Raw.isValid_iff_exists_append]
  refine ⟨String.ofList before, String.ofList rest, ?_, (String.rawEndPos_ofList before).symm⟩
  rw [← String.ofList_append, ← h, String.ofList_toList]

/-- What is counted while the characters are read is what the text says. -/
theorem Span.exact_between (h : source.toList = before ++ text ++ rest) :
    (between (.after before) (.after (before ++ text))).Exact source := by
  have first : source.toList = [] ++ before ++ (text ++ rest) := by rw [h, List.append_assoc, List.nil_append]
  have head : Text.excerpt source 0 (utf8Len before) = String.ofList before := by
    simpa using Text.excerpt_eq first
  simp only [between, Position.after_eq]
  constructor
  · exact String.isValid_utf8Len first
  · exact String.isValid_utf8Len h
  · rw [String.utf8Len_append]
    exact Nat.le_add_right ..
  · simp only [head, String.toList_ofList]
  · simp only [head, String.toList_ofList]

end

namespace Token

/-! ### What is between tokens -/

/-- The text of a block comment from inside it, with so many comments open around the innermost. It ends where the
outermost is closed, or is never closed. -/
inductive Remark : Bool → Nat → List Char → Prop
  | close : Remark true 0 ['*', '/']
  | never {n : Nat} : Remark false n []
  | inner {closed : Bool} {n : Nat} {text : List Char} (outer : Remark closed n text) :
      Remark closed (n + 1) ('*' :: '/' :: text)
  | nest {closed : Bool} {n : Nat} {text : List Char} (within : Remark closed (n + 1) text) :
      Remark closed n ('/' :: '*' :: text)
  | char {closed : Bool} {n : Nat} {c : Char} {text : List Char} (closes : ¬ ['*', '/'] <+: c :: text)
      (opens : ¬ ['/', '*'] <+: c :: text) (more : Remark closed n text) : Remark closed n (c :: text)

/-- Blanks and comments. Only where the text ends may a line comment lack its line feed and a block comment its end. -/
inductive Filler (ends : Prop) : List Char → Prop
  | nil : Filler ends []
  | blank {c : Char} {more : List Char} (blank : c ∈ [' ', '\t', '\r', '\n']) (filler : Filler ends more) :
      Filler ends (c :: more)
  | line {text more : List Char} (line : ∀ c ∈ text, c ≠ '\n') (filler : Filler ends more) :
      Filler ends ('/' :: '/' :: (text ++ '\n' :: more))
  | lastLine {text : List Char} (last : ends) (line : ∀ c ∈ text, c ≠ '\n') : Filler ends ('/' :: '/' :: text)
  | block {text more : List Char} (remark : Remark true 0 text) (filler : Filler ends more) :
      Filler ends ('/' :: '*' :: (text ++ more))
  | lastBlock {text : List Char} (last : ends) (remark : Remark false 0 text) : Filler ends ('/' :: '*' :: text)

theorem Filler.imp {ends ends' : Prop} {gap : List Char} (h : Filler ends gap) (weaker : ends → ends') :
    Filler ends' gap := by
  induction h with
  | nil => exact .nil
  | blank blank _ ih => exact .blank blank ih
  | line line _ ih => exact .line line ih
  | lastLine last line => exact .lastLine (weaker last) line
  | block remark _ ih => exact .block remark ih
  | lastBlock last remark => exact .lastBlock (weaker last) remark

/-- What is skipped from inside a blank, a line comment or block comments. -/
def Gap.Skips (ends : Prop) : Gap → List Char → Prop
  | .blank, gap => Filler ends gap
  | .line, gap => ∃ text, (∀ c ∈ text, c ≠ '\n') ∧
      ((∃ more, gap = text ++ '\n' :: more ∧ Filler ends more) ∨ gap = text ∧ ends)
  | .block n, gap => (∃ text more, gap = text ++ more ∧ Remark true n text ∧ Filler ends more) ∨
      ends ∧ Remark false n gap

section

variable {ends : Prop} {n : Nat} {c : Char} {gap : List Char}

theorem Gap.Skips.line (h : Gap.line.Skips ends gap) : Filler ends ('/' :: '/' :: gap) := by
  obtain ⟨text, line, ⟨more, rfl, filler⟩ | ⟨rfl, last⟩⟩ := h
  · exact .line line filler
  · exact .lastLine last line

theorem Gap.Skips.block (h : (Gap.block 0).Skips ends gap) : Filler ends ('/' :: '*' :: gap) := by
  rcases h with ⟨text, more, rfl, remark, filler⟩ | ⟨last, remark⟩
  · exact .block remark filler
  · exact .lastBlock last remark

theorem Gap.Skips.lineChar (h : (if c = '\n' then Gap.blank else Gap.line).Skips ends gap) :
    Gap.line.Skips ends (c :: gap) := by
  split_ifs at h with newline
  · exact ⟨[], nofun, .inl ⟨gap, by rw [newline]; rfl, h⟩⟩
  · obtain ⟨text, line, rest⟩ := h
    refine ⟨c :: text, List.forall_mem_cons.2 ⟨newline, line⟩, ?_⟩
    rcases rest with ⟨more, rfl, filler⟩ | ⟨rfl, last⟩
    · exact .inl ⟨more, rfl, filler⟩
    · exact .inr ⟨rfl, last⟩

/-- Inside of comments, what goes before a skipped text may change how many are open. -/
theorem Gap.Skips.within {m : Nat} (h : (Gap.block m).Skips ends gap) (head : List Char)
    (remark : ∀ closed text, text <+: gap → Remark closed m text → Remark closed n (head ++ text)) :
    (Gap.block n).Skips ends (head ++ gap) := by
  rcases h with ⟨text, more, rfl, inside, filler⟩ | ⟨last, inside⟩
  · refine .inl ⟨head ++ text, more, (List.append_assoc ..).symm, ?_, filler⟩
    exact remark true text (List.prefix_append ..) inside
  · exact .inr ⟨last, remark false gap (List.prefix_refl gap) inside⟩

end

/-- Whether a token, and neither a blank nor a comment, begins with a character and what follows it. -/
def Begins (a : Char) (r : List Char) : Prop :=
  ¬ (a = ' ' ∨ a = '\t' ∨ a = '\r' ∨ a = '\n') ∧ ∀ c ∈ r.head?, a = '/' → c ≠ '/' ∧ c ≠ '*'

theorem Begins.of_append {a : Char} {word rest : List Char} (h : Begins a (word ++ rest)) : Begins a word := by
  refine ⟨h.1, fun c hc => h.2 c ?_⟩
  cases word with
  | nil => cases hc
  | cons d word => exact hc

theorem skipGap_of_begins {a : Char} {r : List Char} (h : Begins a r) (p : Position) :
    skipGap .blank (a :: r) p = ⟨a :: r, p⟩ := by
  rw [skipGap, if_neg h.1]
  · rintro r rfl rfl
    exact (h.2 '/' rfl rfl).1 rfl
  · rintro r rfl rfl
    exact (h.2 '*' rfl rfl).2 rfl

/-- What is skipped is blanks and comments, and then the text is at its end or a token begins. -/
theorem skipGap_spec (g : Gap) (cs : List Char) (p : Position) :
    ∃ gap, cs = gap ++ (skipGap g cs p).rest ∧ (skipGap g cs p).pos = p.advance gap ∧
      g.Skips ((skipGap g cs p).rest = []) gap ∧ ∀ a r, (skipGap g cs p).rest = a :: r → Begins a r := by
  -- one case for each way of skipping; what it makes of the text after it is `Gap.Skips`
  fun_induction skipGap g cs p with
  | case1 g p =>
    refine ⟨[], rfl, rfl, ?_, fun a r h => nomatch h⟩
    cases g with
    | blank => exact .nil
    | line => exact ⟨[], nofun, .inr ⟨rfl, rfl⟩⟩
    | block n => exact .inr ⟨rfl, .never⟩
  | case2 r p ih =>
    obtain ⟨gap, split, pos, skips, begins⟩ := ih
    exact ⟨'/' :: '/' :: gap, congrArg ('/' :: '/' :: ·) split, pos, skips.line, begins⟩
  | case3 r p ih =>
    obtain ⟨gap, split, pos, skips, begins⟩ := ih
    exact ⟨'/' :: '*' :: gap, congrArg ('/' :: '*' :: ·) split, pos, skips.block, begins⟩
  | case4 c r p line block blank ih =>
    obtain ⟨gap, split, pos, skips, begins⟩ := ih
    exact ⟨c :: gap, congrArg (c :: ·) split, pos, .blank (by simpa using blank) skips, begins⟩
  | case5 c r p line block blank =>
    -- neither a blank nor the beginning of a comment, so a token begins here
    refine ⟨[], rfl, rfl, .nil, fun a s h => ?_⟩
    obtain ⟨rfl, rfl⟩ := List.cons.inj h
    refine ⟨blank, fun d hd slash => ⟨?_, ?_⟩⟩
    all_goals
      rintro rfl
      obtain ⟨s, rfl⟩ := List.head?_eq_some_iff.1 hd
    · exact line s slash rfl
    · exact block s slash rfl
  | case6 c r p ih =>
    obtain ⟨gap, split, pos, skips, begins⟩ := ih
    exact ⟨c :: gap, congrArg (c :: ·) split, pos, skips.lineChar, begins⟩
  | case7 r p ih =>
    obtain ⟨gap, split, pos, skips, begins⟩ := ih
    exact ⟨'*' :: '/' :: gap, congrArg ('*' :: '/' :: ·) split, pos, .inl ⟨['*', '/'], gap, rfl, .close, skips⟩, begins⟩
  | case8 n r p ih =>
    obtain ⟨gap, split, pos, skips, begins⟩ := ih
    exact ⟨'*' :: '/' :: gap, congrArg ('*' :: '/' :: ·) split, pos, skips.within ['*', '/'] fun _ _ _ => .inner, begins⟩
  | case9 n r p ih =>
    obtain ⟨gap, split, pos, skips, begins⟩ := ih
    exact ⟨'/' :: '*' :: gap, congrArg ('/' :: '*' :: ·) split, pos, skips.within ['/', '*'] fun _ _ _ => .nest, begins⟩
  | case10 n c r p outermost inner nested ih =>
    obtain ⟨gap, split, pos, skips, begins⟩ := ih
    refine ⟨c :: gap, congrArg (c :: ·) split, pos, ?_, begins⟩
    -- the text goes on as the comment does, so it neither closes nor opens one here
    apply skips.within [c]
    intro closed text inside remark
    have goes_on {x y : Char} (h : [x, y] <+: c :: text) : c = x ∧ ∃ s, r = y :: s := by
      have := h.trans (List.cons_prefix_cons.2 ⟨rfl, inside.trans (split ▸ List.prefix_append ..)⟩)
      obtain ⟨rfl, t, rfl⟩ := List.cons_prefix_cons.1 this
      exact ⟨rfl, t, rfl⟩
    refine .char (fun closes => ?_) (fun opens => ?_) remark
    · obtain ⟨rfl, s, rfl⟩ := goes_on closes
      cases n with
      | zero => exact outermost s rfl rfl rfl
      | succ n => exact inner n s rfl rfl rfl
    · obtain ⟨rfl, s, rfl⟩ := goes_on opens
      exact nested s rfl rfl

/-! ### One token after another -/

/-- What reading one token comes to, from the characters before it on. -/
inductive Turn (before rest : List Char) : Except LexError (Token × Cursor) → Prop
  | ended (filler : Filler True rest) :
      Turn before rest (.ok (⟨.endOfInput, Span.between (.after (before ++ rest)) (.after (before ++ rest))⟩,
        ⟨[], .after (before ++ rest)⟩))
  | token {gap word more : List Char} {a : Char} {k : Kind} (split : rest = gap ++ (a :: word) ++ more)
      (filler : Filler False gap) (begins : Begins a word)
      (alone : lexeme false a word = (.ok k, word.length + 1)) (kind : k ≠ .endOfInput) :
      Turn before rest (.ok (⟨k, Span.between (.after (before ++ gap)) (.after (before ++ gap ++ (a :: word)))⟩,
        ⟨more, .after (before ++ gap ++ (a :: word))⟩))
  | failed {gap text more : List Char} {e : LexError} (split : rest = gap ++ text ++ more)
      (span : e.span = Span.between (.after (before ++ gap)) (.after (before ++ gap ++ text))) :
      Turn before rest (.error e)

theorem span_located (span : Span) (f : Fault) : (f.located span).span = span := by cases f <;> rfl

theorem next_turn (afterDot : Bool) (before rest : List Char) :
    Turn before rest (next afterDot ⟨rest, .after before⟩) := by
  obtain ⟨gap, split, pos, skips, begins⟩ := skipGap_spec .blank rest (.after before)
  rw [← Position.after_append] at pos
  unfold next
  generalize skipGap .blank rest (.after before) = here at split pos skips begins
  obtain ⟨left, at_⟩ := here
  dsimp only at split pos skips begins ⊢
  subst pos
  cases left with
  | nil =>
    obtain rfl : rest = gap := by rw [split, List.append_nil]
    exact .ended (skips.imp fun _ => trivial)
  | cons a r =>
    have filler : Filler False gap := skips.imp nofun
    cases hl : lexeme afterDot a r with
    | mk result n =>
      simp only [hl, Cursor.skip]
      rw [← Position.after_append]
      cases result with
      | error f =>
        have parts : rest = gap ++ (a :: r).take n ++ (a :: r).drop n := by
          rw [split, List.append_assoc, List.take_append_drop]
        exact .failed parts (span_located _ f)
      | ok k =>
        -- the characters that the lexeme was charged for are those that make it up alone
        obtain ⟨word, more, rfl, rfl, alone⟩ := lexeme_alone hl
        have taken : (a :: (word ++ more)).take (word.length + 1) = a :: word := by simp
        have dropped : (a :: (word ++ more)).drop (word.length + 1) = more := by simp
        simp only [taken, dropped]
        refine .token ?_ filler (begins a _ rfl).of_append alone (lexeme_proper hl).ne_end
        rw [split, List.append_assoc, List.cons_append]

/-- Tokens, blanks and comments one after another, from the characters before them on. -/
inductive Tiles : List Char → List Char → List Token → Prop
  | last {before gap : List Char} (filler : Filler True gap) :
      Tiles before gap [⟨.endOfInput, Span.between (.after (before ++ gap)) (.after (before ++ gap))⟩]
  | token {before gap word more : List Char} {k : Kind} {tokens : List Token} (filler : Filler False gap)
      (kind : k ≠ .endOfInput)
      (alone : (scan (String.ofList word)).map (List.map Token.kind) = .ok [k, .endOfInput])
      (tiles : Tiles (before ++ gap ++ word) more tokens) :
      Tiles before (gap ++ word ++ more)
        (⟨k, Span.between (.after (before ++ gap)) (.after (before ++ gap ++ word))⟩ :: tokens)

/-- A token or nothing is all there is in its own characters. -/
theorem scan_word {a : Char} {word : List Char} {k : Kind} (begins : Begins a word)
    (alone : lexeme false a word = (.ok k, word.length + 1)) (kind : k ≠ .endOfInput) :
    (scan (String.ofList (a :: word))).map (List.map Token.kind) = .ok [k, .endOfInput] := by
  have first : next false (Cursor.start (String.ofList (a :: word))) =
      .ok (⟨k, Span.between {} (Position.advance {} (a :: word))⟩, ⟨[], Position.advance {} (a :: word)⟩) := by
    rw [Cursor.start, String.toList_ofList, next, skipGap_of_begins begins]
    simp only [alone, Cursor.skip]
    simp
  have length : (String.ofList (a :: word)).length = word.length + 1 := by
    rw [String.length_ofList, List.length_cons]
  rw [scan, length, scanFrom, first]
  simp only [bind, Except.bind, if_neg kind]
  rw [scanFrom]
  rfl

/-- What a scan of the rest of a text gives. -/
def Scanned (before rest : List Char) : Except LexError (List Token) → Prop
  | .ok tokens => Tiles before rest tokens
  | .error e => ∃ read text more, rest = read ++ text ++ more ∧
      e.span = Span.between (.after (before ++ read)) (.after (before ++ read ++ text))

theorem scanFrom_scanned : ∀ (fuel : Nat) (afterDot : Bool) (before rest : List Char), rest.length < fuel →
    Scanned before rest (scanFrom fuel afterDot ⟨rest, .after before⟩)
  | 0, _, _, _, enough => absurd enough (Nat.not_lt_zero _)
  | fuel + 1, afterDot, before, rest, enough => by
    have turn := next_turn afterDot before rest
    rw [scanFrom]
    generalize next afterDot ⟨rest, .after before⟩ = result at turn
    cases turn with
    | ended filler => exact .last filler
    | failed split span => exact ⟨_, _, _, split, span⟩
    | @token gap word more a k split filler begins alone kind =>
      -- a token takes a character at least, so the fuel lasts for the others
      have shorter : more.length < fuel := by
        have := congrArg List.length split
        simp only [List.length_append, List.length_cons] at this
        omega
      have ih := scanFrom_scanned fuel (decide (k = .mark .dot)) (before ++ gap ++ (a :: word)) more shorter
      simp only [bind, Except.bind, if_neg kind]
      generalize scanFrom fuel (decide (k = .mark .dot)) ⟨more, .after (before ++ gap ++ (a :: word))⟩ = others at ih
      cases others with
      | ok tokens =>
        rw [split]
        exact .token filler kind (scan_word begins alone kind) ih
      | error e =>
        obtain ⟨read, text, left, rfl, span⟩ := ih
        refine ⟨gap ++ (a :: word) ++ read, text, left, ?_, ?_⟩
        · rw [split]
          simp only [List.append_assoc]
        · rw [span]
          simp only [List.append_assoc]

/-! ### The text and its tokens -/

/-- How tokens lie in their text. Between one and the next, and before the first, are blanks and comments. The last one,
and only that, is the end of input, and nothing comes after it. -/
structure Tiling (source : String) (tokens : List Token) : Prop where
  exact : ∀ t ∈ tokens, t.span.Exact source
  ordered : tokens.Pairwise fun t u => t.span.stop ≤ u.span.start
  fillers : List.IsChain (fun s t : Span => Filler (t.start = source.utf8ByteSize)
    (Text.excerpt source s.stop t.start).toList) ({} :: tokens.map Token.span)
  alone : ∀ t ∈ tokens, t.kind ≠ .endOfInput →
    (scan (Text.excerpt source t.span.start t.span.stop)).map (List.map Token.kind) = .ok [t.kind, .endOfInput]
  ends : ∃ others last, tokens = others ++ [last] ∧ last.kind = .endOfInput ∧
    last.span.stop = source.utf8ByteSize ∧ ∀ t ∈ others, t.kind ≠ .endOfInput

section

variable {source : String} {before rest gap : List Char} {tokens : List Token}

theorem Tiles.exact (h : Tiles before rest tokens) (split : source.toList = before ++ rest) :
    ∀ t ∈ tokens, t.span.Exact source := by
  induction h with
  | @last before gap filler =>
    have parts : source.toList = before ++ gap ++ [] ++ [] := by simpa using split
    have span := Span.exact_between parts
    rw [List.append_nil] at span
    simpa using span
  | @token before gap word more k tokens filler kind alone tiles ih =>
    have parts : source.toList = before ++ gap ++ word ++ more := by
      rw [split]
      simp only [List.append_assoc]
    exact List.forall_mem_cons.2 ⟨Span.exact_between parts, ih parts⟩

theorem Tiles.le_start (h : Tiles before rest tokens) : ∀ t ∈ tokens, utf8Len before ≤ t.span.start := by
  induction h with
  | last filler => simp [Span.between]
  | token filler kind alone tiles ih =>
    refine List.forall_mem_cons.2 ⟨by simp [Span.between], fun t ht => Nat.le_trans ?_ (ih t ht)⟩
    simp only [String.utf8Len_append, Nat.add_assoc]
    exact Nat.le_add_right ..

theorem Tiles.ordered (h : Tiles before rest tokens) : tokens.Pairwise fun t u => t.span.stop ≤ u.span.start := by
  induction h with
  | last filler => exact List.pairwise_singleton ..
  | token filler kind alone tiles ih =>
    refine List.pairwise_cons.2 ⟨fun u hu => ?_, ih⟩
    have later := tiles.le_start u hu
    simpa only [Span.between, Position.offset_after] using later

theorem Tiles.fillers (h : Tiles before rest tokens) (split : source.toList = before ++ rest) :
    ∀ s : Span, s.stop = utf8Len before → List.IsChain (fun s t : Span => Filler (t.start = source.utf8ByteSize)
      (Text.excerpt source s.stop t.start).toList) (s :: tokens.map Token.span) := by
  have size {cs : List Char} (all : source.toList = cs) : source.utf8ByteSize = utf8Len cs := by
    rw [← String.utf8ByteSize_ofList, ← all, String.ofList_toList]
  induction h with
  | @last before gap filler =>
    intro s stop
    have parts : source.toList = before ++ gap ++ [] := by simpa using split
    have between : Text.excerpt source (utf8Len before) (utf8Len (before ++ gap)) = String.ofList gap :=
      Text.excerpt_eq parts
    refine List.IsChain.cons_cons ?_ (.singleton _)
    simp only [Span.between, Position.offset_after, stop, between, String.toList_ofList]
    exact filler.imp fun _ => (size split).symm
  | @token before gap word more k tokens filler kind alone tiles ih =>
    intro s stop
    have parts : source.toList = before ++ gap ++ (word ++ more) := by
      rw [split]
      simp only [List.append_assoc]
    have between : Text.excerpt source (utf8Len before) (utf8Len (before ++ gap)) = String.ofList gap :=
      Text.excerpt_eq parts
    refine List.IsChain.cons_cons ?_ (ih (by rw [parts]; simp only [List.append_assoc]) _ ?_)
    · simp only [Span.between, Position.offset_after, stop, between, String.toList_ofList]
      exact filler.imp nofun
    · simp only [Span.between, Position.offset_after]

theorem Tiles.alone (h : Tiles before rest tokens) (split : source.toList = before ++ rest) :
    ∀ t ∈ tokens, t.kind ≠ .endOfInput →
      (scan (Text.excerpt source t.span.start t.span.stop)).map (List.map Token.kind) = .ok [t.kind, .endOfInput] := by
  induction h with
  | last filler => exact List.forall_mem_singleton.2 fun other => absurd rfl other
  | @token before gap word more k tokens filler kind alone tiles ih =>
    have parts : source.toList = before ++ gap ++ word ++ more := by
      rw [split]
      simp only [List.append_assoc]
    refine List.forall_mem_cons.2 ⟨fun _ => ?_, ih parts⟩
    simp only [Span.between, Position.offset_after, Text.excerpt_eq parts]
    exact alone

theorem Tiles.ends (h : Tiles before rest tokens) : ∃ others last, tokens = others ++ [last] ∧
    last.kind = .endOfInput ∧ last.span.stop = utf8Len (before ++ rest) ∧ ∀ t ∈ others, t.kind ≠ .endOfInput := by
  induction h with
  | last filler => exact ⟨[], _, rfl, rfl, Position.offset_after _, nofun⟩
  | @token before gap word more k tokens filler kind alone tiles ih =>
    obtain ⟨others, last, rfl, isEnd, stop, kinds⟩ := ih
    refine ⟨_ :: others, last, rfl, isEnd, ?_, List.forall_mem_cons.2 ⟨kind, kinds⟩⟩
    rw [stop]
    simp only [List.append_assoc]

theorem Tiles.tiling (h : Tiles [] source.toList tokens) : Tiling source tokens := by
  refine ⟨h.exact rfl, h.ordered, h.fillers rfl {} rfl, h.alone rfl, ?_⟩
  obtain ⟨others, last, split, isEnd, stop, kinds⟩ := h.ends
  refine ⟨others, last, split, isEnd, ?_, kinds⟩
  rw [stop, List.nil_append, ← String.utf8ByteSize_ofList, String.ofList_toList]

end

end Token

end StackScript
