import StackScript.Proofs.Bracing

/-!
Lines at the prompt. They are collected while the brace tokens among them are open, if no comment holds a brace or a
quote.
-/
namespace StackScript

theorem Output.empty_append (o : Output) : ({} : Output) ++ o = o := by
  obtain ⟨out, err⟩ := o
  change Output.mk ("" ++ out) ("" ++ err) = _
  rw [String.empty_append, String.empty_append]

namespace Prompt

/-- Takes lines of input one after another. -/
def feed (p : Prompt) (lines : List String) : Prompt × Output :=
  lines.foldl (fun (p, o) line => ((p.input line).1, o ++ (p.input line).2)) (p, {})

/-- Opening braces less closing ones on the first lines. -/
def openAfter (lines : List String) (k : Nat) : Int := ((lines.take k).map Braces.count).sum

/-- No line is collected. -/
structure Fresh (p : Prompt) : Prop where
  buffer : p.buffer = ""
  balance : p.balance = 0

variable {p : Prompt} {lines : List String} {line source : String} {k : Nat}

@[simp] theorem balance_eval : (p.eval source).1.balance = p.balance := rfl

@[simp] theorem buffer_eval : (p.eval source).1.buffer = p.buffer := rfl

/-- The lines collected with another one. -/
def joined (p : Prompt) (line : String) : String :=
  if p.buffer.isEmpty then line else p.buffer ++ "\n" ++ line

theorem input_eq : p.input line =
    if 0 < p.balance + Braces.count line then
      ({ p with buffer := p.joined line, balance := p.balance + Braces.count line }, {})
    else eval { p with buffer := "", balance := 0 } (p.joined line) := rfl

theorem feed_concat : p.feed (lines ++ [line]) =
    (((p.feed lines).1.input line).1, (p.feed lines).2 ++ ((p.feed lines).1.input line).2) := by
  simp only [feed, List.foldl_append, List.foldl_cons, List.foldl_nil]

theorem openAfter_succ (there : k < lines.length) : openAfter lines (k + 1) = openAfter lines k + Braces.count lines[k] := by
  simp only [openAfter, List.take_succ_eq_append_getElem there, List.map_append, List.sum_append, List.map_cons,
    List.map_nil, List.sum_singleton]

theorem intercalate_concat (given : lines ≠ []) :
    "\n".intercalate (lines ++ [line]) = "\n".intercalate lines ++ "\n" ++ line := by
  induction lines with
  | nil => exact absurd rfl given
  | cons l lines ih =>
    cases lines with
    | nil => rfl
    | cons l' lines =>
      have rest := ih nofun
      rw [List.cons_append] at rest
      rw [List.cons_append, List.cons_append, String.intercalate_cons_cons, String.intercalate_cons_cons, rest]
      simp only [String.append_assoc]

/-- Lines with open braces are not an empty text. -/
theorem intercalate_ne_empty (unbroken : ∀ l ∈ lines, '\n' ∉ l.toList) (opened : 0 < openAfter lines k) :
    "\n".intercalate (lines.take k) ≠ "" := by
  intro empty
  have first : ∀ l ∈ lines.take k, '\n' ∉ l.toList := fun l hl => unbroken l (List.mem_of_mem_take hl)
  have count : _ = openAfter (lines.take k) k := Braces.firstLines_intercalate first
  rw [empty, String.toList_empty, Braces.firstLines_nil, openAfter, List.take_take, Nat.min_self] at count
  exact absurd opened (count ▸ Int.lt_irrefl 0)

/-- The prompt with the first lines of an input collected. -/
def collecting (p : Prompt) (lines : List String) (k : Nat) : Prompt :=
  { p with buffer := "\n".intercalate (lines.take k), balance := openAfter lines k }

theorem Fresh.cleared (fresh : p.Fresh) : { p.collecting lines k with buffer := "", balance := 0 } = p := by
  obtain ⟨buffer, balance⟩ := fresh
  cases p
  cases buffer
  cases balance
  rfl

theorem Fresh.collecting (fresh : p.Fresh) : p.collecting lines 0 = p := by
  have cleared : { p.collecting lines 0 with buffer := "", balance := 0 } = p := fresh.cleared
  exact cleared

theorem joined_collecting (unbroken : ∀ l ∈ lines, '\n' ∉ l.toList) (there : k < lines.length)
    (opened : 0 < k → 0 < openAfter lines k) :
    (p.collecting lines k).joined lines[k] = "\n".intercalate (lines.take (k + 1)) := by
  rw [List.take_succ_eq_append_getElem there, joined]
  cases k with
  | zero => rfl
  | succ k =>
    have text : (p.collecting lines (k + 1)).buffer ≠ "" := intercalate_ne_empty unbroken (opened (Nat.succ_pos k))
    rw [if_neg (by simpa using text), intercalate_concat]
    · rfl
    · exact fun nothing => text (congrArg ("\n".intercalate ·) nothing)

theorem input_collecting (fresh : p.Fresh) (unbroken : ∀ l ∈ lines, '\n' ∉ l.toList) (there : k < lines.length)
    (opened : 0 < k → 0 < openAfter lines k) : (p.collecting lines k).input lines[k] =
      if 0 < openAfter lines (k + 1) then (p.collecting lines (k + 1), {})
      else p.eval ("\n".intercalate (lines.take (k + 1))) := by
  have balance : (p.collecting lines k).balance + Braces.count lines[k] = openAfter lines (k + 1) :=
    (openAfter_succ there).symm
  rw [input_eq, joined_collecting unbroken there opened, fresh.cleared, balance]
  rfl

/-- While braces are open, the prompt collects lines and shows nothing. -/
theorem feed_collects (fresh : p.Fresh) (unbroken : ∀ l ∈ lines, '\n' ∉ l.toList) (length : k ≤ lines.length)
    (opened : ∀ j, 0 < j → j ≤ k → 0 < openAfter lines j) : p.feed (lines.take k) = (p.collecting lines k, {}) := by
  induction k with
  | zero => rw [fresh.collecting]; rfl
  | succ k ih =>
    have before := ih (Nat.le_of_succ_le length) fun j hj le => opened j hj (Nat.le_succ_of_le le)
    rw [List.take_succ_eq_append_getElem length, feed_concat, before,
      input_collecting fresh unbroken length fun hk => opened k hk (Nat.le_succ k),
      if_pos (opened (k + 1) (Nat.succ_pos k) (Nat.le_refl _))]
    rfl

/-- With the first line behind which no brace is open, the collected text is evaluated. -/
theorem feed_submits (fresh : p.Fresh) (unbroken : ∀ l ∈ lines, '\n' ∉ l.toList) (there : k < lines.length)
    (opened : ∀ j, 0 < j → j ≤ k → 0 < openAfter lines j) (closed : openAfter lines (k + 1) ≤ 0) :
    p.feed (lines.take (k + 1)) = p.eval ("\n".intercalate (lines.take (k + 1))) := by
  have before := feed_collects fresh unbroken (Nat.le_of_lt there) opened
  rw [List.take_succ_eq_append_getElem there, feed_concat, before,
    input_collecting fresh unbroken there fun hk => opened k hk (Nat.le_refl k), if_neg (Int.not_lt.2 closed),
    ← List.take_succ_eq_append_getElem there]
  exact congrArg (Prod.mk _) (Output.empty_append _)

/-- Where the braces never close more than they opened, lines are left over exactly while some are open. -/
theorem feed_balance (fresh : p.Fresh) (never : ∀ j, 0 ≤ openAfter lines j) (length : k ≤ lines.length) :
    (p.feed (lines.take k)).1.balance = openAfter lines k ∧
      ((p.feed (lines.take k)).1.buffer = "" ↔ openAfter lines k = 0) := by
  induction k with
  | zero => exact ⟨fresh.balance, iff_of_true fresh.buffer rfl⟩
  | succ k ih =>
    obtain ⟨balance, buffer⟩ := ih (Nat.le_of_succ_le length)
    have nonneg := never (k + 1)
    rw [List.take_succ_eq_append_getElem length, feed_concat]
    generalize (p.feed (lines.take k)).1 = q at balance buffer
    rw [openAfter_succ length] at nonneg ⊢
    rw [← balance] at nonneg ⊢
    rw [input_eq]
    split_ifs with more
    · refine ⟨rfl, iff_of_false (fun nothing => ?_) (Int.ne_of_gt more)⟩
      change q.joined lines[k] = "" at nothing
      rw [joined] at nothing
      split_ifs at nothing with empty
      · -- nothing was collected, so the line itself has an open brace
        rw [balance, buffer.1 (by simpa using empty), nothing] at more
        exact absurd more (Int.lt_irrefl 0)
      · simp at nothing
    · have none := Int.le_antisymm (Int.not_lt.1 more) nonneg
      exact ⟨none.symm, iff_of_true rfl none⟩

/-- Where comments hold neither braces nor quotes, the braces of lines are the brace tokens on them. A prompt that is fed
the lines of a text collects them while brace tokens are open, and evaluates what it has with the first line behind which
none is. A text with no more opening than closing ones is evaluated at some line, and where the tokens never close more
than they opened, nothing of a text is left over exactly if they balance. -/
theorem collects_by_tokens (lines : List String) (tokens : List Token) (unbroken : ∀ l ∈ lines, '\n' ∉ l.toList)
    (scanned : Token.scan ("\n".intercalate lines) = .ok tokens)
    (quiet : ∀ g ∈ Token.gaps ("\n".intercalate lines) tokens, Braces.Quiet g.toList) :
    (lines.map Braces.count).sum = Token.balance tokens ∧
    (∀ k, ((lines.take k).map Braces.count).sum = Token.balance (Token.upTo k tokens)) ∧
    ∀ p : Prompt, p.Fresh →
      (∀ k ≤ lines.length, (∀ j, 0 < j → j ≤ k → 0 < Token.balance (Token.upTo j tokens)) →
        p.feed (lines.take k) = ({ p with
          buffer := "\n".intercalate (lines.take k), balance := Token.balance (Token.upTo k tokens) }, {})) ∧
      (∀ k < lines.length, (∀ j, 0 < j → j ≤ k → 0 < Token.balance (Token.upTo j tokens)) →
        Token.balance (Token.upTo (k + 1) tokens) ≤ 0 →
        p.feed (lines.take (k + 1)) = p.eval ("\n".intercalate (lines.take (k + 1)))) ∧
      (lines ≠ [] → Token.balance tokens ≤ 0 → ∃ k < lines.length,
        p.feed (lines.take (k + 1)) = p.eval ("\n".intercalate (lines.take (k + 1)))) ∧
      ((∀ j, 0 ≤ Token.balance (Token.upTo j tokens)) →
        ((p.feed lines).1.buffer = "" ↔ Token.balance tokens = 0)) := by
  have each (k : Nat) : openAfter lines k = Token.balance (Token.upTo k tokens) :=
    Token.count_lines unbroken scanned quiet k
  have total : openAfter lines lines.length = Token.balance tokens := by
    rw [openAfter, List.take_length]
    exact Token.count_all_lines unbroken scanned quiet
  refine ⟨Token.count_all_lines unbroken scanned quiet, each, fun p fresh => ?_⟩
  simp only [← each, ← total]
  refine ⟨fun k length opened => feed_collects fresh unbroken length opened,
    fun k there opened closed => feed_submits fresh unbroken there opened closed, fun given closed => ?_, fun never => ?_⟩
  · -- the first of the lines behind which no brace is open
    have last := Nat.sub_add_cancel (List.length_pos_iff.2 given)
    have reached : ∃ k, openAfter lines (k + 1) ≤ 0 := ⟨lines.length - 1, by rwa [last]⟩
    have there : Nat.find reached < lines.length :=
      (Nat.find_min' reached (by rwa [last])).trans_lt (Nat.sub_one_lt (List.length_pos_iff.2 given).ne')
    refine ⟨Nat.find reached, there, feed_submits fresh unbroken there (fun j hj le => ?_) (Nat.find_spec reached)⟩
    have earlier := Nat.find_min reached (m := j - 1) (by omega)
    rw [Nat.sub_add_cancel hj] at earlier
    exact Int.not_le.1 earlier
  · have all := feed_balance fresh never (Nat.le_refl lines.length)
    rw [List.take_length] at all
    exact all.2

/-- A quoted brace and a comment without braces. -/
theorem collects_by_tokens_quoted :
    (["\x7b '\x7d'", "\x7d //"].map Braces.count).sum = 0 ∧
    (default : Prompt).feed ["\x7b '\x7d'"] = ((default : Prompt).collecting ["\x7b '\x7d'", "\x7d //"] 1, {}) ∧
    (default : Prompt).feed ["\x7b '\x7d'", "\x7d //"] = (default : Prompt).eval "\x7b '\x7d'\n\x7d //" := by
  have scanned : Token.scan "\x7b '\x7d'\n\x7d //" =
      .ok (((Token.scan "\x7b '\x7d'\n\x7d //").toOption).getD []) := by decide +kernel
  have agree := collects_by_tokens ["\x7b '\x7d'", "\x7d //"] _ (by decide) scanned (by decide +kernel)
  obtain ⟨collects, submits, -⟩ := agree.2.2 default ⟨rfl, rfl⟩
  have opened : ∀ j, 0 < j → j ≤ 1 → 0 < Token.balance (Token.upTo j
      (((Token.scan "\x7b '\x7d'\n\x7d //").toOption).getD [])) := by
    intro j hj le
    obtain rfl : j = 1 := by omega
    decide +kernel
  exact ⟨agree.1.trans (by decide +kernel), collects 1 (by decide) opened, submits 1 (by decide) opened (by decide +kernel)⟩

/-- A brace in a comment is counted, though it is no token, and the prompt waits for its end. -/
theorem commented_brace_waits : (Token.scan "1 // \x7b").map Token.balance = .ok 0 ∧
    Braces.count "1 // \x7b" = 1 ∧
    (default : Prompt).feed ["1 // \x7b", "2"] = ({ (default : Prompt) with buffer := "1 // \x7b\n2", balance := 1 }, {}) :=
  ⟨by decide +kernel, by decide +kernel, rfl⟩

end Prompt

end StackScript
