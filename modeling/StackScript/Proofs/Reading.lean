import StackScript.Expr.Parser

/-!
Postconditions of parsers. A condition holds of what is read and of the tokens that are left, if anything is read at
all. The rules for the ways to look at a token and to read one say when a condition holds.
-/
namespace StackScript

/-- The token that is read next, the end of input if there is none. -/
def Stream.head (s : Stream) : Token := s.rest.headD ⟨.endOfInput, s.last⟩

/-- What is left when a token was read. The end of input stays. -/
def Stream.next (s : Stream) : Stream :=
  match s.rest with
  | t :: r => if t.kind = .endOfInput then s else ⟨r, t.span⟩
  | [] => s

/-- A token other than the end of input is the first of those that are left. -/
theorem Stream.rest_eq {s : Stream} (h : s.head.kind ≠ .endOfInput) : s.rest = s.head :: s.next.rest := by
  obtain ⟨rest, last⟩ := s
  cases rest with
  | nil => exact absurd rfl h
  | cons t r =>
    have step : next ⟨t :: r, last⟩ = ⟨r, t.span⟩ := if_neg h
    rw [step]
    rfl

theorem Stream.rest_of_mark {s : Stream} {m : Mark} (h : s.head.kind = .mark m) : s.rest = s.head :: s.next.rest :=
  s.rest_eq (by rw [h]; nofun)

theorem Stream.last_next {s : Stream} (h : s.head.kind ≠ .endOfInput) : s.next.last = s.head.span := by
  obtain ⟨rest, last⟩ := s
  cases rest with
  | nil => exact absurd rfl h
  | cons t r =>
    have step : next ⟨t :: r, last⟩ = ⟨r, t.span⟩ := if_neg h
    rw [step]
    rfl

namespace Parser

variable {α β : Type}

/-- Whatever the parser gives, and the tokens that it leaves, meet the condition. -/
def Gives (p : Parser α) (s : Stream) (ok : α → Stream → Prop) : Prop :=
  ∀ a t, p.run s = .ok (a, t) → ok a t

section

variable {p : Parser α} {s : Stream} {ok ok' : α → Stream → Prop}

theorem Gives.imp (h : p.Gives s ok) (weaker : ∀ a t, ok a t → ok' a t) : p.Gives s ok' :=
  fun a t read => weaker a t (h a t read)

theorem Gives.any (h : ∀ a t, ok a t) : p.Gives s ok := fun a t _ => h a t

@[simp] theorem gives_pure {a : α} : Gives (pure a) s ok ↔ ok a s := by
  constructor
  · exact fun h => h a s rfl
  · rintro h a t ⟨⟩
    exact h

@[simp] theorem gives_bind {f : α → Parser β} {ok : β → Stream → Prop} :
    Gives (p >>= f) s ok ↔ p.Gives s fun a t => (f a).Gives t ok := by
  have run (b : β) (u : Stream) : (p >>= f).run s = .ok (b, u) ↔
      ∃ a t, p.run s = .ok (a, t) ∧ (f a).run t = .ok (b, u) := by
    rw [StateT.run_bind]
    cases p.run s with
    | error e => simp [bind, Except.bind]
    | ok r =>
      constructor
      · exact fun second => ⟨r.1, r.2, rfl, second⟩
      · rintro ⟨a, t, ⟨⟩, second⟩
        exact second
  constructor
  · exact fun h a t first b u second => h b u ((run b u).2 ⟨a, t, first, second⟩)
  · intro h b u read
    obtain ⟨a, t, first, second⟩ := (run b u).1 read
    exact h a t first b u second

theorem gives_ite {c : Prop} [Decidable c] {q : Parser α} :
    Gives (if c then p else q) s ok ↔ (c → p.Gives s ok) ∧ (¬ c → q.Gives s ok) := by
  split
  · next holds => simp only [holds, forall_const, not_true, false_imp_iff, and_true]
  · next fails => simp only [fails, false_imp_iff, not_false_iff, forall_const, true_and]

@[simp] theorem gives_fail {e : ParseError} : Gives (fail e) s ok ↔ True :=
  iff_true_intro fun _ _ read => nomatch read

@[simp] theorem gives_tooDeep : Gives tooDeep s ok ↔ True := by
  simp only [tooDeep, gives_bind, gives_fail]
  exact iff_true_intro fun _ _ _ => trivial

@[simp] theorem gives_unexpected {expected : String} : Gives (unexpected expected) s ok ↔ True := by
  simp only [unexpected, gives_bind, gives_fail]
  exact iff_true_intro fun _ _ _ => trivial

end

section

variable {s : Stream}

@[simp] theorem gives_peek {ok : Token → Stream → Prop} : Gives peek s ok ↔ ok s.head s := by
  constructor
  · exact fun h => h _ _ rfl
  · rintro h a t ⟨⟩
    exact h

@[simp] theorem gives_peekSecond {ok : Token.Kind → Stream → Prop} :
    Gives peekSecond s ok ↔ ∀ k, peekSecond.run s = .ok (k, s) → ok k s := by
  have stays (k : Token.Kind) (t : Stream) (read : peekSecond.run s = .ok (k, t)) : t = s := by
    obtain ⟨rest, last⟩ := s
    match rest with
    | [] | [u] | u :: v :: r => cases read; rfl
  constructor
  · exact fun h k read => h k s read
  · intro h k t read
    obtain rfl := stays k t read
    exact h k read

@[simp] theorem gives_here {ok : Span → Stream → Prop} : Gives here s ok ↔ ok s.head.span s := by
  simp only [here, gives_bind, gives_peek, gives_pure]

@[simp] theorem gives_last {ok : Span → Stream → Prop} : Gives last s ok ↔ ok s.last s := by
  constructor
  · exact fun h => h _ _ rfl
  · rintro h a t ⟨⟩
    exact h

@[simp] theorem gives_upToLast {start : Span} {ok : Span → Stream → Prop} :
    Gives (upToLast start) s ok ↔ ok (start.merge s.last) s := by
  simp only [upToLast, gives_bind, gives_last, gives_pure]

@[simp] theorem gives_advance {ok : Unit → Stream → Prop} : Gives advance s ok ↔ ok () s.next := by
  constructor
  · exact fun h => h _ _ rfl
  · rintro h a t ⟨⟩
    exact h

@[simp] theorem gives_check {k : Token.Kind} {ok : Bool → Stream → Prop} :
    Gives (check k) s ok ↔ ok (decide (s.head.kind = k)) s := by
  simp only [check, gives_bind, gives_peek, gives_pure]

@[simp] theorem gives_accept {m : Mark} {ok : Bool → Stream → Prop} : Gives (accept m) s ok ↔
    (s.head.kind = .mark m → ok true s.next) ∧ (s.head.kind ≠ .mark m → ok false s) := by
  simp only [accept, gives_bind, gives_check, decide_eq_true_eq]
  split
  · next same => simp only [gives_bind, gives_advance, gives_pure, same, forall_const, ne_eq, not_true, false_imp_iff, and_true]
  · next differs => simp only [gives_pure, differs, false_imp_iff, true_and, ne_eq, not_false_iff, forall_const]

@[simp] theorem gives_acceptKeyword {k : Keyword} {ok : Bool → Stream → Prop} : Gives (acceptKeyword k) s ok ↔
    (s.head.kind = .keyword k → ok true s.next) ∧ (s.head.kind ≠ .keyword k → ok false s) := by
  simp only [acceptKeyword, gives_bind, gives_check, decide_eq_true_eq]
  split
  · next same => simp only [gives_bind, gives_advance, gives_pure, same, forall_const, ne_eq, not_true, false_imp_iff, and_true]
  · next differs => simp only [gives_pure, differs, false_imp_iff, true_and, ne_eq, not_false_iff, forall_const]

@[simp] theorem gives_expectKind {k : Token.Kind} {ok : Span → Stream → Prop} :
    Gives (expectKind k) s ok ↔ (s.head.kind ≠ .endOfInput → s.head.kind = k → ok s.head.span s.next) := by
  simp only [expectKind, gives_bind, gives_peek]
  split
  · next ended => simp [ended]
  · next other =>
    split
    · next same =>
      simp only [gives_bind, gives_advance, gives_pure]
      exact ⟨fun h _ _ => h, fun h => h other same⟩
    · next differs =>
      simp only [gives_unexpected, true_iff]
      exact fun _ same => absurd same differs

@[simp] theorem gives_expect {m : Mark} {ok : Span → Stream → Prop} :
    Gives (expect m) s ok ↔ (s.head.kind = .mark m → ok s.head.span s.next) := by
  rw [expect, gives_expectKind]
  constructor
  · exact fun h same => h (by rw [same]; nofun) same
  · exact fun h _ same => h same

end

end Parser

end StackScript
