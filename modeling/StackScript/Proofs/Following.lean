import StackScript.Proofs.Reading
import StackScript.Proofs.Walking

/-!
Runs by index beside the parser. On a vector of tokens that ends with its only end of input, each way to look at a token or to
read one gives by index what it gives in the parser; where that fails, the run stops with the same error. The rules here say
so of the parts one after another, and that the index never goes back and never leaves the vector.
-/
namespace StackScript

/-- Tokens with an end of input as the last one and nowhere else. -/
structure TokenVector where
  others : List Token
  last : Token
  live : ∀ t ∈ others, t.kind ≠ .endOfInput
  ended : last.kind = .endOfInput

namespace TokenVector

def tokens (v : TokenVector) : List Token := v.others ++ [v.last]

def length (v : TokenVector) : Nat := v.tokens.length

/-- What is left behind as many tokens, with the span of the last of these. -/
def after (v : TokenVector) (i : Nat) : Stream :=
  ⟨v.tokens.drop i, ((v.tokens.take i).getLast?.map Token.span).getD {}⟩

/-- The token at an index. -/
def head (v : TokenVector) (i : Nat) : Token := (v.after i).head

variable {v : TokenVector} {i : Nat}

theorem length_eq : v.length = v.others.length + 1 := by simp [length, tokens]

theorem get_head (h : i < v.length) : v.tokens[i]? = some (v.head i) := by
  rw [head, Stream.head, after, List.headD_eq_head?_getD, List.head?_drop, List.getElem?_eq_getElem h]
  rfl

/-- Only the last token is an end of input. -/
theorem head_eq_end (h : i < v.length) : (v.head i).kind = .endOfInput ↔ i = v.others.length := by
  have there := get_head h
  rw [tokens] at there
  rcases Nat.lt_or_ge i v.others.length with before | behind
  · rw [List.getElem?_append_left before] at there
    have live := v.live _ (List.mem_of_getElem? there)
    exact ⟨fun ended => absurd ended live, fun same => absurd same (Nat.ne_of_lt before)⟩
  · have same : i = v.others.length := by
      rw [length_eq] at h
      omega
    subst same
    rw [List.getElem?_append_right (Nat.le_refl _), Nat.sub_self] at there
    rw [← Option.some.inj there]
    exact ⟨fun _ => rfl, fun _ => v.ended⟩

/-- Behind a token other than the end of input there is one more. -/
theorem succ_lt (h : i < v.length) (live : (v.head i).kind ≠ .endOfInput) : i + 1 < v.length := by
  have other := mt (head_eq_end h).2 live
  rw [length_eq] at h ⊢
  omega

theorem last_after (h : i < v.length) : (v.after (i + 1)).last = (v.head i).span := by
  rw [after, List.take_add_one, get_head h]
  simp

theorem rest_after (h : i < v.length) : (v.after i).rest = v.head i :: (v.after (i + 1)).rest := by
  rw [after, List.drop_eq_getElem_cons h, Option.some.inj ((List.getElem?_eq_getElem h).symm.trans (get_head h)), after]

theorem next_after (h : i < v.length) (live : (v.head i).kind ≠ .endOfInput) : (v.after i).next = v.after (i + 1) := by
  have last := last_after h
  rw [Stream.next, rest_after h]
  refine (if_neg live).trans ?_
  rw [← last]

end TokenVector

/-! ### Runs -/

/-- The index is in the vector and never went back, and the tokens before it were consumed one after another. -/
structure Track.Sound (v : TokenVector) (track : Track) : Prop where
  within : track.current < v.length
  monotone : track.trail.Pairwise (· ≤ ·)
  bounded : ∀ i ∈ track.trail, i ≤ track.current
  consumed : track.consumed = List.range track.current

namespace Track

variable {v : TokenVector} {track : Track}

/-- The index is written down at an access. -/
def noted (track : Track) : Track := { track with trail := track.trail ++ [track.current] }

/-- A token is consumed. -/
def forward (track : Track) : Track :=
  { track with current := track.current + 1, consumed := track.consumed ++ [track.current] }

theorem Sound.start (v : TokenVector) : Sound v {} :=
  ⟨by rw [TokenVector.length_eq]; exact Nat.succ_pos _, .nil, nofun, rfl⟩

theorem Sound.noted (h : track.Sound v) : track.noted.Sound v where
  within := h.within
  monotone := List.pairwise_append.2 ⟨h.monotone, List.pairwise_singleton .., fun i member j same => by
    rw [List.mem_singleton.1 same]
    exact h.bounded i member⟩
  bounded := List.forall_mem_append.2 ⟨h.bounded, fun i same => Nat.le_of_eq (List.mem_singleton.1 same)⟩
  consumed := h.consumed

theorem Sound.forward (h : track.Sound v) (more : track.current + 1 < v.length) : track.forward.Sound v where
  within := more
  monotone := h.monotone
  bounded := fun i member => Nat.le_succ_of_le (h.bounded i member)
  consumed := by
    change track.consumed ++ [track.current] = List.range (track.current + 1)
    rw [h.consumed, List.range_succ]

end Track

namespace Walk

variable {α β : Type} {q : Walk α} {g : α → Walk β}

section

variable {tokens : List Token} {track : Track}

theorem run_bind : (q >>= g).run tokens track = match q.run tokens track with
    | none => none
    | some (.ok a, track') => (g a).run tokens track'
    | some (.error e, track') => some (.error e, track') := by
  change (q tokens track).bind _ = match q tokens track with
    | none => none
    | some (.ok a, track') => (g a).run tokens track'
    | some (.error e, track') => some (.error e, track')
  rcases q tokens track with - | ⟨- | a, track'⟩ <;> rfl

theorem ite_bind {c : Prop} [Decidable c] {x y : Walk α} : (if c then x else y) >>= g = if c then x >>= g else y >>= g := by
  split <;> rfl

theorem run_look {i : Nat} {t : Token} (h : tokens[i]? = some t) : (look i).run tokens track = some (.ok t, track.noted) := by
  change (orOutside tokens[i]?).run tokens track.noted = _
  rw [h]
  rfl

end

section

variable {v : TokenVector} {i j k : Nat} {ok ok' : Nat → Prop} {a : α} {b : β} {kind : Token.Kind}

/-- A part that gives a result and moves the index on. -/
def Yields (v : TokenVector) (q : Walk α) (i : Nat) (a : α) (j : Nat) : Prop :=
  ∀ track : Track, track.Sound v → track.current = i →
    ∃ track', q.run v.tokens track = some (.ok a, track') ∧ track'.Sound v ∧ track'.current = j

namespace Yields

theorem pure (a : α) (i : Nat) : Yields v (Pure.pure a) i a i := fun track sound here => ⟨track, rfl, sound, here⟩

theorem bind (h : Yields v q i a j) (h' : Yields v (g a) j b k) : Yields v (q >>= g) i b k := by
  intro track sound here
  obtain ⟨track', first, sound', there⟩ := h track sound here
  obtain ⟨track'', second, rest⟩ := h' track' sound' there
  exact ⟨track'', by rw [Walk.run_bind, first]; exact second, rest⟩

theorem map {f : α → β} (h : Yields v q i a j) : Yields v (do return f (← q)) i (f a) j := h.bind (.pure _ _)

theorem look {t : Token} (h : v.tokens[k]? = some t) : Yields v (Walk.look k) i t i :=
  fun track sound here => ⟨track.noted, Walk.run_look h, sound.noted, here⟩

theorem inside (h : i < v.length → Yields v q i a j) : Yields v q i a j := fun track sound here =>
  h (here ▸ sound.within) track sound here

theorem index {f : Nat → Walk α} (h : Yields v (f i) i a j) : Yields v (do f (← get).current) i a j := by
  rintro track sound rfl
  exact h track sound rfl

theorem peek : Yields v Walk.peek i (v.head i) i := inside fun h => index (look (TokenVector.get_head h))

theorem atEnd : Yields v Walk.atEnd i (decide ((v.head i).kind = .endOfInput)) i := peek.map

theorem check (kind : Token.Kind) : Yields v (Walk.check kind) i (decide ((v.head i).kind = kind)) i := peek.map

theorem currentSpan : Yields v Walk.currentSpan i (v.head i).span i := peek.map

theorem before (h : i < v.length) : Yields v Walk.before (i + 1) (v.head i) (i + 1) :=
  index (f := Walk.lookBefore) (look (TokenVector.get_head h))

theorem lastSpan (pos : 0 < i) : Yields v Walk.lastSpan i (v.after i).last i := by
  obtain ⟨i, rfl⟩ := Nat.exists_eq_add_one_of_ne_zero (Nat.ne_of_gt pos)
  refine inside fun h => ?_
  have there : i < v.length := Nat.lt_of_succ_lt h
  rw [TokenVector.last_after there]
  exact index (f := fun k => do return (← Walk.look (k - 1)).span) (look (TokenVector.get_head there)).map

theorem forward (live : (v.head i).kind ≠ .endOfInput) : Yields v (modify Track.forward) i () (i + 1) := by
  rintro track sound rfl
  exact ⟨track.forward, rfl, sound.forward (TokenVector.succ_lt sound.within live), rfl⟩

theorem advance (live : (v.head i).kind ≠ .endOfInput) : Yields v Walk.advance i (v.head i) (i + 1) := by
  refine inside fun h => atEnd.bind ?_
  rw [decide_eq_false live]
  exact (forward live).bind (before h)

/-- The end of input is not passed. -/
theorem advance_end (ended : (v.head (i + 1)).kind = .endOfInput) : Yields v Walk.advance (i + 1) (v.head i) (i + 1) := by
  refine inside fun h => atEnd.bind ?_
  rw [decide_eq_true ended]
  exact before (Nat.lt_of_succ_lt h)

theorem peekNext (more : i + 1 < v.length) : Yields v (Walk.peekNth 1) i (v.head (i + 1)) i := by
  have there : min (i + 1) v.others.length = i + 1 := by
    rw [TokenVector.length_eq] at more
    exact Nat.min_eq_left (Nat.le_of_lt_succ more)
  have length : v.tokens.length = v.others.length + 1 := TokenVector.length_eq
  refine index (f := fun k => do Walk.lookWithin (k + 1) (← read).length) fun track sound here => ?_
  change ∃ track', (Walk.lookWithin (i + 1) v.tokens.length).run v.tokens track = _ ∧ _
  rw [length, Walk.lookWithin, there]
  exact look (TokenVector.get_head more) track sound here

theorem accept (same : (v.head i).kind = kind) (live : kind ≠ .endOfInput) : Yields v (Walk.accept kind) i true (i + 1) := by
  subst same
  refine (check _).bind (atEnd.bind ?_)
  rw [decide_eq_true rfl, decide_eq_false live]
  exact (advance live).bind (.pure _ _)

theorem accept_other (other : (v.head i).kind ≠ kind) : Yields v (Walk.accept kind) i false i := by
  refine (check _).bind (atEnd.bind ?_)
  rw [decide_eq_false other]
  exact .pure _ _

theorem expect (same : (v.head i).kind = kind) (live : kind ≠ .endOfInput) :
    Yields v (Walk.expect kind) i (v.head i) (i + 1) := by
  subst same
  refine (check _).bind (atEnd.bind ?_)
  rw [decide_eq_true rfl, decide_eq_false live]
  exact advance live

end Yields

/-- What a run by index comes to where the parser gives a result or an error. -/
inductive Agrees (v : TokenVector) (i : Nat) (ok : Nat → Prop) :
    Except ParseError (α × Stream) → Option (Except Stop α × Track) → Prop
  | done {a : α} {track : Track} (sound : track.Sound v) (forward : i ≤ track.current) (holds : ok track.current) :
      Agrees v i ok (.ok (a, v.after track.current)) (some (.ok a, track))
  | failed {e : ParseError} {track : Track} (sound : track.Sound v) (forward : i ≤ track.current)
      (shallow : ∀ span, e ≠ .nestingTooDeep span) : Agrees v i ok (.error e) (some (.error (.failed e), track))

theorem Agrees.since {r : Except ParseError (α × Stream)} {w : Option (Except Stop α × Track)} (h : Agrees v j ok r w)
    (forward : i ≤ j) : Agrees v i ok r w := by
  cases h with
  | done sound forward' holds => exact .done sound (Nat.le_trans forward forward') holds
  | failed sound forward' shallow => exact .failed sound (Nat.le_trans forward forward') shallow

/-- A part ends at every run that is sound so far, with the outcome of the parser. -/
def Ends (v : TokenVector) (q : Walk α) (i : Nat) (r : Except ParseError (α × Stream)) (ok : Nat → Prop) : Prop :=
  ∀ track : Track, track.Sound v → track.current = i → Agrees v i ok r (q.run v.tokens track)

namespace Ends

variable {p p' : Parser β} {f : α → Parser β} {x y : Walk β} {r : Except ParseError (β × Stream)}

theorem inside (h : i < v.length → Ends v x i r ok) : Ends v x i r ok :=
  fun track sound here => h (here ▸ sound.within) track sound here

theorem pure (h : ok i) : Ends v (Pure.pure a) i ((Pure.pure a : Parser α).run (v.after i)) ok := by
  rintro track sound rfl
  exact .done sound (Nat.le_refl _) h

theorem stop {e : ParseError} (shallow : ∀ span, e ≠ .nestingTooDeep span) :
    Ends v (Walk.stop e : Walk α) i ((Parser.fail e : Parser α).run (v.after i)) ok := by
  rintro track sound rfl
  exact .failed sound (Nat.le_refl _) shallow

theorem imp (h : Ends v x i r ok) (weaker : ∀ j, j < v.length → i ≤ j → ok j → ok' j) : Ends v x i r ok' := by
  intro track sound here
  have whole := h track sound here
  generalize x.run v.tokens track = outcome at whole
  cases whole with
  | done sound forward holds => exact .done sound forward (weaker _ sound.within forward holds)
  | failed sound forward shallow => exact .failed sound forward shallow

theorem bind {p : Parser α} (h : Ends v q i (p.run (v.after i)) ok)
    (rest : ∀ a j, j < v.length → i ≤ j → ok j → Ends v (g a) j ((f a).run (v.after j)) ok') :
    Ends v (q >>= g) i ((p >>= f).run (v.after i)) ok' := by
  intro track sound here
  have first := h track sound here
  rw [Walk.run_bind, StateT.run_bind]
  generalize q.run v.tokens track = outcome at first
  generalize p.run (v.after i) = result at first
  cases first with
  | @done a track' sound' forward holds =>
    exact (rest a track'.current sound'.within forward holds track' sound' rfl).since forward
  | failed sound' forward shallow => exact .failed sound' forward shallow

theorem map {p : Parser α} {h : α → β} (part : Ends v q i (p.run (v.after i)) ok) :
    Ends v (do return h (← q)) i ((do return h (← p) : Parser β).run (v.after i)) ok :=
  part.bind fun _ _ _ _ holds => pure holds

theorem bind_error {e : ParseError} (h : Ends v q i (.error e) ok) : Ends v (q >>= g) i (.error e) ok := by
  intro track sound here
  have first := h track sound here
  rw [Walk.run_bind]
  generalize q.run v.tokens track = outcome at first
  cases first with
  | failed sound' forward shallow => exact .failed sound' forward shallow

/-- A part that only gives a result goes before what ends. -/
theorem seen (h : Yields v q i a j) (forward : i ≤ j) (rest : Ends v (g a) j r ok) : Ends v (q >>= g) i r ok := by
  intro track sound here
  obtain ⟨track', first, sound', there⟩ := h track sound here
  rw [Walk.run_bind, first]
  exact (rest track' sound' there).since forward

theorem ite {c c' : Prop} [Decidable c] [Decidable c'] {s : Stream} (same : c ↔ c')
    (yes : c → Ends v x i (p.run s) ok) (no : ¬ c → Ends v y i (p'.run s) ok) :
    Ends v (if c then x else y) i ((if c' then p else p').run s) ok := by
  by_cases h : c
  · rw [if_pos h, if_pos (same.1 h)]
    exact yes h
  · rw [if_neg h, if_neg (mt same.2 h)]
    exact no h

/-! A test is made of the token at the index. -/

theorem check (yes : (v.head i).kind = kind → Ends v x i r ok) (no : (v.head i).kind ≠ kind → Ends v y i r ok) :
    Ends v (Walk.check kind >>= fun b => if b = true then x else y) i r ok := by
  refine seen (.check kind) (Nat.le_refl i) ?_
  by_cases h : (v.head i).kind = kind
  · rw [decide_eq_true h]
    exact yes h
  · rw [decide_eq_false h]
    exact no h

theorem checked (yes : (v.head i).kind = kind → Ends v x i (p.run (v.after i)) ok)
    (no : (v.head i).kind ≠ kind → Ends v y i (p'.run (v.after i)) ok) :
    Ends v (Walk.check kind >>= fun b => if b = true then x else y) i
      ((Parser.check kind >>= fun b => if b = true then p else p').run (v.after i)) ok := by
  have run : (Parser.check kind).run (v.after i) = .ok (decide ((v.head i).kind = kind), v.after i) := rfl
  rw [StateT.run_bind, run]
  refine check (fun there => ?_) fun other => ?_
  · rw [decide_eq_true there]
    exact yes there
  · rw [decide_eq_false other]
    exact no other

theorem atEnd (yes : (v.head i).kind = .endOfInput → Ends v x i r ok) (no : (v.head i).kind ≠ .endOfInput → Ends v y i r ok) :
    Ends v (Walk.atEnd >>= fun b => if b = true then x else y) i r ok := check yes no

theorem peek {f : Token → Parser α} {g : Token → Walk α} (h : Ends v (g (v.head i)) i ((f (v.head i)).run (v.after i)) ok) :
    Ends v (Walk.peek >>= g) i ((Parser.peek >>= f).run (v.after i)) ok := seen .peek (Nat.le_refl i) h

theorem peeked {f : Token → Parser β} (h : Ends v x i ((f (v.head i)).run (v.after i)) ok) :
    Ends v x i ((Parser.peek >>= f).run (v.after i)) ok := h

theorem hereSeen {f : Span → Parser β} (h : Ends v x i ((f (v.head i).span).run (v.after i)) ok) :
    Ends v x i ((Parser.here >>= f).run (v.after i)) ok := h

theorem here {f : Span → Parser α} {g : Span → Walk α}
    (h : Ends v (g (v.head i).span) i ((f (v.head i).span).run (v.after i)) ok) :
    Ends v (Walk.currentSpan >>= g) i ((Parser.here >>= f).run (v.after i)) ok := seen .currentSpan (Nat.le_refl i) h

theorem upToLast {start : Span} {f : Span → Parser α} {g : Span → Walk α} (pos : 0 < i)
    (h : Ends v (g (v.after i).last) i ((f (start.merge (v.after i).last)).run (v.after i)) ok) :
    Ends v (Walk.lastSpan >>= g) i ((Parser.upToLast start >>= f).run (v.after i)) ok := seen (.lastSpan pos) (Nat.le_refl i) h

theorem advance {f : Unit → Parser α} {g : Token → Walk α} (live : (v.head i).kind ≠ .endOfInput)
    (h : i + 1 < v.length → Ends v (g (v.head i)) (i + 1) ((f ()).run (v.after (i + 1))) ok) :
    Ends v (Walk.advance >>= g) i ((Parser.advance >>= f).run (v.after i)) ok := by
  refine .inside fun within => seen (.advance live) (Nat.le_succ i) ?_
  change Ends v (g (v.head i)) (i + 1) ((f ()).run (v.after i).next) ok
  rw [v.next_after within live]
  exact h (v.succ_lt within live)

theorem unexpected {expected : String} :
    Ends v (Walk.unexpected expected (v.head i).span : Walk α) i ((Parser.unexpected expected : Parser α).run (v.after i)) ok :=
  peek (stop nofun)

/-- How the parser reads a token if it is there. -/
def Accepts (test : Parser Bool) (kind : Token.Kind) : Prop :=
  kind ≠ .endOfInput ∧ ∀ s : Stream, test.run s = if s.head.kind = kind then .ok (true, s.next) else .ok (false, s)

theorem accepts {test : Parser Bool} (same : test = do if ← Parser.check kind then Parser.advance; return true else return false)
    (live : kind ≠ .endOfInput) : Accepts test kind := by
  refine ⟨live, fun s => ?_⟩
  rw [same]
  change (if decide (s.head.kind = kind) = true then (do Parser.advance; return true) else return false : Parser Bool).run s = _
  by_cases h : s.head.kind = kind
  · rw [decide_eq_true h, if_pos h]
    rfl
  · rw [decide_eq_false h, if_neg h]
    rfl

theorem Accepts.taken {test : Parser Bool} (h : Accepts test kind) (there : (v.head i).kind = kind)
    (rest : i + 1 < v.length → Ends v x i (p.run (v.after (i + 1))) ok) :
    Ends v x i ((test >>= fun b => if b = true then p else p').run (v.after i)) ok := by
  have run : test.run (v.after i) = .ok (true, (v.after i).next) := (h.2 _).trans (if_pos there)
  have live : (v.head i).kind ≠ .endOfInput := there ▸ h.1
  refine .inside fun within => ?_
  rw [StateT.run_bind, run, v.next_after within live]
  exact rest (v.succ_lt within live)

theorem Accepts.left {test : Parser Bool} (h : Accepts test kind) (other : (v.head i).kind ≠ kind)
    (rest : Ends v x i (p'.run (v.after i)) ok) :
    Ends v x i ((test >>= fun b => if b = true then p else p').run (v.after i)) ok := by
  have run : test.run (v.after i) = .ok (false, v.after i) := (h.2 _).trans (if_neg other)
  rw [StateT.run_bind, run]
  exact rest

theorem acceptKind {test : Parser Bool} (h : Accepts test kind)
    (yes : (v.head i).kind = kind → i + 1 < v.length → Ends v x (i + 1) (p.run (v.after (i + 1))) ok)
    (no : (v.head i).kind ≠ kind → Ends v y i (p'.run (v.after i)) ok) :
    Ends v (Walk.accept kind >>= fun b => if b = true then x else y) i
      ((test >>= fun b => if b = true then p else p').run (v.after i)) ok := by
  by_cases there : (v.head i).kind = kind
  · exact h.taken there fun more => seen (.accept there h.1) (Nat.le_succ i) (yes there more)
  · exact h.left there (seen (.accept_other there) (Nat.le_refl i) (no there))

/-- A keyword is looked at before it is read. -/
theorem again {k : Keyword} {g : Token → Walk β}
    (yes : (v.head i).kind = .keyword k → i + 1 < v.length → Ends v (g (v.head i)) (i + 1) (p.run (v.after (i + 1))) ok)
    (no : (v.head i).kind ≠ .keyword k → Ends v y i (p'.run (v.after i)) ok) :
    Ends v (Walk.check (.keyword k) >>= fun b => if b = true then Walk.advance >>= g else y) i
      ((Parser.acceptKeyword k >>= fun b => if b = true then p else p').run (v.after i)) ok := by
  have h : Accepts (Parser.acceptKeyword k) (.keyword k) := accepts rfl nofun
  refine check (fun there => h.taken there fun more => ?_) fun other => h.left other (no other)
  exact seen (.advance (there ▸ h.1)) (Nat.le_succ i) (yes there more)

/-- A list ends right where it begins. -/
theorem close {m : Mark} {b : β} (empty : ∀ j, i < j → ok j) (more : Ends v x i (p.run (v.after i)) ok) :
    Ends v (Walk.check (.mark m) >>= fun here => if here = true then (do let _ ← Walk.expect (.mark m); return b) else x) i
      ((Parser.accept m >>= fun here => if here = true then Pure.pure b else p).run (v.after i)) ok := by
  have h : Accepts (Parser.accept m) (.mark m) := accepts rfl nofun
  refine check (fun there => h.taken there fun _ => ?_) fun other => h.left other more
  exact seen (.expect there nofun) (Nat.le_succ i) (pure (empty _ (Nat.lt_succ_self i)))

/-- A declaration of a function is told from a lambda by the name behind its keyword. -/
theorem declares (live : (v.head i).kind ≠ .endOfInput)
    (yes : Ends v x i (p.run (v.after i)) ok) (no : Ends v y i (p'.run (v.after i)) ok) :
    Ends v (Walk.check (.keyword .fn) >>= fun b => if b = true then
        Walk.peekNth 1 >>= fun t => if (t.kind matches .name _) = true then x else y else y) i
      ((Parser.peekSecond >>= fun k =>
        if (v.head i).kind = .keyword .fn ∧ (k matches .name _) = true then p else p').run (v.after i)) ok := by
  refine .inside fun within => ?_
  have more := v.succ_lt within live
  -- a token that is no end of input has one behind it, so that neither way to look ahead is cut off at the end
  have second : Parser.peekSecond.run (v.after i) = .ok ((v.head (i + 1)).kind, v.after i) := by
    have rest : (v.after i).rest = v.head i :: v.head (i + 1) :: (v.after (i + 1 + 1)).rest := by
      rw [v.rest_after within, v.rest_after more]
    generalize v.after i = s at rest
    obtain ⟨tokens, span⟩ := s
    cases rest
    rfl
  rw [StateT.run_bind, second]
  refine check (fun word => seen (.peekNext more) (Nat.le_refl i) ?_) fun other => ?_
  · change Ends v (if ((v.head (i + 1)).kind matches .name _) = true then x else y) i
      ((if (v.head i).kind = .keyword .fn ∧ ((v.head (i + 1)).kind matches .name _) = true then p else p').run (v.after i)) ok
    exact ite (and_iff_right word).symm (fun _ => yes) fun _ => no
  · have lambda : ¬ ((v.head i).kind = .keyword .fn ∧ ((v.head (i + 1)).kind matches .name _) = true) := fun h => other h.1
    change Ends v y i ((if (v.head i).kind = .keyword .fn ∧ _ then p else p').run (v.after i)) ok
    rw [if_neg lambda]
    exact no

theorem accept {m : Mark} (yes : (v.head i).kind = .mark m → i + 1 < v.length → Ends v x (i + 1) (p.run (v.after (i + 1))) ok)
    (no : (v.head i).kind ≠ .mark m → Ends v y i (p'.run (v.after i)) ok) :
    Ends v (Walk.accept (.mark m) >>= fun b => if b = true then x else y) i
      ((Parser.accept m >>= fun b => if b = true then p else p').run (v.after i)) ok :=
  acceptKind (accepts rfl nofun) yes no

theorem acceptKeyword {k : Keyword}
    (yes : (v.head i).kind = .keyword k → i + 1 < v.length → Ends v x (i + 1) (p.run (v.after (i + 1))) ok)
    (no : (v.head i).kind ≠ .keyword k → Ends v y i (p'.run (v.after i)) ok) :
    Ends v (Walk.accept (.keyword k) >>= fun b => if b = true then x else y) i
      ((Parser.acceptKeyword k >>= fun b => if b = true then p else p').run (v.after i)) ok :=
  acceptKind (accepts rfl nofun) yes no

/-- The end of input comes too early. -/
theorem cut : Ends v (do Walk.stop (.unexpectedEnd (← currentSpan)) : Walk α) i (.error (.unexpectedEnd (v.head i).span)) ok :=
  seen .currentSpan (Nat.le_refl i) (stop nofun)

theorem expectKind {f : Span → Parser β} {g : Token → Walk β} (live : kind ≠ .endOfInput)
    (h : (v.head i).kind = kind → i + 1 < v.length →
      Ends v (g (v.head i)) (i + 1) ((f (v.head i).span).run (v.after (i + 1))) ok) :
    Ends v (Walk.expect kind >>= g) i ((Parser.expectKind kind >>= f).run (v.after i)) ok := by
  refine .inside fun within => ?_
  have run : (Parser.expectKind kind).run (v.after i) =
      if (v.head i).kind = .endOfInput then .error (.unexpectedEnd (v.head i).span)
      else if (v.head i).kind = kind then .ok ((v.head i).span, (v.after i).next)
      else .error (.unexpectedToken ("'" ++ kind.text ++ "'") (v.head i).kind.text (v.head i).span) := by
    change (if (v.head i).kind = .endOfInput then Parser.fail (.unexpectedEnd (v.head i).span)
      else if (v.head i).kind = kind then (do Parser.advance; return (v.head i).span)
      else Parser.unexpected ("'" ++ kind.text ++ "'") : Parser Span).run (v.after i) = _
    split
    · rfl
    · split <;> rfl
  rw [StateT.run_bind, run]
  by_cases ended : (v.head i).kind = .endOfInput
  · have other : (v.head i).kind ≠ kind := fun same => live (same.symm.trans ended)
    rw [if_pos ended]
    refine bind_error (seen (.check kind) (Nat.le_refl i) (seen .atEnd (Nat.le_refl i) ?_))
    rw [decide_eq_false other, decide_eq_true ended]
    exact cut
  rw [if_neg ended]
  by_cases same : (v.head i).kind = kind
  · rw [if_pos same, v.next_after within ended]
    exact seen (.expect same live) (Nat.le_succ i) (h same (v.succ_lt within ended))
  · rw [if_neg same]
    refine bind_error (seen (.check kind) (Nat.le_refl i) (seen .atEnd (Nat.le_refl i) ?_))
    rw [decide_eq_false same, decide_eq_false ended]
    exact seen .currentSpan (Nat.le_refl i) unexpected

theorem expect {m : Mark} {f : Span → Parser β} {g : Token → Walk β}
    (h : (v.head i).kind = .mark m → i + 1 < v.length →
      Ends v (g (v.head i)) (i + 1) ((f (v.head i).span).run (v.after (i + 1))) ok) :
    Ends v (Walk.expect (.mark m) >>= g) i ((Parser.expect m >>= f).run (v.after i)) ok := expectKind nofun h

theorem expectName {f : String → Parser β} {g : String → Walk β}
    (h : ∀ name, (v.head i).kind = .name name → i + 1 < v.length → Ends v (g name) (i + 1) ((f name).run (v.after (i + 1))) ok) :
    Ends v (Walk.expectName >>= g) i ((Parser.expectName >>= f).run (v.after i)) ok := by
  simp only [Walk.expectName, Parser.expectName, bind_assoc]
  refine peek ?_
  cases word : (v.head i).kind with
  | name name =>
    simp only [bind_assoc, pure_bind]
    exact advance (by simp [word]) (h name word)
  | endOfInput => exact bind_error cut
  | _ => exact bind_error (seen .currentSpan (Nat.le_refl i) unexpected)

end Ends

end

end Walk

end StackScript
