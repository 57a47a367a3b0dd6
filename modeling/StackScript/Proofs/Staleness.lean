import Mathlib.Logic.Function.Iterate
import StackScript.Proofs.Arena

/-!
Handles of freed cells. A slot gets another generation whenever its cell is freed, and comes back to an old one after
`2 ^ 32 - 1` times only. Until then a handle whose cell was freed dangles, and no content is given the same handle.
-/
namespace StackScript

/-! ### Generations -/

namespace Heap

/-- The generations go round, but for zero. -/
theorem toNat_nextGeneration {g : UInt32} (hg : g ≠ 0) :
    (nextGeneration g).toNat = g.toNat % (2 ^ 32 - 1) + 1 := by
  have positive : 0 < g.toNat := Nat.pos_of_ne_zero fun e => hg (UInt32.toNat.inj e)
  have bound := g.toNat_lt
  have one : (1 : UInt32).toNat = 1 := rfl
  have sum : (g + 1).toNat = (g.toNat + 1) % 2 ^ 32 := UInt32.toNat_add g 1
  unfold nextGeneration
  split
  · next wraps =>
    rw [wraps] at sum
    have zero : (0 : UInt32).toNat = 0 := rfl
    omega
  · next stays =>
    have : (g + 1).toNat ≠ 0 := fun e => stays (UInt32.toNat.inj e)
    omega

theorem iterate_nextGeneration_ne_zero {g : UInt32} (hg : g ≠ 0) : ∀ t, nextGeneration^[t] g ≠ 0
  | 0 => hg
  | t + 1 => by
    rw [Function.iterate_succ_apply']
    exact nextGeneration_ne_zero _

theorem toNat_iterate_nextGeneration {g : UInt32} (hg : g ≠ 0) (t : Nat) :
    (nextGeneration^[t] g).toNat = (g.toNat - 1 + t) % (2 ^ 32 - 1) + 1 := by
  have positive : 0 < g.toNat := Nat.pos_of_ne_zero fun e => hg (UInt32.toNat.inj e)
  have bound := g.toNat_lt
  induction t with
  | zero =>
    rw [Function.iterate_zero_apply]
    omega
  | succ t ih =>
    rw [Function.iterate_succ_apply', toNat_nextGeneration (iterate_nextGeneration_ne_zero hg t), ih]
    omega

theorem iterate_nextGeneration_ne_self {g : UInt32} (hg : g ≠ 0) {t : Nat} (some_time : 0 < t) (few : t < 2 ^ 32 - 1) :
    nextGeneration^[t] g ≠ g := by
  intro same
  have positive : 0 < g.toNat := Nat.pos_of_ne_zero fun e => hg (UInt32.toNat.inj e)
  have bound := g.toNat_lt
  have := toNat_iterate_nextGeneration hg t
  rw [same] at this
  omega

end Heap

/-! ### Slots -/

/-- What becomes of the cell in a slot when references are given up. -/
inductive Cell.Released (c d : Cell) : Prop
  | kept (generation : d.generation = c.generation) (content : d.content = c.content)
  | freed (filled : c.content.isSome) (empty : d.content = none)
      (generation : d.generation = Heap.nextGeneration c.generation)

theorem Cell.Released.refl (c : Cell) : c.Released c := .kept rfl rfl

theorem Cell.Released.trans {c d e : Cell} (first : c.Released d) (second : d.Released e) : c.Released e := by
  cases first with
  | kept generation content =>
    cases second with
    | kept generation' content' => exact .kept (generation'.trans generation) (content'.trans content)
    | freed filled empty generation' => exact .freed (content ▸ filled) empty (generation ▸ generation')
  | freed filled empty generation =>
    cases second with
    | kept generation' content' => exact .freed filled (content'.trans empty) (generation'.trans generation)
    | freed filled' => exact absurd filled' (by rw [empty]; exact Bool.false_ne_true)

/-- What becomes of the cell in a slot with one use of the heap. Only an empty slot gets new content. -/
inductive Cell.Used (c d : Cell) : Prop
  | released (by_decref : c.Released d)
  | filled (empty : c.content = none) (generation : d.generation = c.generation)

theorem Cell.Used.refl (c : Cell) : c.Used c := .released (.refl c)

/-! ### Giving up references -/

namespace Heap

/-- What holds of a heap whatever it is used for: its slots are in order, and each cell is referred to. -/
structure Regular (h : Heap) : Prop where
  tidy : h.Tidy
  counted : ∀ (i : Nat) (c : Cell), h.cells[i]? = some c → c.content.isSome → 0 < c.count

variable {h h' : Heap} {r : Handle} {c : Cell} {x : Content} {i : Nat}

theorem regular_empty : ({} : Heap).Regular := ⟨tidy_empty, by simp⟩

/-- One slot is set, and the others stay. -/
theorem Regular.set {cells : Array Cell} {free free' : List UInt32} {live live' : Nat} {d : Cell}
    (regular : (⟨cells, free, live⟩ : Heap).Regular) (tidy : (⟨cells.setIfInBounds i d, free', live'⟩ : Heap).Tidy)
    (counted : d.content.isSome → 0 < d.count) : (⟨cells.setIfInBounds i d, free', live'⟩ : Heap).Regular :=
  ⟨tidy, forall_set regular.counted counted⟩

/-- What giving up references does to the slots. -/
structure Releases (h h' : Heap) : Prop where
  regular : h.Regular → h'.Regular
  slots : h.Regular → ∀ (i : Nat) (c : Cell), h.cells[i]? = some c → ∃ d, h'.cells[i]? = some d ∧ c.Released d

theorem Releases.refl (h : Heap) : h.Releases h := ⟨id, fun _ _ c hc => ⟨c, hc, .refl c⟩⟩

theorem Releases.trans {h₁ h₂ h₃ : Heap} (a : h₁.Releases h₂) (b : h₂.Releases h₃) : h₁.Releases h₃ := by
  refine ⟨fun regular => b.regular (a.regular regular), fun regular i c hc => ?_⟩
  obtain ⟨d, hd, first⟩ := a.slots regular i c hc
  obtain ⟨e, he, second⟩ := b.slots (a.regular regular) i d hd
  exact ⟨e, he, first.trans second⟩

theorem slots_set {cells : Array Cell} {d : Cell} {P : Cell → Cell → Prop} (refl : ∀ e, P e e)
    (hc : cells[i]? = some c) (changed : P c d) (j : Nat) (e : Cell) (he : cells[j]? = some e) :
    ∃ f, (cells.setIfInBounds i d)[j]? = some f ∧ P e f := by
  by_cases same : i = j
  · subst same
    obtain rfl : c = e := Option.some.inj (hc.symm.trans he)
    exact ⟨d, Array.getElem?_setIfInBounds_self_of_lt (Array.getElem?_eq_some_iff.1 hc).1, changed⟩
  · exact ⟨e, (Array.getElem?_setIfInBounds_ne same).trans he, refl e⟩

theorem releases_decrement {o : Option Content} (e : h.decrement r = .ok (h', o)) : h.Releases h' := by
  unfold decrement at e
  cases hc : h.cell? r with
  | none =>
    rw [hc] at e
    cases e
  | some p =>
    obtain ⟨c, x⟩ := p
    obtain ⟨hi, -, hx⟩ := cell?_eq_some.1 hc
    simp only [hc] at e
    split at e
    · next several =>
      cases e
      refine ⟨fun regular => regular.set (recounts regular.tidy hc (c.count - 1)).tidy fun _ => ?_,
        fun _ => slots_set .refl hi (.kept rfl rfl)⟩
      exact Nat.sub_pos_of_lt several
    · cases e
      exact ⟨fun regular => regular.set (frees regular.tidy hc).tidy nofun,
        fun _ => slots_set .refl hi (.freed (by rw [hx]; rfl) rfl rfl)⟩

theorem releases_decref (h : Heap) (r : Handle) : h.Releases (h.decref r).1 :=
  related_decref .refl .trans releases_decrement h r

/-! ### Histories -/

/-- A use of the heap, whatever the content and the handle are. -/
inductive Op
  | alloc (x : Content)
  | incref (r : Handle)
  | decref (r : Handle)
  | refcount (r : Handle)
  | string (r : Handle)
  | list (r : Handle)
  | closure (r : Handle)
deriving DecidableEq, Repr

/-- The heap that a use leaves, also where it fails. Reading leaves the heap as it is. -/
def Op.apply (h : Heap) : Op → Heap
  | .alloc x => (h.alloc x).1
  | .incref r => (h.incref r).1
  | .decref r => (h.decref r).1
  | .refcount _ | .string _ | .list _ | .closure _ => h

/-- The heap that uses in turn leave. -/
def after (h : Heap) (ops : List Op) : Heap := ops.foldl Op.apply h

/-- Whether there is content in the slot. -/
def isFilled (h : Heap) (i : Nat) : Bool := (h.cells[i]?.bind (·.content)).isSome

/-- How many of the uses free the cell in the slot. -/
def timesFreed (i : Nat) : Heap → List Op → Nat
  | _, [] => 0
  | h, op :: ops =>
    timesFreed i (op.apply h) ops + if h.isFilled i && !(op.apply h).isFilled i then 1 else 0

theorem isFilled_eq (hc : h.cells[i]? = some c) : h.isFilled i = c.content.isSome := by
  rw [isFilled, hc, Option.bind_some]

theorem regular_alloc (regular : h.Regular) (x : Content) : (h.alloc x).1.Regular ∧
    ∀ (i : Nat) (c : Cell), h.cells[i]? = some c → ∃ d, (h.alloc x).1.cells[i]? = some d ∧ c.Used d := by
  have tidy := regular.tidy.alloc x
  obtain ⟨cells, free, live⟩ := h
  cases free with
  | nil =>
    refine ⟨⟨tidy, forall_push regular.counted fun _ => Nat.one_pos⟩, fun j c hc => ⟨c, ?_, .refl c⟩⟩
    · have inside : j < cells.size := (Array.getElem?_eq_some_iff.1 hc).1
      rw [alloc, Array.getElem?_push, if_neg (Nat.ne_of_lt inside)]
      exact hc
  | cons index free =>
    obtain ⟨c, hc, empty⟩ := regular.tidy.free_empty index (.head _)
    refine ⟨regular.set tidy fun _ => Nat.one_pos, slots_set .refl hc (.filled empty ?_)⟩
    change (cells.getD index.toNat default).generation = c.generation
    rw [Array.getD_eq_getD_getElem?, hc, Option.getD_some]

theorem regular_apply (regular : h.Regular) (op : Op) : (op.apply h).Regular ∧
    ∀ (i : Nat) (c : Cell), h.cells[i]? = some c → ∃ d, (op.apply h).cells[i]? = some d ∧ c.Used d := by
  have unchanged : h.Regular ∧ ∀ (i : Nat) (c : Cell), h.cells[i]? = some c →
      ∃ d, h.cells[i]? = some d ∧ c.Used d := ⟨regular, fun i c hc => ⟨c, hc, .refl c⟩⟩
  cases op with
  | alloc x => exact regular_alloc regular x
  | incref r =>
    rw [Op.apply, Heap.incref]
    split
    · exact unchanged
    · cases hc : h.cell? r with
      | none => exact unchanged
      | some p =>
        obtain ⟨c, x⟩ := p
        exact ⟨regular.set (recounts regular.tidy hc (c.count + 1)).tidy fun _ => Nat.succ_pos _,
          slots_set .refl (cell?_eq_some.1 hc).1 (.released (.kept rfl rfl))⟩
  | decref r =>
    have released := releases_decref h r
    refine ⟨released.regular regular, fun i c hc => ?_⟩
    obtain ⟨d, hd, age⟩ := released.slots regular i c hc
    exact ⟨d, hd, .released age⟩
  | refcount | string | list | closure => exact unchanged

theorem regular_after (ops : List Op) : ∀ {h : Heap}, h.Regular → (after h ops).Regular := by
  induction ops with
  | nil => exact fun regular => regular
  | cons op ops ih => exact fun regular => ih (regular_apply regular op).1

/-- The generation of a slot tells how often it was freed. Until it is, there is content in it. -/
theorem generation_after (ops : List Op) : ∀ {h : Heap} {c : Cell}, h.Regular → h.cells[i]? = some c →
    ∃ d, (after h ops).cells[i]? = some d ∧ d.generation = nextGeneration^[timesFreed i h ops] c.generation ∧
      (timesFreed i h ops = 0 → c.content.isSome → d.content.isSome) := by
  induction ops with
  | nil => exact fun {h c} _ hc => ⟨c, hc, rfl, fun _ filled => filled⟩
  | cons op ops ih =>
    intro h c regular hc
    obtain ⟨regular', slots⟩ := regular_apply regular op
    obtain ⟨d, hd, used⟩ := slots i c hc
    obtain ⟨e, he, generation, filled⟩ := ih regular' hd
    have times : timesFreed i h (op :: ops) =
        timesFreed i (op.apply h) ops + if c.content.isSome && !d.content.isSome then 1 else 0 := by
      rw [timesFreed, isFilled_eq hc, isFilled_eq hd]
    refine ⟨e, he, ?_, ?_⟩
    · rw [times, Function.iterate_add_apply, generation]
      congr 1
      rcases used with (⟨same, content⟩ | ⟨full, empty, next⟩) | ⟨empty, same⟩
      · rw [same, content, Bool.and_not_self]
        rfl
      · simp [full, empty, next]
      · simp [same, empty]
    · rw [times]
      intro never full
      rcases used with (⟨same, content⟩ | ⟨-, empty, next⟩) | ⟨empty, same⟩
      · exact filled (by omega) (content ▸ full)
      · simp [full, empty] at never
      · rw [empty] at full
        cases full

/-! ### Stale handles -/

/-- Whatever the handle is used for fails for the same reason, and the heap stays. -/
structure Dangles (h : Heap) (r : Handle) : Prop where
  incref : h.incref r = (h, .error (.danglingHandle r.raw))
  decref : h.decref r = (h, .error (.danglingHandle r.raw))
  refcount : h.refcount r = .error (.danglingHandle r.raw)
  string : h.string r = .error (.danglingHandle r.raw)
  list : h.list r = .error (.danglingHandle r.raw)
  closure : h.closure r = .error (.danglingHandle r.raw)

theorem dangles (hn : r.isNull = false) (hc : h.cell? r = none) : h.Dangles r := by
  have content : h.content r = .error (.danglingHandle r.raw) := by rw [Heap.content, hc]
  constructor
  · simp only [Heap.incref, hn, hc, Bool.false_eq_true, if_false]
  · simp only [Heap.decref, decrement, hn, hc, Bool.false_eq_true, if_false]
  · rw [Heap.refcount, hc]
  · simp only [Heap.string, hn, content, Bool.false_eq_true, if_false]
    rfl
  · simp only [Heap.list, hn, content, Bool.false_eq_true, if_false]
    rfl
  · rw [Heap.closure, content]
    rfl

/-- New content is in a slot that is new or was empty, and the handle has the generation of the slot. -/
theorem alloc_slot (ht : h.Tidy) (x : Content) : (h.alloc x).2.isNull = false ∧
    ∀ c, h.cells[(h.alloc x).2.index.toNat]? = some c → (h.alloc x).1.cells.size ≤ capacity →
      c.content = none ∧ (h.alloc x).2.generation = c.generation := by
  obtain ⟨cells, free, live⟩ := h
  cases free with
  | nil =>
    refine ⟨rfl, fun c hc room => ?_⟩
    have inside : cells.size < capacity := by simpa [alloc, Nat.succ_le_iff] using room
    have index : (UInt32.ofNat cells.size).toNat = cells.size := by
      rw [UInt32.toNat_ofNat']
      exact Nat.mod_eq_of_lt inside
    rw [alloc, index] at hc
    exact absurd (Array.getElem?_eq_some_iff.1 hc).1 (Nat.lt_irrefl _)
  | cons index free =>
    obtain ⟨c, hc, empty⟩ := ht.free_empty index (.head _)
    have generation : (cells.getD index.toNat default).generation = c.generation := by
      rw [Array.getD_eq_getD_getElem?, hc, Option.getD_some]
    refine ⟨?_, fun d hd _ => ?_⟩
    · simp only [alloc, generation, Handle.isNull, decide_eq_false_iff_not]
      exact ht.generation _ c hc
    · obtain rfl : c = d := Option.some.inj (hc.symm.trans hd)
      exact ⟨empty, generation⟩

/-- The cell of a handle that was just issued. -/
theorem alloc_self (ht : h.Tidy) (x : Content) (room : (h.alloc x).1.cells.size ≤ capacity) :
    ∃ c, (h.alloc x).1.cells[(h.alloc x).2.index.toNat]? = some c ∧ c.generation = (h.alloc x).2.generation ∧
      c.content = some x := by
  obtain ⟨c, -, hc⟩ := (allocates ht x room).self
  exact ⟨c, cell?_eq_some.1 hc⟩

/-- The handle that content gets after uses of the heap. -/
def issued (before : List Op) (x : Content) : Handle := ((after {} before).alloc x).2

/-- How many of the uses since a handle was issued have freed the cell in its slot. -/
def freedSince (before : List Op) (x : Content) (since : List Op) : Nat :=
  timesFreed (issued before x).index.toNat (after {} (before ++ [.alloc x])) since

/-- A handle is never null, and once its cell was freed it dangles whatever there is in its slot. No content gets it
again. For this the slot must not have been freed as often as there are generations, and all slots that are issued must
have an index of 32 bits. -/
theorem stale_dangles (before : List Op) (x : Content) : (issued before x).isNull = false ∧
    ∀ since, (after {} (before ++ [.alloc x])).cells.size ≤ capacity → freedSince before x since < 2 ^ 32 - 1 →
      (0 < freedSince before x since → (after {} (before ++ .alloc x :: since)).Dangles (issued before x)) ∧
      ∀ y, (after {} (before ++ .alloc x :: since ++ [.alloc y])).cells.size ≤ capacity →
        issued (before ++ .alloc x :: since) y ≠ issued before x := by
  have regular := regular_after before regular_empty
  have issues : after {} (before ++ [.alloc x]) = ((after {} before).alloc x).1 := List.foldl_append
  have goes_on (since : List Op) : after {} (before ++ .alloc x :: since) = after ((after {} before).alloc x).1 since :=
    List.foldl_append
  have notNull : (issued before x).isNull = false := (alloc_slot regular.tidy x).1
  refine ⟨notNull, fun since room few => ?_⟩
  rw [issues] at room
  obtain ⟨c, hc, current, content⟩ := alloc_self regular.tidy x room
  have regular' := (regular_alloc regular x).1
  have nonzero : c.generation ≠ 0 := regular'.tidy.generation _ c hc
  obtain ⟨d, hd, generation, filled⟩ := generation_after since regular' hc
  rw [freedSince, issues] at few ⊢
  rw [← goes_on] at hd
  have moved (freed : 0 < timesFreed (issued before x).index.toNat ((after {} before).alloc x).1 since) :
      d.generation ≠ (issued before x).generation := by
    rw [generation]
    exact fun same => iterate_nextGeneration_ne_self nonzero freed few (same.trans current.symm)
  refine ⟨fun freed => dangles notNull ?_, fun y room' same => ?_⟩
  · refine Option.eq_none_iff_forall_ne_some.2 fun p hp => ?_
    obtain ⟨he, old, -⟩ := cell?_eq_some.1 (hp : _ = some (p.1, p.2))
    obtain rfl : d = p.1 := Option.some.inj (hd.symm.trans he)
    exact moved freed old
  · -- The slot is empty when it is given away, so its cell was freed, and its generation is another one.
    have room' : ((after {} (before ++ .alloc x :: since)).alloc y).1.cells.size ≤ capacity := by
      rwa [after, List.foldl_append] at room'
    have slot := (alloc_slot (regular_after (before ++ .alloc x :: since) regular_empty).tidy y).2
    change ∀ e, (after {} (before ++ .alloc x :: since)).cells[(issued (before ++ .alloc x :: since) y).index.toNat]? =
      some e → _ at slot
    rw [same] at slot
    obtain ⟨empty, reissued⟩ := slot d hd room'
    have reissued : (issued (before ++ .alloc x :: since) y).generation = d.generation := reissued
    rw [same] at reissued
    refine moved (Nat.pos_of_ne_zero fun never => ?_) reissued.symm
    have := filled never (by rw [content]; rfl)
    rw [empty] at this
    cases this

/-- A text is freed, and another one takes its slot. -/
theorem stale_dangles_text : (after {} [.alloc (.string "gone"), .decref ⟨0, 1⟩, .alloc (.string "new")]).Dangles ⟨0, 1⟩ ∧
    issued [.alloc (.string "gone"), .decref ⟨0, 1⟩] (.string "new") = ⟨0, 2⟩ ∧
    issued [.alloc (.string "gone"), .decref ⟨0, 1⟩, .alloc (.string "new")] (.string "more") ≠ ⟨0, 1⟩ := by
  have stale := (stale_dangles [] (.string "gone")).2 [.decref ⟨0, 1⟩, .alloc (.string "new")] (by decide +kernel)
    (by decide +kernel)
  exact ⟨stale.1 (by decide +kernel), by decide +kernel, stale.2 (.string "more") (by decide +kernel)⟩

end Heap

end StackScript
