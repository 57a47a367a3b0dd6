import StackScript.Proofs.Reachability
import StackScript.Proofs.Widens

/-!
Slots of the heap while the machine runs. A step frees the cell in a slot a few times at most, and its handle does not
come back before many more. So what is referred to before a step and after it has kept its content.
-/
namespace StackScript

/-! ### Slots -/

/-- What becomes of the cell in a slot that is freed at most a number of times. Until then it has its content. -/
def Cell.Aged (n : Nat) (c d : Cell) : Prop :=
  ∃ t ≤ n, d.generation = Heap.nextGeneration^[t] c.generation ∧ (t = 0 → c.content.isSome → d.content = c.content)

theorem Cell.Aged.refl (c : Cell) : c.Aged 0 c := ⟨0, Nat.le_refl 0, rfl, fun _ _ => rfl⟩

theorem Cell.Aged.trans {a b : Nat} {c d e : Cell} (h : c.Aged a d) (k : d.Aged b e) : c.Aged (a + b) e := by
  obtain ⟨t, ht, generation, content⟩ := h
  obtain ⟨u, hu, generation', content'⟩ := k
  refine ⟨u + t, by omega, ?_, fun none filled => ?_⟩
  · rw [generation', generation, Function.iterate_add_apply]
  · have same := content (by omega) filled
    exact (content' (by omega) (same ▸ filled)).trans same

namespace Heap

/-- No slot goes, and none is freed more often than a number of times. -/
structure Ages (n : Nat) (h h' : Heap) : Prop where
  size : h.cells.size ≤ h'.cells.size
  regular : h.Regular → h'.Regular
  slots : h.Regular → ∀ (i : Nat) (c : Cell), h.cells[i]? = some c → ∃ d, h'.cells[i]? = some d ∧ c.Aged n d

variable {h h' h'' : Heap} {a b : Nat} {r s : Handle} {x : Content} {roots all all' : List Handle}

theorem Ages.refl (h : Heap) : h.Ages 0 h := ⟨Nat.le_refl _, id, fun _ _ c hc => ⟨c, hc, .refl c⟩⟩

theorem Ages.trans (first : h.Ages a h') (second : h'.Ages b h'') : h.Ages (a + b) h'' := by
  refine ⟨Nat.le_trans first.size second.size, fun regular => second.regular (first.regular regular), fun regular i c hc => ?_⟩
  obtain ⟨d, hd, aged⟩ := first.slots regular i c hc
  obtain ⟨e, he, aged'⟩ := second.slots (first.regular regular) i d hd
  exact ⟨e, he, aged.trans aged'⟩

theorem Ages.most (ages : h.Ages a h') (le : a ≤ b) : h.Ages b h' :=
  ⟨ages.size, ages.regular, fun regular i c hc => by
    obtain ⟨d, hd, t, ht, rest⟩ := ages.slots regular i c hc
    exact ⟨d, hd, t, Nat.le_trans ht le, rest⟩⟩

theorem Releases.ages (released : h.Releases h') (size : h'.cells.size = h.cells.size) : h.Ages 1 h' := by
  refine ⟨Nat.le_of_eq size.symm, released.regular, fun regular i c hc => ?_⟩
  obtain ⟨d, hd, outcome⟩ := released.slots regular i c hc
  refine ⟨d, hd, ?_⟩
  cases outcome with
  | kept generation content => exact ⟨0, Nat.zero_le 1, generation, fun _ _ => content⟩
  | freed _ _ generation => exact ⟨1, Nat.le_refl 1, generation, nofun⟩

/-! ### Uses of the heap -/

/-- New content goes into a new slot, or into an empty one. -/
theorem ages_alloc (h : Heap) (x : Content) : h.Ages 0 (h.alloc x).1 := by
  refine ⟨h.size_le_alloc x, fun regular => (regular_alloc regular x).1, fun regular i c hc => ?_⟩
  obtain ⟨cells, free, live⟩ := h
  cases free with
  | nil =>
    have inside : i < cells.size := (Array.getElem?_eq_some_iff.1 hc).1
    refine ⟨c, ?_, .refl c⟩
    rw [alloc, Array.getElem?_push, if_neg (Nat.ne_of_lt inside)]
    exact hc
  | cons index free =>
    obtain ⟨e, he, empty⟩ := regular.tidy.free_empty index (.head _)
    refine slots_set (P := Cell.Aged 0) .refl he ⟨0, Nat.le_refl 0, ?_, fun _ filled => ?_⟩ i c hc
    · change (cells.getD index.toNat default).generation = e.generation
      rw [Array.getD_eq_getD_getElem?, he, Option.getD_some]
    · rw [empty] at filled
      cases filled

theorem ages_incref (h : Heap) (r : Handle) : h.Ages 0 (h.incref r).1 := by
  unfold incref
  split
  · exact .refl h
  · cases hc : h.cell? r with
    | none => exact .refl h
    | some p =>
      obtain ⟨c, x⟩ := p
      exact ⟨Nat.le_of_eq Array.size_setIfInBounds.symm, fun regular => regular.set (recounts regular.tidy hc (c.count + 1)).tidy fun _ => Nat.succ_pos _,
        fun _ => slots_set .refl (cell?_eq_some.1 hc).1 ⟨0, Nat.le_refl 0, rfl, fun _ _ => rfl⟩⟩

theorem ages_increfs (rs : List Handle) (h : Heap) : h.Ages 0 (increfs rs h).1 := by
  induction rs generalizing h with
  | nil => exact .refl h
  | cons r rs ih =>
    have first := h.ages_incref r
    unfold increfs
    split
    · next e => rwa [e] at first
    · next e =>
      rw [e] at first
      exact first.trans (ih _)

theorem releases_decrefs (rs : List Handle) (h : Heap) : h.Releases (decrefs rs h).1 := by
  induction rs generalizing h with
  | nil => exact .refl h
  | cons r rs ih =>
    have first := h.releases_decref r
    unfold decrefs
    split
    · next e => rwa [e] at first
    · next e =>
      rw [e] at first
      exact first.trans (ih _)

theorem ages_decref (h : Heap) (r : Handle) : h.Ages 1 (h.decref r).1 := (h.releases_decref r).ages (h.size_decref r)

/-- References that are given up in a row free a slot once. -/
theorem ages_decrefs (rs : List Handle) (h : Heap) : h.Ages 1 (decrefs rs h).1 :=
  (h.releases_decrefs rs).ages (size_decrefs rs h)

/-! ### What stays -/

/-- A handle that leads to a cell before and after leads to the same content. -/
theorem Ages.filled (ages : h.Ages a h') (few : a < 2 ^ 32 - 1) (regular : h.Regular) (hx : h.filled? r = some x)
    (held : h'.Holds r) : h'.filled? r = some x := by
  obtain ⟨c, hc⟩ := filled?_eq_some.1 hx
  obtain ⟨y, hy⟩ := holds_iff.1 held
  obtain ⟨d, hd⟩ := filled?_eq_some.1 hy
  obtain ⟨slot, generation, content⟩ := cell?_eq_some.1 hc
  obtain ⟨slot', generation', content'⟩ := cell?_eq_some.1 hd
  obtain ⟨e, he, t, ht, aged, same⟩ := ages.slots regular _ c slot
  obtain rfl : d = e := Option.some.inj (slot'.symm.trans he)
  have never : t = 0 := Nat.eq_zero_of_not_pos fun some_time => by
    refine iterate_nextGeneration_ne_self (regular.tidy.generation _ c slot) some_time (Nat.lt_of_le_of_lt ht few) ?_
    rw [← aged, generation', generation]
  have same := same never (by rw [content]; rfl)
  rw [content, content'] at same
  rw [hy, same]

theorem Balanced.regular (hb : h.Balanced all) : h.Regular := by
  refine ⟨hb.tidy, fun i c hc filled => ?_⟩
  obtain ⟨x, hx⟩ := Option.isSome_iff_exists.1 filled
  have inside : i < 2 ^ 32 := Nat.lt_of_lt_of_le (Array.getElem?_eq_some_iff.1 hc).1 hb.size
  refine hb.positive ⟨.ofNat i, c.generation⟩ c x (cell?_eq_some.2 ⟨?_, rfl, hx⟩)
  rw [UInt32.toNat_ofNat', Nat.mod_eq_of_lt inside]
  exact hc

/-- What some roots lead to is there in another heap, with the same content. -/
def Shares (roots : List Handle) (h h' : Heap) : Prop :=
  ∀ r x, h.Reaches roots r → h.filled? r = some x → h'.filled? r = some x

theorem Shares.refl (roots : List Handle) (h : Heap) : h.Shares roots h := fun _ _ _ hx => hx

theorem Shares.reaches (shares : h.Shares roots h') (reached : h.Reaches roots r) : h'.Reaches roots r := by
  induction reached with
  | root among => exact .root among
  | through before content held ih => exact .through ih (shares _ _ before content) held

theorem Shares.trans (first : h.Shares roots h') (second : h'.Shares roots h'') : h.Shares roots h'' :=
  fun r x reached hx => second r x (first.reaches reached) (first r x reached hx)

theorem Shares.among {few : List Handle} (shares : h.Shares roots h') (among : ∀ r ∈ few, r ∈ roots) : h.Shares few h' := by
  refine fun r x reached => shares r x ?_
  induction reached with
  | root root => exact .root (among _ root)
  | through _ content held ih => exact .through ih content held

/-- What is referred to before and after keeps its content, and all that it leads to does. -/
theorem Ages.shares (ages : h.Ages a h') (few : a < 2 ^ 32 - 1) (before : h.Balanced all) (after : h'.Balanced all')
    (among : ∀ r ∈ roots, r ∈ all') : h.Shares roots h' := by
  have kept {r : Handle} (reached : h.Reaches roots r) : r.isNull = false → h'.Holds r := by
    induction reached with
    | root root => exact after.holds (.inl (among _ root))
    | @through t s x _ content held ih =>
      intro real
      have filled := ages.filled few before.regular content (ih (before.isNull_of_filled content))
      obtain ⟨c, hc⟩ := filled?_eq_some.1 filled
      exact after.holds (.inr (mem_inner hc held)) real
  exact fun r x reached hx => ages.filled few before.regular hx (kept reached (before.isNull_of_filled hx))

/-- The arena does not shrink, and what some roots lead to is left, unless the arena outgrows its handles. -/
structure Spares (roots : List Handle) (h h' : Heap) : Prop where
  size : h.cells.size ≤ h'.cells.size
  shares : h'.cells.size ≤ capacity → h.Shares roots h'

theorem Spares.refl (roots : List Handle) (h : Heap) : h.Spares roots h := ⟨Nat.le_refl _, fun _ => .refl roots h⟩

theorem Spares.trans (first : h.Spares roots h') (second : h'.Spares roots h'') : h.Spares roots h'' :=
  ⟨Nat.le_trans first.size second.size,
    fun room => (first.shares (Nat.le_trans second.size room)).trans (second.shares room)⟩

theorem Spares.among {few : List Handle} (spares : h.Spares roots h') (among : ∀ r ∈ few, r ∈ roots) : h.Spares few h' :=
  ⟨spares.size, fun room => (spares.shares room).among among⟩

/-- An arena that has outgrown its handles has nothing to spare. -/
theorem Spares.outgrown (size : h.cells.size ≤ h'.cells.size) (beyond : ¬ h'.cells.size ≤ capacity) : h.Spares roots h' :=
  ⟨size, fun room => absurd room beyond⟩

end Heap

end StackScript
