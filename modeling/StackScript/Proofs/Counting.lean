import StackScript.Proofs.Arena

/-!
Counts of references. A heap is balanced over a list of roots if the count of every cell is the number of times
that its handle occurs among the roots and in the other cells. Taking a reference adds a root, giving one up
removes it, and a cell that is freed passes the references in it to the roots first.
-/
namespace StackScript

namespace Heap

/-- The count of the cell of a handle. -/
def countOf (h : Heap) (r : Handle) : Nat := ((h.cell? r).map (·.1.count)).getD 0

structure Balanced (h : Heap) (roots : List Handle) : Prop where
  tidy : h.Tidy
  size : h.cells.size ≤ capacity
  counts : ∀ r : Handle, r.isNull = false → h.countOf r = roots.count r + h.inner.count r
  positive : ∀ r c x, h.cell? r = some (c, x) → 0 < c.count
  readable : ∀ r c x, h.cell? r = some (c, x) → ∃ hs, x.handles = .ok hs
  /-- Cells refer to older cells only. -/
  ranked : ∃ rank : Handle → Nat, ∀ r c x, h.cell? r = some (c, x) →
    ∀ s ∈ x.held, s.isNull = false → rank s < rank r

variable {h h' : Heap} {roots : List Handle} {r s : Handle} {c : Cell} {x : Content}

theorem countOf_eq (hc : h.cell? r = some (c, x)) : h.countOf r = c.count := by
  simp [countOf, hc]

theorem countOf_eq_zero (hc : h.cell? r = none) : h.countOf r = 0 := by
  simp [countOf, hc]

theorem mem_inner (hc : h.cell? r = some (c, x)) (hs : s ∈ x.held) : s ∈ h.inner := by
  obtain ⟨hi, -, hx⟩ := cell?_eq_some.1 hc
  refine List.mem_flatMap.2 ⟨c, by simpa using Array.mem_of_getElem? hi, ?_⟩
  rwa [Cell.held_of_content hx]

namespace Balanced

theorem congr {roots' : List Handle} (hb : h.Balanced roots)
    (e : ∀ r : Handle, r.isNull = false → roots.count r = roots'.count r) : h.Balanced roots' :=
  { hb with counts := fun r hr => by rw [hb.counts r hr, e r hr] }

theorem perm {roots' : List Handle} (hb : h.Balanced roots) (p : roots.Perm roots') : h.Balanced roots' :=
  hb.congr fun r _ => p.count_eq r

theorem isNull_of_cell (hb : h.Balanced roots) (hc : h.cell? r = some (c, x)) : r.isNull = false := by
  cases hr : r.isNull with
  | false => rfl
  | true => rw [hb.tidy.cell?_null hr] at hc; cases hc

/-- Every reference but the null one leads to a cell. -/
theorem holds (hb : h.Balanced roots) (hr : r ∈ roots ∨ r ∈ h.inner) (hn : r.isNull = false) : h.Holds r := by
  unfold Holds
  cases hc : h.cell? r with
  | some p => rfl
  | none =>
    have := hb.counts r hn
    rw [countOf_eq_zero hc] at this
    rcases hr with hr | hr
    · have := List.count_pos_iff.2 hr
      omega
    · have := List.count_pos_iff.2 hr
      omega

theorem exists_cell (hb : h.Balanced roots) (hr : r ∈ roots) (hn : r.isNull = false) :
    ∃ c x, h.cell? r = some (c, x) := by
  obtain ⟨⟨c, x⟩, hc⟩ := Option.isSome_iff_exists.1 (hb.holds (.inl hr) hn)
  exact ⟨c, x, hc⟩

theorem count_eq_zero (hb : h.Balanced roots) (hn : r.isNull = false) (hc : h.cell? r = none) :
    roots.count r = 0 ∧ h.inner.count r = 0 := by
  have := hb.counts r hn
  rw [countOf_eq_zero hc] at this
  omega

theorem dropNull (hb : h.Balanced (r :: roots)) (hr : r.isNull) : h.Balanced roots :=
  hb.congr fun s hs => by
    rw [List.count_cons, if_neg, Nat.add_zero]
    rw [beq_iff_eq]
    rintro rfl
    rw [hs] at hr
    cases hr

theorem consNull (hb : h.Balanced roots) (hr : r.isNull) : h.Balanced (r :: roots) :=
  hb.congr fun s hs => by
    rw [List.count_cons, if_neg, Nat.add_zero]
    rw [beq_iff_eq]
    rintro rfl
    rw [hs] at hr
    cases hr

end Balanced

theorem cell?_empty (r : Handle) : ({} : Heap).cell? r = none := rfl

theorem balanced_empty : ({} : Heap).Balanced [] := by
  refine ⟨tidy_empty, Nat.zero_le _, fun r _ => rfl, ?_, ?_, ⟨fun _ => 0, ?_⟩⟩
  all_goals
    intro r c x hc
    rw [cell?_empty] at hc
    cases hc

/-! ### One cell changes -/

theorem Recounts.countOf_self (hr : h.Recounts r c x n h') : h'.countOf r = n := by
  rw [countOf_eq hr.self]

theorem Balanced.recounts {roots' : List Handle} {n : Nat} (hb : h.Balanced roots) (hc : h.cell? r = some (c, x))
    (hr : h.Recounts r c x n h') (hn : 0 < n)
    (e : ∀ s : Handle, s.isNull = false → roots'.count s + (if s = r then c.count else 0) =
      roots.count s + if s = r then n else 0) : h'.Balanced roots' := by
  refine ⟨hr.tidy, hr.size ▸ hb.size, fun s hs => ?_, fun s d y hd => ?_, fun s d y hd => ?_, ?_⟩
  · have h1 := e s hs
    have h2 := hb.counts s hs
    rw [hr.inner s]
    by_cases hsr : s = r
    · subst hsr
      rw [hr.countOf_self]
      rw [countOf_eq hc] at h2
      simp only [if_true] at h1
      omega
    · rw [countOf, hr.others s hsr]
      rw [countOf] at h2
      simp only [hsr, if_false] at h1
      omega
  · by_cases hsr : s = r
    · subst hsr
      rw [hr.self] at hd
      cases hd
      exact hn
    · exact hb.positive s d y (hr.others s hsr ▸ hd)
  · by_cases hsr : s = r
    · subst hsr
      rw [hr.self] at hd
      cases hd
      exact hb.readable s c x hc
    · exact hb.readable s d y (hr.others s hsr ▸ hd)
  · obtain ⟨rank, hrank⟩ := hb.ranked
    refine ⟨rank, fun s d y hd => ?_⟩
    by_cases hsr : s = r
    · subst hsr
      rw [hr.self] at hd
      cases hd
      exact hrank s c x hc
    · exact hrank s d y (hr.others s hsr ▸ hd)

theorem Balanced.frees (hb : h.Balanced (r :: roots)) (hc : h.cell? r = some (c, x)) (h1 : c.count = 1)
    (hf : h.Frees r x h') : h'.Balanced (x.held ++ roots) := by
  have hn := hb.isNull_of_cell hc
  have hzero : roots.count r = 0 ∧ h.inner.count r = 0 := by
    have := hb.counts r hn
    rw [countOf_eq hc, List.count_cons_self] at this
    omega
  refine ⟨hf.tidy, hf.size ▸ hb.size, fun s hs => ?_, fun s d y hd => ?_, fun s d y hd => ?_, ?_⟩
  · have h2 := hf.inner s
    have h3 := hb.counts s hs
    rw [List.count_append]
    by_cases hsr : s = r
    · subst hsr
      rw [countOf_eq_zero hf.self]
      omega
    · rw [countOf, hf.others s hsr]
      rw [countOf, List.count_cons_of_ne (Ne.symm hsr)] at h3
      omega
  · by_cases hsr : s = r
    · subst hsr
      rw [hf.self] at hd
      cases hd
    · exact hb.positive s d y (hf.others s hsr ▸ hd)
  · by_cases hsr : s = r
    · subst hsr
      rw [hf.self] at hd
      cases hd
    · exact hb.readable s d y (hf.others s hsr ▸ hd)
  · obtain ⟨rank, hrank⟩ := hb.ranked
    refine ⟨rank, fun s d y hd => ?_⟩
    by_cases hsr : s = r
    · subst hsr
      rw [hf.self] at hd
      cases hd
    · exact hrank s d y (hf.others s hsr ▸ hd)

theorem exists_rank_bound (rank : Handle → Nat) (rs : List Handle) : ∃ n, ∀ t ∈ rs, rank t < n := by
  induction rs with
  | nil => exact ⟨0, by simp⟩
  | cons r rs ih =>
    obtain ⟨n, hn⟩ := ih
    refine ⟨max n (rank r + 1), List.forall_mem_cons.2 ⟨by omega, fun t ht => ?_⟩⟩
    have := hn t ht
    omega

/-- New content takes its references from the roots, and its handle becomes one. -/
theorem Balanced.alloc (hb : h.Balanced (x.held ++ roots)) (hx : ∃ hs, x.handles = .ok hs)
    (hsize : h'.cells.size ≤ capacity) (ha : h.Allocates x h' r) : h'.Balanced (r :: roots) := by
  obtain ⟨c, h1, hc⟩ := ha.self
  have hn : r.isNull = false := by
    cases hr : r.isNull with
    | false => rfl
    | true => rw [ha.tidy.cell?_null hr] at hc; cases hc
  have hzero := hb.count_eq_zero hn ha.fresh
  rw [List.count_append] at hzero
  refine ⟨ha.tidy, hsize, fun s hs => ?_, fun s d y hd => ?_, fun s d y hd => ?_, ?_⟩
  · have h2 := ha.inner s
    have h3 := hb.counts s hs
    rw [List.count_append] at h3
    by_cases hsr : s = r
    · subst hsr
      rw [countOf_eq hc, List.count_cons_self]
      omega
    · rw [countOf, ha.others s hsr, List.count_cons_of_ne (Ne.symm hsr)]
      rw [countOf] at h3
      omega
  · by_cases hsr : s = r
    · subst hsr
      rw [hc] at hd
      cases hd
      omega
    · exact hb.positive s d y (ha.others s hsr ▸ hd)
  · by_cases hsr : s = r
    · subst hsr
      rw [hc] at hd
      cases hd
      exact hx
    · exact hb.readable s d y (ha.others s hsr ▸ hd)
  · obtain ⟨rank, hrank⟩ := hb.ranked
    -- The new cell ranks above everything that it refers to; nothing refers to it yet.
    obtain ⟨n, hbound⟩ := exists_rank_bound rank x.held
    refine ⟨fun s => if s = r then n else rank s, fun s d y hd t ht htn => ?_⟩
    have htr : t ≠ r := by
      rintro rfl
      by_cases hsr : s = t
      · subst hsr
        rw [hc] at hd
        cases hd
        have := List.count_pos_iff.2 ht
        omega
      · have := List.count_pos_iff.2 (mem_inner (ha.others s hsr ▸ hd) ht)
        omega
    by_cases hsr : s = r
    · subst hsr
      rw [hc] at hd
      cases hd
      simp only [htr, if_false, if_true]
      exact hbound t ht
    · simp only [htr, hsr, if_false]
      exact hrank s d y (ha.others s hsr ▸ hd) t ht htn

/-! ### Taking references and giving them up -/

/-- The content of the cell of a handle. -/
def filled? (h : Heap) (r : Handle) : Option Content := (h.cell? r).map (·.2)

/-- The cells that are left have the content that they had. -/
structure Keeps (h h' : Heap) : Prop where
  size : h'.cells.size = h.cells.size
  filled : ∀ r x, h'.filled? r = some x → h.filled? r = some x

theorem Keeps.refl (h : Heap) : h.Keeps h := ⟨rfl, fun _ _ e => e⟩

theorem Keeps.trans {h₁ h₂ h₃ : Heap} (a : h₁.Keeps h₂) (b : h₂.Keeps h₃) : h₁.Keeps h₃ :=
  ⟨b.size.trans a.size, fun r x e => a.filled r x (b.filled r x e)⟩

theorem filled?_eq_some : h.filled? r = some x ↔ ∃ c, h.cell? r = some (c, x) := by
  simp [filled?]

theorem holds_iff : h.Holds r ↔ ∃ x, h.filled? r = some x := by
  simp only [Holds, filled?, Option.isSome_iff_exists, Option.map_eq_some_iff, Prod.exists, exists_eq_right]
  exact exists_comm

theorem Recounts.filled {n : Nat} (hc : h.cell? r = some (c, x)) (hr : h.Recounts r c x n h') (s : Handle) :
    h'.filled? s = h.filled? s := by
  by_cases hsr : s = r
  · subst hsr
    simp [filled?, hr.self, hc]
  · rw [filled?, filled?, hr.others s hsr]

theorem Frees.keeps (hf : h.Frees r x h') : h.Keeps h' := by
  refine ⟨hf.size, fun s y hy => ?_⟩
  by_cases hsr : s = r
  · subst hsr
    simp [filled?, hf.self] at hy
  · rwa [filled?, ← hf.others s hsr]

theorem Balanced.incref (hb : h.Balanced roots) (hr : r.isNull = false → h.Holds r) :
    ∃ h', h.incref r = (h', .ok ()) ∧ h'.Balanced (r :: roots) ∧ h'.cells.size = h.cells.size ∧
      ∀ s, h'.filled? s = h.filled? s := by
  unfold Heap.incref
  cases hn : r.isNull with
  | true => exact ⟨h, rfl, hb.consNull hn, rfl, fun _ => rfl⟩
  | false =>
    obtain ⟨⟨c, x⟩, hc⟩ := Option.isSome_iff_exists.1 (hr hn)
    have hre := Heap.recounts hb.tidy hc (c.count + 1)
    refine ⟨_, by simp only [hc]; rfl, hb.recounts hc hre (Nat.succ_pos _) fun s _ => ?_, hre.size,
      hre.filled hc⟩
    by_cases hsr : s = r
    · subst hsr
      simp only [List.count_cons_self, if_true]
      omega
    · simp only [hsr, if_false, List.count_cons_of_ne (Ne.symm hsr)]

theorem Balanced.increfs {rs : List Handle} : ∀ {h : Heap} {roots : List Handle}, h.Balanced roots →
    (∀ r ∈ rs, r.isNull = false → h.Holds r) →
    ∃ h', Heap.increfs rs h = (h', .ok ()) ∧ h'.Balanced (rs ++ roots) ∧ h'.cells.size = h.cells.size ∧
      ∀ s, h'.filled? s = h.filled? s := by
  induction rs with
  | nil => exact fun {h _} hb _ => ⟨h, rfl, hb, rfl, fun _ => rfl⟩
  | cons r rs ih =>
    intro h roots hb hrs
    obtain ⟨h₁, e₁, hb₁, hs₁, hf₁⟩ := hb.incref (hrs r (List.mem_cons_self ..))
    have hrs₁ : ∀ s ∈ rs, s.isNull = false → h₁.Holds s := fun s hs hn => by
      rw [holds_iff, hf₁ s, ← holds_iff]
      exact hrs s (.tail _ hs) hn
    obtain ⟨h₂, e₂, hb₂, hs₂, hf₂⟩ := ih hb₁ hrs₁
    refine ⟨h₂, ?_, hb₂.perm List.perm_middle, hs₂.trans hs₁, fun s => (hf₂ s).trans (hf₁ s)⟩
    simp only [Heap.increfs, e₁, e₂]

theorem Keeps.holds (hk : h.Keeps h') (hr : h'.Holds r) : h.Holds r := by
  obtain ⟨x, hx⟩ := holds_iff.1 hr
  exact holds_iff.2 ⟨x, hk.filled r x hx⟩

/-- The content of a cell is given where the cell is freed. -/
theorem holds_decrement {o : Option Content} (ht : h.Tidy) (e : h.decrement r = .ok (h', o)) :
    h'.Holds r ↔ o = none := by
  unfold Heap.decrement at e
  cases hc : h.cell? r with
  | none =>
    rw [hc] at e
    cases e
  | some p =>
    obtain ⟨c, x⟩ := p
    simp only [hc] at e
    split at e
    · cases e
      simp only [Holds, (recounts ht hc (c.count - 1)).self, Option.isSome_some]
    · cases e
      simp only [Holds, (frees ht hc).self, Option.isSome_none, Bool.false_eq_true, reduceCtorEq]

/-- One reference less: the cell stays, or its own references are left to be given up. -/
theorem Balanced.decrement (hb : h.Balanced (r :: roots)) (hn : r.isNull = false) :
    (∃ h', h.decrement r = .ok (h', none) ∧ h'.Balanced roots ∧ h.Keeps h' ∧ h'.live = h.live) ∨
    ∃ h' x, h.decrement r = .ok (h', some x) ∧ h'.Balanced (x.held ++ roots) ∧ h.Keeps h' ∧
      h'.live + 1 = h.live ∧ ∃ hs, x.handles = .ok hs := by
  obtain ⟨c, x, hc⟩ := hb.exists_cell (List.mem_cons_self ..) hn
  have hcount := hb.counts r hn
  rw [countOf_eq hc, List.count_cons_self] at hcount
  unfold Heap.decrement
  simp only [hc]
  by_cases h1 : 1 < c.count
  · have hre := Heap.recounts hb.tidy hc (c.count - 1)
    refine .inl ⟨_, by rw [if_pos h1], hb.recounts hc hre (by omega) fun s _ => ?_,
      ⟨hre.size, fun s y hy => (hre.filled hc s) ▸ hy⟩, hre.live⟩
    by_cases hsr : s = r
    · subst hsr
      simp only [List.count_cons_self, if_true]
      omega
    · simp only [hsr, if_false, List.count_cons_of_ne (Ne.symm hsr)]
  · have hf := Heap.frees hb.tidy hc
    exact .inr ⟨_, x, by rw [if_neg h1], hb.frees hc (by omega) hf, hf.keeps, hf.live, hb.readable r c x hc⟩

theorem Balanced.decrements {rs : List Handle} : ∀ {h : Heap}, h.Balanced (rs ++ roots) →
    (∃ h', Heap.decrements rs h = (h', .ok none) ∧ h'.Balanced roots ∧ h.Keeps h') ∨
    ∃ h' x rest, Heap.decrements rs h = (h', .ok (some (x, rest))) ∧ h'.Balanced (x.held ++ rest ++ roots) ∧
      h.Keeps h' ∧ h'.live + 1 = h.live ∧ ∃ hs, x.handles = .ok hs := by
  induction rs with
  | nil => exact fun {h} hb => .inl ⟨h, rfl, hb, .refl h⟩
  | cons r rs ih =>
    intro h hb
    unfold Heap.decrements
    cases hn : r.isNull with
    | true => exact ih (hb.dropNull hn)
    | false =>
      rcases hb.decrement hn with ⟨h₁, e₁, hb₁, hk₁, hl₁⟩ | ⟨h₁, x, e₁, hb₁, hk₁, hl₁, hx⟩
      · simp only [e₁]
        rcases ih hb₁ with ⟨h₂, e₂, hb₂, hk₂⟩ | ⟨h₂, y, rest, e₂, hb₂, hk₂, hl₂, hy⟩
        · exact .inl ⟨h₂, e₂, hb₂, hk₁.trans hk₂⟩
        · exact .inr ⟨h₂, y, rest, e₂, hb₂, hk₁.trans hk₂, hl₂.trans hl₁, hy⟩
      · simp only [e₁]
        exact .inr ⟨h₁, x, rs, rfl, by rwa [List.append_assoc], hk₁, hl₁, hx⟩

/-- Every round frees a cell, so as many rounds as there are cells are enough. -/
theorem Balanced.release (fuel : Nat) : ∀ {rs : List Handle} {h : Heap}, h.Balanced (rs ++ roots) →
    h.live < fuel → ∃ h', Heap.release fuel rs h = (h', .ok ()) ∧ h'.Balanced roots ∧ h.Keeps h' := by
  induction fuel with
  | zero => exact fun _ hl => absurd hl (Nat.not_lt_zero _)
  | succ fuel ih =>
    intro rs h hb hl
    unfold Heap.release
    rcases hb.decrements with ⟨h₁, e₁, hb₁, hk₁⟩ | ⟨h₁, x, rest, e₁, hb₁, hk₁, hl₁, hs, hx⟩
    · exact ⟨h₁, by simp only [e₁], hb₁, hk₁⟩
    · simp only [e₁, hx]
      rw [Content.held_eq hx] at hb₁
      have hb₂ : h₁.Balanced ((hs.reverse ++ rest) ++ roots) :=
        hb₁.perm (((List.reverse_perm hs).symm.append_right rest).append_right roots)
      obtain ⟨h₂, e₂, hb₃, hk₂⟩ := ih hb₂ (by omega)
      exact ⟨h₂, e₂, hb₃, hk₁.trans hk₂⟩

theorem Balanced.live_le (hb : h.Balanced roots) : h.live ≤ h.cells.size := by
  rw [hb.tidy.live_eq]
  exact List.countP_le_length

/-- One reference less. The answer tells whether the cell is gone. -/
theorem Balanced.released (hb : h.Balanced (r :: roots)) (hn : r.isNull = false) :
    ∃ h' b, h.decref r = (h', .ok b) ∧ h'.Balanced roots ∧ h.Keeps h' ∧ (b = true ↔ ¬ h'.Holds r) := by
  unfold Heap.decref
  rw [hn]
  rcases hb.decrement hn with ⟨h₁, e₁, hb₁, hk₁, -⟩ | ⟨h₁, x, e₁, hb₁, hk₁, -, hs, hx⟩
  · refine ⟨h₁, false, by simp only [e₁]; rfl, hb₁, hk₁, iff_of_false nofun (not_not.2 ?_)⟩
    exact (holds_decrement hb.tidy e₁).2 rfl
  · rw [Content.held_eq hx] at hb₁
    have hb₂ : h₁.Balanced (hs.reverse ++ roots) := hb₁.perm ((List.reverse_perm hs).symm.append_right roots)
    obtain ⟨h₂, e₂, hb₃, hk₂⟩ := hb₂.release (h₁.cells.size + 1) (Nat.lt_succ_of_le hb₂.live_le)
    refine ⟨h₂, true, by simp only [e₁, hx, e₂]; rfl, hb₃, hk₁.trans hk₂, iff_of_true rfl fun holds => ?_⟩
    exact nomatch (holds_decrement hb.tidy e₁).1 (hk₂.holds holds)

theorem Balanced.decref (hb : h.Balanced (r :: roots)) :
    ∃ h' b, h.decref r = (h', .ok b) ∧ h'.Balanced roots ∧ h.Keeps h' := by
  cases hn : r.isNull with
  | true => exact ⟨h, false, by rw [Heap.decref, hn]; rfl, hb.dropNull hn, .refl h⟩
  | false =>
    obtain ⟨h', b, e, hb', hk, -⟩ := hb.released hn
    exact ⟨h', b, e, hb', hk⟩

theorem Balanced.decrefs {rs : List Handle} : ∀ {h : Heap}, h.Balanced (rs ++ roots) →
    ∃ h', Heap.decrefs rs h = (h', .ok ()) ∧ h'.Balanced roots ∧ h.Keeps h' := by
  induction rs with
  | nil => exact fun {h} hb => ⟨h, rfl, hb, .refl h⟩
  | cons r rs ih =>
    intro h hb
    obtain ⟨h₁, b, e₁, hb₁, hk₁⟩ := hb.decref
    obtain ⟨h₂, e₂, hb₂, hk₂⟩ := ih hb₁
    exact ⟨h₂, by simp only [Heap.decrefs, e₁, e₂], hb₂, hk₁.trans hk₂⟩

theorem exists_handle (hsize : h.cells.size ≤ capacity) (hc : c ∈ h.cells.toList) (hx : c.content = some x) :
    ∃ r, h.cell? r = some (c, x) := by
  obtain ⟨i, hi⟩ := List.mem_iff_getElem?.1 hc
  rw [Array.getElem?_toList] at hi
  have hlt : i < h.cells.size := (Array.getElem?_eq_some_iff.1 hi).1
  refine ⟨⟨UInt32.ofNat i, c.generation⟩, cell?_eq_some.2 ⟨?_, rfl, hx⟩⟩
  have hindex : (UInt32.ofNat i).toNat = i := by
    rw [UInt32.toNat_ofNat']
    exact Nat.mod_eq_of_lt (Nat.lt_of_lt_of_le hlt hsize)
  rwa [hindex]

theorem exists_holder (hsize : h.cells.size ≤ capacity) (hr : r ∈ h.inner) :
    ∃ s c x, h.cell? s = some (c, x) ∧ r ∈ x.held := by
  obtain ⟨c, hc, hrc⟩ := List.mem_flatMap.1 hr
  cases hx : c.content with
  | none =>
    rw [Cell.held_of_none hx] at hrc
    cases hrc
  | some x =>
    obtain ⟨s, hs⟩ := exists_handle hsize hc hx
    exact ⟨s, c, x, hs, Cell.held_of_content hx ▸ hrc⟩

/-! ### What the roots lead to -/

/-- The handles that the roots lead to, through the contents of cells. -/
inductive Reaches (h : Heap) (roots : List Handle) : Handle → Prop
  | root {r : Handle} (among : r ∈ roots) : Reaches h roots r
  | through {r s : Handle} {x : Content} (reached : Reaches h roots r) (filled : h.filled? r = some x)
      (held : s ∈ x.held) : Reaches h roots s

/-- Every cell is reached: it is a root, or a cell of a greater rank refers to it. -/
theorem Balanced.reaches (hb : h.Balanced roots) (hr : h.Holds r) : h.Reaches roots r := by
  obtain ⟨rank, hrank⟩ := hb.ranked
  obtain ⟨n, hn⟩ := exists_rank_bound rank h.inner
  have referred {r : Handle} (hr : h.Holds r) : r ∈ roots ∨ r ∈ h.inner := by
    obtain ⟨⟨c, x⟩, hc⟩ := Option.isSome_iff_exists.1 hr
    have hcount := hb.counts r (hb.isNull_of_cell hc)
    rw [countOf_eq hc] at hcount
    rcases Nat.add_pos_iff_pos_or_pos.1 (hcount ▸ hb.positive r c x hc) with h | h
    · exact .inl (List.count_pos_iff.1 h)
    · exact .inr (List.count_pos_iff.1 h)
  -- The distance to the rank that no cell in a cell has.
  have climb : ∀ k r, h.Holds r → n ≤ rank r + k → h.Reaches roots r := by
    intro k
    induction k with
    | zero =>
      intro r hr hk
      rcases referred hr with hr | hr
      · exact .root hr
      · exact absurd (hn r hr) (Nat.not_lt.2 hk)
    | succ k ih =>
      intro r hr hk
      rcases referred hr with hroot | hinner
      · exact .root hroot
      · obtain ⟨s, d, y, hs, held⟩ := exists_holder hb.size hinner
        obtain ⟨⟨c, x⟩, hc⟩ := Option.isSome_iff_exists.1 hr
        have := hrank s d y hs r held (hb.isNull_of_cell hc)
        have reached := ih s (Option.isSome_iff_exists.2 ⟨_, hs⟩) (by omega)
        exact .through reached (filled?_eq_some.2 ⟨d, hs⟩) held
  exact climb n r hr (Nat.le_add_left ..)

/-- Roots that hold nothing lead to nothing else. -/
theorem Reaches.among_roots (bare : ∀ r ∈ roots, ∀ x, h.filled? r = some x → x.held = []) (hr : h.Reaches roots r) :
    r ∈ roots := by
  induction hr with
  | root among => exact among
  | through _ filled held ih =>
    rw [bare _ ih _ filled] at held
    cases held

/-- Without roots nothing is left. -/
theorem Balanced.live_eq_zero (hb : h.Balanced []) : h.live = 0 := by
  rw [hb.tidy.live_eq, List.countP_eq_zero]
  intro c hc hx
  obtain ⟨x, hx⟩ := Option.isSome_iff_exists.1 hx
  obtain ⟨r, hr⟩ := exists_handle hb.size hc hx
  exact absurd ((hb.reaches (Option.isSome_iff_exists.2 ⟨_, hr⟩)).among_roots (by simp)) List.not_mem_nil

end Heap

end StackScript
