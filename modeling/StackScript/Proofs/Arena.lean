import Mathlib.Algebra.GroupWithZero.Nat
import StackScript.Heap

/-!
Cells of the heap by handle. Every operation changes the cell of one handle; the others keep theirs.
-/
namespace StackScript

def Content.held (x : Content) : List Handle :=
  match x.handles with
  | .ok hs => hs
  | .error _ => []

def Cell.held (c : Cell) : List Handle := (c.content.map Content.held).getD []

theorem Content.held_eq {x : Content} {hs : List Handle} (e : x.handles = .ok hs) : x.held = hs := by
  simp [held, e]

theorem Cell.held_of_content {c : Cell} {x : Content} (h : c.content = some x) : c.held = x.held := by
  simp [Cell.held, h]

theorem Cell.held_of_none {c : Cell} (h : c.content = none) : c.held = [] := by
  simp [Cell.held, h]

theorem Handle.eq_of_index {r s : Handle} (hi : r.index.toNat = s.index.toNat)
    (hg : r.generation = s.generation) : r = s := by
  cases r
  cases s
  simp only [Handle.mk.injEq]
  exact ⟨UInt32.toNat.inj hi, hg⟩

namespace Heap

/-- The handles in the cells. -/
def inner (h : Heap) : List Handle := h.cells.toList.flatMap Cell.held

/-- What does not depend on who refers to the cells. -/
structure Tidy (h : Heap) : Prop where
  generation : ∀ (i : Nat) (c : Cell), h.cells[i]? = some c → c.generation ≠ 0
  free_empty : ∀ i ∈ h.free, ∃ c : Cell, h.cells[i.toNat]? = some c ∧ c.content = none
  free_nodup : h.free.Nodup
  live_eq : h.live = h.cells.toList.countP (·.content.isSome)

/-- Whether the handle has a filled cell. -/
def Holds (h : Heap) (r : Handle) : Prop := (h.cell? r).isSome

theorem cell?_eq_some {h : Heap} {r : Handle} {c : Cell} {x : Content} :
    h.cell? r = some (c, x) ↔
      h.cells[r.index.toNat]? = some c ∧ c.generation = r.generation ∧ c.content = some x := by
  unfold cell?
  cases h.cells[r.index.toNat]? with
  | none => simp
  | some d =>
    by_cases hg : d.generation = r.generation
    · cases hx : d.content with
      | none =>
        simp only [hg, hx, if_true, Option.map_none, reduceCtorEq, Option.some.injEq, false_iff, not_and]
        rintro rfl -
        simp [hx]
      | some y =>
        simp only [hg, hx, if_true, Option.map_some, Option.some.injEq, Prod.mk.injEq]
        constructor
        · rintro ⟨rfl, rfl⟩
          exact ⟨rfl, hg, hx⟩
        · rintro ⟨rfl, -, hy⟩
          rw [hx] at hy
          exact ⟨rfl, Option.some.inj hy⟩
    · simp only [hg, if_false, reduceCtorEq, Option.some.injEq, false_iff, not_and]
      rintro rfl hk
      exact absurd hk hg

theorem Tidy.cell?_null {h : Heap} (ht : h.Tidy) {r : Handle} (hr : r.isNull) : h.cell? r = none := by
  cases hc : h.cell? r with
  | none => rfl
  | some p =>
    obtain ⟨c, x⟩ := p
    obtain ⟨hi, hg, -⟩ := cell?_eq_some.1 hc
    have : r.generation = 0 := by simpa [Handle.isNull] using hr
    exact absurd (hg.trans this) (ht.generation _ _ hi)

/-! ### Changing one cell -/

section

variable {cells : Array Cell} {free free' : List UInt32} {live live' : Nat} {r s : Handle} {c d : Cell}

theorem cell?_set_self (hr : r.index.toNat < cells.size) (hg : d.generation = s.generation)
    (hi : s.index = r.index) :
    (⟨cells.setIfInBounds r.index.toNat d, free, live⟩ : Heap).cell? s = d.content.map (d, ·) := by
  unfold cell?
  rw [hi, Array.getElem?_setIfInBounds_self_of_lt hr]
  simp [hg]

theorem cell?_set_other (hi : s.index ≠ r.index) :
    (⟨cells.setIfInBounds r.index.toNat d, free, live⟩ : Heap).cell? s =
      (⟨cells, free', live'⟩ : Heap).cell? s := by
  have hn : r.index.toNat ≠ s.index.toNat := fun e => hi (UInt32.toNat.inj e.symm)
  unfold cell?
  rw [Array.getElem?_setIfInBounds_ne hn]

/-- Another handle of the same index has no cell before or after. -/
theorem cell?_set_stale (hr : cells[r.index.toNat]? = some c) (hs : s.index = r.index)
    (hc : c.generation ≠ s.generation ∨ c.content = none)
    (hd : d.generation ≠ s.generation ∨ d.content = none) :
    (⟨cells.setIfInBounds r.index.toNat d, free, live⟩ : Heap).cell? s =
      (⟨cells, free', live'⟩ : Heap).cell? s := by
  have hlt : r.index.toNat < cells.size := (Array.getElem?_eq_some_iff.1 hr).1
  unfold cell?
  rw [hs, hr, Array.getElem?_setIfInBounds_self_of_lt hlt]
  rcases hc with hc | hc <;> rcases hd with hd | hd <;> simp [hc, hd]

theorem sum_map_set (f : Cell → Nat) : ∀ (l : List Cell) (i : Nat) (d : Cell) (hi : i < l.length),
    ((l.set i d).map f).sum + f l[i] = (l.map f).sum + f d
  | c :: l, 0, d, _ => by
    simp only [List.set_cons_zero, List.map_cons, List.sum_cons, List.getElem_cons_zero]
    omega
  | c :: l, i + 1, d, hi => by
    have := sum_map_set f l i d (by simpa using hi)
    simp only [List.set_cons_succ, List.map_cons, List.sum_cons, List.getElem_cons_succ]
    omega

theorem count_inner (h : Heap) (s : Handle) :
    h.inner.count s = (h.cells.toList.map fun c => c.held.count s).sum := by
  rw [inner, List.count_flatMap]
  rfl

theorem count_inner_set (h h' : Heap) (d : Cell) (s : Handle) {i : Nat} (hi : cells[i]? = some c) :
    (⟨cells.setIfInBounds i d, h.free, h.live⟩ : Heap).inner.count s + c.held.count s =
      (⟨cells, h'.free, h'.live⟩ : Heap).inner.count s + d.held.count s := by
  obtain ⟨hlt, rfl⟩ := Array.getElem?_eq_some_iff.1 hi
  have hl : i < cells.toList.length := by simpa using hlt
  have := sum_map_set (fun c => c.held.count s) cells.toList i d hl
  rw [count_inner, count_inner, Array.toList_setIfInBounds]
  simpa using this

theorem countP_set {i : Nat} (hi : cells[i]? = some c) (p : Cell → Bool) :
    (cells.setIfInBounds i d).toList.countP p + (if p c then 1 else 0) =
      cells.toList.countP p + if p d then 1 else 0 := by
  obtain ⟨hlt, rfl⟩ := Array.getElem?_eq_some_iff.1 hi
  have hl : i < cells.toList.length := by simpa using hlt
  have hpos : p cells[i] = true → 0 < cells.toList.countP p := fun hp =>
    List.countP_pos_iff.2 ⟨cells[i], by simp, hp⟩
  rw [Array.toList_setIfInBounds, List.countP_set hl]
  simp only [Array.getElem_toList]
  split
  · next hp =>
    have := hpos hp
    omega
  · omega

end

/-! ### The operations -/

/-- How many cells can be told apart by their index. -/
def capacity : Nat := 0x100000000

/-- A cell for new content. -/
structure Allocates (h : Heap) (x : Content) (h' : Heap) (r : Handle) : Prop where
  tidy : h'.Tidy
  fresh : h.cell? r = none
  self : ∃ c : Cell, c.count = 1 ∧ h'.cell? r = some (c, x)
  others : ∀ s ≠ r, h'.cell? s = h.cell? s
  inner : ∀ s, h'.inner.count s = h.inner.count s + x.held.count s

/-- Another count for the cell of a handle. -/
structure Recounts (h : Heap) (r : Handle) (c : Cell) (x : Content) (n : Nat) (h' : Heap) : Prop where
  tidy : h'.Tidy
  self : h'.cell? r = some ({ c with count := n }, x)
  others : ∀ s ≠ r, h'.cell? s = h.cell? s
  inner : ∀ s, h'.inner.count s = h.inner.count s
  live : h'.live = h.live
  size : h'.cells.size = h.cells.size

/-- An empty cell for a handle. -/
structure Frees (h : Heap) (r : Handle) (x : Content) (h' : Heap) : Prop where
  tidy : h'.Tidy
  self : h'.cell? r = none
  others : ∀ s ≠ r, h'.cell? s = h.cell? s
  inner : ∀ s, h'.inner.count s + x.held.count s = h.inner.count s
  live : h'.live + 1 = h.live
  size : h'.cells.size = h.cells.size

theorem nextGeneration_ne_zero (g : UInt32) : nextGeneration g ≠ 0 := by
  unfold nextGeneration
  split
  · decide
  · assumption

theorem forall_set {cells : Array Cell} {i : Nat} {d : Cell} {P : Cell → Prop}
    (all : ∀ (j : Nat) (e : Cell), cells[j]? = some e → P e) (hd : P d) (j : Nat) (e : Cell)
    (he : (cells.setIfInBounds i d)[j]? = some e) : P e := by
  rw [Array.getElem?_setIfInBounds] at he
  split at he
  · split at he
    · cases he
      exact hd
    · cases he
  · exact all j e he

theorem forall_push {cells : Array Cell} {d : Cell} {P : Cell → Prop}
    (all : ∀ (j : Nat) (e : Cell), cells[j]? = some e → P e) (hd : P d) (j : Nat) (e : Cell)
    (he : (cells.push d)[j]? = some e) : P e := by
  rw [Array.getElem?_push] at he
  split at he
  · cases he
    exact hd
  · exact all j e he

/-- A cell set at the index of a handle leaves the other cells, and stays tidy. -/
theorem Tidy.set {cells : Array Cell} {free free' : List UInt32} {live live' : Nat} {i : Nat} {c d : Cell}
    (ht : (⟨cells, free, live⟩ : Heap).Tidy) (hi : cells[i]? = some c) (hd : d.generation ≠ 0)
    (hfree : ∀ j ∈ free', j.toNat = i ∧ d.content = none ∨ j.toNat ≠ i ∧ j ∈ free) (hnodup : free'.Nodup)
    (hlive : live' + (if c.content.isSome then 1 else 0) = live + if d.content.isSome then 1 else 0) :
    (⟨cells.setIfInBounds i d, free', live'⟩ : Heap).Tidy := by
  have hlt : i < cells.size := (Array.getElem?_eq_some_iff.1 hi).1
  refine ⟨forall_set ht.generation hd, fun j hj => ?_, hnodup, ?_⟩
  · rcases hfree j hj with ⟨hji, hdn⟩ | ⟨hji, hjf⟩
    · exact ⟨d, by rw [hji]; exact Array.getElem?_setIfInBounds_self_of_lt hlt, hdn⟩
    · obtain ⟨e, he, hen⟩ := ht.free_empty j hjf
      exact ⟨e, by rw [Array.getElem?_setIfInBounds_ne (Ne.symm hji)]; exact he, hen⟩
  · have hcount := countP_set (d := d) hi (·.content.isSome)
    have := ht.live_eq
    simp only at this ⊢
    omega

theorem recounts {h : Heap} (ht : h.Tidy) {r : Handle} {c : Cell} {x : Content}
    (hc : h.cell? r = some (c, x)) (n : Nat) :
    h.Recounts r c x n
      ⟨h.cells.setIfInBounds r.index.toNat { c with count := n }, h.free, h.live⟩ := by
  obtain ⟨hi, hg, hx⟩ := cell?_eq_some.1 hc
  have hlt : r.index.toNat < h.cells.size := (Array.getElem?_eq_some_iff.1 hi).1
  refine ⟨?_, ?_, fun s hs => ?_, fun s => ?_, rfl, by simp⟩
  · refine ht.set hi (show c.generation ≠ 0 from ht.generation _ c hi) (fun j hj => .inr ⟨fun hj' => ?_, hj⟩) ht.free_nodup rfl
    obtain ⟨e, he, hen⟩ := ht.free_empty j hj
    rw [hj', hi] at he
    cases he
    rw [hx] at hen
    cases hen
  · rw [cell?_set_self (d := { c with count := n }) hlt hg rfl]
    simp [hx]
  · by_cases hsi : s.index = r.index
    · have hsg : c.generation ≠ s.generation := fun e =>
        hs (Handle.eq_of_index (by rw [hsi]) (e.symm.trans hg))
      exact cell?_set_stale hi hsi (.inl hsg) (.inl hsg)
    · exact cell?_set_other hsi
  · have := count_inner_set h h { c with count := n } s hi
    have hh : Cell.held { c with count := n } = c.held := rfl
    rw [hh] at this
    exact Nat.add_right_cancel this

theorem frees {h : Heap} (ht : h.Tidy) {r : Handle} {c : Cell} {x : Content}
    (hc : h.cell? r = some (c, x)) :
    h.Frees r x
      ⟨h.cells.setIfInBounds r.index.toNat ⟨nextGeneration c.generation, 0, none⟩, r.index :: h.free,
        h.live - 1⟩ := by
  obtain ⟨hi, hg, hx⟩ := cell?_eq_some.1 hc
  have hlt : r.index.toNat < h.cells.size := (Array.getElem?_eq_some_iff.1 hi).1
  have hlive : 0 < h.live := by
    rw [ht.live_eq, List.countP_pos_iff]
    exact ⟨c, by simpa using Array.mem_of_getElem? hi, by simp [hx]⟩
  have hfree : ∀ j ∈ h.free, j.toNat ≠ r.index.toNat := by
    intro j hj hj'
    obtain ⟨e, he, hen⟩ := ht.free_empty j hj
    rw [hj', hi] at he
    cases he
    rw [hx] at hen
    cases hen
  refine ⟨?_, ?_, fun s hs => ?_, fun s => ?_, by simp only; omega, by simp⟩
  · refine ht.set hi (nextGeneration_ne_zero _) (fun j hj => ?_) ?_ ?_
    · rcases List.mem_cons.1 hj with rfl | hj
      · exact .inl ⟨rfl, rfl⟩
      · exact .inr ⟨hfree j hj, hj⟩
    · exact List.nodup_cons.2 ⟨fun hr => hfree _ hr rfl, ht.free_nodup⟩
    · simp only [hx, Option.isSome_some, Option.isSome_none, if_true]
      simp
      omega
  · refine Option.eq_none_iff_forall_ne_some.2 fun p hp => ?_
    obtain ⟨hd, -, hdx⟩ := cell?_eq_some.1 (hp : _ = some (p.1, p.2))
    rw [Array.getElem?_setIfInBounds_self_of_lt hlt, Option.some.injEq] at hd
    rw [← hd] at hdx
    cases hdx
  · by_cases hsi : s.index = r.index
    · have hsg : c.generation ≠ s.generation := fun e =>
        hs (Handle.eq_of_index (by rw [hsi]) (e.symm.trans hg))
      exact cell?_set_stale hi hsi (.inl hsg) (.inr rfl)
    · exact cell?_set_other hsi
  · have := count_inner_set { h with free := r.index :: h.free, live := h.live - 1 } h
      ⟨nextGeneration c.generation, 0, none⟩ s hi
    rw [Cell.held_of_content hx, Cell.held_of_none rfl] at this
    simpa using this

theorem tidy_empty : ({} : Heap).Tidy := by
  constructor <;> simp

theorem Tidy.push {cells : Array Cell} {live : Nat} (ht : (⟨cells, [], live⟩ : Heap).Tidy) (x : Content) :
    (⟨cells.push ⟨1, 1, some x⟩, [], live + 1⟩ : Heap).Tidy := by
  refine ⟨forall_push ht.generation (show (1 : UInt32) ≠ 0 by decide), by simp, List.nodup_nil, ?_⟩
  · have := ht.live_eq
    simp only at this
    simp [this]

theorem Tidy.alloc {h : Heap} (ht : h.Tidy) (x : Content) : (h.alloc x).1.Tidy := by
  obtain ⟨cells, free, live⟩ := h
  cases free with
  | nil => exact ht.push x
  | cons i free =>
    obtain ⟨c, hc, hcn⟩ := ht.free_empty i (.head _)
    have hfree := List.nodup_cons.1 ht.free_nodup
    refine ht.set hc ?_ (fun j hj => .inr ⟨fun e => ?_, .tail _ hj⟩) hfree.2 (by simp [hcn])
    · change (cells.getD i.toNat default).generation ≠ 0
      rw [Array.getD_eq_getD_getElem?, hc]
      exact ht.generation _ c hc
    · exact hfree.1 (UInt32.toNat.inj e ▸ hj)

theorem allocates {h : Heap} (ht : h.Tidy) (x : Content) (hcap : (h.alloc x).1.cells.size ≤ capacity) :
    h.Allocates x (h.alloc x).1 (h.alloc x).2 := by
  obtain ⟨cells, free, live⟩ := h
  cases free with
  | nil =>
    have hlt : cells.size < capacity := by simpa [alloc, Nat.succ_le_iff] using hcap
    have hindex : (UInt32.ofNat cells.size).toNat = cells.size := by
      rw [UInt32.toNat_ofNat']
      exact Nat.mod_eq_of_lt hlt
    refine ⟨ht.push x, ?_, ⟨⟨1, 1, some x⟩, rfl, ?_⟩, fun s hs => ?_, fun s => ?_⟩
    · simp [alloc, cell?, hindex]
    · simp [alloc, cell?, hindex]
    · simp only [alloc, cell?, Array.getElem?_push] at hs ⊢
      by_cases hsi : s.index.toNat = cells.size
      · have hg : ¬ (1 : UInt32) = s.generation := fun e =>
          hs (Handle.eq_of_index (hsi.trans hindex.symm) e.symm)
        simp [hsi, hg]
      · simp [hsi]
    · simp [alloc, inner, Cell.held]
  | cons i free =>
    obtain ⟨c, hc, hcn⟩ := ht.free_empty i (List.mem_cons_self ..)
    have hgen : (cells.getD i.toNat default).generation = c.generation := by
      rw [Array.getD_eq_getD_getElem?, hc]
      rfl
    have hlt : i.toNat < cells.size := (Array.getElem?_eq_some_iff.1 hc).1
    have hfree := List.nodup_cons.1 ht.free_nodup
    simp only [alloc, hgen]
    refine ⟨?_, ?_, ⟨⟨c.generation, 1, some x⟩, rfl, ?_⟩, fun s hs => ?_, fun s => ?_⟩
    · refine ht.set hc (show c.generation ≠ 0 from ht.generation _ c hc) (fun j hj => .inr ⟨fun e => ?_, .tail _ hj⟩) hfree.2 ?_
      · exact hfree.1 (UInt32.toNat.inj e ▸ hj)
      · simp [hcn]
    · simp [cell?, hc, hcn]
    · exact cell?_set_self (r := ⟨i, c.generation⟩) (d := ⟨c.generation, 1, some x⟩) hlt rfl rfl
    · by_cases hsi : s.index = i
      · have hsg : c.generation ≠ s.generation := fun e =>
          hs (Handle.eq_of_index (by rw [hsi]) e.symm)
        exact cell?_set_stale (r := ⟨i, c.generation⟩) hc hsi (.inl hsg) (.inl hsg)
      · exact cell?_set_other (r := ⟨i, c.generation⟩) hsi
    · have := count_inner_set ⟨cells, free, live + 1⟩ ⟨cells, i :: free, live⟩ ⟨c.generation, 1, some x⟩ s hc
      rw [Cell.held_of_none hcn, Cell.held_of_content rfl] at this
      simpa using this

theorem size_le_alloc (h : Heap) (x : Content) : h.cells.size ≤ (h.alloc x).1.cells.size := by
  obtain ⟨cells, free, live⟩ := h
  cases free <;> simp [alloc]

/-! ### Giving up references

A release gives up references one by one. What holds of the heaps before and after each of them holds of those before
and after the release.
-/

section

variable {R : Heap → Heap → Prop} (refl : ∀ h, R h h) (trans : ∀ {h₁ h₂ h₃ : Heap}, R h₁ h₂ → R h₂ h₃ → R h₁ h₃)
  (once : ∀ {h h' : Heap} {r : Handle} {x : Option Content}, h.decrement r = .ok (h', x) → R h h')

include refl trans once

theorem related_decrements (rs : List Handle) (h : Heap) : R h (decrements rs h).1 := by
  induction rs generalizing h with
  | nil => exact refl h
  | cons r rs ih =>
    unfold decrements
    split
    · exact ih h
    · split
      · exact refl h
      · next e => exact trans (once e) (ih _)
      · next e => exact once e

theorem related_release (fuel : Nat) (rs : List Handle) (h : Heap) : R h (release fuel rs h).1 := by
  induction fuel generalizing rs h with
  | zero => exact refl h
  | succ fuel ih =>
    have given := related_decrements refl trans once rs h
    unfold release
    split
    · next e => rwa [e] at given
    · next e => rwa [e] at given
    · next e =>
      rw [e] at given
      split
      · exact given
      · exact trans given (ih _ _)

theorem related_decref (h : Heap) (r : Handle) : R h (h.decref r).1 := by
  unfold decref
  split
  · exact refl h
  · split
    · exact refl h
    · next e => exact once e
    · next g x e =>
      split
      · exact once e
      · next hs _ =>
        have rest := related_release refl trans once (g.cells.size + 1) hs.reverse g
        simp only
        split <;>
        · next given => rw [given] at rest; exact trans (once e) rest

end

end Heap

end StackScript
