import StackScript.Proofs.Counting
import StackScript.Proofs.Staleness

/-!
Exact release. Giving up a reference to a cell of a balanced heap frees the cells that the references that are left do
not lead to, and no others.
-/
namespace StackScript

namespace Heap

variable {h h' : Heap} {roots left : List Handle} {r s : Handle} {x : Content}

/-- A heap that was made by using it is balanced if each cell is counted as often as it is referred to, every reference
leads to a cell, and cells refer to older cells. -/
theorem balanced_after (ops : List Op) (roots : List Handle) (room : (after {} ops).cells.size ≤ capacity)
    (counts : ∀ r c x, (after {} ops).cell? r = some (c, x) → c.count = roots.count r + (after {} ops).inner.count r)
    (leads : ∀ r, r ∈ roots ∨ r ∈ (after {} ops).inner → r.isNull ∨ (after {} ops).Holds r)
    (readable : ∀ r c x, (after {} ops).cell? r = some (c, x) → ∃ hs, x.handles = .ok hs)
    (ranked : ∃ rank : Handle → Nat, ∀ r c x, (after {} ops).cell? r = some (c, x) →
      ∀ s ∈ x.held, s.isNull = false → rank s < rank r) : (after {} ops).Balanced roots := by
  have regular := regular_after ops regular_empty
  refine ⟨regular.tidy, room, fun r hn => ?_, fun r c x hc => ?_, readable, ranked⟩
  · cases hc : (after {} ops).cell? r with
    | some p => rw [countOf_eq hc, counts r p.1 p.2 hc]
    | none =>
      have unheld : ¬ (r.isNull ∨ (after {} ops).Holds r) := by simp [hn, Holds, hc]
      rw [countOf_eq_zero hc, List.count_eq_zero.2 fun among => unheld (leads r (.inl among)),
        List.count_eq_zero.2 fun among => unheld (leads r (.inr among))]
  · obtain ⟨hi, -, hx⟩ := cell?_eq_some.1 hc
    exact regular.counted _ c hi (by rw [hx]; rfl)

theorem Reaches.mono (filled : ∀ r x, h'.filled? r = some x → h.filled? r = some x) (hr : h'.Reaches roots r) :
    h.Reaches roots r := by
  induction hr with
  | root among => exact .root among
  | through _ content held ih => exact .through ih (filled _ _ content) held

theorem Balanced.isNull_of_filled (hb : h.Balanced roots) (hx : h.filled? r = some x) : r.isNull = false := by
  obtain ⟨c, hc⟩ := filled?_eq_some.1 hx
  exact hb.isNull_of_cell hc

/-- What the references that are left lead to is still there. -/
theorem Balanced.holds_of_reaches (hb : h.Balanced roots) (left_balanced : h'.Balanced left) (hk : h.Keeps h')
    (hr : h.Reaches left r) (hn : r.isNull = false) : h'.Holds r := by
  induction hr with
  | root among => exact left_balanced.holds (.inl among) hn
  | @through t s x _ content held ih =>
    obtain ⟨y, hy⟩ := holds_iff.1 (ih (hb.isNull_of_filled content))
    obtain rfl : x = y := Option.some.inj (content.symm.trans (hk.filled t y hy))
    obtain ⟨c, hc⟩ := filled?_eq_some.1 hy
    exact left_balanced.holds (.inr (mem_inner hc held)) hn

/-- Of two balanced heaps with the same cells, one with fewer of them, the smaller one has what its roots lead to. -/
theorem Balanced.filled_iff (hb : h.Balanced roots) (left_balanced : h'.Balanced left) (hk : h.Keeps h') :
    h'.filled? r = some x ↔ h.filled? r = some x ∧ h.Reaches left r := by
  constructor
  · intro hx
    exact ⟨hk.filled r x hx, (left_balanced.reaches (holds_iff.2 ⟨x, hx⟩)).mono hk.filled⟩
  · rintro ⟨hx, reached⟩
    obtain ⟨y, hy⟩ := holds_iff.1 (hb.holds_of_reaches left_balanced hk reached (hb.isNull_of_filled hx))
    obtain rfl : x = y := Option.some.inj (hx.symm.trans (hk.filled r y hy))
    exact hy

/-- Giving up one of the references to a balanced heap succeeds and leaves it balanced. The cells that the other
references lead to keep their content, and all others are freed; the answer tells whether the cell of the handle is
among these. New content may take references over, and its handle is the reference to it. -/
theorem Balanced.release_exact (hb : h.Balanced roots) :
    (∀ r ∈ roots, r.isNull = false → ∃ h' freed, h.decref r = (h', .ok freed) ∧ h'.Balanced (roots.erase r) ∧
      (∀ s x, h'.filled? s = some x ↔ h.filled? s = some x ∧ h.Reaches (roots.erase r) s) ∧
      (freed = true ↔ ¬ h'.Holds r)) ∧
    ∀ x taken left, x.handles = .ok taken →
      (∀ s : Handle, s.isNull = false → roots.count s = (taken ++ left).count s) →
      (h.alloc x).1.cells.size ≤ capacity → (h.alloc x).1.Balanced ((h.alloc x).2 :: left) := by
  refine ⟨fun r among hn => ?_, fun x taken left readable split room => ?_⟩
  · have one_less : h.Balanced (r :: roots.erase r) := hb.perm (List.perm_cons_erase among)
    obtain ⟨h', freed, released, balanced, keeps, answer⟩ := one_less.released hn
    exact ⟨h', freed, released, balanced, fun s x => hb.filled_iff balanced keeps, answer⟩
  · have apart : h.Balanced (x.held ++ left) := hb.congr (Content.held_eq readable ▸ split)
    exact apart.alloc ⟨taken, readable⟩ room (allocates hb.tidy x room)

/-- A list of two texts, one of which is in use elsewhere: without the list only the other one is freed. -/
theorem release_exact_list :
    let h := after {} [.alloc (.string "a"), .alloc (.string "b"),
      .alloc (.list .string (Handle.toBytes ⟨0, 1⟩ ++ Handle.toBytes ⟨1, 1⟩)), .incref ⟨0, 1⟩]
    ∃ h' freed, h.decref ⟨2, 1⟩ = (h', .ok freed) ∧ h'.Balanced [⟨0, 1⟩] ∧ h'.filled? ⟨0, 1⟩ = some (.string "a") ∧
      ¬ h'.Holds ⟨1, 1⟩ ∧ freed = true := by
  have one := balanced_empty.release_exact.2 (.string "a") [] [] rfl (fun _ _ => rfl) (by decide)
  have two := one.release_exact.2 (.string "b") [] [⟨0, 1⟩] rfl (fun _ _ => rfl) (by decide)
  have three := two.release_exact.2 (.list .string (Handle.toBytes ⟨0, 1⟩ ++ Handle.toBytes ⟨1, 1⟩))
    [⟨0, 1⟩, ⟨1, 1⟩] [] rfl (fun _ _ => (List.Perm.swap ..).count_eq _) (by decide)
  obtain ⟨h, counted, four, -⟩ := three.incref (r := ⟨0, 1⟩) fun _ => rfl
  obtain rfl : _ = h := congrArg Prod.fst counted
  obtain ⟨h', freed, released, balanced, filled, answer⟩ := four.release_exact.1 ⟨2, 1⟩ (by decide) rfl
  have gone (s : Handle) (other : s ∉ [(⟨0, 1⟩ : Handle)]) : ¬ h'.Holds s := fun holds => by
    obtain ⟨x, hx⟩ := holds_iff.1 holds
    refine other (((filled s x).1 hx).2.among_roots fun r among y content => ?_)
    obtain rfl := List.mem_singleton.1 among
    obtain rfl := Option.some.inj content
    rfl
  exact ⟨h', freed, released, balanced, (filled _ _).2 ⟨rfl, .root (.head _)⟩, gone _ (by decide),
    answer.2 (gone _ (by decide))⟩

end Heap

end StackScript
