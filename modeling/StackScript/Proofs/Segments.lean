import StackScript.Proofs.Draining

/-!
The bytes of values that lie one after another. Each is cut off by its size alone, and its handles are those of the whole
at its position.
-/
namespace StackScript

namespace Ty

variable {t : Ty} {ts : List Ty} {xs : List Bytes} {bs x : Bytes} {i : Nat}

/-- The handles in the bytes of a value. -/
def held (t : Ty) (bs : Bytes) : List Handle := (t.handlesAt 0 bs).toOption.getD []

/-- The handles in the bytes of several values. -/
def heldIn (ts : List Ty) (xs : List Bytes) : List Handle := (List.zipWith held ts xs).flatten

theorem handlesAt_held (whole : bs.length = t.size) : t.handlesAt 0 bs = .ok (t.held bs) := by
  have inside (i : Nat) (hi : i ∈ t.slots) : ∃ r, Handle.ofBytes (bs.drop (0 + i)) = .ok r := by
    have := slots_le hi
    refine Handle.exists_ofBytes ?_
    rw [List.length_drop]
    omega
  obtain ⟨rs, read⟩ : ∃ rs, t.handlesAt 0 bs = .ok rs := exists_mapM inside
  rw [held, read]
  rfl

theorem length_flatten (fit : xs.map List.length = ts.map size) : xs.flatten.length = sizes ts := by
  induction ts generalizing xs with
  | nil =>
    rw [List.map_nil, List.map_eq_nil_iff] at fit
    subst fit
    rfl
  | cons t ts ih =>
    obtain ⟨x, xs, rfl, first, others⟩ := List.map_eq_cons_iff.1 fit
    rw [List.flatten_cons, List.length_append, first, ih others, sizes]

theorem handlesIn_flatten (fit : xs.map List.length = ts.map size) (low : Bytes) :
    handlesIn ts low.length (low ++ xs.flatten) = .ok (heldIn ts xs) := by
  induction ts generalizing xs low with
  | nil =>
    rw [List.map_nil, List.map_eq_nil_iff] at fit
    subst fit
    rfl
  | cons t ts ih =>
    obtain ⟨x, xs, rfl, first, others⟩ := List.map_eq_cons_iff.1 fit
    have head : t.handlesAt low.length (low ++ (x ++ xs.flatten)) = .ok (t.held x) := by
      rw [← Content.handlesAt_item (by simp only [List.length_append]; omega), List.drop_left' rfl,
        List.take_left' first, handlesAt_held first]
    have tail := ih others (low ++ x)
    rw [List.length_append, first, List.append_assoc] at tail
    rw [List.flatten_cons, handlesIn, head, tail]
    rfl

/-- What lies before and behind one of the values. -/
theorem flatten_around (at_i : xs[i]? = some x) :
    xs.flatten = (xs.take i).flatten ++ x ++ (xs.drop (i + 1)).flatten := by
  obtain ⟨hi, rfl⟩ := List.getElem?_eq_some_iff.1 at_i
  rw [← List.flatten_concat, ← List.flatten_append, List.take_append_getElem, List.take_append_drop]

theorem exists_of_fit (fit : xs.map List.length = ts.map size) (at_i : ts[i]? = some t) :
    ∃ x, xs[i]? = some x ∧ x.length = t.size := by
  have same := congrArg (·[i]?) fit
  simp only [List.getElem?_map, at_i, Option.map_some] at same
  exact Option.map_eq_some_iff.1 same

/-! ### Values of one type -/

theorem fit_replicate (whole : ∀ x ∈ xs, x.length = t.size) :
    xs.map List.length = (List.replicate xs.length t).map size := by
  rw [List.map_replicate, List.eq_replicate_iff, List.length_map]
  refine ⟨rfl, fun n hn => ?_⟩
  obtain ⟨x, hx, rfl⟩ := List.mem_map.1 hn
  exact whole x hx

theorem heldIn_replicate (t : Ty) (xs : List Bytes) : heldIn (List.replicate xs.length t) xs = xs.flatMap t.held := by
  induction xs with
  | nil => rfl
  | cons x xs ih => exact congrArg (t.held x ++ ·) ih

theorem length_elements (whole : ∀ x ∈ xs, x.length = t.size) : xs.flatten.length = xs.length * t.size := by
  rw [length_flatten (fit_replicate whole), sizes_replicate]

/-- The bytes at the position of an element are its own. -/
theorem element_flatten (whole : ∀ x ∈ xs, x.length = t.size) (at_i : xs[i]? = some x) :
    (xs.flatten.drop (i * t.size)).take t.size = x := by
  have before : (xs.take i).flatten.length = i * t.size := by
    have hi : i < xs.length := (List.getElem?_eq_some_iff.1 at_i).1
    rw [length_elements fun y hy => whole y (List.mem_of_mem_take hy), List.length_take_of_le (Nat.le_of_lt hi)]
  rw [flatten_around at_i, List.append_assoc, List.drop_left' before,
    List.take_left' (whole x (List.mem_of_getElem? at_i))]

end Ty

/-- The handles in the content of a list are those of its elements. -/
theorem Content.handles_elements {t : Ty} {xs : List Bytes} (whole : ∀ x ∈ xs, x.length = t.size) :
    (Content.list t xs.flatten).handles = .ok (xs.flatMap t.held) := by
  have inside := Ty.handlesIn_flatten (Ty.fit_replicate whole) []
  rw [Ty.heldIn_replicate, List.nil_append, List.length_nil] at inside
  exact handles_list (Ty.length_elements whole) inside

end StackScript
