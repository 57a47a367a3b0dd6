import StackScript.Proofs.Contents
import StackScript.Proofs.Reachability
import StackScript.Proofs.Segments

/-!
Lists and their elements. A list is made of the bytes of its elements, one after another, and takes the references in
them over. How many there are is not stored but follows from the size of an element, so that elements without a size are
as good as none.
-/
namespace StackScript

/-- The elements that a list can tell apart. -/
def Ty.shown (t : Ty) (items : List Bytes) : List Bytes := if t.size = 0 then [] else items

/-- The list that a handle leads to has these elements. -/
def Heap.Lists (h : Heap) (r : Handle) (t : Ty) (items : List Bytes) : Prop :=
  if items = [] then r.isNull = true else h.filled? r = some (.list t items.flatten)

/-- What is counted is what is shown. -/
theorem Content.count_elements {t : Ty} {items : List Bytes} (whole : ∀ x ∈ items, x.length = t.size) :
    count t items.flatten = (t.shown items).length := by
  unfold Ty.shown
  split
  next sizeless => rw [count, if_pos sizeless, List.length_nil]
  next sized => rw [count_eq (Nat.pos_of_ne_zero sized) (Ty.length_elements whole)]

/-! ### On the heap -/

namespace Heap

variable {h : Heap} {r : Handle} {t : Ty} {items : List Bytes} {roots : List Handle} {x : Bytes}

/-- The bytes of a list are those of its elements. The empty list has no type of its own. -/
theorem Lists.list (lists : h.Lists r t items) (whole : ∀ x ∈ items, x.length = t.size) (balanced : h.Balanced roots) :
    ∃ u, h.list r = .ok (u, items.flatten) ∧ Content.count u items.flatten = (t.shown items).length := by
  unfold Heap.list
  by_cases empty : items = []
  · have null : r.isNull = true := by rwa [Lists, if_pos empty] at lists
    subst empty
    exact ⟨.unknown, if_pos null, by rw [Ty.shown, ite_self]; rfl⟩
  · rw [Lists, if_neg empty] at lists
    obtain ⟨c, hc⟩ := filled?_eq_some.1 lists
    rw [balanced.isNull_of_filled lists]
    refine ⟨t, ?_, Content.count_elements whole⟩
    simp [content, hc, bind, Except.bind]

/-- The references in an element are held by the list. -/
theorem Lists.holds (lists : h.Lists r t items) (balanced : h.Balanced roots) (whole : ∀ x ∈ items, x.length = t.size)
    (among : x ∈ items) : ∀ s ∈ t.held x, s.isNull = false → h.Holds s := by
  intro s hs hn
  rw [Lists, if_neg (List.ne_nil_of_mem among)] at lists
  obtain ⟨c, hc⟩ := filled?_eq_some.1 lists
  refine balanced.holds (.inr (mem_inner hc ?_)) hn
  rw [Content.held_eq (Content.handles_elements whole)]
  exact List.mem_flatMap.2 ⟨x, among, hs⟩

end Heap

namespace Run

variable {m : Machine} {low : Bytes} {h : Heap} {r : Handle} {t : Ty} {items : List Bytes} {roots : List Handle}
  {l : Library} {a : Activation} {k q : Nat} {i : Int32} {x : Bytes}

/-! ### By instructions -/

theorem makeList_given (found : l.findType a.function.module q = .ok t) (whole : ∀ x ∈ items, x.length = t.size)
    (fits : low.length + handleSize ≤ m.stack.limit) (balanced : h.Balanced (items.flatMap t.held ++ roots))
    (room : items ≠ [] → (h.alloc (.list t items.flatten)).1.cells.size ≤ Heap.capacity) :
    ∃ r h', execute l a .makeList items.length q (m.given (low ++ items.flatten) h) =
      .ok none (m.given (low ++ r.toBytes) h') ∧ h'.Lists r t items ∧ h'.Balanced (r :: roots) := by
  have pushed (r : Handle) (h' : Heap) : pushHandle r (m.given low h') = .ok () (m.given (low ++ r.toBytes) h') :=
    push_given (by rwa [Handle.length_toBytes])
  unfold execute
  dsimp only
  rw [bind_of_ok (lift_of_ok found), bind_of_ok (pull_given (Ty.length_elements whole))]
  by_cases empty : items = []
  · subst empty
    have lists : h.Lists .null t [] := by
      rw [Heap.Lists, if_pos rfl]
      rfl
    exact ⟨.null, h, bind_of_ok (pushed .null h) _, lists, balanced.consNull rfl⟩
  · obtain ⟨r, h', made, filled, balanced'⟩ :=
      alloc_given m low (Content.handles_elements whole) balanced (room empty)
    refine ⟨r, h', ?_, by rwa [Heap.Lists, if_neg empty], balanced'⟩
    rw [if_neg (by rwa [List.length_eq_zero_iff])]
    exact bind_of_ok ((bind_of_ok made _).trans (pushed r h')) _

theorem listLength_given (lists : h.Lists r t items) (whole : ∀ x ∈ items, x.length = t.size)
    (balanced : h.Balanced (r :: roots)) (fits : low.length + 4 ≤ m.stack.limit) :
    ∃ h', Native.listLength.run (m.given (low ++ r.toBytes) h) =
      .ok () (m.given (low ++ (Value.int32 (.ofNat (t.shown items).length)).encode) h') ∧ h'.Balanced roots ∧
        h.Keeps h' := by
  obtain ⟨u, read, count⟩ := lists.list whole balanced
  obtain ⟨h', b, less, left, keeps⟩ := decref_given m low balanced
  refine ⟨h', ?_, left, keeps⟩
  rw [Native.run, bind_of_ok (pullHandle_given r), bind_of_ok (readHeap_given read)]
  dsimp only
  rw [bind_of_ok less, count, pushInt32_given fits]

/-- An index within the bounds leads to an element. Its references are taken before that to the list is given up. -/
theorem subscript_within (lists : h.Lists r t items) (whole : ∀ x ∈ items, x.length = t.size)
    (balanced : h.Balanced (r :: roots)) (fits : low.length + t.size ≤ m.stack.limit)
    (shown : (t.shown items)[k]? = some x)
    (index : i.toInt = k ∨ i.toInt = k - (t.shown items).length) :
    ∃ h', subscript t (m.given (low ++ (Value.int32 i).encode ++ r.toBytes) h) = .ok () (m.given (low ++ x) h') ∧
      h'.Balanced (t.held x ++ roots) ∧ h.Keeps h' := by
  obtain ⟨u, read, -⟩ := lists.list whole balanced
  have bound : k < (t.shown items).length := (List.getElem?_eq_some_iff.1 shown).1
  have same : t.shown items = items := by
    refine if_neg fun sizeless => ?_
    rw [Ty.shown, if_pos sizeless] at bound
    exact Nat.not_lt_zero k bound
  rw [same] at shown
  have length : x.length = t.size := whole x (List.mem_of_getElem? shown)
  have position : (if i.toInt < 0 then i.toInt + (t.shown items).length else i.toInt) = k := by
    split <;> omega
  obtain ⟨h₁, taken, balanced₁, keeps₁⟩ := increfTop_given m low length (Ty.handlesAt_held length)
    balanced (lists.holds balanced whole (List.mem_of_getElem? shown))
  obtain ⟨h₂, b, less, balanced₂, keeps₂⟩ :=
    decref_given m (low ++ x) (balanced₁.perm List.perm_middle)
  refine ⟨h₂, ?_, balanced₂, keeps₁.trans keeps₂⟩
  rw [subscript, bind_of_ok (pullHandle_given r), bind_of_ok (pullInt32_given i), bind_of_ok (readHeap_given read)]
  dsimp only
  rw [Content.count_elements whole, position, if_neg (by omega), Int.toNat_natCast, Ty.element_flatten whole shown,
    bind_of_ok (push_given (by rwa [length])), bind_of_ok taken]
  exact bind_of_ok less _

/-- Any other index is an error. -/
theorem subscript_beyond (lists : h.Lists r t items) (whole : ∀ x ∈ items, x.length = t.size)
    (balanced : h.Balanced (r :: roots))
    (index : i.toInt < -(t.shown items).length ∨ (t.shown items).length ≤ i.toInt) :
    ∃ h', subscript t (m.given (low ++ (Value.int32 i).encode ++ r.toBytes) h) =
      .error (.indexOutOfBounds i.toInt (t.shown items).length) (m.given low h') ∧ h'.Balanced roots ∧ h.Keeps h' := by
  obtain ⟨u, read, -⟩ := lists.list whole balanced
  obtain ⟨h', b, less, left, keeps⟩ := decref_given m low balanced
  refine ⟨h', ?_, left, keeps⟩
  have outside : (if i.toInt < 0 then i.toInt + (t.shown items).length else i.toInt) < 0 ∨
      (t.shown items).length ≤ if i.toInt < 0 then i.toInt + (t.shown items).length else i.toInt := by
    split <;> omega
  rw [subscript, bind_of_ok (pullHandle_given r), bind_of_ok (pullInt32_given i), bind_of_ok (readHeap_given read)]
  dsimp only
  rw [Content.count_elements whole, if_pos outside, bind_of_ok less]
  rfl

/-- A list that is made of values takes their references over. As long as it is there, its length is the number of them,
an index from the start or, if negative, from the end leads to the value that was at that position, and any other index
is an error, which tells the index and the length. Each time the reference to the list is given up, and each reference in
the value that was read leads to what it led to before, also if that was the last reference to the list. Values that take
no bytes are not counted: a list of them is as an empty one. -/
theorem list_elements (t : Ty) (items : List Bytes) (whole : ∀ x ∈ items, x.length = t.size) (few : items.length ≤ 255) :
    (∀ (l : Library) (a : Activation) (q : Nat) (m : Machine) (low : Bytes) (h : Heap) (roots : List Handle),
      l.findType a.function.module q = .ok t → low.length + handleSize ≤ m.stack.limit →
      h.Balanced (items.flatMap t.held ++ roots) →
      (items ≠ [] → (h.alloc (.list t items.flatten)).1.cells.size ≤ Heap.capacity) →
      ∃ r h', execute l a .makeList items.length q (m.given (low ++ items.flatten) h) =
        .ok none (m.given (low ++ r.toBytes) h') ∧ h'.Lists r t items ∧ h'.Balanced (r :: roots)) ∧
    ∀ (m : Machine) (low : Bytes) (h : Heap) (r : Handle) (roots : List Handle), h.Lists r t items →
      h.Balanced (r :: roots) →
      (low.length + 4 ≤ m.stack.limit → ∃ (n : Int32) (h' : Heap), Native.listLength.run (m.given (low ++ r.toBytes) h) =
        .ok () (m.given (low ++ (Value.int32 n).encode) h') ∧ n.toInt = (t.shown items).length ∧ h'.Balanced roots ∧
          h.Keeps h') ∧
      ∀ (l : Library) (a : Activation) (p q : Nat) (i : Int32), l.findType a.function.module p = .ok t →
        (∀ (k : Nat) x, (t.shown items)[k]? = some x → i.toInt = k ∨ i.toInt = k - (t.shown items).length →
          low.length + t.size ≤ m.stack.limit →
          ∃ h', execute l a .subscript p q (m.given (low ++ (Value.int32 i).encode ++ r.toBytes) h) =
            .ok none (m.given (low ++ x) h') ∧ h'.Balanced (t.held x ++ roots) ∧ h.Keeps h' ∧
              ∀ s ∈ t.held x, s.isNull = false → h'.Holds s) ∧
        (i.toInt < -(t.shown items).length ∨ (t.shown items).length ≤ i.toInt →
          ∃ h', execute l a .subscript p q (m.given (low ++ (Value.int32 i).encode ++ r.toBytes) h) =
            .error (.indexOutOfBounds i.toInt (t.shown items).length) (m.given low h') ∧ h'.Balanced roots ∧
              h.Keeps h') := by
  refine ⟨fun l a q m low h roots found fits balanced room => makeList_given found whole fits balanced room,
    fun m low h r roots lists balanced => ⟨fun fits => ?_, fun l a p q i found => ⟨fun k x shown index fits => ?_,
      fun index => ?_⟩⟩⟩
  · obtain ⟨h', ran, left, keeps⟩ := listLength_given (m := m) lists whole balanced fits
    have few_shown : (t.shown items).length ≤ 255 := by
      unfold Ty.shown
      split
      · exact Nat.zero_le _
      · exact few
    exact ⟨_, h', ran, Int32.toInt_ofNat_of_lt (by omega), left, keeps⟩
  · obtain ⟨h', ran, left, keeps⟩ := subscript_within (m := m) lists whole balanced fits shown index
    refine ⟨h', ?_, left, keeps, fun s held => left.holds (.inl (List.mem_append_left _ held))⟩
    exact (bind_of_ok (lift_of_ok found) _).trans (bind_of_ok ran _)
  · obtain ⟨h', ran, left, keeps⟩ := subscript_beyond (m := m) lists whole balanced index
    refine ⟨h', ?_, left, keeps⟩
    exact (bind_of_ok (lift_of_ok found) _).trans (bind_of_error ran _)

/-- A list of two texts and its last element, which is there without the list. -/
theorem list_elements_texts :
    let items := [Handle.toBytes ⟨0, 1⟩, Handle.toBytes ⟨1, 1⟩]
    let l : Library := { modules := #[{ Module.named "m" with types := #[.string] }] }
    let h := Heap.after {} [.alloc (.string "a"), .alloc (.string "b")]
    ∃ (r : Handle) (h₁ h₂ : Heap), execute l default .makeList 2 0 (Machine.given {} items.flatten h) =
        .ok none (Machine.given {} r.toBytes h₁) ∧
      execute l default .subscript 0 0 (Machine.given {} ((Value.int32 (-1)).encode ++ r.toBytes) h₁) =
        .ok none (Machine.given {} (Handle.toBytes ⟨1, 1⟩) h₂) ∧ h₂.Balanced [⟨1, 1⟩] ∧ h₂.Holds ⟨1, 1⟩ := by
  intro items l h
  have one : (Heap.alloc {} (.string "a")).1.Balanced [⟨0, 1⟩] :=
    Heap.balanced_empty.alloc ⟨[], rfl⟩ (by decide) (Heap.allocates Heap.tidy_empty (.string "a") (by decide))
  have two : h.Balanced [⟨1, 1⟩, ⟨0, 1⟩] :=
    one.alloc ⟨[], rfl⟩ (by decide) (Heap.allocates one.tidy (.string "b") (by decide))
  have balanced : h.Balanced [⟨0, 1⟩, ⟨1, 1⟩] := two.perm (List.Perm.swap ..)
  obtain ⟨make, read⟩ := list_elements .string items (by decide) (by decide)
  obtain ⟨r, h₁, made, lists, balanced₁⟩ := make l default 0 {} [] h [] rfl (by decide) balanced fun _ => by decide
  obtain ⟨h₂, ran, balanced₂, -, holds⟩ :=
    ((read {} [] h₁ r [] lists balanced₁).2 l default 0 0 (-1) rfl).1 1 _ rfl (.inr rfl) (by decide)
  exact ⟨r, h₁, h₂, made, ran, balanced₂, holds _ (by decide) rfl⟩

/-- Two values that take no bytes make a list without a length and without a first element. -/
theorem list_elements_void :
    let items : List Bytes := [[], []]
    let l : Library := { modules := #[{ Module.named "m" with types := #[.void] }] }
    ∃ (r : Handle) (h₁ h₂ h₃ : Heap), execute l default .makeList items.length 0 (Machine.given {} items.flatten {}) =
        .ok none (Machine.given {} r.toBytes h₁) ∧
      Native.listLength.run (Machine.given {} r.toBytes h₁) = .ok () (Machine.given {} (Value.int32 0).encode h₂) ∧
      Int32.toInt 0 ≠ items.length ∧ items[0]? = some [] ∧
      execute l default .subscript 0 0 (Machine.given {} ((Value.int32 0).encode ++ r.toBytes) h₁) =
        .error (.indexOutOfBounds 0 0) (Machine.given {} [] h₃) := by
  intro items l
  exact ⟨⟨0, 1⟩, _, _, _, rfl, rfl, by decide, rfl, rfl⟩

end Run

end StackScript
