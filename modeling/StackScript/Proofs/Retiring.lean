import StackScript.Proofs.Consistent
import StackScript.Proofs.Widens

/-!
Dropping modules. A module that something else refers to stays as it is. One that nothing refers to any more is
retired: it releases its static values and gives up its own references, which may retire others.
-/
namespace StackScript

/-- What is left of a module that nothing refers to. -/
def Module.retired (m : Module) : Module := { m with values := #[], imports := #[], visible := #[], alive := false }

namespace Library

variable {l : Library} {h : Heap} {id : Nat} {m : Module} {counts : Array Nat} {fuel : Nat}

/-- All references between modules. -/
def allReferences (l : Library) : List Nat := l.modules.toList.flatMap references

theorem references_retired (m : Module) : references m.retired = [] := rfl

/-! ### Counts -/

theorem getD_modify (counts : Array Nat) (i j : Nat) (f : Nat → Nat) :
    (counts.modify i f).getD j 0 = if i = j ∧ j < counts.size then f (counts.getD j 0) else counts.getD j 0 := by
  simp only [Array.getD_eq_getD_getElem?, Array.getElem?_modify]
  by_cases hj : j < counts.size
  · by_cases hi : i = j <;> simp [hi, hj]
  · have e : counts[j]? = none := Array.getElem?_eq_none (Nat.le_of_not_lt hj)
    by_cases hi : i = j <;> simp [hi, hj]

theorem getD_foldl_modify (ids : List Nat) (counts : Array Nat) {i : Nat} (hi : i < counts.size) :
    (ids.foldl (fun counts id => counts.modify id (· + 1)) counts).getD i 0 = counts.getD i 0 + ids.count i := by
  induction ids generalizing counts with
  | nil => rfl
  | cons id ids ih =>
    rw [List.foldl_cons, ih _ (by simpa using hi), getD_modify, List.count_cons]
    by_cases e : id = i
    · simp only [e, hi, and_self, if_true, beq_self_eq_true]
      omega
    · simp [e]

theorem size_foldl_modify (ids : List Nat) (counts : Array Nat) :
    (ids.foldl (fun counts id => counts.modify id (· + 1)) counts).size = counts.size := by
  induction ids generalizing counts with
  | nil => rfl
  | cons id ids ih => rw [List.foldl_cons, ih, Array.size_modify]

theorem size_countReferences (l : Library) (ids : List Nat) : (l.countReferences ids).size = l.modules.size := by
  rw [countReferences, size_foldl_modify, Array.size_replicate]

theorem getD_countReferences (ids : List Nat) (hid : id < l.modules.size) :
    (l.countReferences ids).getD id 0 = l.allReferences.count id + ids.count id := by
  rw [countReferences, getD_foldl_modify _ _ (by simpa using hid), List.count_append, Array.getD_eq_getD_getElem?]
  simp [hid, allReferences]

theorem count_allReferences_put (hm : l.modules[id]? = some m) (m' : Module) (r : Nat) :
    (l.put id m').allReferences.count r + (references m).count r =
      l.allReferences.count r + (references m').count r := by
  obtain ⟨before, after, e, e'⟩ := toList_put hm m'
  rw [allReferences, allReferences, e, e']
  simp only [List.flatMap_append, List.flatMap_cons, List.count_append]
  omega

theorem count_references_le (hm : l.modules[id]? = some m) (r : Nat) :
    (references m).count r ≤ l.allReferences.count r := by
  have := count_allReferences_put hm m.retired r
  rw [references_retired, List.count_nil] at this
  omega

/-! ### The arena -/

theorem size_releaseValues (vs : List Value) (h : Heap) : (releaseValues vs h).cells.size = h.cells.size := by
  induction vs generalizing h with
  | nil => rfl
  | cons v vs ih =>
    rw [releaseValues, ih]
    exact Heap.size_decrefs v.handles h

theorem size_dropFrom : ∀ (fuel : Nat) (dropped : List Nat) (counts : Array Nat) (l : Library) (h : Heap),
    (dropFrom fuel dropped counts l h).2.cells.size = h.cells.size
  | 0, _, _, _, _ => rfl
  | _ + 1, [], _, _, _ => rfl
  | fuel + 1, id :: rest, counts, l, h => by
    rw [dropFrom]
    split
    · exact size_dropFrom fuel ..
    · exact (size_dropFrom fuel ..).trans (size_releaseValues ..)

theorem size_drop (l : Library) (h : Heap) (roots dropped : List Nat) :
    (l.drop h roots dropped).2.cells.size = h.cells.size := size_dropFrom ..

/-! ### Modules that are held -/

theorem get_none (hm : l.modules[id]? = none) : l.get id = default := by
  rw [get, Array.getD_eq_getD_getElem?, hm]
  rfl

theorem getD_setIfInBounds (counts : Array Nat) (i j n : Nat) :
    (counts.setIfInBounds i n).getD j 0 = if i = j ∧ j < counts.size then n else counts.getD j 0 := by
  simp only [Array.getD_eq_getD_getElem?, Array.getElem?_setIfInBounds]
  by_cases hj : j < counts.size
  · by_cases hi : i = j <;> simp [hi, hj]
  · by_cases hi : i = j <;> simp [hi, hj]

theorem modify_eq (hm : l.modules[id]? = some m) (f : Module → Module) : l.modify id f = l.put id (f m) := by
  obtain ⟨hlt, rfl⟩ := Array.getElem?_eq_some_iff.1 hm
  rw [modify, put, Library.mk.injEq]
  refine Array.ext (by simp) fun i hi hi' => ?_
  have hlt' : i < l.modules.size := by simpa using hi
  rw [Array.getElem_modify, Array.getElem_setIfInBounds hlt']
  by_cases e : id = i
  · subst e
    simp
  · simp [e]

theorem modify_none (hm : l.modules[id]? = none) (f : Module → Module) : l.modify id f = l := by
  obtain ⟨modules⟩ := l
  rw [modify, Library.mk.injEq]
  refine Array.ext (by simp) fun i hi hi' => ?_
  rw [Array.getElem_modify, if_neg]
  rintro rfl
  exact absurd hi' (Nat.not_lt.2 (Array.getElem?_eq_none_iff.1 hm))

/-! ### One reference -/

variable {rest : List Nat}

theorem dropFrom_missing (hm : l.modules[id]? = none) (fuel : Nat) (rest : List Nat) (counts : Array Nat) (h : Heap) :
    dropFrom (fuel + 1) (id :: rest) counts l h =
      dropFrom fuel rest (counts.setIfInBounds id (counts.getD id 0 - 1)) l h := by
  rw [dropFrom]
  simp only [get_none hm, modify_none hm]
  exact ite_self _

theorem dropFrom_shared (hm : l.modules[id]? = some m) (hc : m.alive → 1 < counts.getD id 0) (fuel : Nat)
    (rest : List Nat) (h : Heap) : dropFrom (fuel + 1) (id :: rest) counts l h =
      dropFrom fuel rest (counts.setIfInBounds id (counts.getD id 0 - 1)) l h := by
  rw [dropFrom]
  simp only [get_eq hm]
  refine if_pos ?_
  cases ha : m.alive with
  | false => rfl
  | true => simpa using hc ha

theorem dropFrom_last (hm : l.modules[id]? = some m) (ha : m.alive) (hc : counts.getD id 0 ≤ 1) (fuel : Nat)
    (rest : List Nat) (h : Heap) : dropFrom (fuel + 1) (id :: rest) counts l h =
      dropFrom fuel (references m ++ rest) (counts.setIfInBounds id (counts.getD id 0 - 1)) (l.put id m.retired)
        (releaseValues m.values.toList h) := by
  rw [dropFrom]
  simp only [get_eq hm, modify_eq hm]
  refine if_neg ?_
  simp only [ha, Bool.not_true, Bool.false_or, decide_eq_true_eq]
  omega

/-- While more refers to each of the modules than is dropped, nothing changes. -/
theorem dropFrom_held (l : Library) (h : Heap) : ∀ (fuel : Nat) {dropped : List Nat} {counts : Array Nat},
    (∀ id ∈ dropped, ∀ m, l.modules[id]? = some m → m.alive → dropped.count id < counts.getD id 0) →
    dropFrom fuel dropped counts l h = (l, h)
  | 0, _, _, _ => rfl
  | _ + 1, [], _, _ => rfl
  | fuel + 1, id :: rest, counts, hd => by
    have tail : ∀ j ∈ rest, ∀ m, l.modules[j]? = some m → m.alive →
        rest.count j < (counts.setIfInBounds id (counts.getD id 0 - 1)).getD j 0 := by
      intro j hj m hm ha
      have := hd j (.tail _ hj) m hm ha
      rw [List.count_cons] at this
      rw [getD_setIfInBounds]
      by_cases e : id = j
      · subst e
        simp only [beq_self_eq_true, if_true] at this
        split <;> omega
      · simp only [beq_iff_eq, e, if_false, false_and] at this ⊢
        exact this
    cases hm : l.modules[id]? with
    | none =>
      rw [dropFrom_missing hm]
      exact dropFrom_held l h fuel tail
    | some m =>
      rw [dropFrom_shared hm fun ha => ?_]
      · exact dropFrom_held l h fuel tail
      · have := hd id (.head _) m hm ha
        rw [List.count_cons_self] at this
        omega

/-- Modules that are among the roots stay. -/
theorem drop_held {roots dropped : List Nat} (l : Library) (h : Heap)
    (hd : ∀ id ∈ dropped, ∀ m, l.modules[id]? = some m → m.alive → id ∈ roots) : l.drop h roots dropped = (l, h) := by
  refine dropFrom_held l h _ fun id hid m hm ha => ?_
  rw [getD_countReferences _ (Array.getElem?_eq_some_iff.1 hm).1, List.count_append]
  have := List.count_pos_iff.2 (hd id hid m hm ha)
  omega

/-- A module that nothing refers to is retired. What it refers to is held by others. -/
theorem drop_unused {roots : List Nat} (h : Heap) (hm : l.modules[id]? = some m) (ha : m.alive)
    (unused : id ∉ l.allReferences) (hid : id ∉ roots) (held : ∀ r ∈ references m, r ∈ roots) :
    l.drop h roots [id] = (l.put id m.retired, releaseValues m.values.toList h) := by
  have hlt := (Array.getElem?_eq_some_iff.1 hm).1
  have count : (l.countReferences (roots ++ [id])).getD id 0 = 1 := by
    rw [getD_countReferences _ hlt, List.count_append, List.count_eq_zero.2 unused, List.count_eq_zero.2 hid,
      List.count_singleton_self]
  rw [drop, dropFrom_last hm ha (Nat.le_of_eq count), List.append_nil]
  refine dropFrom_held _ _ _ fun r hr n hn hna => ?_
  have hr' := held r hr
  have hne : id ≠ r := fun e => hid (e ▸ hr')
  have hlt' : r < l.modules.size := by
    rw [modules_put_ne hne] at hn
    exact (Array.getElem?_eq_some_iff.1 hn).1
  rw [getD_setIfInBounds, if_neg fun e => hne e.1, getD_countReferences _ hlt', List.count_append]
  have := count_references_le hm r
  have := List.count_pos_iff.2 hr'
  omega

/-! ### The heap -/

theorem releaseValues_spec {roots : List Handle} : ∀ {vs : List Value} {h : Heap},
    h.Balanced (vs.flatMap Value.handles ++ roots) →
    (releaseValues vs h).Balanced roots ∧ h.Keeps (releaseValues vs h)
  | [], h, hb => ⟨hb, .refl h⟩
  | v :: vs, h, hb => by
    rw [List.flatMap_cons, List.append_assoc] at hb
    obtain ⟨h₁, e, hb₁, hk₁⟩ := hb.decrefs
    have e' : (v.decref h).1 = h₁ := congrArg Prod.fst e
    obtain ⟨hb₂, hk₂⟩ := releaseValues_spec hb₁
    rw [releaseValues, e']
    exact ⟨hb₂, hk₁.trans hk₂⟩

/-- The values of a module that is retired are released. -/
theorem balanced_retired {roots : List Handle} (hm : l.modules[id]? = some m)
    (hb : h.Balanced (roots ++ l.statics)) :
    (releaseValues m.values.toList h).Balanced (roots ++ (l.put id m.retired).statics) ∧
      h.Keeps (releaseValues m.values.toList h) := by
  obtain ⟨a, b, e, e'⟩ := statics_put hm m.retired
  have nothing : m.retired.values.toList.flatMap Value.handles = [] := rfl
  rw [nothing, List.nil_append] at e'
  refine releaseValues_spec (hb.congr fun r _ => ?_)
  rw [e, e']
  simp only [List.count_append]
  omega

/-! ### Dropping everything -/

/-- A module refers to smaller numbers, and one that was retired to none. -/
structure Linked (l : Library) : Prop where
  smaller : ∀ (id : Nat) (m : Module), l.modules[id]? = some m → ∀ r ∈ references m, r < id
  retired : ∀ (id : Nat) (m : Module), l.modules[id]? = some m → m.alive = false → m.values = #[] ∧ references m = []

theorem Linked.retire (hl : l.Linked) (hm : l.modules[id]? = some m) : (l.put id m.retired).Linked := by
  refine ⟨fun j n hn => ?_, fun j n hn ha => ?_⟩
  · rcases modules_put hm hn with ⟨rfl, rfl⟩ | ⟨-, hn⟩
    · exact nofun
    · exact hl.smaller j n hn
  · rcases modules_put hm hn with ⟨rfl, rfl⟩ | ⟨-, hn⟩
    · exact ⟨rfl, rfl⟩
    · exact hl.retired j n hn ha

/-- What holds while references are dropped: the counts are those of the references that are left, and no living
module is without one. -/
structure Dropping (l : Library) (h : Heap) (counts : Array Nat) (pending : List Nat) (roots : List Handle) : Prop where
  size : counts.size = l.modules.size
  counts : ∀ id < l.modules.size, counts.getD id 0 = l.allReferences.count id + pending.count id
  referred : ∀ (id : Nat) (m : Module), l.modules[id]? = some m → m.alive → id ∈ l.allReferences ∨ id ∈ pending
  linked : l.Linked
  balanced : h.Balanced (roots ++ l.statics)

variable {pending : List Nat} {roots : List Handle}

theorem length_allReferences_put (hm : l.modules[id]? = some m) (m' : Module) :
    (l.put id m').allReferences.length + (references m).length = l.allReferences.length + (references m').length := by
  obtain ⟨before, after, e, e'⟩ := toList_put hm m'
  rw [allReferences, allReferences, e, e']
  simp only [List.flatMap_append, List.flatMap_cons, List.length_append]
  omega

namespace Dropping

/-- A reference that is not the last one is given up. -/
theorem shared (hd : Dropping l h counts (id :: rest) roots)
    (stays : ∀ m, l.modules[id]? = some m → m.alive → 1 < counts.getD id 0) :
    Dropping l h (counts.setIfInBounds id (counts.getD id 0 - 1)) rest roots := by
  have left : ∀ j < l.modules.size, (counts.setIfInBounds id (counts.getD id 0 - 1)).getD j 0 =
      l.allReferences.count j + rest.count j := by
    intro j hj
    have := hd.counts j hj
    rw [List.count_cons] at this
    rw [getD_setIfInBounds]
    by_cases e : id = j
    · subst e
      rw [if_pos ⟨rfl, hd.size.symm ▸ hj⟩]
      simp only [beq_self_eq_true, if_true] at this
      omega
    · rw [if_neg fun h => e h.1, this]
      simp [e]
  refine ⟨by simpa using hd.size, left, fun j m hm ha => ?_, hd.linked, hd.balanced⟩
  rcases hd.referred j m hm ha with hj | hj
  · exact .inl hj
  · rcases List.mem_cons.1 hj with rfl | hj
    · have hlt := (Array.getElem?_eq_some_iff.1 hm).1
      have e := left j hlt
      have many := stays m hm ha
      rw [getD_setIfInBounds, if_pos ⟨rfl, hd.size.symm ▸ hlt⟩] at e
      by_cases hr : j ∈ rest
      · exact .inr hr
      · rw [List.count_eq_zero.2 hr] at e
        exact .inl (List.count_pos_iff.1 (by omega))
    · exact .inr hj

/-- With its last reference a module is retired. -/
theorem last (hd : Dropping l h counts (id :: rest) roots) (hm : l.modules[id]? = some m) :
    Dropping (l.put id m.retired) (releaseValues m.values.toList h) (counts.setIfInBounds id (counts.getD id 0 - 1))
      (references m ++ rest) roots := by
  have moved : ∀ j, (l.put id m.retired).allReferences.count j + (references m).count j = l.allReferences.count j :=
    count_allReferences_put hm m.retired
  refine ⟨by simpa using hd.size, fun j hj => ?_, fun j n hn ha => ?_, hd.linked.retire hm,
    (balanced_retired hm hd.balanced).1⟩
  · rw [size_put] at hj
    have old := hd.counts j hj
    have new := moved j
    rw [List.count_cons] at old
    rw [getD_setIfInBounds, List.count_append]
    by_cases e : id = j
    · subst e
      rw [if_pos ⟨rfl, hd.size.symm ▸ hj⟩]
      simp only [beq_self_eq_true, if_true] at old
      omega
    · rw [if_neg fun h => e h.1]
      simp only [beq_iff_eq, e, if_false] at old
      omega
  · rcases modules_put hm hn with ⟨rfl, rfl⟩ | ⟨hne, hn⟩
    · cases ha
    · rcases hd.referred j n hn ha with hj | hj
      · have := moved j
        by_cases hr : j ∈ references m
        · exact .inr (List.mem_append_left _ hr)
        · rw [List.count_eq_zero.2 hr] at this
          exact .inl (List.count_pos_iff.1 (by have := List.count_pos_iff.2 hj; omega))
      · rcases List.mem_cons.1 hj with e | hj
        · exact absurd e.symm hne
        · exact .inr (List.mem_append_right _ hj)

/-- When no reference is left to be given up, no module is alive: the one of the greatest number would have to be
referred to by a greater one. -/
theorem dead (hd : Dropping l h counts [] roots) (hm : l.modules[id]? = some m) : m.alive = false := by
  have climb : ∀ (n id : Nat) (m : Module), l.modules.size ≤ id + n → l.modules[id]? = some m → m.alive = false := by
    intro n
    induction n with
    | zero =>
      intro id m hn hm
      exact absurd (Array.getElem?_eq_some_iff.1 hm).1 (by omega)
    | succ n ih =>
      intro id m hn hm
      cases ha : m.alive with
      | false => rfl
      | true =>
        obtain ⟨m', hmem, hr⟩ := List.mem_flatMap.1 ((hd.referred id m hm ha).resolve_right List.not_mem_nil)
        obtain ⟨j, hj⟩ := List.mem_iff_getElem?.1 hmem
        rw [Array.getElem?_toList] at hj
        have hlt := hd.linked.smaller j m' hj id hr
        have := (hd.linked.retired j m' hj (ih j m' (by omega) hj)).2
        rw [this] at hr
        cases hr
  exact climb l.modules.size id m (Nat.le_add_left ..) hm

/-- Each round gives up one reference. When all are gone, so are the static values. -/
theorem run : ∀ (fuel : Nat) {pending : List Nat} {counts : Array Nat} {l : Library} {h : Heap},
    Dropping l h counts pending roots → pending.length + l.allReferences.length < fuel →
    ∃ counts', Dropping (dropFrom fuel pending counts l h).1 (dropFrom fuel pending counts l h).2 counts' [] roots
  | 0, _, _, _, _, _, hf => absurd hf (Nat.not_lt_zero _)
  | _ + 1, [], counts, _, _, hd, _ => ⟨counts, hd⟩
  | fuel + 1, id :: rest, counts, l, h, hd, hf => by
    rw [List.length_cons] at hf
    cases hm : l.modules[id]? with
    | none =>
      rw [dropFrom_missing hm]
      exact run fuel (hd.shared fun m hm' => by rw [hm] at hm'; cases hm') (by omega)
    | some m =>
      by_cases hlast : m.alive = true ∧ counts.getD id 0 ≤ 1
      · rw [dropFrom_last hm hlast.1 hlast.2]
        refine run fuel (hd.last hm) ?_
        have := length_allReferences_put hm m.retired
        rw [references_retired, List.length_nil] at this
        rw [List.length_append]
        omega
      · have stays : m.alive = true → 1 < counts.getD id 0 := fun ha => Nat.lt_of_not_le fun hc => hlast ⟨ha, hc⟩
        rw [dropFrom_shared hm stays]
        refine run fuel (hd.shared fun m' hm' => ?_) (by omega)
        rw [hm] at hm'
        cases hm'
        exact stays

end Dropping

theorem length_allReferences (l : Library) :
    l.modules.foldl (fun n m => n + (references m).length) 0 = l.allReferences.length := by
  have sums : ∀ (ms : List Module) (n : Nat),
      ms.foldl (fun n m => n + (references m).length) n = n + (ms.flatMap references).length := by
    intro ms
    induction ms with
    | nil => exact fun _ => rfl
    | cons m ms ih =>
      intro n
      rw [List.foldl_cons, ih, List.flatMap_cons, List.length_append, Nat.add_assoc]
  rw [← Array.foldl_toList, sums, Nat.zero_add]
  rfl

/-- Dropping all living modules leaves no static values. -/
theorem drop_all {dropped : List Nat} (hl : l.Linked) (hb : h.Balanced (roots ++ l.statics))
    (hd : ∀ (id : Nat) (m : Module), l.modules[id]? = some m → m.alive → id ∈ dropped) :
    (l.drop h [] dropped).2.Balanced roots := by
  have start : Dropping l h (l.countReferences ([] ++ dropped)) dropped roots :=
    ⟨size_countReferences _ _, fun id hid => getD_countReferences _ hid, fun id m hm ha => .inr (hd id m hm ha), hl, hb⟩
  obtain ⟨counts, hend⟩ := start.run (dropped.length + l.allReferences.length + 1) (Nat.lt_succ_self _)
  rw [drop, length_allReferences]
  have nothing : ∀ m ∈ (dropFrom (dropped.length + l.allReferences.length + 1) dropped
      (l.countReferences ([] ++ dropped)) l h).1.modules.toList, m.values.toList.flatMap Value.handles = [] := by
    intro m hm
    obtain ⟨id, hid⟩ := List.mem_iff_getElem?.1 hm
    rw [Array.getElem?_toList] at hid
    rw [(hend.linked.retired id m hid (hend.dead hid)).1]
    rfl
  have empty := List.flatMap_eq_nil_iff.2 nothing
  have := hend.balanced
  rwa [statics, empty, List.append_nil] at this

end Library

/-! ### What is typed -/

namespace Typing

variable {Ψ : Typing} {n k : Nat} {s : Shape} {bs : Bytes} {rs ls : List Handle} {t : Ty} {r : Handle}

/-- The handles of what refers to no module from a number on. -/
def under (Ψ : Typing) (k : Nat) : Typing := fun r => (Ψ r).filter fun p => p.2 < k

theorem under_eq_some : Ψ.under k r = some (t, n) ↔ Ψ r = some (t, n) ∧ n < k := by
  simp [under, Option.filter_eq_some_iff]

theorem Fits.under_eq (h : Ψ.Fits n t r) (hk : n < k) (hr : r.isNull = false) : Ψ.under k r = Ψ r := by
  rw [Fits, hr] at h
  obtain ⟨m, hm, e⟩ := h
  rw [e]
  exact under_eq_some.2 ⟨e, Nat.lt_of_le_of_lt hm hk⟩

theorem Lays.fits (h : Ψ.Lays n s bs rs ls) : ∀ r ∈ rs ++ ls, ∃ t, Ψ.Fits n t r := by
  induction h with
  | nil => exact nofun
  | @cons x _ _ _ hs _ ls _ head _ ih =>
    have first : ∀ r ∈ hs ++ ls, ∃ t, Ψ.Fits n t r := fun r hr => by
      cases head with
      | scalar | spent => cases hr
      | own _ hf | lent _ hf => exact List.mem_singleton.1 hr ▸ ⟨_, hf⟩
    intro r hr
    simp only [List.mem_append] at hr first ih
    rcases hr with (hr | hr) | hr | hr
    · exact first r (.inl hr)
    · exact ih r (.inl hr)
    · exact first r (.inr hr)
    · exact ih r (.inr hr)

theorem Lays.under (h : Ψ.Lays n s bs rs ls) (hk : n < k) : (Ψ.under k).Lays n s bs rs ls :=
  h.mono (Nat.le_refl n) fun r hr hn => by
    obtain ⟨t, hf⟩ := h.fits r hr
    exact hf.under_eq hk hn

end Typing

namespace View

variable {v : View} {waits : FunctionRef → Prop} {Ψ : Typing} {h : Heap} {roots : List Handle} {id n : Nat}
  {m : Module} {t : Ty} {x : Content}

theorem Contains.under (hx : v.Contains Ψ n t x) {k : Nat} (hk : n < k) : v.Contains (Ψ.under k) n t x := by
  cases hx with
  | string s => exact .string s
  | list lays => exact .list (lays.under hk)
  | closure callee types lays => exact .closure callee types (lays.under hk)

/-- The modules below the one that is retired stay as they are. -/
theorem extends_retired (m : Module) {k : Nat} (hk : k < id) :
    v.Extends k ⟨v.library.put id m.retired, v.dead⟩ := by
  refine ⟨fun j hj => ?_, fun f hf hd => ⟨hd, Library.function?_put_ne (by omega)⟩⟩
  rw [Library.get_put_ne (by omega)]
  exact .refl _

theorem Consistent.linked (hc : v.Consistent waits) : v.library.Linked := by
  refine ⟨fun id m hm r hr => ?_, hc.retired⟩
  cases ha : m.alive with
  | true => exact ((hc.modules id m hm ha).references r hr).1
  | false =>
    rw [(hc.retired id m hm ha).2] at hr
    cases hr

/-- The newest module is retired. -/
theorem Consistent.retire (hc : v.Consistent waits) (hm : v.library.modules[id]? = some m)
    (newest : id + 1 = v.library.modules.size) (user : id ≠ 0) :
    View.Consistent ⟨v.library.put id m.retired, v.dead⟩ waits := by
  refine ⟨(Library.modules_put_ne user).trans hc.builtin, fun j n hn ha => ?_, (hc.linked.retire hm).retired,
    fun f hf => ?_⟩
  · rcases Library.modules_put hm hn with ⟨rfl, rfl⟩ | ⟨hne, hn⟩
    · cases ha
    · have hlt : j < id := by
        have := (Array.getElem?_eq_some_iff.1 hn).1
        omega
      refine (hc.modules j n hn ha).extends (extends_retired m hlt) ?_ fun i g _ _ hw => .inl hw
      exact Nat.le_of_eq (by rw [Library.get_put_ne hne])
  · obtain ⟨g, hg⟩ := hc.dead f hf
    by_cases hid : id = f.module
    · subst hid
      rw [Library.function?_of_module hm] at hg
      exact ⟨g, (Library.function?_put_self hm).trans hg⟩
    · exact ⟨g, (Library.function?_put_ne hid).trans hg⟩

/-- What the newest module held is released, and what could refer to it is left without a type. -/
theorem Sound.retire (hs : v.Sound Ψ h roots) (hm : v.library.modules[id]? = some m)
    (newest : id + 1 = v.library.modules.size) :
    View.Sound ⟨v.library.put id m.retired, v.dead⟩ (Ψ.under id) (Library.releaseValues m.values.toList h) roots := by
  obtain ⟨balanced, keeps⟩ := Library.balanced_retired hm hs.balanced
  refine ⟨balanced, fun r x t n hx ht => ?_, fun j x ha hx => ?_⟩
  · obtain ⟨ht, hn⟩ := Typing.under_eq_some.1 ht
    exact ((hs.contents r x t n (keeps.filled r x hx) ht).extends (extends_retired m hn)).under hn
  · by_cases hid : id = j
    · subst hid
      rw [Library.get_put_self hm] at ha
      cases ha
    · rw [Library.get_put_ne hid] at ha hx
      have hlt : j < id := by
        cases hj : v.library.modules[j]? with
        | none =>
          rw [Library.get_none hj] at hx
          exact absurd hx (Array.not_mem_empty x)
        | some m' =>
          have := (Array.getElem?_eq_some_iff.1 hj).1
          omega
      exact (hs.statics j x ha hx).under hlt

end View

end StackScript
