import StackScript.Proofs.GuardedData
import StackScript.Proofs.Staleness
import StackScript.Proofs.ValueLayout

/-!
The slots of the heap, whatever it is used for. Giving up a reference ends, also where cells refer to themselves or to
cells that are gone, and wherever it stops the empty slots are those that are free, each of them once.
-/
namespace StackScript

/-! ### Content with handles that can be read -/

theorem Handle.exists_ofBytes {bs : Bytes} (h : handleSize ≤ bs.length) : ∃ r, ofBytes bs = .ok r :=
  ⟨_, if_neg (Nat.not_lt.2 h)⟩

theorem Ty.exists_mapM {f : Nat → Except Fault Handle} {slots : List Nat} (h : ∀ i ∈ slots, ∃ r, f i = .ok r) :
    ∃ hs, slots.mapM f = .ok hs := by
  induction slots with
  | nil => exact ⟨[], rfl⟩
  | cons i slots ih =>
    obtain ⟨r, hr⟩ := h i (.head _)
    obtain ⟨hs, rest⟩ := ih fun j hj => h j (.tail _ hj)
    exact ⟨r :: hs, by rw [List.mapM_cons, hr, rest]; rfl⟩

/-- The handles of values that lie within the bytes can be read. -/
theorem Ty.exists_handlesIn {bs : Bytes} (ts : List Ty) : ∀ skip : Nat, skip + sizes ts ≤ bs.length →
    ∃ hs, handlesIn ts skip bs = .ok hs := by
  induction ts with
  | nil => exact fun _ _ => ⟨[], rfl⟩
  | cons t ts ih =>
    intro skip inside
    rw [sizes] at inside
    have slot (i : Nat) (hi : i ∈ t.slots) : ∃ r, Handle.ofBytes (bs.drop (skip + i)) = .ok r := by
      have := slots_le hi
      refine Handle.exists_ofBytes ?_
      rw [List.length_drop]
      omega
    obtain ⟨hs, first⟩ : ∃ hs, t.handlesAt skip bs = .ok hs := exists_mapM slot
    obtain ⟨rest, others⟩ := ih (skip + t.size) (by omega)
    exact ⟨hs ++ rest, by rw [handlesIn, first, others]; rfl⟩

namespace Content

/-- A closure holds at least the bytes that its types take. -/
def IsCovered : Content → Prop
  | closure c => Ty.sizes c.types ≤ c.bytes.length
  | _ => True

theorem IsCovered.exists_handles {x : Content} (h : x.IsCovered) : ∃ hs, x.handles = .ok hs := by
  cases x with
  | string s => exact ⟨[], rfl⟩
  | list elem bytes =>
    change ∃ hs, (if elem.slots.isEmpty then .ok [] else Ty.handlesIn (List.replicate (count elem bytes) elem) 0 bytes) =
      .ok hs
    split
    · exact ⟨[], rfl⟩
    · refine Ty.exists_handlesIn _ 0 ?_
      rw [Nat.zero_add, Ty.sizes_replicate]
      exact count_le elem bytes
  | closure c =>
    have inside : 0 + Ty.sizes c.types ≤ c.bytes.length := by
      rw [Nat.zero_add]
      exact h
    exact Ty.exists_handlesIn c.types 0 inside

end Content

/-- A count that so many references that were taken may have led to, and content whose handles can be read. -/
structure Cell.Fair (n : Nat) (c : Cell) : Prop where
  count : c.count ≤ n + 1
  covered : ∀ x, c.content = some x → x.IsCovered

namespace Heap

variable {h h' : Heap} {r : Handle} {rs rs' : List Handle} {c : Cell} {x : Content} {o : Outcome Heap Unit} {n : Nat}

/-! ### Round by round -/

/-- One reference is given up, the first of those that are left. Those of a freed cell come before the others, the last
of them first. -/
def round (h : Heap) : List Handle → Outcome Heap Unit ⊕ Heap × List Handle
  | [] => .inl (h, .ok ())
  | r :: rs =>
    if r.isNull then .inr (h, rs)
    else match h.decrement r with
      | .error e => .inl (h, .error e)
      | .ok (h, none) => .inr (h, rs)
      | .ok (h, some content) =>
        match content.handles with
        | .error e => .inl (h, .error e)
        | .ok hs => .inr (h, hs.reverse ++ rs)

/-- The rounds end, after however many, with the outcome. -/
inductive Drains : Heap → List Handle → Outcome Heap Unit → Prop
  | ends {h : Heap} {rs : List Handle} {o : Outcome Heap Unit} (last : h.round rs = .inl o) : Drains h rs o
  | goes {h h' : Heap} {rs rs' : List Handle} {o : Outcome Heap Unit} (next : h.round rs = .inr (h', rs'))
      (others : Drains h' rs' o) : Drains h rs o

theorem Drains.unique (a : h.Drains rs o) : ∀ {o' : Outcome Heap Unit}, h.Drains rs o' → o = o' := by
  induction a with
  | ends last =>
    rintro _ (last' | ⟨next, -⟩)
    · exact Sum.inl.inj (last.symm.trans last')
    · cases last.symm.trans next
  | goes next _ ih =>
    rintro _ (last | ⟨next', others⟩)
    · cases next.symm.trans last
    · cases next.symm.trans next'
      exact ih others

theorem error_of_decrement {e : Fault} (fails : h.decrement r = .error e) : e = .danglingHandle r.raw := by
  unfold decrement at fails
  split at fails
  · cases fails
    rfl
  · dsimp only at fails
    split at fails <;> cases fails

/-- How many cells have content. -/
def filled (h : Heap) : Nat := h.cells.toList.countP (·.content.isSome)

theorem filled_le (h : Heap) : h.filled ≤ h.cells.size := List.countP_le_length

/-- There is content less wherever content is given. -/
theorem filled_decrement {y : Option Content} (e : h.decrement r = .ok (h', y)) :
    h'.filled + (if y.isSome then 1 else 0) = h.filled := by
  unfold decrement at e
  cases hc : h.cell? r with
  | none =>
    rw [hc] at e
    cases e
  | some p =>
    obtain ⟨c, x⟩ := p
    obtain ⟨hi, -, hx⟩ := cell?_eq_some.1 hc
    simp only [hc] at e
    split at e
    · cases e
      have := countP_set (d := { c with count := c.count - 1 }) hi (·.content.isSome)
      simpa only [filled, hx, Option.isSome_some, Option.isSome_none, if_true, Bool.false_eq_true, if_false, Nat.add_zero,
        Nat.add_right_cancel_iff] using this
    · cases e
      have := countP_set (d := ⟨nextGeneration c.generation, 0, none⟩) hi (·.content.isSome)
      simpa only [filled, hx, Option.isSome_some, Option.isSome_none, if_true, Bool.false_eq_true, if_false, Nat.add_zero]
        using this

/-- What a round that is not the last one does: the first of the references is passed, or it frees a cell. -/
inductive Goes (h : Heap) (rs : List Handle) (h' : Heap) (rs' : List Handle) : Prop
  | passed {r : Handle} (first : rs = r :: rs') (same : h'.filled = h.filled) (later : decrements rs h = decrements rs' h')
  | freed {r : Handle} {rest hs : List Handle} {x : Content} (first : rs = r :: rest) (less : h'.filled + 1 = h.filled)
      (given : decrements rs h = (h', .ok (some (x, rest)))) (inner : x.handles = .ok hs) (next : rs' = hs.reverse ++ rest)

theorem goes_of_round (e : h.round rs = .inr (h', rs')) : h.Goes rs h' rs' := by
  cases rs with
  | nil => cases e
  | cons r rs =>
    rw [round] at e
    split at e
    · next null =>
      cases e
      exact .passed rfl rfl (if_pos null)
    · next notNull =>
      have decrements_eq : decrements (r :: rs) h = match h.decrement r with
        | .error e => (h, .error e)
        | .ok (h, none) => decrements rs h
        | .ok (h, some content) => (h, .ok (some (content, rs))) := if_neg notNull
      split at e
      · cases e
      · next given =>
        cases e
        rw [given] at decrements_eq
        exact .passed rfl (filled_decrement given) decrements_eq
      · next given =>
        rw [given] at decrements_eq
        split at e
        · cases e
        · next inner =>
          cases e
          exact .freed rfl (filled_decrement given) decrements_eq inner rfl

/-- A round that is the last one is the last one of a release, too. -/
theorem release_of_round (e : h.round rs = .inl o) (fuel : Nat) : release (fuel + 1) rs h = o := by
  rw [release]
  cases rs with
  | nil =>
    cases e
    rfl
  | cons r rs =>
    rw [round] at e
    by_cases null : r.isNull
    · rw [if_pos null] at e
      cases e
    rw [if_neg null] at e
    rw [decrements, if_neg null]
    cases given : h.decrement r with
    | error f =>
      rw [given] at e
      cases e
      rfl
    | ok p =>
      obtain ⟨h', _ | x⟩ := p
      · rw [given] at e
        cases e
      · rw [given] at e
        cases inner : x.handles with
        | error f =>
          simp only [inner] at e ⊢
          exact Sum.inl.inj e
        | ok hs =>
          simp only [inner] at e
          cases e

/-- Whatever the heap and the references are, the rounds end: each of them frees a cell or leaves a reference less. -/
theorem exists_drains (h : Heap) (rs : List Handle) : ∃ o, h.Drains rs o :=
  match e : h.round rs with
  | .inl o => ⟨o, .ends e⟩
  | .inr (h', rs') => by
    have less : Prod.Lex (· < ·) (· < ·) (h'.filled, rs'.length) (h.filled, rs.length) := by
      cases goes_of_round e with
      | passed first same =>
        rw [same, first]
        exact .right _ (Nat.lt_succ_self _)
      | freed _ fewer => exact .left _ _ (by omega)
    obtain ⟨o, others⟩ := exists_drains h' rs'
    exact ⟨o, .goes e others⟩
termination_by (h.filled, rs.length)
decreasing_by exact less

/-- As many rounds as there is content are enough for a release. -/
theorem Drains.release_eq (d : h.Drains rs o) : ∀ {fuel : Nat}, h.filled < fuel → release fuel rs h = o := by
  induction d with
  | ends last =>
    intro fuel enough
    obtain ⟨fuel, rfl⟩ := Nat.exists_eq_add_one_of_ne_zero (Nat.ne_zero_of_lt enough)
    exact release_of_round last fuel
  | goes next _ ih =>
    intro fuel enough
    obtain ⟨fuel, rfl⟩ := Nat.exists_eq_add_one_of_ne_zero (Nat.ne_zero_of_lt enough)
    -- only a round that frees a cell takes fuel
    cases goes_of_round next with
    | passed first same later =>
      rw [release, later, ← release]
      exact ih (same ▸ enough)
    | freed first less given inner rest =>
      rw [release, given]
      simp only [inner]
      rw [← rest]
      exact ih (by omega)

theorem drains_release (h : Heap) (rs : List Handle) : h.Drains rs (release (h.cells.size + 1) rs h) := by
  obtain ⟨o, drains⟩ := exists_drains h rs
  rwa [drains.release_eq (Nat.lt_succ_of_le h.filled_le)]

/-- Giving up one reference is what the rounds do. -/
theorem drains_decref (h : Heap) (r : Handle) : h.Drains [r] ((h.decref r).1, (h.decref r).2.map fun _ => ()) := by
  have done (h' : Heap) : h'.Drains [] (h', .ok ()) := .ends rfl
  rw [decref]
  split
  · next null => exact .goes (if_pos null) (done h)
  next notNull =>
  have round_eq : h.round [r] = match h.decrement r with
    | .error e => .inl (h, .error e)
    | .ok (h, none) => .inr (h, [])
    | .ok (h, some content) =>
      match content.handles with
      | .error e => .inl (h, .error e)
      | .ok hs => .inr (h, hs.reverse ++ []) := if_neg notNull
  split
  · next fails =>
    rw [fails] at round_eq
    exact .ends round_eq
  · next h' kept =>
    rw [kept] at round_eq
    exact .goes round_eq (done h')
  · next h' x freed =>
    rw [freed] at round_eq
    split
    · next fails =>
      simp only [fails] at round_eq
      exact .ends round_eq
    · next hs inner =>
      -- the cell is freed, and the release of its handles is the rounds after that
      simp only [inner, List.append_nil] at round_eq
      have released := drains_release h' hs.reverse
      dsimp only
      split
      · next e => exact .goes round_eq (e ▸ released)
      · next e => exact .goes round_eq (e ▸ released)

/-! ### Slots in order -/

/-- What holds of a heap after so many references were taken. Nothing is said of who has them. -/
structure Orderly (n : Nat) (h : Heap) : Prop where
  regular : h.Regular
  listed : ∀ (i : Nat) (c : Cell), h.cells[i]? = some c → c.content = none → ∃ j ∈ h.free, j.toNat = i
  fair : ∀ (i : Nat) (c : Cell), h.cells[i]? = some c → c.Fair n

theorem orderly_empty : Orderly 0 {} := ⟨regular_empty, by simp, by simp⟩

theorem Orderly.mono {m : Nat} (orderly : Orderly n h) (le : n ≤ m) : Orderly m h :=
  ⟨orderly.regular, orderly.listed, fun i c hc =>
    ⟨Nat.le_trans (orderly.fair i c hc).count (Nat.succ_le_succ le), (orderly.fair i c hc).covered⟩⟩

/-- One slot is set. The others stay, and stay free if they were. -/
theorem Orderly.set {cells : Array Cell} {free free' : List UInt32} {live live' i : Nat} {d : Cell}
    (orderly : Orderly n ⟨cells, free, live⟩) (regular : (⟨cells.setIfInBounds i d, free', live'⟩ : Heap).Regular)
    (fair : d.Fair n) (others : ∀ j ∈ free, j.toNat ≠ i → j ∈ free') (self : d.content = none → ∃ j ∈ free', j.toNat = i) :
    Orderly n ⟨cells.setIfInBounds i d, free', live'⟩ := by
  refine ⟨regular, fun k c hc empty => ?_, forall_set orderly.fair fair⟩
  by_cases same : i = k
  · subst same
    have inside : i < cells.size := by simpa using (Array.getElem?_eq_some_iff.1 hc).1
    obtain rfl : d = c := Option.some.inj ((Array.getElem?_setIfInBounds_self_of_lt inside).symm.trans hc)
    exact self empty
  · obtain ⟨j, free, hj⟩ := orderly.listed k c ((Array.getElem?_setIfInBounds_ne same).symm.trans hc) empty
    exact ⟨j, others j free fun e => same (e.symm.trans hj), hj⟩

theorem Orderly.alloc (orderly : Orderly n h) (covered : x.IsCovered) : Orderly n (h.alloc x).1 := by
  have regular := (regular_alloc orderly.regular x).1
  have fair (g : UInt32) : Cell.Fair n ⟨g, 1, some x⟩ := ⟨Nat.succ_le_succ (Nat.zero_le n), fun y hy => by cases hy; exact covered⟩
  obtain ⟨cells, free, live⟩ := h
  cases free with
  | nil =>
    -- the new slot is filled, so the empty ones are the old ones
    refine ⟨regular, fun k c hc empty => ?_, forall_push orderly.fair (fair 1)⟩
    have hc : (cells.push ⟨1, 1, some x⟩)[k]? = some c := hc
    rw [Array.getElem?_push] at hc
    split at hc
    · cases hc
      cases empty
    · exact orderly.listed k c hc empty
  | cons index free =>
    refine orderly.set regular (fair _) (fun j free differs => ?_) nofun
    rcases List.mem_cons.1 free with rfl | free
    · exact absurd rfl differs
    · exact free

theorem Orderly.incref (orderly : Orderly n h) (r : Handle) : Orderly (n + 1) (h.incref r).1 := by
  have more : Orderly (n + 1) h := orderly.mono (Nat.le_succ n)
  unfold Heap.incref
  split
  · exact more
  · cases hc : h.cell? r with
    | none => exact more
    | some p =>
      obtain ⟨c, x⟩ := p
      obtain ⟨hi, -, hx⟩ := cell?_eq_some.1 hc
      have fair := orderly.fair _ c hi
      have regular := orderly.regular.set (recounts orderly.regular.tidy hc (c.count + 1)).tidy fun _ => Nat.succ_pos _
      exact more.set regular ⟨Nat.succ_le_succ fair.count, fair.covered⟩ (fun j free _ => free)
        fun empty => absurd (hx.symm.trans empty) nofun

/-- Wherever a reference is given up the slots stay in order. -/
theorem Orderly.decrement (orderly : Orderly n h) {y : Option Content} (e : h.decrement r = .ok (h', y)) :
    Orderly n h' ∧ ∀ x, y = some x → x.IsCovered := by
  have regular := (releases_decrement e).regular orderly.regular
  unfold Heap.decrement at e
  cases hc : h.cell? r with
  | none =>
    rw [hc] at e
    cases e
  | some p =>
    obtain ⟨c, x⟩ := p
    obtain ⟨hi, -, hx⟩ := cell?_eq_some.1 hc
    have fair := orderly.fair _ c hi
    simp only [hc] at e
    split at e
    · cases e
      refine ⟨orderly.set regular ⟨Nat.le_trans (Nat.sub_le _ _) fair.count, fair.covered⟩ (fun j free _ => free) ?_, nofun⟩
      exact fun empty => absurd (hx.symm.trans empty) nofun
    · cases e
      refine ⟨orderly.set regular ⟨Nat.zero_le _, nofun⟩ (fun j free _ => .tail _ free) fun _ => ⟨r.index, .head _, rfl⟩, ?_⟩
      rintro y ⟨⟩
      exact fair.covered x hx

/-- Whether the rounds go on or stop, the slots stay in order, and the rounds stop early for a dangling handle only. -/
theorem Orderly.round (orderly : Orderly n h) (rs : List Handle) :
    match h.round rs with
    | .inl (h', result) => Orderly n h' ∧ ∀ e, result = .error e → ∃ s : Handle, e = .danglingHandle s.raw
    | .inr (h', _) => Orderly n h' := by
  cases rs with
  | nil => exact ⟨orderly, nofun⟩
  | cons r rs =>
    rw [Heap.round]
    by_cases null : r.isNull
    · rw [if_pos null]
      exact orderly
    rw [if_neg null]
    cases given : h.decrement r with
    | error e =>
      refine ⟨orderly, fun e' same => ⟨r, ?_⟩⟩
      cases same
      exact error_of_decrement given
    | ok p =>
      obtain ⟨h', y⟩ := p
      obtain ⟨orderly', covered⟩ := orderly.decrement given
      cases y with
      | none => exact orderly'
      | some x =>
        obtain ⟨hs, inner⟩ := (covered x rfl).exists_handles
        simp only [inner]
        exact orderly'

theorem Orderly.drains (drains : h.Drains rs o) (orderly : Orderly n h) :
    Orderly n o.1 ∧ ∀ e, o.2 = .error e → ∃ s : Handle, e = .danglingHandle s.raw := by
  induction drains with
  | @ends h rs o last =>
    have := orderly.round rs
    rwa [last] at this
  | @goes h h' rs rs' o next _ ih =>
    have := orderly.round rs
    rw [next] at this
    exact ih this

theorem Orderly.decref (orderly : Orderly n h) (r : Handle) : Orderly n (h.decref r).1 :=
  (orderly.drains (drains_decref h r)).1

theorem Orderly.error_of_decref (orderly : Orderly n h) {e : Fault} (fails : (h.decref r).2 = .error e) :
    ∃ s : Handle, e = .danglingHandle s.raw :=
  (orderly.drains (drains_decref h r)).2 e (by rw [fails]; rfl)

/-! ### Histories -/

def Op.isIncref : Op → Bool
  | .incref _ => true
  | _ => false

theorem Orderly.apply (orderly : Orderly n h) (op : Op) (covered : ∀ x, op = .alloc x → x.IsCovered) :
    Orderly (n + if op.isIncref then 1 else 0) (op.apply h) := by
  cases op with
  | alloc x => exact orderly.alloc (covered x rfl)
  | incref r => exact orderly.incref r
  | decref r => exact orderly.decref r
  | refcount | string | list | closure => exact orderly

theorem Orderly.after (ops : List Op) : ∀ {h : Heap} {n : Nat}, Orderly n h → (∀ x, .alloc x ∈ ops → x.IsCovered) →
    Orderly (n + ops.countP Op.isIncref) (h.after ops) := by
  induction ops with
  | nil => exact fun orderly _ => orderly
  | cons op ops ih =>
    intro h n orderly covered
    have first := orderly.apply op fun x e => covered x (e ▸ .head _)
    have others := ih first fun x hx => covered x (.tail _ hx)
    rw [List.countP_cons, Nat.add_comm (ops.countP Op.isIncref), ← Nat.add_assoc]
    exact others

/-- The slots are in order: those that are free are the empty ones, each of them once, the content is counted, and so is
whoever refers to it, in 32 bits. -/
structure Consistent (h : Heap) : Prop where
  free_nodup : h.free.Nodup
  mem_free : ∀ i : Nat, (∃ j ∈ h.free, j.toNat = i) ↔ ∃ c, h.cells[i]? = some c ∧ c.content = none
  live_eq : h.live = h.filled
  counted : ∀ (i : Nat) (c : Cell), h.cells[i]? = some c → c.content.isSome → 1 ≤ c.count ∧ c.count < 2 ^ 32

theorem Orderly.consistent (orderly : Orderly n h) (few : n + 1 < 2 ^ 32) : h.Consistent := by
  refine ⟨orderly.regular.tidy.free_nodup, fun i => ⟨?_, ?_⟩, orderly.regular.tidy.live_eq, fun i c hc filled => ?_⟩
  · rintro ⟨j, free, rfl⟩
    exact orderly.regular.tidy.free_empty j free
  · rintro ⟨c, hc, empty⟩
    exact orderly.listed i c hc empty
  · exact ⟨orderly.regular.counted i c hc filled, Nat.lt_of_le_of_lt (orderly.fair i c hc).count few⟩

/-- Whatever the heap was used for, its slots are in order, also where a release stopped halfway, as long as no counter
can overflow. Giving up a reference ends, with one outcome, and fails only for a handle that dangles. -/
theorem after_consistent (ops : List Op) (covered : ∀ x, .alloc x ∈ ops → x.IsCovered)
    (few : ops.countP Op.isIncref < 2 ^ 32 - 1) :
    (after {} ops).Consistent ∧ ∀ r,
      (∀ o, (after {} ops).Drains [r] o ↔ o = (((after {} ops).decref r).1, ((after {} ops).decref r).2.map fun _ => ())) ∧
      ∀ e, ((after {} ops).decref r).2 = .error e → ∃ s : Handle, e = .danglingHandle s.raw := by
  have orderly : Orderly (0 + ops.countP Op.isIncref) (after {} ops) := orderly_empty.after ops covered
  refine ⟨orderly.consistent (by omega), fun r => ⟨fun o => ?_, fun e => orderly.error_of_decref⟩⟩
  have drains := drains_decref (after {} ops) r
  exact ⟨fun other => other.unique drains, fun same => same ▸ drains⟩

/-- A list that holds itself is given up, and its own handle dangles when its items are. The slot is free after that. -/
theorem after_consistent_self : (after {} [.alloc (.list .string (Handle.toBytes ⟨0, 1⟩)), .decref ⟨0, 1⟩]).Consistent ∧
    ((after {} [.alloc (.list .string (Handle.toBytes ⟨0, 1⟩))]).decref ⟨0, 1⟩).2 =
      .error (.danglingHandle (Handle.raw ⟨0, 1⟩)) := by
  refine ⟨(after_consistent _ (fun x hx => ?_) (by decide)).1, rfl⟩
  rcases List.mem_cons.1 hx with first | hx
  · cases first
    trivial
  · cases List.mem_singleton.1 hx

end Heap

end StackScript
