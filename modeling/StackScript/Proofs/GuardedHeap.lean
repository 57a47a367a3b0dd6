import StackScript.Proofs.Arena
import StackScript.Proofs.GuardedData

/-!
The heap with every bound checked. In a heap whose filled cells are counted at least once, and whose closures hold the
bytes that their types take, no operation slips, whatever handles it is given, and the heap stays so. Giving up a
reference ends, also where cells refer to themselves: each round frees a cell.
-/
namespace StackScript

/-- An outcome in which no slip is possible. -/
def guardedOutcome {σ α : Type} (o : Outcome σ α) : σ × Except Halt α := (o.1, guarded o.2)

namespace Heap

/-- Filled cells are counted, and closures whole. Nothing is said of the handles in them. -/
structure Sane (h : Heap) : Prop where
  tidy : h.Tidy
  cells : ∀ (i : Nat) (c : Cell) (x : Content), h.cells[i]? = some c → c.content = some x → 0 < c.count ∧ x.IsWhole

end Heap

namespace Guarded

open Heap (nextGeneration)

def alloc (h : Heap) (content : Content) : Except Halt (Heap × Handle) :=
  match h with
  | ⟨cells, [], live⟩ =>
    .ok (⟨cells.push ⟨1, 1, some content⟩, [], live + 1⟩, ⟨.ofNat cells.size, 1⟩)
  | ⟨cells, index :: free, live⟩ =>
    match cells[index.toNat]? with
    | none => .error (.slip (.index index.toNat cells.size))
    | some c =>
      .ok (⟨cells.setIfInBounds index.toNat ⟨c.generation, 1, some content⟩, free, live + 1⟩, ⟨index, c.generation⟩)

def decrement (h : Heap) (r : Handle) : Except Halt (Heap × Option Content) :=
  match h.cell? r with
  | none => .error (.fault (.danglingHandle r.raw))
  | some (c, content) => do
    let count ← minus c.count 1
    if 0 < count then
      return (⟨h.cells.setIfInBounds r.index.toNat { c with count := count }, h.free, h.live⟩, none)
    else
      let live ← minus h.live 1
      return (⟨h.cells.setIfInBounds r.index.toNat ⟨nextGeneration c.generation, 0, none⟩, r.index :: h.free, live⟩,
        some content)

def decrements : List Handle → Heap → Heap × Except Halt (Option (Content × List Handle))
  | [], h => (h, .ok none)
  | r :: rs, h =>
    if r.isNull then decrements rs h
    else match decrement h r with
      | .error e => (h, .error e)
      | .ok (h, none) => decrements rs h
      | .ok (h, some content) => (h, .ok (some (content, rs)))

def release : Nat → List Handle → Heap → Heap × Except Halt Unit
  | 0, _, h => (h, .error (.slip .endless))
  | fuel + 1, rs, h =>
    match decrements rs h with
    | (h, .error e) => (h, .error e)
    | (h, .ok none) => (h, .ok ())
    | (h, .ok (some (content, rest))) =>
      match content.loadHandles with
      | .error e => (h, .error e)
      | .ok hs => release fuel (hs.reverse ++ rest) h

def decref (h : Heap) (r : Handle) : Heap × Except Halt Bool :=
  if r.isNull then (h, .ok false)
  else match decrement h r with
    | .error e => (h, .error e)
    | .ok (h, none) => (h, .ok false)
    | .ok (h, some content) =>
      match content.loadHandles with
      | .error e => (h, .error e)
      | .ok hs =>
        match release (h.cells.size + 1) hs.reverse h with
        | (h, .error e) => (h, .error e)
        | (h, .ok ()) => (h, .ok true)

def decrefs : List Handle → Heap → Heap × Except Halt Unit
  | [], h => (h, .ok ())
  | r :: rs, h =>
    match decref h r with
    | (h, .error e) => (h, .error e)
    | (h, .ok _) => decrefs rs h

end Guarded

namespace Heap

variable {h h' : Heap} {r : Handle} {c : Cell} {x : Content}

theorem sane_empty : Sane {} := ⟨tidy_empty, by simp⟩

/-! ### One cell -/

theorem Sane.cell (hs : h.Sane) (hc : h.cell? r = some (c, x)) : 0 < c.count ∧ x.IsWhole ∧ 0 < h.live := by
  obtain ⟨hi, -, hx⟩ := cell?_eq_some.1 hc
  have live : 0 < h.live := by
    rw [hs.tidy.live_eq, List.countP_pos_iff]
    exact ⟨c, by simpa using Array.mem_of_getElem? hi, by simp [hx]⟩
  exact ⟨(hs.cells _ c x hi hx).1, (hs.cells _ c x hi hx).2, live⟩

theorem Sane.set {cells : Array Cell} {free free' : List UInt32} {live live' i : Nat} {d : Cell}
    (hs : (⟨cells, free, live⟩ : Heap).Sane) (ht : (⟨cells.setIfInBounds i d, free', live'⟩ : Heap).Tidy)
    (hd : ∀ x, d.content = some x → 0 < d.count ∧ x.IsWhole) :
    (⟨cells.setIfInBounds i d, free', live'⟩ : Heap).Sane :=
  ⟨ht, fun j e x he hx => forall_set (fun j e he x hx => hs.cells j e x he hx) hd j e he x hx⟩

theorem Sane.incref (hs : h.Sane) (r : Handle) : (h.incref r).1.Sane := by
  unfold Heap.incref
  split
  · exact hs
  · cases hc : h.cell? r with
    | none => exact hs
    | some p =>
      obtain ⟨c, x⟩ := p
      obtain ⟨-, whole, -⟩ := hs.cell hc
      have content := (cell?_eq_some.1 hc).2.2
      exact hs.set (recounts hs.tidy hc (c.count + 1)).tidy fun y hy => by
        obtain rfl : x = y := Option.some.inj (content.symm.trans hy)
        exact ⟨Nat.succ_pos _, whole⟩

theorem Sane.increfs (rs : List Handle) : ∀ {h : Heap}, h.Sane → (Heap.increfs rs h).1.Sane := by
  induction rs with
  | nil => exact fun hs => hs
  | cons r rs ih =>
    intro h hs
    have := hs.incref r
    unfold Heap.increfs
    generalize h.incref r = o at this
    obtain ⟨h', e | _⟩ := o
    · exact this
    · exact ih this

theorem Sane.alloc (hs : h.Sane) (whole : x.IsWhole) :
    Guarded.alloc h x = .ok (h.alloc x) ∧ (h.alloc x).1.Sane := by
  have tidy := hs.tidy.alloc x
  obtain ⟨cells, free, live⟩ := h
  cases free with
  | nil =>
    refine ⟨rfl, tidy, fun i d y hd hy =>
      forall_push (fun j e he x hx => hs.cells j e x he hx) (fun x hx => ?_) i d hd y hy⟩
    cases hx
    exact ⟨Nat.one_pos, whole⟩
  | cons i free =>
    obtain ⟨c, hc, -⟩ := hs.tidy.free_empty i (.head _)
    refine ⟨?_, hs.set tidy fun y hy => ?_⟩
    · simp only [Guarded.alloc, Heap.alloc, Array.getD_eq_getD_getElem?, hc, Option.getD_some]
    · cases hy
      exact ⟨Nat.one_pos, whole⟩

/-- A cell that is counted once is freed by giving up a reference, another one stays. -/
theorem Sane.decrement (hs : h.Sane) (r : Handle) :
    Guarded.decrement h r = guarded (h.decrement r) ∧
      ∀ h' o, h.decrement r = .ok (h', o) → h'.Sane ∧ ∀ x, o = some x → x.IsWhole ∧ h'.live + 1 = h.live := by
  unfold Guarded.decrement Heap.decrement
  cases hc : h.cell? r with
  | none => exact ⟨rfl, fun _ _ e => by cases e⟩
  | some p =>
    obtain ⟨c, x⟩ := p
    obtain ⟨counted, whole, live⟩ := hs.cell hc
    have content := (cell?_eq_some.1 hc).2.2
    have kept := (recounts hs.tidy hc (c.count - 1)).tidy
    have freed := frees hs.tidy hc
    obtain ⟨cells, free, n⟩ := h
    simp only [bind, Except.bind, minus_eq counted]
    by_cases hn : 1 < c.count
    · rw [if_pos (Nat.sub_pos_of_lt hn), if_pos hn]
      refine ⟨rfl, fun h' o e => ?_⟩
      cases e
      refine ⟨hs.set kept fun y hy => ?_, fun _ e => by cases e⟩
      obtain rfl : x = y := Option.some.inj (content.symm.trans hy)
      exact ⟨Nat.sub_pos_of_lt hn, whole⟩
    · rw [if_neg (by omega), if_neg hn, minus_eq live]
      refine ⟨rfl, fun h' o e => ?_⟩
      cases e
      refine ⟨hs.set freed.tidy (fun _ e => by cases e), fun y hy => ?_⟩
      cases hy
      exact ⟨whole, freed.live⟩

/-! ### Many cells -/

theorem Sane.decrements (rs : List Handle) : ∀ {h : Heap}, h.Sane →
    Guarded.decrements rs h = guardedOutcome (Heap.decrements rs h) ∧ (Heap.decrements rs h).1.Sane ∧
      ∀ x rest, (Heap.decrements rs h).2 = .ok (some (x, rest)) →
        x.IsWhole ∧ (Heap.decrements rs h).1.live + 1 = h.live := by
  induction rs with
  | nil => exact fun hs => ⟨rfl, hs, fun _ _ e => by cases e⟩
  | cons r rs ih =>
    intro h hs
    unfold Guarded.decrements Heap.decrements
    split
    · exact ih hs
    · obtain ⟨same, sane⟩ := hs.decrement r
      rw [same]
      cases hr : h.decrement r with
      | error e => exact ⟨rfl, hs, fun _ _ e => by cases e⟩
      | ok p =>
        obtain ⟨h', _ | x⟩ := p
        · -- Only the last of these may free a cell, so the number of cells is that of `h`.
          have live : h'.live = h.live := by
            unfold Heap.decrement at hr
            split at hr
            · cases hr
            · simp only at hr
              split at hr <;> cases hr
              rfl
          have := ih (sane h' none hr).1
          rw [live] at this
          exact this
        · obtain ⟨hs', freed⟩ := sane h' (some x) hr
          refine ⟨rfl, hs', fun y rest e => ?_⟩
          cases e
          exact freed x rfl

theorem Sane.release (fuel : Nat) : ∀ (rs : List Handle) {h : Heap}, h.Sane → h.live < fuel →
    Guarded.release fuel rs h = guardedOutcome (Heap.release fuel rs h) ∧ (Heap.release fuel rs h).1.Sane := by
  induction fuel with
  | zero => exact fun _ _ _ hl => absurd hl (Nat.not_lt_zero _)
  | succ fuel ih =>
    intro rs h hs hl
    obtain ⟨same, sane, freed⟩ := hs.decrements rs
    unfold Guarded.release Heap.release
    rw [same]
    generalize Heap.decrements rs h = o at sane freed
    obtain ⟨h', e | _ | ⟨x, rest⟩⟩ := o
    · exact ⟨rfl, sane⟩
    · exact ⟨rfl, sane⟩
    · obtain ⟨whole, live⟩ := freed x rest rfl
      have live : h'.live + 1 = h.live := live
      simp only [guardedOutcome, guarded_ok, Content.loadHandles_eq whole]
      cases x.handles with
      | error e => exact ⟨rfl, sane⟩
      | ok hs => exact ih _ sane (by omega)

theorem Sane.live_le (hs : h.Sane) : h.live ≤ h.cells.size := by
  rw [hs.tidy.live_eq]
  exact Nat.le_trans List.countP_le_length (Nat.le_of_eq (by simp))

theorem Sane.decref (hs : h.Sane) (r : Handle) :
    Guarded.decref h r = guardedOutcome (h.decref r) ∧ (h.decref r).1.Sane := by
  unfold Guarded.decref Heap.decref
  split
  · exact ⟨rfl, hs⟩
  · obtain ⟨same, sane⟩ := hs.decrement r
    rw [same]
    cases hr : h.decrement r with
    | error e => exact ⟨rfl, hs⟩
    | ok p =>
      obtain ⟨h', _ | x⟩ := p
      · exact ⟨rfl, (sane h' none hr).1⟩
      · obtain ⟨hs', freed⟩ := sane h' (some x) hr
        simp only [guarded_ok, Content.loadHandles_eq (freed x rfl).1]
        cases x.handles with
        | error e => exact ⟨rfl, hs'⟩
        | ok rs =>
          obtain ⟨same', sane'⟩ := Sane.release (h'.cells.size + 1) rs.reverse hs' (Nat.lt_succ_of_le hs'.live_le)
          simp only [guarded_ok, same']
          generalize Heap.release (h'.cells.size + 1) rs.reverse h' = o at sane'
          obtain ⟨h'', e | _⟩ := o
          · exact ⟨rfl, sane'⟩
          · exact ⟨rfl, sane'⟩

theorem Sane.decrefs (rs : List Handle) : ∀ {h : Heap}, h.Sane →
    Guarded.decrefs rs h = guardedOutcome (Heap.decrefs rs h) ∧ (Heap.decrefs rs h).1.Sane := by
  induction rs with
  | nil => exact fun hs => ⟨rfl, hs⟩
  | cons r rs ih =>
    intro h hs
    obtain ⟨same, sane⟩ := hs.decref r
    unfold Guarded.decrefs Heap.decrefs
    rw [same]
    generalize h.decref r = o at sane
    obtain ⟨h', e | _⟩ := o
    · exact ⟨rfl, sane⟩
    · exact ih sane

end Heap

end StackScript
