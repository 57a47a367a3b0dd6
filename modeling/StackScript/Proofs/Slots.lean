import StackScript.Compile.Draft
import StackScript.Proofs.Contents
import StackScript.Proofs.Decoding

/-!
The handles in a value, found in three ways: at the slots of its type from the start of its bytes, at the distances that
compiled code holds from the top of the stack, and in the value that is read from the bytes. They are the same handles in
the same order, so references are taken alike whichever way is gone.
-/
namespace StackScript

/-! ### Slots -/

namespace Ty

mutual

/-- Handles do not overlap. -/
theorem slotsFrom_apart : ∀ (t : Ty) (base : Nat), (t.slotsFrom base).Pairwise fun i j => i + handleSize ≤ j
  | .tuple ts, base => slotsOf_apart ts base
  | .string, _ | .list _, _ | .function _ _, _ => List.pairwise_singleton _ _
  | .unknown, _ | .void, _ | .module, _ | .bool, _ | .byte, _ | .char, _ | .int32, _ | .int64, _ | .float32, _
  | .float64, _ => .nil

theorem slotsOf_apart : ∀ (ts : List Ty) (base : Nat), (slotsOf base ts).Pairwise fun i j => i + handleSize ≤ j
  | [], _ => .nil
  | t :: ts, base => by
    rw [slotsOf, List.pairwise_append]
    refine ⟨slotsFrom_apart t base, slotsOf_apart ts (base + t.size), fun i hi j hj => ?_⟩
    -- The first item ends where the others begin.
    exact Nat.le_trans (slotsFrom_le t base i hi).2 (slotsOf_le ts (base + t.size) j hj).1

end

theorem slots_ascending (t : Ty) : t.slots.Pairwise (· < ·) :=
  (slotsFrom_apart t 0).imp fun apart => Nat.lt_of_lt_of_le (Nat.lt_add_of_pos_right (by decide)) apart

end Ty

namespace Value

theorem slots_of_decode {t : Ty} {bs : Bytes} {v : Value} (h : decode t bs = .ok v) : t.size ≤ bs.length ∧
    t.slots.mapM (fun i => Handle.ofBytes (bs.drop i)) = .ok v.handles := by
  unfold decode at h
  split at h
  · cases h
  · next long =>
    have long := Nat.le_of_not_lt long
    exact ⟨long, slotsFrom_read [] long h⟩

end Value

/-! ### On the stack -/

/-- A handle in the bytes on top, counted from their start and from their end. -/
theorem Stack.handleAt_top {s : Stack} {low bs : Bytes} {i : Nat} (data : s.data = low ++ bs)
    (inside : i + handleSize ≤ bs.length) :
    s.handleAt (bs.length - i - handleSize) = Handle.ofBytes (bs.drop i) := by
  have size : s.size = low.length + bs.length := by rw [← s.length_data, data, List.length_append]
  have enough : bs.length - i - handleSize + handleSize ≤ s.size := by omega
  have between := s.data_between (show low.length + i + handleSize ≤ s.size by omega)
  rw [data, show s.size - (low.length + i + handleSize) = bs.length - i - handleSize by omega,
    List.drop_append, List.drop_of_length_le (by omega), List.nil_append,
    show low.length + i - low.length = i by omega] at between
  rw [handleAt, need, if_pos enough, ← between]
  exact Handle.ofBytes_take (by rw [List.length_drop]; omega)

namespace Ty

variable {t : Ty} {bs : Bytes} {hs : List Handle}

/-- What follows the bytes of a value makes no difference to its handles. -/
theorem handlesAt_take (long : t.size ≤ bs.length) (read : t.slots.mapM (fun i => Handle.ofBytes (bs.drop i)) = .ok hs) :
    t.handlesAt 0 (bs.take t.size) = .ok hs := by
  rw [← read]
  refine mapM_congr fun i hi => ?_
  rw [Nat.zero_add, ofBytes_slot hi long]

end Ty

/-! ### Instructions that take references -/

namespace Run

theorem readStack_of_ok {α : Type} {f : Stack → Except Fault α} {m : Machine} {x : α} (result : f m.stack = .ok x) :
    readStack f m = .ok x m := by
  unfold readStack
  simp only [result]

variable {m : Machine}

theorem execute_incRef (l : Library) (a : Activation) {n : Nat} {r : Handle} (found : m.stack.handleAt n = .ok r) :
    (do let _ ← execute l a .incRef n 0) m = incref r m := by
  have seen : readStack (fun s => s.handleAt n) m = .ok r m := readStack_of_ok found
  have one : execute l a .incRef n 0 m = (incref r >>= fun _ => pure none) m := bind_of_ok seen _
  cases taken : incref r m with
  | ok u m' => exact bind_of_ok (one.trans (bind_of_ok taken _)) _
  | error e m' => exact bind_of_error (one.trans (bind_of_error taken _)) _

/-- Taking references at distances from the top is taking them to the handles that lie there. -/
theorem forM_incRef (l : Library) (a : Activation) : ∀ {ns : List Nat} {rs : List Handle} {m : Machine},
    ns.mapM m.stack.handleAt = .ok rs →
    (ns.forM fun n => do let _ ← execute l a .incRef n 0) m = onHeap (Heap.increfs rs) m
  | [], _, m, h => by
    cases h
    rfl
  | n :: ns, _, m, h => by
    rw [List.mapM_cons] at h
    obtain ⟨r, first, h⟩ := bind_eq_ok.1 h
    obtain ⟨rs, rest, h⟩ := bind_eq_ok.1 h
    cases h
    have one := execute_incRef l a first
    cases taken : m.heap.incref r with
    | mk heap result =>
      cases result with
      | error e =>
        have stops : incref r m = .error e { m with heap := heap } := by
          rw [incref, onHeap, taken]
        refine (bind_of_error (one.trans stops) _).trans ?_
        simp only [onHeap, Heap.increfs, taken]
      | ok u =>
        have goes : incref r m = .ok u { m with heap := heap } := by
          rw [incref, onHeap, taken]
        -- The stack is as before, so the handles behind are where they were.
        have behind := @forM_incRef l a ns rs { m with heap := heap } rest
        refine (bind_of_ok (one.trans goes) _).trans (behind.trans ?_)
        simp only [onHeap, Heap.increfs, taken]

end Run

namespace Compile

variable {op : Opcode} {n : Nat} {span : Span} {c d : Compilation}

theorem emit1_eq_ok (h : emit1 op n span c = .ok () d) :
    n < 256 ∧ d.draft.code.bytes = c.draft.code.bytes ++ #[op.toByte, .ofNat n] := by
  have fits : n < 256 := by
    refine Decidable.byContradiction fun large => ?_
    have stops : emit1 op n span c = .error ⟨.operandTooLarge op n, span⟩ c := by
      rw [emit1, operand, if_neg large]
      rfl
    rw [stops] at h
    cases h
  have goes : emit1 op n span c = .ok () { c with draft :=
      { c.draft with code := (c.draft.code.opcode op).byte (.ofNat n) } } := by
    rw [emit1, operand, if_pos fits]
    rfl
  rw [goes] at h
  cases h
  exact ⟨fits, by simp [Code.opcode, Code.byte, ← Array.toList_inj]⟩

/-- One instruction is written for each number, and its operand is the number. -/
theorem forM_emit1_eq_ok : ∀ {ns : List Nat} {c d : Compilation},
    (ns.forM fun n => emit1 op n span) c = .ok () d → ∃ operands : List UInt8, operands.map UInt8.toNat = ns ∧
      d.draft.code.bytes = c.draft.code.bytes ++ (operands.flatMap fun a => [op.toByte, a]).toArray
  | [], c, d, h => by
    cases h
    exact ⟨[], rfl, by simp⟩
  | n :: ns, c, d, h => by
    change EStateM.bind (emit1 op n span) (fun _ => ns.forM fun n => emit1 op n span) c = .ok () d at h
    rw [EStateM.bind] at h
    cases first : emit1 op n span c with
    | error e c' =>
      rw [first] at h
      cases h
    | ok u c' =>
      rw [first] at h
      obtain ⟨fits, written⟩ := emit1_eq_ok first
      obtain ⟨operands, numbers, rest⟩ := forM_emit1_eq_ok h
      refine ⟨.ofNat n :: operands, ?_, ?_⟩
      · rw [List.map_cons, UInt8.toNat_ofNat_of_lt' fits, numbers]
      · rw [rest, written]
        simp

end Compile

/-! ### The agreement -/

namespace Value

variable {t : Ty} {bs : Bytes} {v : Value}

theorem increfTop_eq {m : Machine} {low : Bytes} (h : decode t bs = .ok v)
    (data : m.stack.data = low ++ bs.take t.size) : Run.increfTop t m = Run.onHeap v.incref m := by
  obtain ⟨long, read⟩ := slots_of_decode h
  have top : Run.readStack (fun s => s.top t.size) m = .ok (bs.take t.size) m := by
    have taken : (Stack.ofData (low ++ bs.take t.size) m.stack.limit).top t.size = .ok (bs.take t.size) :=
      Stack.top_ofData (List.length_take_of_le long)
    have same : Stack.ofData (low ++ bs.take t.size) m.stack.limit = m.stack := by
      refine Stack.ext_bytes ?_ rfl
      rw [← data]
      exact List.reverse_reverse _
    rw [same] at taken
    exact Run.readStack_of_ok taken
  rw [Run.increfTop, Run.bind_of_ok top, Run.bind_of_ok (Run.lift_of_ok (Ty.handlesAt_take long read))]
  rfl

/-- A slot of the value on top, counted from the top. -/
theorem handleAt_slot {s : Stack} {low : Bytes} {i : Nat} (long : t.size ≤ bs.length)
    (data : s.data = low ++ bs.take t.size) (hi : i ∈ t.slots) :
    s.handleAt (t.size - i - handleSize) = Handle.ofBytes (bs.drop i) := by
  have inside := Ty.slots_le hi
  have size : (bs.take t.size).length = t.size := List.length_take_of_le long
  have found := Stack.handleAt_top data (show i + handleSize ≤ (bs.take t.size).length by rwa [size])
  rw [size] at found
  rw [found, Ty.ofBytes_slot hi long]

theorem handleAt_distances {s : Stack} {low : Bytes} (h : decode t bs = .ok v)
    (data : s.data = low ++ bs.take t.size) : t.distances.mapM s.handleAt = .ok v.handles := by
  obtain ⟨long, read⟩ := slots_of_decode h
  rw [Ty.distances, List.mapM_map, ← read]
  exact Ty.mapM_congr fun i hi => handleAt_slot long data hi

/-- The slots of a type, the distances in compiled code and the decoded value name the same handles in the same order. -/
theorem handles_agree (h : decode t bs = .ok v) :
    (t.slots.Pairwise (· < ·) ∧ t.slots.Pairwise (fun i j => i + handleSize ≤ j) ∧
      ∀ i ∈ t.slots, i + handleSize ≤ t.size) ∧
    (∃ rs, t.slots.mapM (fun i => Handle.ofBytes (bs.drop i)) = .ok rs ∧
      ∀ heap, v.incref heap = Heap.increfs rs heap ∧ v.decref heap = Heap.decrefs rs heap) ∧
    (∀ (m : Machine) (low : Bytes), m.stack.data = low ++ bs.take t.size →
      Run.increfTop t m = Run.onHeap v.incref m ∧
      (∀ i ∈ t.slots, m.stack.handleAt (t.size - i - handleSize) = Handle.ofBytes (bs.drop i)) ∧
      ∀ l a, (t.distances.forM fun n => do let _ ← Run.execute l a .incRef n 0) m = Run.onHeap v.incref m) ∧
    ∀ (span : Span) (c d : Compilation),
      (Compile.retain t span c = .ok () d → ∃ operands : List UInt8,
        operands.map UInt8.toNat = t.slots.map (fun i => t.size - i - handleSize) ∧
        d.draft.code.bytes =
          c.draft.code.bytes ++ (operands.flatMap fun a => [Opcode.incRef.toByte, a]).toArray) ∧
      (Compile.releaseAt t.distances span c = .ok () d → ∃ operands : List UInt8,
        operands.map UInt8.toNat = t.slots.map (fun i => t.size - i - handleSize) ∧
        d.draft.code.bytes =
          c.draft.code.bytes ++ (operands.flatMap fun a => [Opcode.decRef.toByte, a]).toArray) := by
  obtain ⟨long, read⟩ := slots_of_decode h
  refine ⟨⟨t.slots_ascending, t.slotsFrom_apart 0, fun i => Ty.slots_le⟩, ⟨v.handles, read, fun heap => ⟨rfl, rfl⟩⟩,
    fun m low data => ⟨increfTop_eq h data, fun i => handleAt_slot long data, fun l a => ?_⟩,
    fun span c d => ⟨Compile.forM_emit1_eq_ok, Compile.forM_emit1_eq_ok⟩⟩
  exact Run.forM_incRef l a (handleAt_distances h data)

/-- A text, and a list in an inner tuple, above one more byte on the stack. -/
theorem handles_agree_nested :
    let t : Ty := .tuple [.int32, .string, .tuple [.bool, .list .byte], .byte]
    let bs : Bytes := [5, 0, 0, 0, 3, 0, 0, 0, 1, 0, 0, 0, 1, 4, 0, 0, 0, 2, 0, 0, 0, 9]
    let v := tuple [int32 5, string ⟨3, 1⟩, tuple [bool true, list .byte ⟨4, 2⟩], byte 9]
    let m : Machine := { stack := .ofData (7 :: bs) 64 }
    decode t bs = .ok v ∧ t.slots = [4, 13] ∧ t.distances = [10, 1] ∧
      Run.increfTop t m = Run.onHeap v.incref m ∧
      m.stack.handleAt 10 = .ok ⟨3, 1⟩ ∧ m.stack.handleAt 1 = .ok ⟨4, 2⟩ := by
  intro t bs v m
  have read : decode t bs = .ok v := rfl
  have slots : t.slots = [4, 13] := rfl
  obtain ⟨-, -, onTop, -⟩ := handles_agree read
  obtain ⟨same, found, -⟩ := onTop m [7] rfl
  refine ⟨read, slots, rfl, same, ?_, ?_⟩
  · have first := found 4 (by rw [slots]; decide)
    exact first
  · have second := found 13 (by rw [slots]; decide)
    exact second

end Value

end StackScript
