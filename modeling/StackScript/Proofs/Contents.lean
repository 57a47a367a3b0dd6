import StackScript.Machine.Step
import StackScript.Proofs.Counting
import StackScript.Proofs.GuardedData
import StackScript.Proofs.Layout

/-!
Actions on a machine whose stack and heap are given. Bytes are given from the bottom up, so that what an action takes
and leaves stands at the end.
-/
namespace StackScript

/-- The machine with the given bytes on its stack and the given heap. -/
def Machine.given (m : Machine) (data : Bytes) (heap : Heap) : Machine :=
  { m with stack := .ofData data m.stack.limit, heap := heap }

namespace Stack

variable {data bs : Bytes} {limit n : Nat}

@[simp] theorem data_ofData (data : Bytes) (limit : Nat) : (ofData data limit).data = data := List.reverse_reverse data

@[simp] theorem size_ofData (data : Bytes) (limit : Nat) : (ofData data limit).size = data.length := rfl

@[simp] theorem limit_ofData (data : Bytes) (limit : Nat) : (ofData data limit).limit = limit := rfl

theorem push_ofData (room : data.length + bs.length ≤ limit) :
    (ofData data limit).push bs = .ok (ofData (data ++ bs) limit) := by
  rw [push_eq, data_ofData, size_ofData, limit_ofData, if_neg (Nat.not_lt.2 room)]

theorem top_ofData (length : bs.length = n) : (ofData (data ++ bs) limit).top n = .ok bs := by
  have enough : n ≤ (data ++ bs).length := by
    rw [List.length_append]
    omega
  have taken : ((data ++ bs).reverse.take n).reverse = bs := by
    rw [List.reverse_append, List.take_left' (by rw [List.length_reverse, length]), List.reverse_reverse]
  unfold top need
  rw [size_ofData, if_pos enough]
  exact congrArg Except.ok taken

theorem pull_ofData (length : bs.length = n) : (ofData (data ++ bs) limit).pull n = .ok (bs, ofData data limit) := by
  have rest : (ofData (data ++ bs) limit).discard n = ofData data limit := by
    refine ext_bytes ?_ rfl
    change (data ++ bs).reverse.drop n = data.reverse
    rw [List.reverse_append, List.drop_left' (by rw [List.length_reverse, length])]
  unfold pull
  rw [top_ofData length, rest]
  rfl

/-- A copy of bytes that lie below others. -/
theorem copy_ofData {low high : Bytes} {start : Nat} (below : low.length = start) (length : bs.length = n)
    (room : (low ++ bs ++ high).length + n ≤ limit) :
    (ofData (low ++ bs ++ high) limit).copy start n = .ok (ofData (low ++ bs ++ high ++ bs) limit) := by
  have enough : start + n ≤ (low ++ bs ++ high).length := by
    simp only [List.length_append]
    omega
  have between := (ofData (low ++ bs ++ high) limit).data_between enough
  rw [data_ofData, List.append_assoc, List.drop_left' below, List.take_left' length, ← List.append_assoc] at between
  unfold copy need
  rw [size_ofData, if_pos enough]
  change (ofData (low ++ bs ++ high) limit).push _ = _
  rw [← size_ofData, ← between, push_ofData (by rwa [length])]

end Stack

namespace Run

variable {α β : Type} {x : Run α} {m n : Machine} {a : α} {e : Fault} {data bs : Bytes} {h h' : Heap}

/-! ### One action after another -/

theorem bind_of_ok (first : x m = .ok a n) (f : α → Run β) : (x >>= f) m = f a n := by
  change EStateM.bind x f m = _
  rw [EStateM.bind, first]

theorem bind_of_error (first : x m = .error e n) (f : α → Run β) : (x >>= f) m = .error e n := by
  change EStateM.bind x f m = _
  rw [EStateM.bind, first]

theorem lift_of_ok {r : Except Fault α} (result : r = .ok a) : lift r m = .ok a m := by
  rw [result]
  rfl

/-! ### The stack -/

theorem setStack_given {f : Stack → Except Fault Stack} {data' : Bytes}
    (changes : f (.ofData data m.stack.limit) = .ok (.ofData data' m.stack.limit)) :
    setStack f (m.given data h) = .ok () (m.given data' h) := by
  unfold setStack
  simp only [Machine.given, changes]

theorem push_given (room : data.length + bs.length ≤ m.stack.limit) :
    push bs (m.given data h) = .ok () (m.given (data ++ bs) h) := setStack_given (Stack.push_ofData room)

theorem onStack_given {f : Stack → Except Fault (α × Stack)} {data' : Bytes}
    (changes : f (.ofData data m.stack.limit) = .ok (a, .ofData data' m.stack.limit)) :
    onStack f (m.given data h) = .ok a (m.given data' h) := by
  unfold onStack
  simp only [Machine.given, changes]

theorem pull_given {k : Nat} (length : bs.length = k) : pull k (m.given (data ++ bs) h) = .ok bs (m.given data h) :=
  onStack_given (Stack.pull_ofData length)

theorem pullHandle_given (r : Handle) : pullHandle (m.given (data ++ r.toBytes) h) = .ok r (m.given data h) := by
  refine onStack_given ?_
  rw [Stack.pullHandle, Stack.pull_ofData r.length_toBytes]
  simp [bind, Except.bind, pure, Except.pure, Handle.ofBytes_toBytes]

theorem pullNat_given {k i : Nat} (fits : i < Nat.pow 256 k) :
    pullNat k (m.given (data ++ Bytes.ofNat k i) h) = .ok i (m.given data h) := by
  refine onStack_given ?_
  rw [Stack.pullNat, Stack.pull_ofData (Bytes.length_ofNat k i)]
  simp only [bind, Except.bind, pure, Except.pure, Bytes.toNat_ofNat, Nat.mod_eq_of_lt fits]

theorem pullInt32_given (i : Int32) :
    pullInt32 (m.given (data ++ (Value.int32 i).encode) h) = .ok i (m.given data h) := by
  have fits : i.toUInt32.toNat < Nat.pow 256 4 := i.toUInt32.toNat_lt
  have pulled : pullNat 4 (m.given (data ++ (Value.int32 i).encode) h) = .ok i.toUInt32.toNat (m.given data h) :=
    pullNat_given fits
  rw [pullInt32, bind_of_ok pulled, UInt32.ofNat_toNat]
  rfl

theorem pushInt32_given {i : Int32} (room : data.length + 4 ≤ m.stack.limit) :
    pushInt32 i (m.given data h) = .ok () (m.given (data ++ (Value.int32 i).encode) h) :=
  push_given (by rwa [Bytes.length_ofNat])

theorem top_given {k : Nat} (length : bs.length = k) :
    readStack (fun s => s.top k) (m.given (data ++ bs) h) = .ok bs (m.given (data ++ bs) h) := by
  unfold readStack
  simp only [Machine.given, Stack.top_ofData length]

/-! ### The heap -/

theorem readHeap_given {f : Heap → Except Fault α} (reads : f h = .ok a) :
    readHeap f (m.given data h) = .ok a (m.given data h) := by
  unfold readHeap
  simp only [Machine.given, reads]

theorem onHeap_given {f : Heap → Outcome Heap α} (changes : f h = (h', .ok a)) :
    onHeap f (m.given data h) = .ok a (m.given data h') := by
  unfold onHeap
  simp only [Machine.given, changes]

/-- A new cell takes over the references in its content. -/
theorem alloc_given (m : Machine) (data : Bytes) {x : Content} {rs roots : List Handle} (read : x.handles = .ok rs)
    (balanced : h.Balanced (rs ++ roots)) (room : (h.alloc x).1.cells.size ≤ Heap.capacity) :
    ∃ r h', alloc x (m.given data h) = .ok r (m.given data h') ∧ h'.filled? r = some x ∧ h'.Balanced (r :: roots) := by
  have allocates := Heap.allocates balanced.tidy x room
  obtain ⟨c, -, filled⟩ := allocates.self
  have owned : h.Balanced (x.held ++ roots) := by rwa [Content.held_eq read]
  exact ⟨(h.alloc x).2, (h.alloc x).1, onHeap_given rfl, Heap.filled?_eq_some.2 ⟨c, filled⟩,
    owned.alloc ⟨rs, read⟩ room allocates⟩

theorem decref_given (m : Machine) (data : Bytes) {r : Handle} {roots : List Handle}
    (balanced : h.Balanced (r :: roots)) :
    ∃ h' b, decref r (m.given data h) = .ok b (m.given data h') ∧ h'.Balanced roots ∧ h.Keeps h' := by
  obtain ⟨h', b, less, left, keeps⟩ := balanced.decref
  exact ⟨h', b, onHeap_given less, left, keeps⟩

/-- References are taken to cells that are there. -/
theorem increfs_given (m : Machine) (data : Bytes) {rs roots : List Handle} (balanced : h.Balanced roots)
    (live : ∀ r ∈ rs, r.isNull = false → h.Holds r) :
    ∃ h', onHeap (Heap.increfs rs) (m.given data h) = .ok () (m.given data h') ∧ h'.Balanced (rs ++ roots) ∧
      h'.cells.size = h.cells.size ∧ ∀ r, h'.filled? r = h.filled? r := by
  obtain ⟨h', more, balanced', size, filled⟩ := balanced.increfs live
  exact ⟨h', onHeap_given more, balanced', size, filled⟩

theorem increfTop_given (m : Machine) (data : Bytes) {t : Ty} {rs roots : List Handle} (length : bs.length = t.size)
    (read : t.handlesAt 0 bs = .ok rs) (balanced : h.Balanced roots) (live : ∀ r ∈ rs, r.isNull = false → h.Holds r) :
    ∃ h', increfTop t (m.given (data ++ bs) h) = .ok () (m.given (data ++ bs) h') ∧ h'.Balanced (rs ++ roots) ∧
      h.Keeps h' := by
  obtain ⟨h', more, balanced', size, filled⟩ := increfs_given m (data ++ bs) balanced live
  refine ⟨h', ?_, balanced', size, fun r x content => filled r ▸ content⟩
  rw [increfTop, bind_of_ok (top_given length), bind_of_ok (lift_of_ok read), more]

end Run

end StackScript
