import StackScript.Machine.Step
import StackScript.Proofs.Layout
import StackScript.Proofs.Meets

/-!
Rules for the actions of the machine, by what lies on its stack. Each rule gives the stack, the frames and the heap
that are left, and names the only fault that is possible.
-/
namespace StackScript

/-- The bytes on the stack from the top down, the call frames and the heap. -/
structure Machine.At (m : Machine) (bytes : Bytes) (frames : List Frame) (heap : Heap) : Prop where
  bytes : m.stack.bytes = bytes
  frames : m.frames = frames
  heap : m.heap = heap

theorem Machine.at_self (m : Machine) : m.At m.stack.bytes m.frames m.heap := ⟨rfl, rfl, rfl⟩

namespace Stack

variable {s t : Stack} {xs ys bs : Bytes}

theorem size_append_eq (h : s.bytes = xs ++ ys) : s.size = xs.length + ys.length := by
  rw [s.size_eq, h, List.length_append]

theorem push_cases (s : Stack) (bs : Bytes) :
    s.push bs = .error (.stackOverflow s.limit) ∨
      ∃ t, s.push bs = .ok t ∧ t.bytes = bs.reverse ++ s.bytes ∧ t.limit = s.limit := by
  unfold push
  split
  · exact .inl rfl
  · exact .inr ⟨_, rfl, rfl, rfl⟩

theorem top_eq (h : s.bytes = xs ++ ys) : s.top xs.length = .ok xs.reverse := by
  have := size_append_eq h
  simp [top, need, this, h, bind, Except.bind, pure, Except.pure]

theorem pull_eq (h : s.bytes = xs ++ ys) : s.pull xs.length = .ok (xs.reverse, s.discard xs.length) := by
  simp [pull, top_eq h, bind, Except.bind, pure, Except.pure]

theorem bytes_discard (h : s.bytes = xs ++ ys) : (s.discard xs.length).bytes = ys := by
  simp [discard, h]

end Stack

section

variable {m : Machine} {bytes rest xs ys bs : Bytes} {frames : List Frame} {heap heap' : Heap} {α : Type}
  {bad : Fault → Machine → Prop}

open Run

theorem meets_push {ok : Unit → Machine → Prop} (hm : m.At bytes frames heap)
    (hok : ∀ m', m'.At (bs.reverse ++ bytes) frames heap → ok () m')
    (hbad : bad (.stackOverflow m.stack.limit) m) : Meets (push bs) m ok bad := by
  unfold Meets push setStack
  rcases m.stack.push_cases bs with e | ⟨t, e, hb, -⟩
  · simpa only [e] using hbad
  · simp only [e]
    exact hok _ ⟨by rw [hb, hm.bytes], hm.frames, hm.heap⟩

theorem meets_onStack {f : Stack → Except Fault (α × Stack)} {a : α} {s : Stack} {ok : α → Machine → Prop}
    (hm : m.At bytes frames heap) (e : f m.stack = .ok (a, s)) (hs : s.bytes = rest)
    (hok : ∀ m', m'.At rest frames heap → ok a m') : Meets (onStack f) m ok bad := by
  unfold Meets onStack
  simp only [e]
  exact hok _ ⟨hs, hm.frames, hm.heap⟩

theorem meets_setStack {f : Stack → Except Fault Stack} {s : Stack} {ok : Unit → Machine → Prop}
    (hm : m.At bytes frames heap) (e : f m.stack = .ok s) (hs : s.bytes = rest)
    (hok : ∀ m', m'.At rest frames heap → ok () m') : Meets (setStack f) m ok bad := by
  unfold Meets setStack
  simp only [e]
  exact hok _ ⟨hs, hm.frames, hm.heap⟩

theorem meets_readStack {f : Stack → Except Fault α} {a : α} {ok : α → Machine → Prop}
    (e : f m.stack = .ok a) (hok : ok a m) : Meets (readStack f) m ok bad := by
  unfold Meets readStack
  simpa only [e] using hok

theorem meets_readHeap {f : Heap → Except Fault α} {a : α} {ok : α → Machine → Prop}
    (hm : m.At bytes frames heap) (e : f heap = .ok a) (hok : ok a m) : Meets (readHeap f) m ok bad := by
  unfold Meets readHeap
  simpa only [hm.heap, e] using hok

theorem meets_onHeap {f : Heap → Outcome Heap α} {a : α} {ok : α → Machine → Prop}
    (hm : m.At bytes frames heap) (e : f heap = (heap', .ok a))
    (hok : ∀ m', m'.At bytes frames heap' → ok a m') : Meets (onHeap f) m ok bad := by
  unfold Meets onHeap
  obtain ⟨hb, hf, rfl⟩ := hm
  simp only [e]
  exact hok _ ⟨hb, hf, rfl⟩

theorem meets_lift {r : Except Fault α} {a : α} {ok : α → Machine → Prop} (e : r = .ok a) (hok : ok a m) :
    Meets (lift r) m ok bad := by
  subst e
  exact hok

theorem meets_record {e : Event} {ok : Unit → Machine → Prop} (hm : m.At bytes frames heap)
    (hok : ∀ m', m'.At bytes frames heap → ok () m') : Meets (record e) m ok bad :=
  hok _ ⟨hm.bytes, hm.frames, hm.heap⟩

theorem meets_notice {e : Event} {ok : Unit → Machine → Prop} (hm : m.At bytes frames heap)
    (hok : ∀ m', m'.At bytes frames heap → ok () m') : Meets (notice e) m ok bad := by
  unfold notice
  rw [meets_modify]
  refine hok _ ?_
  split
  · exact ⟨hm.bytes, hm.frames, hm.heap⟩
  · exact hm

theorem meets_pull {n : Nat} {ok : Bytes → Machine → Prop} (hm : m.At (xs ++ rest) frames heap)
    (hl : xs.length = n) (hok : ∀ m', m'.At rest frames heap → ok xs.reverse m') : Meets (pull n) m ok bad := by
  subst hl
  exact meets_onStack hm (Stack.pull_eq hm.bytes) (Stack.bytes_discard hm.bytes) hok

theorem meets_pullHandle {r : Handle} {ok : Handle → Machine → Prop}
    (hm : m.At (r.toBytes.reverse ++ rest) frames heap) (hok : ∀ m', m'.At rest frames heap → ok r m') :
    Meets pullHandle m ok bad := by
  have hl : r.toBytes.reverse.length = handleSize := by rw [List.length_reverse, r.length_toBytes]
  refine meets_onStack hm ?_ (Stack.bytes_discard hm.bytes) hok
  rw [Stack.pullHandle, ← hl, Stack.pull_eq hm.bytes, List.reverse_reverse]
  simp [Handle.ofBytes_toBytes, bind, Except.bind, pure, Except.pure]

theorem meets_pullNat {n : Nat} {ok : Nat → Machine → Prop} (hm : m.At (xs ++ rest) frames heap)
    (hl : xs.length = n) (hok : ∀ m', m'.At rest frames heap → ok (Bytes.toNat xs.reverse) m') :
    Meets (pullNat n) m ok bad := by
  subst hl
  refine meets_onStack hm ?_ (Stack.bytes_discard hm.bytes) hok
  simp [Stack.pullNat, Stack.pull_eq hm.bytes, bind, Except.bind, pure, Except.pure]

theorem meets_pullBool {ok : Bool → Machine → Prop} (hm : m.At (xs ++ rest) frames heap) (hl : xs.length = 1)
    (hok : ∀ x m', m'.At rest frames heap → ok x m') : Meets pullBool m ok bad := by
  unfold pullBool
  rw [meets_bind]
  exact meets_pull hm hl fun m' hm' => hok _ m' hm'

theorem meets_pullInt32 {ok : Int32 → Machine → Prop} (hm : m.At (xs ++ rest) frames heap) (hl : xs.length = 4)
    (hok : ∀ x m', m'.At rest frames heap → ok x m') : Meets pullInt32 m ok bad := by
  unfold pullInt32
  rw [meets_bind]
  exact meets_pullNat hm hl fun m' hm' => hok _ m' hm'

theorem meets_pullInt64 {ok : Int64 → Machine → Prop} (hm : m.At (xs ++ rest) frames heap) (hl : xs.length = 8)
    (hok : ∀ x m', m'.At rest frames heap → ok x m') : Meets pullInt64 m ok bad := by
  unfold pullInt64
  rw [meets_bind]
  exact meets_pullNat hm hl fun m' hm' => hok _ m' hm'

theorem meets_pullWord {w : Width} {ok : Word w → Machine → Prop} (hm : m.At (xs ++ rest) frames heap)
    (hl : xs.length = w.size) (hok : ∀ x m', m'.At rest frames heap → ok x m') : Meets (pullWord w) m ok bad := by
  unfold pullWord
  rw [meets_bind]
  exact meets_pullNat hm hl fun m' hm' => hok _ m' hm'

theorem meets_pullValue {t : Ty} {v : Value} {ok : Value → Machine → Prop} (hm : m.At (xs ++ rest) frames heap)
    (hl : xs.length = t.size) (hv : Value.decode t xs.reverse = .ok v)
    (hok : ∀ m', m'.At rest frames heap → ok v m') : Meets (pullValue t) m ok bad := by
  refine meets_onStack hm ?_ (hl ▸ Stack.bytes_discard hm.bytes) hok
  simp [Stack.pullValue, ← hl, Stack.top_eq hm.bytes, hv, bind, Except.bind, pure, Except.pure]

theorem meets_top {n : Nat} {ok : Bytes → Machine → Prop} (hm : m.At (xs ++ rest) frames heap)
    (hl : xs.length = n) (hok : ok xs.reverse m) : Meets (readStack fun s => s.top n) m ok bad :=
  meets_readStack (hl ▸ Stack.top_eq hm.bytes) hok

theorem meets_handleAt {n : Nat} {r : Handle} {ok : Handle → Machine → Prop}
    (hm : m.At (xs ++ (r.toBytes.reverse ++ rest)) frames heap) (hl : xs.length = n) (hok : ok r m) :
    Meets (readStack fun s => s.handleAt n) m ok bad := by
  refine meets_readStack ?_ hok
  have hsize := Stack.size_append_eq hm.bytes
  have hr : r.toBytes.reverse.length = handleSize := by rw [List.length_reverse, r.length_toBytes]
  have hn : n + handleSize ≤ m.stack.size := by
    rw [hsize, List.length_append, hr]
    omega
  have htake : ((m.stack.bytes.drop n).take handleSize).reverse = r.toBytes := by
    rw [hm.bytes, List.drop_left' hl, List.take_left' hr, List.reverse_reverse]
  simp [Stack.handleAt, Stack.need, hn, htake, Handle.ofBytes_toBytes, bind, Except.bind]

theorem meets_clearHandleAt {n : Nat} {ok : Unit → Machine → Prop} (hm : m.At (xs ++ (ys ++ rest)) frames heap)
    (hl : xs.length = n) (hy : ys.length = handleSize)
    (hok : ∀ m', m'.At (xs ++ (List.replicate handleSize 0 ++ rest)) frames heap → ok () m') :
    Meets (setStack fun s => s.clearHandleAt n) m ok bad := by
  have hsize := Stack.size_append_eq hm.bytes
  have hn : n + handleSize ≤ m.stack.size := by
    rw [hsize, List.length_append, hy]
    omega
  refine meets_setStack hm (by rw [Stack.clearHandleAt, dif_pos hn]) ?_ hok
  simp only [hm.bytes]
  rw [List.take_left' hl, ← List.append_assoc xs ys, List.drop_left' (by rw [List.length_append, hl, hy]),
    List.append_assoc]

theorem meets_drop {skip size : Nat} {ok : Unit → Machine → Prop} (hm : m.At (xs ++ (ys ++ rest)) frames heap)
    (hl : xs.length = skip) (hy : ys.length = size) (hok : ∀ m', m'.At (xs ++ rest) frames heap → ok () m') :
    Meets (setStack fun s => s.drop skip size) m ok bad := by
  have hsize := Stack.size_append_eq hm.bytes
  rw [List.length_append] at hsize
  have h₁ : skip ≤ m.stack.size := by omega
  have h₂ : skip + size ≤ m.stack.size := by omega
  refine meets_setStack hm (by rw [Stack.drop, if_pos h₁, dif_pos h₂]) ?_ hok
  simp only [hm.bytes]
  rw [List.take_left' hl, ← List.append_assoc, List.drop_left' (by rw [List.length_append, hl, hy])]

theorem meets_copy {start size : Nat} {ok : Unit → Machine → Prop} (hm : m.At (xs ++ (ys ++ rest)) frames heap)
    (hr : rest.length = start) (hy : ys.length = size)
    (hok : ∀ m', m'.At (ys ++ (xs ++ (ys ++ rest))) frames heap → ok () m')
    (hbad : bad (.stackOverflow m.stack.limit) m) : Meets (setStack fun s => s.copy start size) m ok bad := by
  have hsize := Stack.size_append_eq hm.bytes
  rw [List.length_append] at hsize
  have hneed : start + size ≤ m.stack.size := by omega
  have hskip : m.stack.size - (start + size) = xs.length := by omega
  have hcopy : m.stack.copy start size = m.stack.push ys.reverse := by
    simp only [Stack.copy, Stack.need, if_pos hneed, hskip, hm.bytes, List.drop_left, bind, Except.bind]
    rw [List.take_left' hy]
  have : Meets (push ys.reverse) m ok bad := meets_push hm (by simpa using hok) hbad
  unfold Meets setStack
  unfold Meets push setStack at this
  simpa only [hcopy] using this

theorem meets_pushHandle {r : Handle} {ok : Unit → Machine → Prop} (hm : m.At bytes frames heap)
    (hok : ∀ m', m'.At (r.toBytes.reverse ++ bytes) frames heap → ok () m')
    (hbad : bad (.stackOverflow m.stack.limit) m) : Meets (pushHandle r) m ok bad :=
  meets_push hm hok hbad

theorem meets_alloc {c : Content} {ok : Handle → Machine → Prop} (hm : m.At bytes frames heap)
    (hok : ∀ m', m'.At bytes frames (heap.alloc c).1 → ok (heap.alloc c).2 m') : Meets (alloc c) m ok bad :=
  meets_onHeap hm rfl hok

theorem meets_incref {r : Handle} {ok : Unit → Machine → Prop} (hm : m.At bytes frames heap)
    (e : heap.incref r = (heap', .ok ())) (hok : ∀ m', m'.At bytes frames heap' → ok () m') :
    Meets (incref r) m ok bad :=
  meets_onHeap hm e hok

theorem meets_decref {r : Handle} {b : Bool} {ok : Bool → Machine → Prop} (hm : m.At bytes frames heap)
    (e : heap.decref r = (heap', .ok b)) (hok : ∀ m', m'.At bytes frames heap' → ok b m') :
    Meets (decref r) m ok bad :=
  meets_onHeap hm e hok

theorem meets_pushFrame {f : Frame} {ok : Unit → Machine → Prop} (hm : m.At bytes frames heap)
    (hok : ∀ m', m'.At bytes (f :: frames) heap → ok () m') : Meets (pushFrame f) m ok bad :=
  meets_modify.2 (hok _ ⟨hm.bytes, congrArg (f :: ·) hm.frames, hm.heap⟩)

theorem meets_popFrame {f : Frame} {ok : Frame → Machine → Prop} (hm : m.At bytes (f :: frames) heap)
    (hok : ∀ m', m'.At bytes frames heap → ok f m') : Meets popFrame m ok bad := by
  unfold Meets popFrame
  simp only [hm.frames]
  exact hok _ ⟨hm.bytes, rfl, hm.heap⟩

end

/-- A counted step leaves stack, frames and heap, and can only be broken off. -/
theorem meets_count (l : Library) (a : Activation) (b : UInt8) (m : Machine) :
    Meets (Run.count l a b) m (fun _ m' => m'.stack = m.stack ∧ m'.At m.stack.bytes m.frames m.heap)
      fun e m' => (∃ n, e = .aborted n) ∧ m'.At m.stack.bytes m.frames m.heap := by
  unfold Run.count
  simp only [meets_bind, meets_modify, meets_get]
  repeat' split
  all_goals
    simp only [meets_bind, meets_throw, meets_modify, meets_pure, Run.record]
    first
    | exact ⟨⟨_, rfl⟩, rfl, rfl, rfl⟩
    | exact ⟨trivial, rfl, rfl, rfl⟩

end StackScript
