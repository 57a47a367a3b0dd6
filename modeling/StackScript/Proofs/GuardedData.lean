import StackScript.Value
import StackScript.Stack

/-!
Reading and changing bytes with every bound checked. A slice that does not lie within its bytes, or a difference that
would be negative, is a slip and ends everything, unlike a fault, which the machine reports. The operations here take
positions from the bottom of the stack up and cut slices where they read, and are shown to do what those of the stack,
of handles and of values do, without a slip.
-/
namespace StackScript

/-- What nothing in the machine is prepared for. -/
inductive Slip
  | slice (start stop length : Nat)
  | index (i length : Nat)
  | subtraction (a b : Nat)
  | division
  /-- More cells are freed than there are. -/
  | endless
deriving DecidableEq, Repr

inductive Halt
  | fault (e : Fault)
  | slip (p : Slip)
deriving DecidableEq, Repr

/-- An outcome in which no slip is possible. -/
def guarded {α : Type} (r : Except Fault α) : Except Halt α := r.mapError .fault

section

variable {α β : Type}

@[simp] theorem guarded_ok (a : α) : guarded (.ok a) = .ok a := rfl

@[simp] theorem guarded_error (e : Fault) : guarded (.error e : Except Fault α) = .error (.fault e) := rfl

@[simp] theorem guarded_pure (a : α) : guarded (pure a) = pure a := rfl

@[simp] theorem guarded_bind (r : Except Fault α) (f : α → Except Fault β) :
    guarded (r >>= f) = guarded r >>= fun a => guarded (f a) := by
  cases r <;> rfl

theorem guarded_map (r : Except Fault α) (f : α → β) : guarded (r.map f) = (guarded r).map f := by
  cases r <;> rfl

end

/-! ### Bytes -/

def minus (a b : Nat) : Except Halt Nat :=
  if b ≤ a then .ok (a - b) else .error (.slip (.subtraction a b))

theorem minus_eq {a b : Nat} (h : b ≤ a) : minus a b = .ok (a - b) := if_pos h

namespace Bytes

/-- The bytes from one position up to another. -/
def slice (bs : Bytes) (start stop : Nat) : Except Halt Bytes :=
  if start ≤ stop ∧ stop ≤ bs.length then .ok ((bs.drop start).take (stop - start))
  else .error (.slip (.slice start stop bs.length))

def byteAt (bs : Bytes) (i : Nat) : Except Halt UInt8 :=
  match bs[i]? with
  | some b => .ok b
  | none => .error (.slip (.index i bs.length))

/-- Bytes that fill a buffer of `n`. -/
def exactly (n : Nat) (bs : Bytes) : Except Halt Bytes :=
  if bs.length = n then .ok bs else .error (.slip (.slice 0 n bs.length))

variable {bs : Bytes} {start stop n : Nat}

theorem slice_eq (h : start ≤ stop) (h' : stop ≤ bs.length) :
    bs.slice start stop = .ok ((bs.drop start).take (stop - start)) := if_pos ⟨h, h'⟩

theorem slice_end (h : start ≤ bs.length) : bs.slice start bs.length = .ok (bs.drop start) := by
  rw [slice_eq h (Nat.le_refl _), List.take_of_length_le (Nat.le_of_eq List.length_drop)]

theorem slice_front (h : n ≤ bs.length) : bs.slice 0 n = .ok (bs.take n) := by
  rw [slice_eq (Nat.zero_le n) h, List.drop_zero, Nat.sub_zero]

theorem byteAt_zero (h : 0 < bs.length) : bs.byteAt 0 = .ok (bs.headD 0) := by
  cases bs with
  | nil => cases h
  | cons b bs => rfl

end Bytes

/-! ### Handles -/

namespace Handle

/-- Reads the handle in the first eight bytes. -/
def load (bs : Bytes) : Except Halt Handle :=
  if bs.length < handleSize then .error (.fault (.stackUnderflow handleSize bs.length))
  else do
    let index ← bs.slice 0 4
    let generation ← bs.slice 4 handleSize
    return ⟨.ofNat (Bytes.toNat index), .ofNat (Bytes.toNat generation)⟩

theorem load_eq (bs : Bytes) : load bs = guarded (ofBytes bs) := by
  unfold load ofBytes
  split
  · rfl
  · next h =>
    have h8 : handleSize ≤ bs.length := Nat.le_of_not_lt h
    rw [Bytes.slice_front (Nat.le_trans (by decide) h8), Bytes.slice_eq (by decide) h8]
    rfl

theorem ofBytes_take {bs : Bytes} (h : handleSize ≤ bs.length) : ofBytes (bs.take handleSize) = ofBytes bs := by
  unfold ofBytes
  rw [List.length_take, Nat.min_eq_left h, if_neg (Nat.lt_irrefl _), if_neg (Nat.not_lt.2 h), List.take_take,
    List.drop_take, List.take_take]
  rfl

end Handle

namespace Ty

mutual

/-- Handles lie within the value. -/
theorem slotsFrom_le : ∀ (t : Ty) (base : Nat), ∀ i ∈ t.slotsFrom base, base ≤ i ∧ i + handleSize ≤ base + t.size
  | .tuple ts, base, i, hi => slotsOf_le ts base i hi
  | .string, base, i, hi | .list _, base, i, hi | .function _ _, base, i, hi => by
    obtain rfl := List.mem_singleton.1 hi
    exact ⟨Nat.le_refl _, Nat.le_refl _⟩
  | .unknown, _, _, hi | .void, _, _, hi | .module, _, _, hi | .bool, _, _, hi | .byte, _, _, hi | .char, _, _, hi
  | .int32, _, _, hi | .int64, _, _, hi | .float32, _, _, hi | .float64, _, _, hi => by cases hi

theorem slotsOf_le : ∀ (ts : List Ty) (base : Nat), ∀ i ∈ slotsOf base ts, base ≤ i ∧ i + handleSize ≤ base + sizes ts
  | [], _, _, hi => by cases hi
  | t :: ts, base, i, hi => by
    rw [sizes]
    rcases List.mem_append.1 hi with hi | hi
    · have := slotsFrom_le t base i hi
      omega
    · have := slotsOf_le ts (base + t.size) i hi
      omega

end

theorem slots_le {t : Ty} {i : Nat} (hi : i ∈ t.slots) : i + handleSize ≤ t.size := by
  have := (slotsFrom_le t 0 i hi).2
  omega

/-- What follows the bytes of a value makes no difference to the handle at a slot. -/
theorem ofBytes_slot {t : Ty} {bs : Bytes} {i : Nat} (hi : i ∈ t.slots) (long : t.size ≤ bs.length) :
    Handle.ofBytes ((bs.take t.size).drop i) = Handle.ofBytes (bs.drop i) := by
  have inside := slots_le hi
  have inner : handleSize ≤ ((bs.take t.size).drop i).length := by
    rw [List.length_drop, List.length_take_of_le long]
    omega
  have outer : handleSize ≤ (bs.drop i).length := by
    rw [List.length_drop]
    omega
  rw [← Handle.ofBytes_take inner, ← Handle.ofBytes_take outer, List.drop_take, List.take_take,
    Nat.min_eq_left (by omega)]

/-- Reads the handles of a value that starts after `skip` bytes. -/
def loadHandlesAt (t : Ty) (skip : Nat) (bs : Bytes) : Except Halt (List Handle) :=
  t.slots.mapM fun slot => do Handle.load (← bs.slice (skip + slot) bs.length)

def loadHandlesIn : List Ty → Nat → Bytes → Except Halt (List Handle)
  | [], _, _ => .ok []
  | t :: ts, skip, bs => do
    let hs ← t.loadHandlesAt skip bs
    let rest ← loadHandlesIn ts (skip + t.size) bs
    return hs ++ rest

theorem mapM_congr {f g : Nat → Except Fault Handle} {slots : List Nat} (same : ∀ i ∈ slots, f i = g i) :
    slots.mapM f = slots.mapM g := by
  induction slots with
  | nil => rfl
  | cons i slots ih => rw [List.mapM_cons, List.mapM_cons, same i (.head _), ih fun j hj => same j (.tail _ hj)]

theorem mapM_guarded {α : Type} {f : α → Except Halt Handle} {g : α → Except Fault Handle} {xs : List α}
    (h : ∀ x ∈ xs, f x = guarded (g x)) : xs.mapM f = guarded (xs.mapM g) := by
  induction xs with
  | nil => rfl
  | cons x xs ih =>
    simp only [List.mapM_cons, guarded_bind, guarded_pure, h x (.head _), ih fun y hy => h y (.tail _ hy)]

theorem loadHandlesAt_eq {t : Ty} {skip : Nat} {bs : Bytes} (h : skip + t.size ≤ bs.length) :
    t.loadHandlesAt skip bs = guarded (t.handlesAt skip bs) := by
  refine mapM_guarded fun slot hslot => ?_
  have := slots_le hslot
  rw [Bytes.slice_end (by omega)]
  exact Handle.load_eq _

theorem loadHandlesIn_eq {ts : List Ty} {skip : Nat} {bs : Bytes} (h : skip + sizes ts ≤ bs.length) :
    loadHandlesIn ts skip bs = guarded (handlesIn ts skip bs) := by
  induction ts generalizing skip with
  | nil => rfl
  | cons t ts ih =>
    rw [sizes] at h
    have first : skip + t.size ≤ bs.length := by omega
    have rest : skip + t.size + sizes ts ≤ bs.length := by omega
    simp only [loadHandlesIn, handlesIn, guarded_bind, guarded_pure, loadHandlesAt_eq first, ih rest]

end Ty

/-! ### Content -/

namespace Content

/-- Reads the handles of elements, each cut out of the bytes of the list. -/
def loadElements (elem : Ty) (bytes : Bytes) : Nat → Nat → Except Halt (List Handle)
  | 0, _ => .ok []
  | n + 1, start => do
    let item ← bytes.slice start (start + elem.size)
    let hs ← elem.loadHandlesAt 0 item
    let rest ← loadElements elem bytes n (start + elem.size)
    return hs ++ rest

def loadHandles : Content → Except Halt (List Handle)
  | string _ => .ok []
  | list elem bytes =>
    if elem.slots.isEmpty then .ok [] else loadElements elem bytes (count elem bytes) 0
  | closure c => Ty.loadHandlesIn c.types 0 c.bytes

/-- A closure holds as many bytes as its types take. -/
def IsWhole : Content → Prop
  | closure c => c.bytes.length = Ty.sizes c.types
  | _ => True

theorem count_le (elem : Ty) (bytes : Bytes) : count elem bytes * elem.size ≤ bytes.length := by
  unfold count
  split
  · next h => rw [h, Nat.mul_zero]; exact Nat.zero_le _
  · exact Nat.div_mul_le_self _ _

theorem handlesAt_item {elem : Ty} {bytes : Bytes} {start : Nat} (h : start + elem.size ≤ bytes.length) :
    elem.handlesAt 0 ((bytes.drop start).take elem.size) = elem.handlesAt start bytes := by
  refine Ty.mapM_congr fun slot hslot => ?_
  have long : elem.size ≤ (bytes.drop start).length := by
    rw [List.length_drop]
    omega
  rw [Nat.zero_add, Ty.ofBytes_slot hslot long, List.drop_drop]

theorem loadElements_eq {elem : Ty} {bytes : Bytes} {n start : Nat} (h : start + n * elem.size ≤ bytes.length) :
    loadElements elem bytes n start = guarded (Ty.handlesIn (List.replicate n elem) start bytes) := by
  induction n generalizing start with
  | zero => rfl
  | succ n ih =>
    rw [Nat.succ_mul] at h
    have item : start + elem.size ≤ bytes.length := by omega
    have length : ((bytes.drop start).take elem.size).length = elem.size := by
      rw [List.length_take, List.length_drop]
      omega
    have cut : bytes.slice start (start + elem.size) = .ok ((bytes.drop start).take elem.size) := by
      rw [Bytes.slice_eq (Nat.le_add_right _ _) item, Nat.add_sub_cancel_left]
    have inside : 0 + elem.size ≤ ((bytes.drop start).take elem.size).length := Nat.le_of_eq ((Nat.zero_add _).trans length.symm)
    have head := Ty.loadHandlesAt_eq inside
    rw [handlesAt_item item] at head
    simp only [List.replicate_succ, Ty.handlesIn, guarded_bind, guarded_pure, ← head, ← ih (by omega : start + elem.size +
      n * elem.size ≤ bytes.length), loadElements, cut]
    rfl

theorem loadHandles_eq {x : Content} (h : x.IsWhole) : x.loadHandles = guarded x.handles := by
  cases x with
  | string s => rfl
  | list elem bytes =>
    change (if elem.slots.isEmpty then .ok [] else loadElements elem bytes (count elem bytes) 0) =
      guarded (if elem.slots.isEmpty then .ok [] else Ty.handlesIn (List.replicate (count elem bytes) elem) 0 bytes)
    split
    · rfl
    · exact loadElements_eq (by rw [Nat.zero_add]; exact count_le elem bytes)
  | closure c =>
    have hc : c.bytes.length = Ty.sizes c.types := h
    exact Ty.loadHandlesIn_eq (by omega)

end Content

/-! ### Values -/

namespace Value

/-- A number of as many bytes at the start. -/
def loadNat (n : Nat) (bs : Bytes) : Except Halt Nat := do
  let buffer ← Bytes.exactly n (← bs.slice 0 n)
  return Bytes.toNat buffer

mutual

def loadWhole : Ty → Bytes → Except Halt Value
  | .unknown, _ | .void, _ | .module, _ => .ok void
  | .bool, bs => do return bool ((← bs.byteAt 0) != 0)
  | .byte, bs => do return byte (← bs.byteAt 0)
  | .char, bs => do guarded (charOf (← loadNat 4 bs))
  | .int32, bs => do return int32 (UInt32.ofNat (← loadNat 4 bs)).toInt32
  | .int64, bs => do return int64 (UInt64.ofNat (← loadNat 8 bs)).toInt64
  | .float32, bs => do return float32 (.ofNat (← loadNat 4 bs))
  | .float64, bs => do return float64 (.ofNat (← loadNat 8 bs))
  | .string, bs => do return string (← Handle.load bs)
  | .list elem, bs => do return list elem (← Handle.load bs)
  | .function params result, bs => do return closure params result (← Handle.load bs)
  | .tuple items, bs => do return tuple (← loadItems items 0 bs)

def loadItems : List Ty → Nat → Bytes → Except Halt (List Value)
  | [], _, _ => .ok []
  | t :: ts, pos, bs => do
    let rest ← bs.slice pos bs.length
    if rest.length < t.size then throw (.fault (.stackUnderflow t.size rest.length))
    let v ← loadWhole t rest
    let vs ← loadItems ts (pos + t.size) bs
    return v :: vs

end

def load (t : Ty) (bs : Bytes) : Except Halt Value :=
  if bs.length < t.size then .error (.fault (.stackUnderflow t.size bs.length)) else loadWhole t bs

theorem loadNat_eq {n : Nat} {bs : Bytes} (h : n ≤ bs.length) : loadNat n bs = .ok (Bytes.toNat (bs.take n)) := by
  have length : (bs.take n).length = n := by rw [List.length_take, Nat.min_eq_left h]
  unfold loadNat
  rw [Bytes.slice_front h]
  simp only [bind, Except.bind, Bytes.exactly, if_pos length]
  rfl

mutual

theorem loadWhole_eq : ∀ (t : Ty) (bs : Bytes), t.size ≤ bs.length → loadWhole t bs = guarded (read t bs)
  | .unknown, _, _ | .void, _, _ | .module, _, _ => rfl
  | .bool, bs, h | .byte, bs, h => by
    unfold loadWhole read
    rw [Bytes.byteAt_zero (Nat.lt_of_lt_of_le Nat.zero_lt_one h)]
    rfl
  | .char, bs, h | .int32, bs, h | .float32, bs, h => by
    unfold loadWhole read
    rw [loadNat_eq (n := 4) h]
    rfl
  | .int64, bs, h | .float64, bs, h => by
    unfold loadWhole read
    rw [loadNat_eq (n := 8) h]
    rfl
  | .string, bs, _ | .list _, bs, _ | .function _ _, bs, _ => by
    unfold loadWhole read
    rw [Handle.load_eq]
    cases Handle.ofBytes bs <;> rfl
  | .tuple ts, bs, h => by
    unfold loadWhole read
    rw [loadItems_eq ts 0 bs (by rw [Nat.zero_add]; exact h), List.drop_zero]
    cases reads ts bs <;> rfl

theorem loadItems_eq : ∀ (ts : List Ty) (pos : Nat) (bs : Bytes), pos + Ty.sizes ts ≤ bs.length →
    loadItems ts pos bs = guarded (reads ts (bs.drop pos))
  | [], _, _, _ => by simp only [loadItems, reads, guarded_ok]
  | t :: ts, pos, bs, h => by
    rw [Ty.sizes] at h
    have rest : t.size ≤ (bs.drop pos).length := by
      rw [List.length_drop]
      omega
    simp only [loadItems, reads, guarded_bind, guarded_pure, Bytes.slice_end (by omega : pos ≤ bs.length)]
    simp only [bind, Except.bind, if_neg (Nat.not_lt.2 rest), pure, Except.pure]
    rw [loadWhole_eq t _ rest, loadItems_eq ts (pos + t.size) bs (by omega), List.drop_drop]

end

theorem load_eq (t : Ty) (bs : Bytes) : load t bs = guarded (decode t bs) := by
  unfold load decode
  split
  · rfl
  · next h => exact loadWhole_eq t bs (Nat.le_of_not_lt h)

end Value

/-! ### The stack -/

namespace Stack

theorem ext_bytes {s t : Stack} (h : s.bytes = t.bytes) (h' : s.limit = t.limit) : s = t := by
  obtain ⟨bytes, size, limit, e⟩ := s
  obtain ⟨bytes', size', limit', e'⟩ := t
  obtain rfl : bytes = bytes' := h
  obtain rfl : limit = limit' := h'
  obtain rfl : size = size' := e.trans e'.symm
  rfl

/-- The stack of bytes that are given from the bottom up. -/
def ofData (data : Bytes) (limit : Nat) : Stack := ⟨data.reverse, data.length, limit, by simp⟩

/-- Where the top `n` bytes start. -/
def take (s : Stack) (n : Nat) : Except Halt Nat :=
  if n ≤ s.size then .ok (s.size - n) else .error (.fault (.stackUnderflow n s.size))

/-- The stack up to a position. -/
def cut (s : Stack) (start : Nat) : Stack := ofData (s.data.take start) s.limit

def loadTop (s : Stack) (n : Nat) : Except Halt Bytes := do s.data.slice (← s.take n) s.size

def loadPull (s : Stack) (n : Nat) : Except Halt (Bytes × Stack) := do
  let start ← s.take n
  return (← s.data.slice start s.size, s.cut start)

def loadNat (s : Stack) (n : Nat) : Except Halt (Nat × Stack) := do
  let (bs, s) ← s.loadPull n
  return (Bytes.toNat (← Bytes.exactly n bs), s)

def loadHandle (s : Stack) : Except Halt (Handle × Stack) := do
  let (bs, s) ← s.loadPull handleSize
  return (← Handle.load bs, s)

def loadValue (s : Stack) (t : Ty) : Except Halt (Value × Stack) := do
  let start ← s.take t.size
  let v ← Value.load t (← s.data.slice start s.size)
  return (v, s.cut start)

def loadHandleAt (s : Stack) (offset : Nat) : Except Halt Handle := do
  Handle.load (← s.data.slice (← s.take (offset + handleSize)) s.size)

def cutCopy (s : Stack) (start size : Nat) : Except Halt Stack :=
  if s.size < start + size then .error (.fault (.stackUnderflow (start + size) s.size))
  else if s.limit < s.size + size then .error (.fault (.stackOverflow s.limit))
  else do
    let bs ← s.data.slice start (start + size)
    return ofData (s.data ++ bs) s.limit

/-- Takes a slice out. -/
def cutDrop (s : Stack) (skip size : Nat) : Except Halt Stack := do
  let stop ← s.take skip
  if stop < size then throw (.fault (.stackUnderflow (skip + size) s.size))
  let start ← minus stop size
  let _ ← s.data.slice start stop
  return ofData (s.data.take start ++ s.data.drop stop) s.limit

def cutHandleAt (s : Stack) (offset : Nat) : Except Halt Stack := do
  let start ← s.take (offset + handleSize)
  let _ ← s.data.slice start (start + handleSize)
  return ofData (s.data.take start ++ List.replicate handleSize 0 ++ s.data.drop (start + handleSize)) s.limit

variable (s : Stack)

theorem length_data : s.data.length = s.size := by rw [data, List.length_reverse, s.size_eq]

theorem take_cases (n : Nat) : n ≤ s.size ∧ s.take n = .ok (s.size - n) ∧ s.need n = .ok () ∨
    s.take n = .error (.fault (.stackUnderflow n s.size)) ∧ s.need n = .error (.stackUnderflow n s.size) := by
  unfold take need
  by_cases h : n ≤ s.size
  · exact .inl ⟨h, if_pos h, if_pos h⟩
  · exact .inr ⟨if_neg h, if_neg h⟩

theorem slice_top {n : Nat} (h : n ≤ s.size) : s.data.slice (s.size - n) s.size = .ok (s.bytes.take n).reverse := by
  rw [← s.length_data, Bytes.slice_end (by rw [s.length_data]; omega), List.reverse_take, s.length_data, s.size_eq, data]

theorem cut_eq (n : Nat) : s.cut (s.size - n) = s.discard n := by
  refine ext_bytes ?_ rfl
  change (s.data.take (s.size - n)).reverse = s.bytes.drop n
  rw [data, s.size_eq, ← List.reverse_drop, List.reverse_reverse]

/-- Bytes between two positions, from the top. -/
theorem data_between {start size : Nat} (h : start + size ≤ s.size) :
    (s.data.drop start).take size = ((s.bytes.drop (s.size - (start + size))).take size).reverse := by
  have e : s.bytes.length - start - size = s.bytes.length - (start + size) := by omega
  rw [s.size_eq] at h
  rw [data, s.size_eq, List.drop_reverse, List.take_reverse, List.length_take, Nat.min_eq_left (Nat.sub_le _ _),
    List.drop_take, e, show s.bytes.length - start - (s.bytes.length - (start + size)) = size by omega]

theorem loadTop_eq (n : Nat) : s.loadTop n = guarded (s.top n) := by
  unfold loadTop top
  rcases s.take_cases n with ⟨h, e, e'⟩ | ⟨e, e'⟩
  · rw [e, e']
    exact s.slice_top h
  · rw [e, e']
    rfl

theorem loadPull_eq (n : Nat) : s.loadPull n = guarded (s.pull n) := by
  unfold loadPull pull top
  rcases s.take_cases n with ⟨h, e, e'⟩ | ⟨e, e'⟩
  · rw [e, e']
    simp only [bind, Except.bind, s.slice_top h, s.cut_eq]
    rfl
  · rw [e, e']
    rfl

theorem length_of_pull {n : Nat} {bs : Bytes} {t : Stack} (h : s.pull n = .ok (bs, t)) : bs.length = n := by
  unfold pull top at h
  rcases s.take_cases n with ⟨hn, -, e⟩ | ⟨-, e⟩
  · rw [e] at h
    cases h
    rw [List.length_reverse, List.length_take, ← s.size_eq, Nat.min_eq_left hn]
  · rw [e] at h
    cases h

theorem loadNat_eq (n : Nat) : s.loadNat n = guarded (s.pullNat n) := by
  unfold loadNat pullNat
  rw [s.loadPull_eq]
  cases h : s.pull n with
  | error e => rfl
  | ok p =>
    have := s.length_of_pull h
    simp only [guarded_ok, bind, Except.bind, Bytes.exactly, if_pos this]
    rfl

theorem loadHandle_eq : s.loadHandle = guarded s.pullHandle := by
  unfold loadHandle pullHandle
  rw [s.loadPull_eq]
  cases s.pull handleSize with
  | error e => rfl
  | ok p =>
    simp only [guarded_ok, bind, Except.bind, Handle.load_eq]
    cases Handle.ofBytes p.1 <;> rfl

theorem loadValue_eq (t : Ty) : s.loadValue t = guarded (s.pullValue t) := by
  unfold loadValue pullValue top
  rcases s.take_cases t.size with ⟨h, e, e'⟩ | ⟨e, e'⟩
  · rw [e, e']
    simp only [bind, Except.bind, s.slice_top h, s.cut_eq, Value.load_eq, pure, Except.pure]
    cases Value.decode t (s.bytes.take t.size).reverse <;> rfl
  · rw [e, e']
    rfl

theorem loadHandleAt_eq (offset : Nat) : s.loadHandleAt offset = guarded (s.handleAt offset) := by
  unfold loadHandleAt handleAt
  rcases s.take_cases (offset + handleSize) with ⟨h, e, e'⟩ | ⟨e, e'⟩
  · rw [e, e']
    have whole : s.size - (offset + handleSize) + handleSize ≤ s.size := by omega
    have same : ((s.bytes.drop offset).take handleSize).reverse =
        (s.data.drop (s.size - (offset + handleSize))).take handleSize := by
      rw [s.data_between whole, show s.size - (s.size - (offset + handleSize) + handleSize) = offset by omega]
    have long : handleSize ≤ (s.data.drop (s.size - (offset + handleSize))).length := by
      rw [List.length_drop, s.length_data]
      omega
    have cut : s.data.slice (s.size - (offset + handleSize)) s.size =
        .ok (s.data.drop (s.size - (offset + handleSize))) := by
      conv => lhs; rw [← s.length_data]
      rw [Bytes.slice_end (by rw [s.length_data]; omega), s.length_data]
    simp only [bind, Except.bind, cut, same, Handle.load_eq]
    exact congrArg guarded (Handle.ofBytes_take long).symm
  · rw [e, e']
    rfl

theorem push_eq (bs : Bytes) : s.push bs =
    if s.limit < s.size + bs.length then .error (.stackOverflow s.limit) else .ok (ofData (s.data ++ bs) s.limit) := by
  unfold push
  split
  · rfl
  · exact congrArg Except.ok (ext_bytes (by simp [ofData, data]) rfl)

theorem cutCopy_eq (start size : Nat) : s.cutCopy start size = guarded (s.copy start size) := by
  unfold cutCopy copy need
  by_cases h : start + size ≤ s.size
  · rw [if_neg (Nat.not_lt.2 h), if_pos h]
    simp only [bind, Except.bind]
    have length : ((s.bytes.drop (s.size - (start + size))).take size).length = size := by
      have := s.size_eq
      rw [List.length_take, List.length_drop]
      omega
    rw [s.push_eq, List.length_reverse, length]
    split
    · rfl
    · rw [Bytes.slice_eq (Nat.le_add_right _ _) (by rw [s.length_data]; exact h), Nat.add_sub_cancel_left,
        s.data_between h]
      rfl
  · rw [if_pos (Nat.lt_of_not_le h), if_neg h]
    rfl

theorem cutDrop_eq (skip size : Nat) : s.cutDrop skip size = guarded (s.drop skip size) := by
  unfold cutDrop
  rcases s.take_cases skip with ⟨h, e, -⟩ | ⟨e, e'⟩
  · rw [e, drop, if_pos h]
    simp only [bind, Except.bind]
    by_cases h' : skip + size ≤ s.size
    · have stop : size ≤ s.size - skip := by omega
      rw [if_neg (Nat.not_lt.2 stop), dif_pos h']
      simp only [pure, Except.pure, minus_eq stop]
      rw [Bytes.slice_eq (Nat.sub_le _ _) (by rw [s.length_data]; exact Nat.sub_le _ _)]
      refine congrArg Except.ok (ext_bytes ?_ rfl)
      change (s.data.take (s.size - skip - size) ++ s.data.drop (s.size - skip)).reverse =
        s.bytes.take skip ++ s.bytes.drop (skip + size)
      rw [List.reverse_append, data, s.size_eq, ← List.reverse_take, Nat.sub_sub, ← List.reverse_drop,
        List.reverse_reverse, List.reverse_reverse]
    · rw [if_pos (by omega), dif_neg h']
      rfl
  · have h : ¬ skip ≤ s.size := fun h => by
      rw [take, if_pos h] at e
      cases e
    rw [e, drop, if_neg h]
    rfl

theorem cutHandleAt_eq (offset : Nat) : s.cutHandleAt offset = guarded (s.clearHandleAt offset) := by
  unfold cutHandleAt clearHandleAt
  rcases s.take_cases (offset + handleSize) with ⟨h, e, -⟩ | ⟨e, e'⟩
  · have start : s.size - (offset + handleSize) + handleSize = s.size - offset := by omega
    rw [e, dif_pos h]
    simp only [bind, Except.bind, start]
    rw [Bytes.slice_eq (by omega) (by rw [s.length_data]; exact Nat.sub_le _ _)]
    refine congrArg Except.ok (ext_bytes ?_ rfl)
    change (s.data.take (s.size - (offset + handleSize)) ++ List.replicate handleSize 0 ++
      s.data.drop (s.size - offset)).reverse =
        s.bytes.take offset ++ List.replicate handleSize 0 ++ s.bytes.drop (offset + handleSize)
    rw [List.reverse_append, List.reverse_append, data, s.size_eq, ← List.reverse_take, ← List.reverse_drop,
      List.reverse_reverse, List.reverse_reverse, List.reverse_replicate, List.append_assoc]
  · have h : ¬ offset + handleSize ≤ s.size := fun h => by
      rw [take, if_pos h] at e
      cases e
    rw [e, dif_neg h]
    rfl

end Stack

end StackScript
