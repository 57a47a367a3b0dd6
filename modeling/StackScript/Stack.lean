import StackScript.Value

/-!
The byte stack. An operation that would read below the bottom or grow past the limit fails and leaves the
stack as it was.
-/
namespace StackScript

structure Stack where
  /-- From the top down. -/
  bytes : List UInt8
  size : Nat
  limit : Nat
  size_eq : size = bytes.length

namespace Stack

/-- The limit unless another one is set. -/
def usualLimit : Nat := 1024 * 1024

def empty (limit : Nat := usualLimit) : Stack := ⟨[], 0, limit, rfl⟩

instance : Inhabited Stack := ⟨empty⟩

/-- All bytes, from the bottom up. -/
def data (s : Stack) : Bytes := s.bytes.reverse

def clear (s : Stack) : Stack := empty s.limit

/-- Whether `n` bytes are there. -/
def need (s : Stack) (n : Nat) : Except Fault Unit :=
  if n ≤ s.size then .ok () else .error (.stackUnderflow n s.size)

/-- Puts bytes on top, the last one uppermost. -/
def push (s : Stack) (bs : Bytes) : Except Fault Stack :=
  if s.limit < s.size + bs.length then .error (.stackOverflow s.limit)
  else .ok ⟨bs.reverse ++ s.bytes, s.size + bs.length, s.limit, by simp [s.size_eq, Nat.add_comm]⟩

/-- The top bytes, in the order in which they were put. -/
def top (s : Stack) (n : Nat) : Except Fault Bytes := do
  s.need n
  return (s.bytes.take n).reverse

/-- Removes the top bytes, or all if there are fewer. -/
def discard (s : Stack) (n : Nat) : Stack :=
  ⟨s.bytes.drop n, s.size - n, s.limit, by simp [s.size_eq]⟩

def pull (s : Stack) (n : Nat) : Except Fault (Bytes × Stack) := do
  let bs ← s.top n
  return (bs, s.discard n)

/-- Puts a copy of the bytes from a position counted from the bottom. -/
def copy (s : Stack) (start size : Nat) : Except Fault Stack := do
  s.need (start + size)
  let bs := (s.bytes.drop (s.size - (start + size))).take size
  s.push bs.reverse

theorem size_drop (s : Stack) {skip size : Nat} (h : skip + size ≤ s.size) :
    s.size - size = (s.bytes.take skip ++ s.bytes.drop (skip + size)).length := by
  have := s.size_eq
  simp
  omega

/-- Removes `size` bytes under the top `skip` ones. -/
def drop (s : Stack) (skip size : Nat) : Except Fault Stack :=
  if skip ≤ s.size then
    if h : skip + size ≤ s.size then
      .ok ⟨s.bytes.take skip ++ s.bytes.drop (skip + size), s.size - size, s.limit, s.size_drop h⟩
    else .error (.stackUnderflow (skip + size) s.size)
  else .error (.stackUnderflow skip s.size)

/-- The handle that ends `offset` bytes below the top. -/
def handleAt (s : Stack) (offset : Nat) : Except Fault Handle := do
  s.need (offset + handleSize)
  Handle.ofBytes ((s.bytes.drop offset).take handleSize).reverse

theorem size_overwrite (s : Stack) {offset n : Nat} (h : offset + n ≤ s.size) :
    s.size = (s.bytes.take offset ++ List.replicate n 0 ++ s.bytes.drop (offset + n)).length := by
  have := s.size_eq
  simp
  omega

/-- Overwrites that handle with zeros. -/
def clearHandleAt (s : Stack) (offset : Nat) : Except Fault Stack :=
  if h : offset + handleSize ≤ s.size then
    .ok ⟨s.bytes.take offset ++ List.replicate handleSize 0 ++ s.bytes.drop (offset + handleSize), s.size,
      s.limit, s.size_overwrite h⟩
  else .error (.stackUnderflow (offset + handleSize) s.size)

def pushValue (s : Stack) (v : Value) : Except Fault Stack := s.push v.encode

/-- Reads the value on top and removes it. -/
def pullValue (s : Stack) (t : Ty) : Except Fault (Value × Stack) := do
  let bs ← s.top t.size
  let v ← Value.decode t bs
  return (v, s.discard t.size)

def pullHandle (s : Stack) : Except Fault (Handle × Stack) := do
  let (bs, s) ← s.pull handleSize
  return (← Handle.ofBytes bs, s)

/-- Reads a number of `n` bytes. -/
def pullNat (s : Stack) (n : Nat) : Except Fault (Nat × Stack) := do
  let (bs, s) ← s.pull n
  return (Bytes.toNat bs, s)

def pushNat (s : Stack) (n : Nat) (v : Nat) : Except Fault Stack := s.push (Bytes.ofNat n v)

theorem data_push {s t : Stack} {bs : Bytes} (h : s.push bs = .ok t) : t.data = s.data ++ bs := by
  unfold push at h
  split at h
  · cases h
  · injection h with h
    subst h
    simp [data]

end Stack

end StackScript
