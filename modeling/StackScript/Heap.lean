import StackScript.Ty.Signature
import StackScript.Number.Bytes

/-!
The heap: cells with a count of references, addressed by handles that carry the generation of their cell.
A cell is freed when its count drops to zero; it then gives up the references that its content holds, and
its next content has another generation, so that old handles never reach it.
-/
namespace StackScript

structure Handle where
  index : UInt32
  generation : UInt32
deriving DecidableEq, Repr, Inhabited

namespace Handle

/-- The handle of the empty text and of the empty list. -/
def null : Handle := ⟨0, 0⟩

def isNull (r : Handle) : Bool := r.generation = 0

def toBytes (r : Handle) : Bytes := Bytes.ofNat 4 r.index.toNat ++ Bytes.ofNat 4 r.generation.toNat

/-- The handle in the first eight bytes. -/
def ofBytes (bs : Bytes) : Except Fault Handle :=
  if bs.length < handleSize then .error (.stackUnderflow handleSize bs.length)
  else .ok ⟨.ofNat (Bytes.toNat (bs.take 4)), .ofNat (Bytes.toNat ((bs.drop 4).take 4))⟩

/-- The handle as one number. -/
def raw (r : Handle) : Nat := r.generation.toNat * 0x100000000 + r.index.toNat

def text (r : Handle) : String := "#" ++ toString r.index.toNat ++ "." ++ toString r.generation.toNat

end Handle

/-- A function of a module, both by number. -/
structure FunctionRef where
  module : Nat
  index : Nat
deriving DecidableEq, Repr, Inhabited

/-- A function with the bytes of what it captured, laid out as its frame expects them. -/
structure Closure where
  function : FunctionRef
  types : List Ty
  bytes : Bytes
deriving DecidableEq, Repr, Inhabited

inductive Content
  | string (s : String)
  | list (elem : Ty) (bytes : Bytes)
  | closure (c : Closure)
deriving DecidableEq, Repr

/-- The handles in a value of the given type that starts after `skip` bytes. -/
def Ty.handlesAt (t : Ty) (skip : Nat) (bs : Bytes) : Except Fault (List Handle) :=
  t.slots.mapM fun slot => Handle.ofBytes (bs.drop (skip + slot))

/-- The handles in values laid out one after another. -/
def Ty.handlesIn : List Ty → Nat → Bytes → Except Fault (List Handle)
  | [], _, _ => .ok []
  | t :: ts, skip, bs => do
    let hs ← t.handlesAt skip bs
    let rest ← Ty.handlesIn ts (skip + t.size) bs
    return hs ++ rest

namespace Content

def kind : Content → String
  | string _ => "String"
  | list _ _ => "List"
  | closure _ => "Closure"

/-- The number of whole elements in the bytes of a list; elements without a size cannot be counted. -/
def count (elem : Ty) (bytes : Bytes) : Nat :=
  if elem.size = 0 then 0 else bytes.length / elem.size

/-- The handles that the content holds. -/
def handles : Content → Except Fault (List Handle)
  | string _ => .ok []
  | list elem bytes =>
    if elem.slots.isEmpty then .ok []
    else Ty.handlesIn (List.replicate (count elem bytes) elem) 0 bytes
  | closure c => Ty.handlesIn c.types 0 c.bytes

end Content

structure Cell where
  generation : UInt32
  count : Nat
  content : Option Content
deriving DecidableEq, Repr, Inhabited

structure Heap where
  cells : Array Cell := #[]
  /-- Indices of empty cells, the one freed last first. -/
  free : List UInt32 := []
  live : Nat := 0
deriving DecidableEq, Repr, Inhabited

/-- A change of state that may fail; what was changed before the failure stays changed. -/
abbrev Outcome (σ α : Type) := σ × Except Fault α

namespace Heap

/-- The cell of a handle, if it is filled and of the handle's generation. -/
def cell? (h : Heap) (r : Handle) : Option (Cell × Content) :=
  match h.cells[r.index.toNat]? with
  | some c => if c.generation = r.generation then c.content.map (c, ·) else none
  | none => none

def alloc (h : Heap) (content : Content) : Heap × Handle :=
  match h with
  | ⟨cells, [], live⟩ =>
    let index := UInt32.ofNat cells.size
    (⟨cells.push ⟨1, 1, some content⟩, [], live + 1⟩, ⟨index, 1⟩)
  | ⟨cells, index :: free, live⟩ =>
    let generation := (cells.getD index.toNat default).generation
    (⟨cells.setIfInBounds index.toNat ⟨generation, 1, some content⟩, free, live + 1⟩, ⟨index, generation⟩)

def allocString (h : Heap) (s : String) : Heap × Handle := h.alloc (.string s)

def incref (h : Heap) (r : Handle) : Outcome Heap Unit :=
  if r.isNull then (h, .ok ())
  else match h.cell? r with
    | none => (h, .error (.danglingHandle r.raw))
    | some (c, _) =>
      match h with
      | ⟨cells, free, live⟩ =>
        (⟨cells.setIfInBounds r.index.toNat { c with count := c.count + 1 }, free, live⟩, .ok ())

/-- A generation is never zero, which marks the null handle. -/
def nextGeneration (g : UInt32) : UInt32 := if g + 1 = 0 then 1 else g + 1

/-- Gives up one reference. Gives the content of the cell if that was the last one. -/
def decrement (h : Heap) (r : Handle) : Except Fault (Heap × Option Content) :=
  match h.cell? r with
  | none => .error (.danglingHandle r.raw)
  | some (c, content) =>
    match h with
    | ⟨cells, free, live⟩ =>
      if 1 < c.count then
        .ok (⟨cells.setIfInBounds r.index.toNat { c with count := c.count - 1 }, free, live⟩, none)
      else
        .ok (⟨cells.setIfInBounds r.index.toNat ⟨nextGeneration c.generation, 0, none⟩, r.index :: free, live - 1⟩,
          some content)

/-- Gives up references one by one, up to the first that frees a cell. -/
def decrements : List Handle → Heap → Outcome Heap (Option (Content × List Handle))
  | [], h => (h, .ok none)
  | r :: rs, h =>
    if r.isNull then decrements rs h
    else match h.decrement r with
      | .error e => (h, .error e)
      | .ok (h, none) => decrements rs h
      | .ok (h, some content) => (h, .ok (some (content, rs)))

/-- Gives up references and those of the cells that this frees, the handles of a freed cell first and the
last of them first. Each round frees a cell, so their number bounds the rounds. -/
def release : Nat → List Handle → Heap → Outcome Heap Unit
  | 0, _, h => (h, .ok ())
  | fuel + 1, rs, h =>
    match decrements rs h with
    | (h, .error e) => (h, .error e)
    | (h, .ok none) => (h, .ok ())
    | (h, .ok (some (content, rest))) =>
      match content.handles with
      | .error e => (h, .error e)
      | .ok hs => release fuel (hs.reverse ++ rest) h

/-- Gives up one reference; tells whether that freed the cell. -/
def decref (h : Heap) (r : Handle) : Outcome Heap Bool :=
  if r.isNull then (h, .ok false)
  else match h.decrement r with
    | .error e => (h, .error e)
    | .ok (h, none) => (h, .ok false)
    | .ok (h, some content) =>
      match content.handles with
      | .error e => (h, .error e)
      | .ok hs =>
        let fuel := h.cells.size + 1
        match release fuel hs.reverse h with
        | (h, .error e) => (h, .error e)
        | (h, .ok ()) => (h, .ok true)

/-- Takes references in order, up to the first handle that dangles. -/
def increfs : List Handle → Heap → Outcome Heap Unit
  | [], h => (h, .ok ())
  | r :: rs, h =>
    match h.incref r with
    | (h, .error e) => (h, .error e)
    | (h, .ok ()) => increfs rs h

def decrefs : List Handle → Heap → Outcome Heap Unit
  | [], h => (h, .ok ())
  | r :: rs, h =>
    match h.decref r with
    | (h, .error e) => (h, .error e)
    | (h, .ok _) => decrefs rs h

/-! ### Reading -/

def content (h : Heap) (r : Handle) : Except Fault Content :=
  match h.cell? r with
  | some (_, c) => .ok c
  | none => .error (.danglingHandle r.raw)

def refcount (h : Heap) (r : Handle) : Except Fault Nat :=
  match h.cell? r with
  | some (c, _) => .ok c.count
  | none => .error (.danglingHandle r.raw)

def string (h : Heap) (r : Handle) : Except Fault String :=
  if r.isNull then .ok ""
  else do
    match ← h.content r with
    | .string s => .ok s
    | c => .error (.unexpectedValueType "String" c.kind)

/-- The element type and the bytes of a list. -/
def list (h : Heap) (r : Handle) : Except Fault (Ty × Bytes) :=
  if r.isNull then .ok (.unknown, [])
  else do
    match ← h.content r with
    | .list elem bytes => .ok (elem, bytes)
    | c => .error (.unexpectedValueType "List" c.kind)

def closure (h : Heap) (r : Handle) : Except Fault Closure := do
  match ← h.content r with
  | .closure c => .ok c
  | c => .error (.unexpectedValueType "Closure" c.kind)

end Heap

end StackScript
