import StackScript.Listing
import StackScript.Stack

/-!
The state of the machine: stack, call frames and heap, the count of executed instructions, and a journal of
what happened that the outside can see.
-/
namespace StackScript

/-- What a call returns to. Without a caller the return ends the run. -/
structure Frame where
  caller : Option FunctionRef
  cursor : Nat := 0
  base : Nat
deriving DecidableEq, Repr, Inhabited

inductive Event
  /-- A line of output of the program. -/
  | printed (line : String)
  /-- A value handed to the host, with its text at that time. -/
  | invoked (v : Value) (text : String)
  | entered (f : FunctionRef)
  | exited (f : FunctionRef)
  /-- An instruction about to be executed. -/
  | stepped (f : FunctionRef) (cursor stackSize : Nat) (listing : String)
deriving Repr, Inhabited

/-- How a run is watched. -/
structure Watch where
  /-- The first of the seen steps at which the run is broken off. -/
  breakAt : Option Nat := none
  /-- Whether steps are listed. -/
  listed : Bool := false
  seen : Nat := 0
deriving DecidableEq, Repr, Inhabited

structure Machine where
  stack : Stack := .empty
  /-- The innermost first. -/
  frames : List Frame := []
  heap : Heap := {}
  /-- Instructions executed since the last call from outside. -/
  steps : Nat := 0
  limit : Option Nat := none
  watch : Option Watch := none
  /-- The newest first. -/
  journal : List Event := []
deriving Inhabited

/-- An action of the machine. What it did before a fault stays done. -/
abbrev Run := EStateM Fault Machine

namespace Machine

def clear (m : Machine) : Machine := { m with stack := m.stack.clear, frames := [] }

/-- Bytes in rows of sixteen, then the frames, the outermost first. -/
def stackText (l : Library) (m : Machine) : String :=
  let head := "stack: " ++ toString m.stack.size ++ " bytes, " ++ toString m.frames.length ++ " frames\n"
  let data := m.stack.data
  let rows := (List.range ((data.length + 15) / 16)).map fun i =>
    Text.padded 4 (Text.hex (16 * i)) ++ " " ++
      String.join (((data.drop (16 * i)).take 16).map fun b => " " ++ Text.padded 2 (Text.hex b.toNat)) ++ "\n"
  let frames := m.frames.reverse.map fun f =>
    match f.caller with
    | some r => "  frame base=" ++ toString f.base ++ " return to " ++ l.nameOf r.module ++ "::" ++
        ((l.function? r).map (·.name)).getD "" ++ " @" ++ toString f.cursor ++ "\n"
    | none => "  sentinel base=" ++ toString f.base ++ "\n"
  head ++ String.join rows ++ String.join frames

end Machine

namespace Run

def lift {α : Type} (r : Except Fault α) : Run α := fun m =>
  match r with
  | .ok a => .ok a m
  | .error e => .error e m

/-- A change of the stack that gives a result. -/
def onStack {α : Type} (f : Stack → Except Fault (α × Stack)) : Run α := fun m =>
  match f m.stack with
  | .ok (a, s) => .ok a { m with stack := s }
  | .error e => .error e m

def setStack (f : Stack → Except Fault Stack) : Run Unit := fun m =>
  match f m.stack with
  | .ok s => .ok () { m with stack := s }
  | .error e => .error e m

def onHeap {α : Type} (f : Heap → Outcome Heap α) : Run α := fun m =>
  match m with
  | ⟨stack, frames, heap, steps, limit, watch, journal⟩ =>
    let (heap, r) := f heap
    match r with
    | .ok a => .ok a ⟨stack, frames, heap, steps, limit, watch, journal⟩
    | .error e => .error e ⟨stack, frames, heap, steps, limit, watch, journal⟩

def readStack {α : Type} (f : Stack → Except Fault α) : Run α := fun m =>
  match f m.stack with
  | .ok a => .ok a m
  | .error e => .error e m

def readHeap {α : Type} (f : Heap → Except Fault α) : Run α := fun m =>
  match f m.heap with
  | .ok a => .ok a m
  | .error e => .error e m

def record (e : Event) : Run Unit := modify fun m => { m with journal := e :: m.journal }

/-- Records an event if the run is watched. -/
def notice (e : Event) : Run Unit := modify fun m =>
  if m.watch.isSome then { m with journal := e :: m.journal } else m

def push (bs : Bytes) : Run Unit := setStack fun s => s.push bs

def pull (n : Nat) : Run Bytes := onStack fun s => s.pull n

def pushBool (b : Bool) : Run Unit := push [if b then 1 else 0]

def pullBool : Run Bool := return (← pull 1) != [0]

def pushHandle (r : Handle) : Run Unit := push r.toBytes

def pullHandle : Run Handle := onStack Stack.pullHandle

def pullNat (n : Nat) : Run Nat := onStack fun s => s.pullNat n

def pushNat (n v : Nat) : Run Unit := setStack fun s => s.pushNat n v

def pullInt32 : Run Int32 := return (UInt32.ofNat (← pullNat 4)).toInt32

def pullInt64 : Run Int64 := return (UInt64.ofNat (← pullNat 8)).toInt64

def pushInt32 (n : Int32) : Run Unit := pushNat 4 n.toUInt32.toNat

def pushInt64 (n : Int64) : Run Unit := pushNat 8 n.toUInt64.toNat

def pullWord (w : Width) : Run (Word w) := return BitVec.ofNat w.bits (← pullNat w.size)

def pushWord {w : Width} (a : Word w) : Run Unit := pushNat w.size a.toNat

def alloc (c : Content) : Run Handle := onHeap fun h =>
  let (h, r) := h.alloc c
  (h, .ok r)

def incref (r : Handle) : Run Unit := onHeap fun h => h.incref r

def decref (r : Handle) : Run Bool := onHeap fun h => h.decref r

def pushString (s : String) : Run Unit := do pushHandle (← alloc (.string s))

/-- Pulls a text and gives up its reference. -/
def pullString : Run String := do
  let r ← pullHandle
  let s ← readHeap fun h => h.string r
  let _ ← decref r
  return s

def pushValue (v : Value) : Run Unit := setStack fun s => s.pushValue v

def pullValue (t : Ty) : Run Value := onStack fun s => s.pullValue t

/-- Takes a reference to every handle in the value on top. -/
def increfTop (t : Ty) : Run Unit := do
  let bs ← readStack fun s => s.top t.size
  let rs ← lift (t.handlesAt 0 bs)
  onHeap fun h => Heap.increfs rs h

def pushFrame (f : Frame) : Run Unit := modify fun m => { m with frames := f :: m.frames }

def popFrame : Run Frame := fun m =>
  match m.frames with
  | f :: fs => .ok f { m with frames := fs }
  | [] => .error .noFrame m

end Run

end StackScript
