import StackScript.Machine.Native

/-!
Execution. One step executes the instruction under the cursor of the innermost activation, or returns from
it at the end of its code. A run repeats steps until the call that began it returns.
-/
namespace StackScript

/-- A function that is running code, with the height of the stack when it was entered. -/
structure Activation where
  function : FunctionRef
  code : Array UInt8
  cursor : Nat
  base : Nat
deriving Repr, Inhabited

namespace Library

def findFunction (l : Library) (r : FunctionRef) : Except Fault Function :=
  match l.function? r with
  | some f => .ok f
  | none => .error (.badFunctionIndex (l.nameOf r.module) r.index)

def findImport (l : Library) (module i : Nat) : Except Fault Nat :=
  match (l.get module).imports[i]? with
  | some id => .ok id
  | none => .error (.noImport (l.nameOf module) i)

def findType (l : Library) (module i : Nat) : Except Fault Ty :=
  match (l.get module).types[i]? with
  | some t => .ok t
  | none => .error (.typeOutOfRange i)

def findValue (l : Library) (module i : Nat) : Except Fault Value :=
  match (l.get module).values[i]? with
  | some v => .ok v
  | none => .error (.staticOutOfRange i)

end Library

namespace Run

variable (l : Library)

def runWord (w : Width) : WordOp → Run Unit
  | .negate => do
    let a ← pullWord w
    pushWord (-a)
  | .bitNot => do
    let a ← pullWord w
    pushWord (~~~a)
  | .compare c => do
    let a ← pullWord w
    let b ← pullWord w
    pushBool (Word.test c a b)
  | .arith op => do
    let a ← pullWord w
    let b ← pullWord w
    pushWord (← lift (Word.arith op a b))

/-- Pulls a list and an index and pushes the element; negative indices count from the end. -/
def subscript (elem : Ty) : Run Unit := do
  let r ← pullHandle
  let index ← pullInt32
  let (_, bytes) ← readHeap fun h => h.list r
  let length := Content.count elem bytes
  let position := if index.toInt < 0 then index.toInt + length else index.toInt
  if position < 0 ∨ (length : Int) ≤ position then
    let _ ← decref r
    throw (.indexOutOfBounds index.toInt length)
  push ((bytes.drop (position.toNat * elem.size)).take elem.size)
  increfTop elem
  let _ ← decref r

/-- Pulls a closure and pushes what it captured. -/
def openClosure : Run FunctionRef := do
  let r ← pullHandle
  let c ← readHeap fun h => h.closure r
  push c.bytes
  let rs ← lift (Ty.handlesIn c.types 0 c.bytes)
  onHeap fun h => Heap.increfs rs h
  let _ ← decref r
  if !(l.get c.function.module).alive then throw .droppedModule
  return c.function

def pushClosure (f : FunctionRef) (types : List Ty) (bytes : Bytes) : Run Unit := do
  pushHandle (← alloc (.closure ⟨f, types, bytes⟩))

/-- Executes an instruction that does not jump. Gives the function to be called, if there is one. -/
def execute (a : Activation) (op : Opcode) (first second : Nat) : Run (Option FunctionRef) := do
  let module := a.function.module
  match op with
  | .noop | .jump | .jumpIfNot => return none
  | .logicalNot =>
    let x ← pullBool
    pushBool !x
    return none
  | .logicalOr =>
    let x ← pullBool
    let y ← pullBool
    pushBool (x || y)
    return none
  | .logicalAnd =>
    let x ← pullBool
    let y ← pullBool
    pushBool (x && y)
    return none
  | .word op w =>
    runWord w op
    return none
  | .execute => return some (← openClosure l)
  | .invoke =>
    let t ← lift (l.findType module first)
    let v ← pullValue t
    let m ← get
    record (.invoked v (v.text m.heap))
    onHeap v.decref
    return none
  | .loadStatic =>
    let v ← lift (l.findValue module first)
    onHeap v.incref
    pushValue v
    return none
  | .loadFunction =>
    let f : FunctionRef := ⟨module, first⟩
    let _ ← lift (l.findFunction f)
    pushClosure f [] []
    return none
  | .makeClosure =>
    let f : FunctionRef := ⟨module, first⟩
    let types := (← lift (l.findFunction f)).signature.closureLayout
    let bytes ← pull (Ty.sizes types)
    pushClosure f types bytes
    return none
  | .call0 => return some ⟨module, first⟩
  | .call1 => return some ⟨← lift (l.findImport module 0), first⟩
  | .call => return some ⟨← lift (l.findImport module first), second⟩
  | .incRef =>
    incref (← readStack fun s => s.handleAt first)
    return none
  | .decRef =>
    let r ← readStack fun s => s.handleAt first
    if ← decref r then setStack fun s => s.clearHandleAt first
    return none
  | .subscript =>
    subscript (← lift (l.findType module first))
    return none
  | .makeList =>
    let elem ← lift (l.findType module second)
    let bytes ← pull (first * elem.size)
    if first = 0 then pushHandle .null else pushHandle (← alloc (.list elem bytes))
    return none
  | .copyVariable =>
    setStack fun s => s.copy (a.base + first) second
    return none
  | .copyArgument =>
    if a.base < first + second then throw (.stackUnderflow (first + second) a.base)
    setStack fun s => s.copy (a.base - (first + second)) second
    return none
  | .drop =>
    setStack fun s => s.drop first second
    return none

/-- How far an instruction moves the cursor beyond its own end. -/
def jumpDistance (op : Opcode) (distance : Nat) : Run Nat := do
  match op with
  | .jump => return distance
  | .jumpIfNot => return if ← pullBool then 0 else distance
  | _ => return 0

/-- Counts a step, and breaks off the run at its limit or where the watch says so. -/
def count (a : Activation) (b : UInt8) : Run Unit := do
  modify fun m => { m with steps := m.steps + 1 }
  let m ← get
  match m.limit with
  | some limit => if limit < m.steps then throw (.aborted limit)
  | none => pure ()
  match m.watch with
  | none => pure ()
  | some w =>
    let listing :=
      if w.listed then (Listing.instruction l m.heap (l.get a.function.module) a.code a.cursor b).1 else ""
    record (.stepped a.function a.cursor m.stack.size listing)
    modify fun m => { m with watch := some { w with seen := w.seen + 1 } }
    match w.breakAt with
    | some n => if n ≤ w.seen + 1 then throw (.aborted (m.steps - 1))
    | none => pure ()

/-- Runs a native function in place, or gives the activation of a function with code. -/
def enter (f : FunctionRef) : Run (Option Activation) := do
  let function ← lift (l.findFunction f)
  match function.body with
  | .native n =>
    notice (.entered f)
    n.run
    notice (.exited f)
    return none
  | .code bytes =>
    notice (.entered f)
    return some ⟨f, bytes, 0, 0⟩
  | .fragment op =>
    notice (.entered f)
    return some ⟨f, #[op.toByte], 0, 0⟩
  | body => throw (.notCallable body.kind function.name)

/-- The code of a function that is returned to. -/
def codeOf (f : FunctionRef) : Array UInt8 := ((l.function? f).bind (·.body.code?)).getD #[]

/-- Returns from an activation whose code is at its end. -/
def leave (a : Activation) : Run (Option Activation) := do
  notice (.exited a.function)
  let frame ← popFrame
  match frame.caller with
  | none => return none
  | some f => return some ⟨f, codeOf l f, frame.cursor, frame.base⟩

/-- One step. Gives the activation that is innermost after it, or nothing if the run has ended. -/
def step (a : Activation) : Run (Option Activation) := do
  match a.code[a.cursor]? with
  | none => leave l a
  | some b =>
    count l a b
    match Instruction.read a.code a.cursor b with
    | .unknown b => throw (.unknownOpcode b)
    | .truncated op =>
      throw (.truncatedInstruction op.text (((l.function? a.function).map (·.name)).getD ""))
    | .ofOpcode op first second =>
      let a := { a with cursor := a.cursor + op.length + (← jumpDistance op first) }
      match ← execute l a op first second with
      | none => return some a
      | some f =>
        match ← enter l f with
        | none => return some a
        | some callee =>
          pushFrame ⟨some a.function, a.cursor, a.base⟩
          return some { callee with base := (← get).stack.size }

/-- Repeats steps, at most as many as the fuel says. -/
def steps : Nat → Activation → Run Unit
  | 0, _ => do throw (.aborted (← get).steps)
  | fuel + 1, a => do
    match ← step l a with
    | none => return ()
    | some a => steps fuel a

/-- More steps than a machine can count. -/
def ceiling : Nat := 0x4000000000000000

/-- Calls a function whose arguments are on the stack, and leaves its result there. -/
def call (f : FunctionRef) : Run Unit := do
  let function ← lift (l.findFunction f)
  modify fun m => if m.frames.isEmpty then { m with steps := 0 } else m
  match function.body with
  | .native _ =>
    let _ ← enter l f
  | .undefined | .generic _ _ => throw (.notCallable function.body.kind function.name)
  | .code _ | .fragment _ =>
    let base := (← get).stack.size
    pushFrame ⟨none, 0, base⟩
    match ← enter l f with
    | none => return ()
    | some a => steps l ceiling { a with base := base }

end Run

end StackScript
