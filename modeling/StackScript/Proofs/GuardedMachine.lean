import StackScript.Machine.Step
import StackScript.Proofs.GuardedHeap

/-!
The machine with every bound checked. It is made like the machine, of operations that slip where the machine would read
or write outside of its bytes, take more than there is, count a reference below zero, divide by zero or go on for ever
while it gives up references.
-/
namespace StackScript

/-- An action of the machine that may slip. -/
abbrev Guarded := EStateM Halt Machine

namespace Guarded

def lift {α : Type} (r : Except Halt α) : Guarded α := fun m =>
  match r with
  | .ok a => .ok a m
  | .error e => .error e m

def fault {α : Type} (e : Fault) : Guarded α := throw (.fault e)

def onStack {α : Type} (f : Stack → Except Halt (α × Stack)) : Guarded α := fun m =>
  match f m.stack with
  | .ok (a, s) => .ok a { m with stack := s }
  | .error e => .error e m

def setStack (f : Stack → Except Halt Stack) : Guarded Unit := onStack fun s => (f s).map ((), ·)

def readStack {α : Type} (f : Stack → Except Halt α) : Guarded α := onStack fun s => (f s).map (·, s)

def onHeap {α : Type} (f : Heap → Heap × Except Halt α) : Guarded α := fun m =>
  match f m.heap with
  | (h, .ok a) => .ok a { m with heap := h }
  | (h, .error e) => .error e { m with heap := h }

def readHeap {α : Type} (f : Heap → Except Fault α) : Guarded α := onHeap fun h => (h, guarded (f h))

def record (e : Event) : Guarded Unit := modify fun m => { m with journal := e :: m.journal }

def notice (e : Event) : Guarded Unit := modify fun m =>
  if m.watch.isSome then { m with journal := e :: m.journal } else m

/-! ### The stack and the heap -/

/-- Bytes are put on top within the limit, which slips never. -/
def push (bs : Bytes) : Guarded Unit := setStack fun s => guarded (s.push bs)

def pull (n : Nat) : Guarded Bytes := onStack fun s => s.loadPull n

def pushBool (b : Bool) : Guarded Unit := push [if b then 1 else 0]

def pullBool : Guarded Bool := return (← pull 1) != [0]

def pushHandle (r : Handle) : Guarded Unit := push r.toBytes

def pullHandle : Guarded Handle := onStack Stack.loadHandle

def pushNat (n v : Nat) : Guarded Unit := push (Bytes.ofNat n v)

def pullNat (n : Nat) : Guarded Nat := onStack fun s => s.loadNat n

def pullInt32 : Guarded Int32 := return (UInt32.ofNat (← pullNat 4)).toInt32

def pullInt64 : Guarded Int64 := return (UInt64.ofNat (← pullNat 8)).toInt64

def pushInt32 (n : Int32) : Guarded Unit := pushNat 4 n.toUInt32.toNat

def pushInt64 (n : Int64) : Guarded Unit := pushNat 8 n.toUInt64.toNat

def pullWord (w : Width) : Guarded (Word w) := return BitVec.ofNat w.bits (← pullNat w.size)

def pushWord {w : Width} (a : Word w) : Guarded Unit := pushNat w.size a.toNat

def allocate (x : Content) : Guarded Handle := onHeap fun h =>
  match alloc h x with
  | .ok (h, r) => (h, .ok r)
  | .error e => (h, .error e)

def take (rs : List Handle) : Guarded Unit := onHeap fun h => guardedOutcome (h.increfs rs)

def giveUp (r : Handle) : Guarded Bool := onHeap fun h => decref h r

def pushString (s : String) : Guarded Unit := do pushHandle (← allocate (.string s))

def pullString : Guarded String := do
  let r ← pullHandle
  let s ← readHeap fun h => h.string r
  let _ ← giveUp r
  return s

def pushValue (v : Value) : Guarded Unit := push v.encode

def pullValue (t : Ty) : Guarded Value := onStack fun s => s.loadValue t

def increfTop (t : Ty) : Guarded Unit := do
  let bs ← readStack fun s => s.loadTop t.size
  take (← lift (t.loadHandlesAt 0 bs))

def pushFrame (f : Frame) : Guarded Unit := modify fun m => { m with frames := f :: m.frames }

def popFrame : Guarded Frame := fun m =>
  match m.frames with
  | f :: fs => .ok f { m with frames := fs }
  | [] => .error (.fault .noFrame) m

/-! ### Words -/

/-- A quotient or a remainder. -/
def divide {w : Width} (f : Word w → Word w → Word w) (a b : Word w) : Except Halt (Word w) :=
  if b = 0 then .error (.slip .division) else .ok (f a b)

def quotient {w : Width} (a b : Word w) : Word w := if w.signed then a.sdiv b else a / b

def remainder {w : Width} (a b : Word w) : Word w := if w.signed then a.srem b else a % b

def arith {w : Width} (op : Arith) (a b : Word w) : Except Halt (Word w) :=
  match op with
  | .div => if b = 0 then .error (.fault .divisionByZero) else divide quotient a b
  | .mod => if b = 0 then .error (.fault .divisionByZero) else divide remainder a b
  | op => guarded (Word.arith op a b)

def runWord (w : Width) : WordOp → Guarded Unit
  | .negate => do
    let a ← pullWord w
    pushWord (-a)
  | .bitNot => do
    let a ← pullWord w
    pushWord (~~~a)
  | .compare c => do
    let a ← pullWord w
    let b ← pullWord w
    pushBool (Word.test c a b)
  | .arith op => do
    let a ← pullWord w
    let b ← pullWord w
    pushWord (← lift (arith op a b))

/-! ### Native functions -/

def native : Native → Guarded Unit
  | .stringConcat => do
    let a ← pullString
    let b ← pullString
    pushString (a ++ b)
  | .stringEqual => do
    let a ← pullString
    let b ← pullString
    pushBool (a = b)
  | .stringLength => do
    let s ← pullString
    pushInt32 (.ofNat s.length)
  | .listLength => do
    let r ← pullHandle
    let (elem, bytes) ← readHeap fun h => h.list r
    let _ ← giveUp r
    pushInt32 (.ofNat (Content.count elem bytes))
  | .print => do record (.printed (← pullString))
  | .int32ToInt64 => do
    let n ← pullInt32
    pushInt64 n.toInt64
  | .int64ToInt32 => do
    let n ← pullInt64
    pushInt32 n.toInt32
  | .int32ToFloat64 => do
    let n ← pullInt32
    pushNat 8 (Binary.double.ofInt n.toInt)
  | .float64ToInt32 => do
    let bits ← pullNat 8
    pushInt32 (.ofInt (Binary.double.toInt (-0x80000000) 0x7FFFFFFF bits))
  | .int32ToString => do
    let n ← pullInt32
    pushString (toString n.toInt)
  | .int64ToString => do
    let n ← pullInt64
    pushString (toString n.toInt)
  | .float64ToString => do
    let bits ← pullNat 8
    pushString (Binary.double.text bits)
  | .floatArith w op => do
    let a ← pullNat w.size
    let b ← pullNat w.size
    pushNat w.size (w.arith op a b)
  | .floatTest w c => do
    let a ← pullNat w.size
    let b ← pullNat w.size
    pushBool (w.format.test c a b)
  | .floatNegate w => do
    let a ← pullNat w.size
    pushNat w.size (w.format.neg a)

/-! ### Instructions -/

variable (l : Library)

def subscript (elem : Ty) : Guarded Unit := do
  let r ← pullHandle
  let index ← pullInt32
  let (_, bytes) ← readHeap fun h => h.list r
  let length := Content.count elem bytes
  let position := if index.toInt < 0 then index.toInt + length else index.toInt
  if position < 0 ∨ (length : Int) ≤ position then
    let _ ← giveUp r
    fault (.indexOutOfBounds index.toInt length)
  let start := position.toNat * elem.size
  push (← lift (bytes.slice start (start + elem.size)))
  increfTop elem
  let _ ← giveUp r

def openClosure : Guarded FunctionRef := do
  let r ← pullHandle
  let c ← readHeap fun h => h.closure r
  push c.bytes
  take (← lift (Ty.loadHandlesIn c.types 0 c.bytes))
  let _ ← giveUp r
  if !(l.get c.function.module).alive then fault .droppedModule
  return c.function

def pushClosure (f : FunctionRef) (types : List Ty) (bytes : Bytes) : Guarded Unit := do
  pushHandle (← allocate (.closure ⟨f, types, bytes⟩))

/-- Executes an instruction that does not jump. -/
def execute (a : Activation) (op : Opcode) (first second : Nat) : Guarded (Option FunctionRef) := do
  let module := a.function.module
  match op with
  | .noop | .jump | .jumpIfNot => return none
  | .logicalNot =>
    let x ← pullBool
    pushBool !x
    return none
  | .logicalOr =>
    let x ← pullBool
    let y ← pullBool
    pushBool (x || y)
    return none
  | .logicalAnd =>
    let x ← pullBool
    let y ← pullBool
    pushBool (x && y)
    return none
  | .word op w =>
    runWord w op
    return none
  | .execute => return some (← openClosure l)
  | .invoke =>
    let t ← lift (guarded (l.findType module first))
    let v ← pullValue t
    let m ← get
    record (.invoked v (v.text m.heap))
    onHeap (decrefs v.handles)
    return none
  | .loadStatic =>
    let v ← lift (guarded (l.findValue module first))
    take v.handles
    pushValue v
    return none
  | .loadFunction =>
    let f : FunctionRef := ⟨module, first⟩
    let _ ← lift (guarded (l.findFunction f))
    pushClosure f [] []
    return none
  | .makeClosure =>
    let f : FunctionRef := ⟨module, first⟩
    let types := (← lift (guarded (l.findFunction f))).signature.closureLayout
    let bytes ← pull (Ty.sizes types)
    pushClosure f types bytes
    return none
  | .call0 => return some ⟨module, first⟩
  | .call1 => return some ⟨← lift (guarded (l.findImport module 0)), first⟩
  | .call => return some ⟨← lift (guarded (l.findImport module first)), second⟩
  | .incRef =>
    take [← readStack fun s => s.loadHandleAt first]
    return none
  | .decRef =>
    let r ← readStack fun s => s.loadHandleAt first
    if ← giveUp r then setStack fun s => s.cutHandleAt first
    return none
  | .subscript =>
    subscript (← lift (guarded (l.findType module first)))
    return none
  | .makeList =>
    let elem ← lift (guarded (l.findType module second))
    let bytes ← pull (first * elem.size)
    if first = 0 then pushHandle .null else pushHandle (← allocate (.list elem bytes))
    return none
  | .copyVariable =>
    setStack fun s => s.cutCopy (a.base + first) second
    return none
  | .copyArgument =>
    if a.base < first + second then fault (.stackUnderflow (first + second) a.base)
    let start ← lift (minus a.base (first + second))
    setStack fun s => s.cutCopy start second
    return none
  | .drop =>
    setStack fun s => s.cutDrop first second
    return none

def jumpDistance (op : Opcode) (distance : Nat) : Guarded Nat := do
  match op with
  | .jump => return distance
  | .jumpIfNot => return if ← pullBool then 0 else distance
  | _ => return 0

def count (a : Activation) (b : UInt8) : Guarded Unit := do
  modify fun m => { m with steps := m.steps + 1 }
  let m ← get
  match m.limit with
  | some limit => if limit < m.steps then fault (.aborted limit)
  | none => pure ()
  match m.watch with
  | none => pure ()
  | some w =>
    let listing :=
      if w.listed then (Listing.instruction l m.heap (l.get a.function.module) a.code a.cursor b).1 else ""
    record (.stepped a.function a.cursor m.stack.size listing)
    modify fun m => { m with watch := some { w with seen := w.seen + 1 } }
    match w.breakAt with
    | some n => if n ≤ w.seen + 1 then fault (.aborted (← lift (minus m.steps 1)))
    | none => pure ()

/-! ### Steps -/

def enter (f : FunctionRef) : Guarded (Option Activation) := do
  let function ← lift (guarded (l.findFunction f))
  match function.body with
  | .native n =>
    notice (.entered f)
    native n
    notice (.exited f)
    return none
  | .code bytes =>
    notice (.entered f)
    return some ⟨f, bytes, 0, 0⟩
  | .fragment op =>
    notice (.entered f)
    return some ⟨f, #[op.toByte], 0, 0⟩
  | body => fault (.notCallable body.kind function.name)

def leave (a : Activation) : Guarded (Option Activation) := do
  notice (.exited a.function)
  let frame ← popFrame
  match frame.caller with
  | none => return none
  | some f => return some ⟨f, Run.codeOf l f, frame.cursor, frame.base⟩

/-- Goes on with a function that was entered, or behind one that has run in place. -/
def resume (a : Activation) : Option Activation → Guarded (Option Activation)
  | none => pure (some a)
  | some callee => do
    pushFrame ⟨some a.function, a.cursor, a.base⟩
    return some { callee with base := (← get).stack.size }

def dispatch (a : Activation) : Option FunctionRef → Guarded (Option Activation)
  | none => pure (some a)
  | some f => do resume a (← enter l f)

def proceed (a : Activation) : Instruction → Guarded (Option Activation)
  | .unknown b => fault (.unknownOpcode b)
  | .truncated op =>
    fault (.truncatedInstruction op.text (((l.function? a.function).map (·.name)).getD ""))
  | .ofOpcode op first second => do
    let a := { a with cursor := a.cursor + op.length + (← jumpDistance op first) }
    dispatch l a (← execute l a op first second)

def step (a : Activation) : Guarded (Option Activation) :=
  match a.code[a.cursor]? with
  | none => leave l a
  | some b => do
    count l a b
    proceed l a (Instruction.read a.code a.cursor b)

def steps : Nat → Activation → Guarded Unit
  | 0, _ => do fault (.aborted (← get).steps)
  | fuel + 1, a => do
    match ← step l a with
    | none => return ()
    | some a => steps fuel a

def call (f : FunctionRef) : Guarded Unit := do
  let function ← lift (guarded (l.findFunction f))
  modify fun m => if m.frames.isEmpty then { m with steps := 0 } else m
  match function.body with
  | .native _ =>
    let _ ← enter l f
  | .undefined | .generic _ _ => fault (.notCallable function.body.kind function.name)
  | .code _ | .fragment _ =>
    let base := (← get).stack.size
    pushFrame ⟨none, 0, base⟩
    match ← enter l f with
    | none => return ()
    | some a => steps l Run.ceiling { a with base := base }

end Guarded

end StackScript
