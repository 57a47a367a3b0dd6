import StackScript.Compile.Error
import StackScript.Library

/-!
The state of a compilation: the library and heap it works on, and the function whose code is being written.
Every expression leaves the bytes of its value on the stack; the draft counts those above the frame base,
because that is where the next local variable lands.
-/
namespace StackScript

/-- A function that is being written. -/
structure Draft where
  target : FunctionRef
  name : String
  signature : Signature := {}
  captures : List String := []
  code : Code := {}
  /-- The innermost scope. -/
  scope : Nat := ScopeTable.root
  /-- Bytes pushed above the frame base. -/
  depth : Nat := 0
deriving Inhabited

structure Compilation where
  library : Library
  heap : Heap
  /-- The module that receives the program. -/
  module : Nat
  draft : Draft
  /-- Functions of that module that are declared but not written yet, in the order of declaration. -/
  pending : List (Nat × FunctionDecl) := []
  /-- Functions whose bodies are being written. -/
  unfinished : List FunctionRef := []

/-- A step of compilation. What it did before an error stays done. -/
abbrev Compile := EStateM CompileError Compilation

namespace Compile

def fail {α : Type} (cause : CompileError.Cause) (span : Span) : Compile α := throw ⟨cause, span⟩

def lift {α : Type} (r : Except CompileError α) : Compile α := fun c =>
  match r with
  | .ok a => .ok a c
  | .error e => .error e c

/-! ### Modules -/

def onModule {α : Type} [Inhabited α] (id : Nat) (f : Module → Module × α) : Compile α := fun c =>
  match c with
  | ⟨library, heap, module, draft, pending, unfinished⟩ =>
    let (library, a) := library.update id f
    .ok a ⟨library, heap, module, draft, pending, unfinished⟩

def onHeap {α : Type} (f : Heap → Heap × α) : Compile α := fun c =>
  match c with
  | ⟨library, heap, module, draft, pending, unfinished⟩ =>
    let (heap, a) := f heap
    .ok a ⟨library, heap, module, draft, pending, unfinished⟩

/-- The module that the draft belongs to. -/
def here : Compile Nat := return (← get).draft.target.module

def getModule (id : Nat) : Compile Module := return (← get).library.get id

def getFunction (f : FunctionRef) (span : Span) : Compile Function := do
  let library := (← get).library
  match library.function? f with
  | some function => return function
  | none => fail (.missingFunction f.index (library.nameOf f.module)) span

def addFunction (module : Nat) (f : Function) : Compile Nat := onModule module fun m => m.addFunction f

def addValue (module : Nat) (v : Value) : Compile Nat := onModule module fun m => m.addValue v

/-- The number of a type in the module of the draft. -/
def typeOperand (t : Ty) : Compile Nat := do onModule (← here) fun m => m.addType t

def addScope (module parent : Nat) (kind : ScopeKind) (name : String) : Compile Nat :=
  onModule module fun m =>
    let (scopes, id) := m.scopes.add parent kind name
    ({ m with scopes := scopes }, id)

def bindIn (module scope : Nat) (name : String) (symbol : Symbol) : Compile Unit :=
  onModule module fun m => ({ m with scopes := m.scopes.bind scope name symbol }, ())

/-! ### The draft -/

def getDraft : Compile Draft := return (← get).draft

def setDraft (d : Draft) : Compile Unit := modify fun c => { c with draft := d }

def modifyDraft (f : Draft → Draft) : Compile Unit := modify fun c => { c with draft := f c.draft }

def setDepth (n : Nat) : Compile Unit := modifyDraft fun d => { d with depth := n }

/-- Bytes that the code written last took off the stack. -/
def sink (n : Nat) : Compile Unit := modifyDraft fun d => { d with depth := d.depth - n }

/-- An operand takes one byte. -/
def operand (op : Opcode) (value : Nat) (span : Span) : Compile UInt8 :=
  if value < 256 then return .ofNat value else fail (.operandTooLarge op value) span

def onCode (f : Code → Code) : Compile Unit := modifyDraft fun d => { d with code := f d.code }

def emit (op : Opcode) : Compile Unit := onCode fun c => c.opcode op

def emit1 (op : Opcode) (a : Nat) (span : Span) : Compile Unit := do
  let a ← operand op a span
  onCode fun c => (c.opcode op).byte a

def emit2 (op : Opcode) (a b : Nat) (span : Span) : Compile Unit := do
  let a ← operand op a span
  let b ← operand op b span
  onCode fun c => ((c.opcode op).byte a).byte b

/-- Writes a jump that is open until its label is bound. -/
def jump (op : Opcode) : Compile Nat := do
  let d ← getDraft
  let (code, label) := d.code.jump op
  setDraft { d with code := code }
  return label

def bindLabel (label : Nat) : Compile Unit := onCode fun c => c.bind label

/-! ### Handles -/

end Compile

/-- How far below the top the handles of a value lie that is itself on top. -/
def Ty.distances (t : Ty) : List Nat := t.slots.map fun slot => t.size - slot - handleSize

namespace Compile

/-- Releases handles at the given distances below the top. -/
def releaseAt (distances : List Nat) (span : Span) : Compile Unit :=
  distances.forM fun n => emit1 .decRef n span

/-- Takes a reference to every handle in the value just pushed. -/
def retain (t : Ty) (span : Span) : Compile Unit := t.distances.forM fun n => emit1 .incRef n span

/-- Releases and removes the value on top. -/
def discard (t : Ty) (span : Span) : Compile Unit := do
  releaseAt t.distances span
  if 0 < t.size then emit2 .drop 0 t.size span
  sink t.size

/-- Runs code that leaves one value, and counts its bytes. -/
def leaving (x : Compile Ty) : Compile Ty := do
  let start := (← getDraft).depth
  let t ← x
  setDepth (start + t.size)
  return t

end Compile

end StackScript
