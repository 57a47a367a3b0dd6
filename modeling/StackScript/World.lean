import StackScript.Machine.Step

/-!
All modules together with the machine that runs them. Modules are referred to from outside, by each other,
and by the call frames of the machine.
-/
namespace StackScript

structure World where
  library : Library := {}
  machine : Machine := {}
deriving Inhabited

namespace World

def run {α : Type} (w : World) (x : Library → Run α) : World × Except Fault α :=
  match w with
  | ⟨library, machine⟩ =>
    match x library machine with
    | .ok a machine => (⟨library, machine⟩, .ok a)
    | .error e machine => (⟨library, machine⟩, .error e)

/-- Calls a function from outside. The arguments are pushed last first. -/
def apply (w : World) (f : FunctionRef) (args : List Value) : World × Except Fault Value :=
  w.run fun l => do
    args.reverse.forM Run.pushValue
    Run.call l f
    let function ← Run.lift (l.findFunction f)
    Run.pullValue function.signature.effectiveResult

def onHeap {α : Type} (w : World) (f : Heap → Heap × α) : World × α :=
  match w with
  | ⟨library, ⟨stack, frames, heap, steps, limit, watch, journal⟩⟩ =>
    let (heap, a) := f heap
    (⟨library, ⟨stack, frames, heap, steps, limit, watch, journal⟩⟩, a)

def addModule (w : World) (m : Module) : World × Nat :=
  match w with
  | ⟨library, machine⟩ =>
    let (library, id) := library.add m
    (⟨library, machine⟩, id)

/-- The modules that the call frames refer to, from the outermost frame on. -/
def framed (w : World) : List Nat := w.machine.frames.reverse.filterMap fun f => f.caller.map (·.module)

/-- Drops references to modules while those held and those of the frames stay. -/
def drop (w : World) (held dropped : List Nat) : World :=
  let roots := held ++ w.framed
  match w with
  | ⟨library, ⟨stack, frames, heap, steps, limit, watch, journal⟩⟩ =>
    let (library, heap) := library.drop heap roots dropped
    ⟨library, ⟨stack, frames, heap, steps, limit, watch, journal⟩⟩

/-- Empties the stack and drops the frames. -/
def clear (w : World) (held : List Nat) : World :=
  let dropped := w.framed
  drop ⟨w.library, w.machine.clear⟩ held dropped

/-- Takes the events recorded since the last time, in order. -/
def takeJournal (w : World) : World × List Event :=
  match w with
  | ⟨library, ⟨stack, frames, heap, steps, limit, watch, journal⟩⟩ =>
    (⟨library, ⟨stack, frames, heap, steps, limit, watch, []⟩⟩, journal.reverse)

end World

namespace Event

/-- What the program printed. -/
def printedText (events : List Event) : String :=
  String.join (events.filterMap fun
    | printed line => some (line ++ "\n")
    | _ => none)

def invokedTexts (events : List Event) : List String :=
  events.filterMap fun
    | invoked _ text => some text
    | _ => none

def functionText (l : Library) (f : FunctionRef) : String :=
  l.nameOf f.module ++ "::" ++ ((l.function? f).map (·.name)).getD ""

/-- The line of an observed event. -/
def logLine? (l : Library) : Event → Option String
  | entered f => some ("enter " ++ functionText l f)
  | exited f => some ("exit " ++ functionText l f)
  | stepped f cursor size _ =>
    some ("step " ++ functionText l f ++ " " ++ toString cursor ++ " [" ++ toString size ++ "]")
  | _ => none

def log (l : Library) (events : List Event) : List String := events.filterMap (logLine? l)

end Event

end StackScript
