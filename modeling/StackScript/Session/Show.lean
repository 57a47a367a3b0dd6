import StackScript.Session

/-!
Evaluation with a record of what happens: the tree, the compiled module, and a trace of calls and
instructions, as far as they are asked for.
-/
namespace StackScript

structure Display where
  /-- The tree as it was read. -/
  rawTree : Bool := false
  /-- The tree, once the input compiled. -/
  tree : Bool := false
  code : Bool := false
  scopes : Bool := false
  module : Bool := false
  trace : Bool := false
deriving DecidableEq, Repr, Inhabited

namespace Trace

def indent (depth : Nat) : String := String.join (List.replicate depth "  ")

/-- A text followed by blanks up to a width. -/
def column (width : Nat) (s : String) : String := s ++ String.ofList (List.replicate (width - s.length) ' ')

/-- The line of an event, if it has one, and how deep the calls are after it. Calls and instructions show
only when they are traced. -/
def line (l : Library) (traced : Bool) (depth : Nat) : Event → Option String × Nat
  | .printed text => (some text, depth)
  | .invoked _ text => (some text, depth)
  | .entered f =>
    if traced then (some (indent depth ++ "call " ++ Event.functionText l f), depth + 1) else (none, depth)
  | .exited f =>
    if traced then (some (indent (depth - 1) ++ "ret " ++ Event.functionText l f), depth - 1)
    else (none, depth)
  | .stepped _ cursor size listing =>
    if traced then
      (some (indent depth ++ Listing.address cursor ++ "  " ++ column 32 listing ++
        " [stack " ++ toString size ++ "]"), depth)
    else (none, depth)

def linesFrom (l : Library) (traced : Bool) : Nat → List Event → List String
  | _, [] => []
  | depth, e :: es =>
    let (text?, depth) := line l traced depth e
    text?.toList ++ linesFrom l traced depth es

/-- What shows of a run: what it printed and handed out, and the trace. -/
def text (l : Library) (traced : Bool) (events : List Event) : String :=
  String.join ((linesFrom l traced 0 events).map (· ++ "\n"))

end Trace

/-- What an evaluation shows. -/
structure Shown where
  result : Except Failure Value
  output : String := ""
  /-- What a watcher saw that is no part of the output. -/
  seen : List Event := []

namespace Session

def when (c : Bool) (s : String) : String := if c then s else ""

/-- What shows of a compiled module before it runs. -/
def compiledText (s : Session) (d : Display) (p : Program) (id : Nat) : String :=
  let m := s.getModule id
  when d.tree ("Compiled AST:\n" ++ p.text ++ "\n") ++
    when d.scopes ("Symbol table:\n" ++ m.scopes.text ++ "\n") ++
    when d.module (Listing.module s.world.library s.heap m) ++
    when d.code (Listing.disassembly s.world.library s.heap m)

def setWatch (s : Session) (watch : Option Watch) : Session :=
  { s with world := { s.world with machine := { s.world.machine with watch := watch } } }

/-- Takes the events recorded since the last time. -/
def takeJournal (s : Session) : Session × List Event :=
  let (w, events) := s.world.takeJournal
  ({ s with world := w }, events)

/-- Runs a compiled input. A trace takes the place of any other watcher and ends with the run. -/
def showRun (s : Session) (d : Display) (main : FunctionRef) (before : String) : Session × Shown :=
  let s := if d.trace then s.setWatch (some { listed := true }) else s
  let (s, result) := s.run main
  let s := if d.trace then s.setWatch none else s
  let (s, events) := s.takeJournal
  let text := Trace.text s.world.library d.trace events
  (s, { result := result, output := before ++ text, seen := if d.trace then [] else events })

/-- Evaluates an input and shows what is asked for. -/
def evalWith (s : Session) (d : Display) (source : String) : Session × Shown :=
  match Program.read source with
  | .error e => (s, { result := .error e })
  | .ok p =>
    let raw := when d.rawTree ("Raw AST:\n" ++ p.text ++ "\n")
    match s.compileProgram p with
    | (s, .error e) => (s, { result := .error e, output := raw })
    | (s, .ok main) => s.showRun d main (raw ++ s.compiledText d p main.module)

end Session

end StackScript
