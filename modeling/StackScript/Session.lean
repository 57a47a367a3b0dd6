import StackScript.Compile.Program
import StackScript.Session.Failure
import StackScript.Session.Prelude

/-!
Sessions. Each input becomes a module of its own that sees the builtin module, the standard library, modules
imported on purpose and all earlier inputs, nearer ones first. The value of input `n` is bound to `_n` in its
module. An input that fails leaves nothing behind that a later one can name.
-/
namespace StackScript

structure Session where
  world : World
  /-- Whether values of statements are handed to the host. -/
  invoke : Bool := true
  std : Option Nat := none
  /-- Modules that every later input sees, the oldest first. -/
  imports : List Nat := []
  /-- Modules of the inputs that succeeded, the oldest first. -/
  inputs : List Nat := []
  /-- Modules built for the host. -/
  built : List Nat := []
  /-- The number of the next input. -/
  counter : Nat := 0
deriving Inhabited

namespace Session

structure Config where
  /-- The text of the standard library, if there is one. -/
  std : Option String := some Prelude.source
  invoke : Bool := true
  limit : Option Nat := none
  stack : Stack := .empty

/-- The number of the builtin module. -/
def builtin : Nat := 0

/-- The modules that can be looked up by name. -/
def known (s : Session) : List Nat := builtin :: s.std.toList ++ s.imports ++ s.inputs

/-- The modules that the session keeps. -/
def held (s : Session) : List Nat := s.known ++ s.built

def nameOf (s : Session) (id : Nat) : String := s.world.library.nameOf id

def getModule (s : Session) (id : Nat) : Module := s.world.library.get id

def heap (s : Session) : Heap := s.world.machine.heap

def findModule? (s : Session) (name : String) : Option Nat := s.known.find? fun id => s.nameOf id = name

/-- Drops a module that the session does not keep. -/
def discard (s : Session) (id : Nat) : Session := { s with world := s.world.drop s.held [id] }

/-- Adds a module and compiles a program into it. -/
def compileInto (s : Session) (m : Module) (p : Program) : Session × Except Failure FunctionRef :=
  let (w, id) := s.world.addModule m
  match w.compile id s.invoke p with
  | (w, .ok main) => ({ s with world := w }, .ok ⟨id, main⟩)
  | (w, .error e) => (discard { s with world := w } id, .error (.compile e))

/-- Builds a module that imports the builtin module and the standard library. -/
def build (s : Session) (name source : String) : Session × Except Failure Nat :=
  match Program.read source with
  | .error e => (s, .error e)
  | .ok p =>
    let m := (builtin :: s.std.toList).foldl (fun m id => (m.addImport id).1) (Module.named name)
    match s.compileInto m p with
    | (s, .ok main) => ({ s with built := s.built ++ [main.module] }, .ok main.module)
    | (s, .error e) => (s, .error e)

def start (c : Config) : Except Failure Session :=
  let machine : Machine := { stack := c.stack, limit := c.limit }
  let world : World := (({ machine := machine } : World).addModule Builtin.module).1
  let s : Session := { world := world, invoke := c.invoke }
  match c.std with
  | none => .ok s
  | some source =>
    match s.build Prelude.name source with
    | (s, .ok id) => .ok { s with std := some id, built := [] }
    | (_, .error e) => .error e

/-- Lets every later input see a module. -/
def addImport (s : Session) (id : Nat) : Session := { s with imports := s.imports ++ [id] }

/-- The module of the next input before it is compiled. -/
def inputModule (s : Session) : Module :=
  let m := ((Module.named ("input_" ++ toString s.counter)).addImport builtin).1
  (s.std.toList ++ s.imports ++ s.inputs).foldl Module.addVisible m

/-- Compiles an input, which is not run yet, and gives its function `main`. -/
def compileProgram (s : Session) (p : Program) : Session × Except Failure FunctionRef :=
  s.compileInto s.inputModule p

def compile (s : Session) (source : String) : Session × Except Failure FunctionRef :=
  match Program.read source with
  | .error e => (s, .error e)
  | .ok p => s.compileProgram p

/-- The name that a result is bound to. -/
def resultName (n : Nat) : String := "_" ++ toString n

/-- Keeps an input that was run, with its value. The binding shares the references of the value. -/
def keep (s : Session) (id : Nat) (v : Value) : Session :=
  let name := resultName s.counter
  let bind (m : Module) : Module :=
    let (m, i) := m.addValue v
    m.define name (.value i)
  let w := s.world
  { s with
    world := if v.isVoid then w else { w with library := w.library.modify id bind }
    inputs := s.inputs ++ [id]
    counter := s.counter + 1 }

/-- Runs a compiled input. If it fails, the stack is emptied and its module dropped. -/
def run (s : Session) (main : FunctionRef) : Session × Except Failure Value :=
  match s.world.apply main [] with
  | (w, .ok v) => (keep { s with world := w } main.module v, .ok v)
  | (w, .error fault) =>
    (discard { s with world := w.clear (main.module :: s.held) } main.module, .error (.run fault))

def eval (s : Session) (source : String) : Session × Except Failure Value :=
  match s.compile source with
  | (s, .error e) => (s, .error e)
  | (s, .ok main) => s.run main

/-- Gives up all modules. -/
def finish (s : Session) : World :=
  ({ s.world with machine := s.world.machine.clear } : World).drop [] (s.world.framed ++ s.held)

end Session

end StackScript
