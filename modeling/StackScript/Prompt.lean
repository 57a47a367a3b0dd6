import StackScript.Session.Show
import StackScript.Text.Blank

/-!
The interactive prompt, one line at a time. Lines are collected until their braces balance, and then
evaluated as one input; lines that start with a dot are commands.
-/
namespace StackScript

/-! ### Braces -/

namespace Braces

inductive Mode
  | plain
  /-- Inside quotes of the given kind. -/
  | inside (quote : Char)
  /-- After a backslash inside quotes. -/
  | escaped (quote : Char)
deriving DecidableEq, Repr

/-- Opening braces less closing ones, outside quotes. -/
def countFrom : Mode → List Char → Int
  | _, [] => 0
  | .escaped q, _ :: cs => countFrom (.inside q) cs
  | .inside q, c :: cs =>
    countFrom (if c = '\\' then .escaped q else if c = q then .plain else .inside q) cs
  | .plain, c :: cs =>
    if c = '"' ∨ c = '\'' then countFrom (.inside c) cs
    else (if c = '\x7b' then 1 else if c = '\x7d' then -1 else 0) + countFrom .plain cs

def count (line : String) : Int := countFrom .plain line.toList

end Braces

/-- Text for the two output streams. -/
structure Output where
  out : String := ""
  err : String := ""
deriving DecidableEq, Repr, Inhabited

namespace Output

instance : Append Output := ⟨fun a b => ⟨a.out ++ b.out, a.err ++ b.err⟩⟩

/-- An error with its detail. -/
def ofFailure (e : Failure) : Output :=
  { err := "Error: " ++ e.message ++ "\n" ++
      match e.detail? with
      | some detail => "  " ++ detail ++ "\n"
      | none => "" }

end Output

structure Prompt where
  session : Session
  display : Display := {}
  /-- The oldest line first. -/
  history : Array String := #[]
  /-- The lines of an input whose braces are still open. -/
  buffer : String := ""
  balance : Int := 0
deriving Inhabited

namespace Prompt

def greeting (version : String) : String :=
  "Kindle " ++ version ++ "\nType .help for available commands.\n\n"

def help : String :=
  "\nKindle REPL Commands\n\n" ++
  ".help, .h               Show this help message\n" ++
  ".quit, .q               Leave the REPL\n" ++
  ".dump_module [name]     Print a module, the last input by default\n" ++
  ".bytecode, .b           Toggle printing bytecode of each input\n" ++
  ".trace, .t              Toggle tracing execution\n" ++
  ".stack, .s              Print the machine stack\n\n" ++
  "Results are bound as _N and can be used by later inputs.\n\n"

def farewell : String := "Goodbye!\n"

/-- Starts with the lines of an earlier history that are not blank. -/
def start (session : Session) (display : Display) (history : Option String) : Prompt :=
  let old := ((history.map Text.lines).getD []).filter fun line => !Text.allBlank line
  { session := session, display := display, history := old.toArray }

def historyText (p : Prompt) : String := "\n".intercalate p.history.toList

/-- What is shown before a line is read. -/
def mark (p : Prompt) : String :=
  if p.buffer.isEmpty then Session.resultName p.session.counter ++ "> " else "... "

/-- Evaluates an input and shows its value unless it has none. -/
def eval (p : Prompt) (source : String) : Prompt × Output :=
  let name := Session.resultName p.session.counter
  let (s, shown) := p.session.evalWith p.display source
  let told : Output := match shown.result with
    | .error e => .ofFailure e
    | .ok v => { out := if v.isVoid then "" else name ++ " = " ++ v.text s.heap ++ "\n" }
  ({ p with session := s }, { out := shown.output } ++ told)

/-- Takes a line of an input, and evaluates the input if its braces balance. -/
def input (p : Prompt) (line : String) : Prompt × Output :=
  let buffer := if p.buffer.isEmpty then line else p.buffer ++ "\n" ++ line
  let balance := p.balance + Braces.count line
  if 0 < balance then ({ p with buffer := buffer, balance := balance }, {})
  else eval { p with buffer := "", balance := 0 } buffer

def moduleText (p : Prompt) (name : Option String) : String :=
  let s := p.session
  let found := match name with
    | some name => s.findModule? name
    | none => s.inputs.getLast?
  match found with
  | some id =>
    let m := s.getModule id
    Listing.module s.world.library s.heap m ++ Listing.disassembly s.world.library s.heap m
  | none => "No module " ++ name.getD "evaluated yet" ++ "\n"

def switched (what : String) (on : Bool) : String :=
  what ++ " " ++ (if on then "enabled" else "disabled") ++ ".\n"

/-- Runs a command other than the one that quits. -/
def command (p : Prompt) (line : String) : Option (Prompt × Output) :=
  let parts := Text.words line
  let name := parts.headD ""
  if name = ".quit" ∨ name = ".q" ∨ name = "exit" then none
  else if name = ".help" ∨ name = ".h" then some (p, { out := help })
  else if name = ".dump_module" ∨ name = ".dm" then some (p, { out := p.moduleText parts.tail.head? })
  else if name = ".bytecode" ∨ name = ".b" then
    let on := !p.display.code
    some ({ p with display := { p.display with code := on } }, { out := switched "Bytecode printing" on })
  else if name = ".trace" ∨ name = ".t" then
    let on := !p.display.trace
    some ({ p with display := { p.display with trace := on } }, { out := switched "Tracing" on })
  else if name = ".stack" ∨ name = ".s" then
    some (p, { out := p.session.world.machine.stackText p.session.world.library })
  else some (p, { out := "Unknown command: " ++ line ++ ". Type .help for available commands.\n" })

/-- Takes a line that was read and gives what it shows, or nothing after the command that quits. -/
def read (p : Prompt) (line : String) : Prompt × Option Output :=
  let line := Text.trimEnd line
  if p.buffer.isEmpty && Text.allBlank line then (p, some {})
  else
    let q := { p with history := p.history.push line }
    if p.buffer.isEmpty && (line.startsWith "." || line = "exit") then
      match q.command (Text.trim line) with
      | none => (q, none)
      | some (q, out) => (q, some out)
    else
      let (q, out) := q.input line
      (q, some out)

end Prompt

end StackScript
