import StackScript.Prompt

/-!
The command line: options, the files and expressions to evaluate, and the texts and exit codes that answer.
-/
namespace StackScript

namespace CommandLine

def version : String := "0.3.0"

def usage : String :=
  "Kindle " ++ version ++ " - statically typed scripting language\n\n" ++
  "Usage: kindle [options] [file...]\n\n" ++
  "With no file and no -e, starts the interactive REPL.\n\n" ++
  "Options:\n" ++
  "  -e EXPR      Evaluate EXPR and print the result\n" ++
  "  -r           Print the raw AST\n" ++
  "  -t           Print the AST after compilation\n" ++
  "  -b           Print bytecode\n" ++
  "  -s           Print the symbol table\n" ++
  "  -m           Print module functions, values and types\n" ++
  "  --trace      Trace execution\n" ++
  "  --no-std     Don't load the std module\n" ++
  "  --no-color   Disable colored output\n" ++
  "  -h, --help   Show this help message\n\n" ++
  "Environment:\n" ++
  "  KINDLE_STD_PATH           Load std from this file\n" ++
  "  KINDLE_INSTRUCTION_LIMIT  Abort evaluation after this many instructions\n" ++
  "  KINDLE_LOG                Log filter (default: warn)\n"

/-- The name of the history file in the home directory. -/
def historyFile : String := ".kindle_history"

structure Settings where
  files : List String := []
  expression : Option String := none
  display : Display := {}
  withStd : Bool := true
deriving DecidableEq, Repr

/-- An end of the program, with its exit code. -/
structure Exit where
  code : Nat := 0
  output : Output := {}
deriving DecidableEq, Repr

def misuse (message : String) : Exit := { code := 64, output := { err := message ++ "\n" ++ usage } }

/-- Reads the arguments from left to right, up to the first that asks for help or is wrong. -/
def readArgs (s : Settings) : List String → Except Exit Settings
  | [] => .ok s
  | "-e" :: [] => .error (misuse "-e requires an expression")
  | "-e" :: e :: rest => readArgs { s with expression := some e } rest
  | arg :: rest =>
    if arg = "-r" then readArgs { s with display := { s.display with rawTree := true } } rest
    else if arg = "-t" then readArgs { s with display := { s.display with tree := true } } rest
    else if arg = "-b" then readArgs { s with display := { s.display with code := true } } rest
    else if arg = "-s" then readArgs { s with display := { s.display with scopes := true } } rest
    else if arg = "-m" then readArgs { s with display := { s.display with module := true } } rest
    else if arg = "--trace" then readArgs { s with display := { s.display with trace := true } } rest
    else if arg = "--no-std" then readArgs { s with withStd := false } rest
    else if arg = "--no-color" then readArgs s rest
    else if arg = "-h" ∨ arg = "--help" then .error { output := { err := usage } }
    else if arg.startsWith "-" then .error (misuse ("Unknown option: " ++ arg))
    else readArgs { s with files := s.files ++ [arg] } rest

/-- What the program sees of the world around it. -/
structure Surroundings where
  readFile : String → Except FileProblem String
  env? : String → Option String

/-- A decimal number below `2 ^ 64`, perhaps after a plus sign. -/
def readLimit? (s : String) : Option Nat :=
  let digits := match (Text.trim s).toList with
    | '+' :: rest => rest
    | cs => cs
  let n := Nat.ofDigitChars 10 digits 0
  if digits ≠ [] ∧ digits.all Text.isDigit ∧ n < 0x10000000000000000 then some n else none

/-- The instruction limit; zero and what is not a number mean none. -/
def limit? (around : Surroundings) : Option Nat :=
  ((around.env? "KINDLE_INSTRUCTION_LIMIT").bind readLimit?).filter (· ≠ 0)

/-- The file that holds the standard library, where another one than the usual is wanted. -/
def stdPath? (around : Surroundings) : Option String :=
  (around.env? "KINDLE_STD_PATH").filter fun path => !path.isEmpty

def stdSource (s : Settings) (around : Surroundings) : Except Failure (Option String) :=
  if !s.withStd then .ok none
  else match stdPath? around with
    | none => .ok (some Prelude.source)
    | some path =>
      match around.readFile path with
      | .ok source => .ok (some source)
      | .error problem => .error (.file problem)

def failed (e : Failure) (before : Output := {}) : Exit := { code := 70, output := before ++ .ofFailure e }

/-- Starts the session. -/
def start (s : Settings) (around : Surroundings) : Except Exit Session :=
  match stdSource s around with
  | .error e => .error (failed e)
  | .ok std =>
    match Session.start { std := std, limit := limit? around } with
    | .error e => .error (failed e)
    | .ok session => .ok session

/-- Evaluates files in order, up to the first that cannot be read or fails. -/
def runFiles (d : Display) (around : Surroundings) (s : Session) (before : Output) :
    List String → Except Exit (Session × Output)
  | [] => .ok (s, before)
  | path :: rest =>
    match around.readFile path with
    | .error problem =>
      let told := "Error: Failed to read file '" ++ path ++ "': " ++ problem.message ++ "\n"
      .error { code := 66, output := before ++ { err := told } }
    | .ok source =>
      let (s, shown) := s.evalWith d source
      let after := before ++ { out := shown.output }
      match shown.result with
      | .error e => .error (failed e after)
      | .ok _ => runFiles d around s after rest

/-- Evaluates the expression and shows its value unless it has none. -/
def runExpression (d : Display) (s : Session) (before : Output) (source : String) : Exit :=
  let (s, shown) := s.evalWith d source
  let after := before ++ { out := shown.output }
  match shown.result with
  | .error e => failed e after
  | .ok v => { output := after ++ { out := if v.isVoid then "" else v.text s.heap ++ "\n" } }

/-- Evaluates the files and then the expression. -/
def batch (s : Settings) (around : Surroundings) (session : Session) : Exit :=
  match runFiles s.display around session {} s.files with
  | .error e => e
  | .ok (session, before) =>
    match s.expression with
    | none => { output := before }
    | some source => runExpression s.display session before source

def isInteractive (s : Settings) : Bool := s.files.isEmpty && s.expression.isNone

/-- A dialogue over the lines that are left to read. The end of the lines ends it with an empty line. -/
def converse (p : Prompt) (before : Output) : List String → Prompt × Output
  | [] => (p, before ++ { out := p.mark ++ "\n" ++ Prompt.farewell })
  | line :: rest =>
    let shown := before ++ { out := p.mark }
    match p.read line with
    | (p, none) => (p, shown ++ { out := Prompt.farewell })
    | (p, some out) => converse p (shown ++ out) rest

/-- Runs the program on its arguments and input. An interactive run gives a new history. -/
def run (args : List String) (around : Surroundings) (input : String) (history : Option String) :
    Exit × Option String :=
  match readArgs {} args with
  | .error e => (e, history)
  | .ok settings =>
    match start settings around with
    | .error e => (e, history)
    | .ok session =>
      if isInteractive settings then
        let p := Prompt.start session settings.display history
        let (p, output) := converse p { out := Prompt.greeting version } (Text.lines input)
        ({ output := output }, some p.historyText)
      else (batch settings around session, history)

end CommandLine

end StackScript
