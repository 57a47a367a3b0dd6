import StackScript.CommandLine

/-!
The program on the command line. All it decides is left to `CommandLine`; here files, variables and lines
are read, and texts written.
-/
namespace StackScript

namespace Main

def problemOf : IO.Error → FileProblem
  | .inappropriateType _ code _ => if code = 21 then .directory else .notDirectory
  | .invalidArgument .. => .tooLong
  | _ => .missing

def readFile (path : String) : IO (Except FileProblem String) := do
  try
    match String.fromUTF8? (← IO.FS.readBinFile path) with
    | some text => return .ok text
    | none => return .error .notText
  catch e => return .error (problemOf e)

/-- The files and variables that the program may look at. -/
def surroundings (s : CommandLine.Settings) : IO CommandLine.Surroundings := do
  let names := ["KINDLE_STD_PATH", "KINDLE_INSTRUCTION_LIMIT"]
  let defined ← names.filterMapM fun name => do return (← IO.getEnv name).map fun v => (name, v)
  let lookup (name : String) := defined.lookup name
  let paths := (lookup "KINDLE_STD_PATH").toList ++ s.files
  let files ← paths.mapM fun path => do return (path, ← readFile path)
  return ⟨fun path => (files.lookup path).getD (.error .missing), lookup⟩

def write (o : Output) : IO Unit := do
  let out ← IO.getStdout
  out.putStr o.out
  out.flush
  (← IO.getStderr).putStr o.err

/-- Reads lines until the end of the input or the command that quits. -/
partial def converse (p : Prompt) : IO Prompt := do
  write { out := p.mark }
  let line ← (← IO.getStdin).getLine
  if line.isEmpty then
    write { out := "\n" }
    return p
  match p.read line with
  | (p, none) => return p
  | (p, some out) =>
    write out
    converse p

def historyPath : IO String := do
  match ← IO.getEnv "HOME" with
  | some home => return home ++ "/" ++ CommandLine.historyFile
  | none => return CommandLine.historyFile

def interact (session : Session) (display : Display) : IO Unit := do
  let path ← historyPath
  write { out := Prompt.greeting CommandLine.version }
  let p ← converse (Prompt.start session display (← readFile path).toOption)
  try IO.FS.writeFile path p.historyText catch _ => pure ()
  write { out := Prompt.farewell }

def run (args : List String) : IO UInt32 := do
  let finish (e : CommandLine.Exit) : IO UInt32 := do
    write e.output
    return .ofNat e.code
  match CommandLine.readArgs {} args with
  | .error e => finish e
  | .ok settings =>
    let around ← surroundings settings
    match CommandLine.start settings around with
    | .error e => finish e
    | .ok session =>
      if CommandLine.isInteractive settings then
        interact session settings.display
        return 0
      else finish (CommandLine.batch settings around session)

end Main

end StackScript

def main (args : List String) : IO UInt32 := StackScript.Main.run args
