import StackScript.Compile.Error
import StackScript.Expr.Parser
import StackScript.Token.Lexer

/-!
Why an input has no value, by the stage that it failed in.
-/
namespace StackScript

inductive FileProblem
  | missing | notDirectory | directory | tooLong | notText
deriving DecidableEq, Repr

def FileProblem.message : FileProblem → String
  | missing => "No such file or directory (os error 2)"
  | notDirectory => "Not a directory (os error 20)"
  | directory => "Is a directory (os error 21)"
  | tooLong => "File name too long (os error 36)"
  | notText => "stream did not contain valid UTF-8"

inductive Failure
  | scan (e : LexError)
  | parse (e : ParseError)
  | compile (e : CompileError)
  | run (fault : Fault)
  | file (problem : FileProblem)

namespace Failure

def message : Failure → String
  | scan e => "Lexer error: " ++ e.message
  | parse e => "Parser error: " ++ e.message
  | compile e => "Compile error: " ++ e.message
  | run fault => "Runtime error: " ++ fault.message
  | file problem => "IO error: " ++ problem.message

def detail? : Failure → Option String
  | compile e => e.detail?
  | _ => none

end Failure

namespace Program

/-- Reads a program from its text. -/
def read (source : String) : Except Failure Program :=
  match Token.scan source with
  | .error e => .error (.scan e)
  | .ok tokens =>
    match ofTokens tokens with
    | .error e => .error (.parse e)
    | .ok p => .ok p

end Program

end StackScript
