import StackScript.Bytecode.Code
import StackScript.Expr.Printer
import StackScript.Fault
import StackScript.Ty.Signature

/-!
Why a program does not compile: a cause, and the span of text that it is found at.
-/
namespace StackScript

inductive CompileError.Cause
  | undefinedName (name : String)
  | undefinedType (name : String)
  | mismatch (expected found : Ty)
  | notTuple (found : Ty)
  | notList (found : Ty)
  /-- A lambda is bound under a type that is no function type. -/
  | notFunctionType (written : TypeExpr)
  | unexpectedResult (conflict : ResultConflict)
  | argumentCount (expected given : Nat)
  | notCallable (found : Ty)
  | cannotInfer (what : String)
  /-- An instance of a generic function could not be made. -/
  | instantiation (name detail : String)
  | unsupportedOperator (sign : String) (operand : Ty)
  | operandTooLarge (op : Opcode) (value : Nat)
  | functionTooFar (index : Nat)
  | jumpTooFar (jump : JumpTooFar)
  /-- A name stands for a variable of an enclosing function that was not captured. -/
  | notCaptured (name : String)
  | missingFunction (index : Nat) (module : String)
  | missingValue (name : String)
  | deadValue (fault : Fault)
  | noBuiltin
  | notGeneric (name : String)
  | notImported (module importer : String)
  | tooManyImports (module : String) (index : Nat) (importer : String)
  | noField (tuple : Ty) (position : Nat)
  /-- Bodies wait for each other in a chain that is too long. -/
  | tooDeep

structure CompileError where
  cause : CompileError.Cause
  span : Span

namespace CompileError

/-- The largest number of modules that code can call into. -/
def importLimit : Nat := 256

def mismatchText (expected found : String) : String :=
  "Type mismatch: expected " ++ expected ++ ", found " ++ found

def Cause.text : Cause → String
  | undefinedName n => "Undefined name '" ++ n ++ "'"
  | undefinedType n => "Undefined type '" ++ n ++ "'"
  | mismatch e f => mismatchText e.text f.text
  | notTuple f => mismatchText "tuple" f.text
  | notList f => mismatchText "list" f.text
  | notFunctionType a => mismatchText a.text "function"
  | unexpectedResult c =>
    "Unexpected return type: declared " ++ c.declared.text ++ ", found " ++ c.found.text
  | argumentCount e g => "Wrong number of arguments: expected " ++ toString e ++ ", got " ++ toString g
  | notCallable t => "Cannot call value of type " ++ t.text
  | cannotInfer what => "Cannot infer type of " ++ what
  | instantiation n _ => "Cannot instantiate generic function '" ++ n ++ "'"
  | unsupportedOperator o t => "Operator '" ++ o ++ "' is not defined for " ++ t.text
  | operandTooLarge op v => "Operand out of range: " ++ op.text ++ " operand " ++ toString v
  | functionTooFar i => "Operand out of range: function index " ++ toString i
  | jumpTooFar j =>
    "Operand out of range: jump from " ++ toString j.origin ++ " to " ++ toString j.target
  | notCaptured n => "'" ++ n ++ "' belongs to an enclosing function and is not captured here"
  | missingFunction i m => "function " ++ toString i ++ " not found in module '" ++ m ++ "'"
  | missingValue n => "static value '" ++ n ++ "' is missing"
  | deadValue f => f.message
  | noBuiltin => "builtin module is not imported"
  | notGeneric n => "'" ++ n ++ "' is not generic"
  | notImported m i => "module '" ++ m ++ "' is not imported by '" ++ i ++ "'"
  | tooManyImports m n i =>
    "too many imported modules: calling into '" ++ m ++ "' needs import " ++ toString n ++ " of '" ++ i ++
      "', at most " ++ toString importLimit ++ " are addressable"
  | noField t i => "tuple " ++ t.text ++ " has no field " ++ toString i
  | tooDeep => "functions are nested too deeply"

def message (e : CompileError) : String := e.cause.text ++ " at " ++ e.span.text

/-- What is told under the message. -/
def detail? (e : CompileError) : Option String :=
  match e.cause with
  | .instantiation _ detail => some detail
  | _ => none

end CompileError

end StackScript
