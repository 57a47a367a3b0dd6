import StackScript.Module

/-!
The builtin module, which every module imports first: the opcodes on truth values and words as inlined
functions, and the native functions.
-/
namespace StackScript

namespace Opcode

/-- The signature of an opcode as a function. -/
def signature : Opcode → Signature
  | word op w =>
    let t := w.ty
    { params := if op.isUnary then [t] else [t, t], result := if op.isComparison then .bool else t }
  | logicalNot => { params := [.bool], result := .bool }
  | _ => { params := [.bool, .bool], result := .bool }

end Opcode

namespace Builtin

def name : String := "builtin"

/-- The opcodes that can be called by name. -/
def opcodes : List Opcode :=
  [.logicalNot, .logicalOr, .logicalAnd] ++ WordOp.all.flatMap fun op => Width.all.map (.word op)

def functions : List Function :=
  opcodes.map (fun op => { name := op.name, signature := op.signature, body := .fragment op }) ++
    Native.all.map fun n => { name := n.name, signature := n.signature, body := .native n }

/-- Adds a function and binds its name. -/
def define (m : Module) (f : Function) : Module :=
  let (m, i) := m.addFunction f
  m.define f.name (.function i)

def module : Module := functions.foldl define (.named name)

end Builtin

end StackScript
