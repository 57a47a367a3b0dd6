import StackScript.Bytecode.Code
import StackScript.Expr.Printer
import StackScript.Library

/-!
Listings of modules and of code. A line of code shows its address, its operands and what they refer to.
-/
namespace StackScript

namespace Listing

def address (n : Nat) : String := Text.padded 4 (toString n)

/-- The name after a semicolon, if the operand refers to something. -/
def note : Option String → String
  | some s => "  ; " ++ s
  | none => ""

def functionName? (m : Module) (i : Nat) : Option String := (m.functions[i]?).map (·.name)

/-- What the operands of an instruction refer to. -/
def remark (l : Library) (h : Heap) (m : Module) (op : Opcode) (first second next : Nat) : String :=
  match op with
  | .call0 | .loadFunction | .makeClosure => note (functionName? m first)
  | .call1 =>
    note (((m.imports[0]?).bind fun id => functionName? (l.get id) first).map ("builtin::" ++ ·))
  | .call => note ((m.imports[first]?).map fun id =>
      l.nameOf id ++ "::" ++ (functionName? (l.get id) second).getD "")
  | .loadStatic => note ((m.values[first]?).map fun v => v.text h)
  | .invoke | .subscript => note ((m.types[first]?).map Ty.text)
  | .makeList => note ((m.types[second]?).map fun t => "[" ++ t.text ++ "]")
  | .jump | .jumpIfNot => note (some ("-> " ++ address (next + first)))
  | _ => ""

/-- The instruction at an address and the address after it. Its operands are those of the bytes behind it that
are there. -/
def instruction (l : Library) (h : Heap) (m : Module) (code : Array UInt8) (i : Nat) (b : UInt8) :
    String × Nat :=
  match Opcode.ofByte? b with
  | none => ("<unknown 0x" ++ Text.padded 2 (Text.hex b.toNat) ++ ">", i + 1)
  | some op =>
    let next := i + op.length
    let operands := (code.extract (i + 1) next).toList.map UInt8.toNat
    if operands.length < op.arity then (op.text ++ " <truncated>", code.size)
    else
      let told := remark l h m op (operands.getD 0 0) (operands.getD 1 0) next
      (op.text ++ String.join (operands.map fun n => " " ++ toString n) ++ told, next)

def codeFrom (l : Library) (h : Heap) (m : Module) (code : Array UInt8) : Nat → Nat → List String
  | 0, _ => []
  | fuel + 1, i =>
    match code[i]? with
    | none => []
    | some b =>
      let (line, next) := instruction l h m code i b
      (address i ++ "  " ++ line ++ "\n") :: codeFrom l h m code fuel next

def code (l : Library) (h : Heap) (m : Module) (bytes : Array UInt8) : String :=
  String.join (codeFrom l h m bytes bytes.size 0)

def function (l : Library) (h : Heap) (m : Module) (f : Function) : String :=
  let head := f.name ++ ": " ++ f.signature.text ++ "\n"
  let captures :=
    if f.signature.nonlocals.isEmpty then ""
    else "  nonlocals:" ++ String.join ((f.captures.zip f.signature.nonlocals).map fun (name, t) =>
      " " ++ name ++ ": " ++ t.text) ++ "\n"
  let body := match f.body with
    | .generic decl _ => "  <generic> " ++ decl.body.text ++ "\n"
    | .native _ => "  <native>\n"
    | .undefined => "  <undefined>\n"
    | .fragment op => code l h m #[op.toByte]
    | .code bytes => code l h m bytes
  head ++ captures ++ body

/-- All functions of a module. -/
def disassembly (l : Library) (h : Heap) (m : Module) : String :=
  "== module " ++ m.name ++ " ==\n" ++
    String.join (m.functions.toList.mapIdx fun i f => "\n[" ++ toString i ++ "] " ++ function l h m f)

def entry (i : Nat) (s : String) : String := "    [" ++ toString i ++ "] " ++ s ++ "\n"

/-- A headed list, left out if it is empty. -/
def part (head : String) (entries : List String) : String :=
  if entries.isEmpty then "" else "  " ++ head ++ ":\n" ++ String.join (entries.mapIdx entry)

/-- The imports, functions, static values and types of a module. -/
def module (l : Library) (h : Heap) (m : Module) : String :=
  "module " ++ m.name ++ "\n" ++
    part "imports" (m.imports.toList.map l.nameOf) ++
    "  functions:\n" ++ String.join ((m.functions.toList.map fun f =>
      f.name ++ ": " ++ f.signature.text ++ " (" ++ f.body.kind ++ ")").mapIdx entry) ++
    part "values" (m.values.toList.map fun v => v.text h ++ ": " ++ v.ty.text) ++
    part "types" (m.types.toList.map Ty.text)

end Listing

end StackScript
