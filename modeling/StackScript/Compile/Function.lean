import StackScript.Compile.Captures
import StackScript.Compile.Names

/-!
Writing functions. A function runs above its frame: captured values on top, then bound arguments, then
parameters. Its code leaves the result above the frame and then releases the frame under it.
-/
namespace StackScript

namespace Draft

/-- Symbols for variables that lie one below another. -/
def place (symbol : Nat → Nat → Ty → Symbol) : Nat → Nat → List String → List Ty → List (String × Symbol)
  | i, offset, name :: names, t :: ts =>
    (name, symbol i offset t) :: place symbol (i + 1) (offset + t.size) names ts
  | _, _, _, _ => []

/-- The named variables of a frame. Bound arguments come without their names. -/
def frameSymbols (s : Signature) (captures params : List String) : List (String × Symbol) :=
  place .nonlocal 0 0 captures s.nonlocals ++ place .parameter 0 s.closureSize params s.params

/-- How far the handles of values that lie one below another are below the top. -/
def distancesFrom (offset : Nat) : List Ty → List Nat
  | [] => []
  | t :: ts => t.distances.map (offset + ·) ++ distancesFrom (offset + t.size) ts

def frameTypes (s : Signature) : List Ty := s.nonlocals ++ s.bound ++ s.params

end Draft

namespace Compile

/-- Starts the draft of a declared function. -/
def beginFunction (f : FunctionRef) (params : List String) (parent : Nat) (span : Span) : Compile Unit := do
  let function ← getFunction f span
  let scope ← addScope f.module parent .function function.name
  (Draft.frameSymbols function.signature function.captures params).forM fun (name, symbol) =>
    bindIn f.module scope name symbol
  modify fun c => { c with
    unfinished := f :: c.unfinished
    draft := {
      target := f
      name := function.name
      signature := function.signature
      captures := function.captures
      scope := scope } }

/-- Releases and removes the frame under a result. -/
def releaseFrame (s : Signature) (result : Ty) (span : Span) : Compile Unit := do
  releaseAt (Draft.distancesFrom result.size (Draft.frameTypes s)) span
  if 0 < s.frameSize then emit2 .drop result.size s.frameSize span

/-- Finishes the draft with the type that its body turned out to have, and installs its code. -/
def endFunction (result : Ty) (span : Span) : Compile Unit := do
  let d ← getDraft
  match d.signature.resolve result with
  | .error conflict => fail (.unexpectedResult conflict) span
  | .ok s =>
    releaseFrame s result span
    let (code, far) := (← getDraft).code.resolve
    if let some jump := far then fail (.jumpTooFar jump) span
    modify fun c => { c with unfinished := c.unfinished.filter (· ≠ d.target) }
    onModule d.target.module fun m =>
      (m.setFunction d.target.index ⟨d.name, s, .code code.bytes, d.captures⟩, ())

/-- Writes a declared function. The draft that was being written waits. -/
def writeFunction (f : FunctionRef) (params : List String) (parent : Nat) (span bodySpan : Span)
    (body : Option Ty → Compile Ty) : Compile Unit := do
  let outer ← getDraft
  beginFunction f params parent span
  let expected := (← getDraft).signature.result
  let result ← body (if expected.isUnknown then none else some expected)
  endFunction result bodySpan
  setDraft outer

/-- Declares a function inside another one and writes it unless it is generic. -/
def declareNested (decl : FunctionDecl) (s : Signature) (body : Option Ty → Compile Ty) : Compile Nat := do
  let ⟨module, _⟩ := (← getDraft).target
  let scope := (← getDraft).scope
  let captures := decl.captures (← getModule module) scope
  let s := { s with nonlocals := captures.map (·.2) }
  let name := decl.header.name
  let index ← addFunction module {
    name := if name.isEmpty then "lambda" else name
    signature := s
    body := if s.isGeneric then .generic decl scope else .undefined
    captures := captures.map (·.1) }
  if !name.isEmpty then bindIn module scope name (.function index)
  if !s.isGeneric then
    writeFunction ⟨module, index⟩ (FreeNames.paramNames decl.header) scope decl.header.span decl.body.span body
  return index

end Compile

end StackScript
