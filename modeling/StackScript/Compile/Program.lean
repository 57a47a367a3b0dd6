import StackScript.Compile.Expr
import StackScript.World

/-!
Compiling programs. The declarations of a program are entered into its module first, so that functions may
name what is declared after them. Then the functions are written, and last the function `main`, which runs
the other statements in order and returns the value of the program.
-/
namespace StackScript

namespace Compile

/-- Declares a function of the module. A generic one waits for its uses. -/
def declareFunction (decl : FunctionDecl) : Compile Unit := do
  let module := (← get).module
  let s ← lift decl.header.signature
  let name := decl.header.name
  let index ← addFunction module {
    name := name
    signature := s
    body := if s.isGeneric then .generic decl ScopeTable.root else .undefined }
  if !s.isGeneric then modify fun c => { c with pending := c.pending ++ [(index, decl)] }
  bindIn module ScopeTable.root name (.function index)

/-- Declares a literal as a static value. -/
def declareLiteral (name : String) (v : Literal) (written : Option TypeExpr) (span : Span) :
    Compile Unit := do
  let module := (← get).module
  let expected ← lift (written.mapM TypeExpr.resolve)
  let value ← onHeap (v.adapt expected).value
  if let some t := expected then
    if !t.agrees value.ty then
      let _ ← onHeap value.decref
      fail (.mismatch t value.ty) span
  bindIn module ScopeTable.root name (.value (← addValue module value))

/-- Declares a binding that is computed anew at each use. -/
def declareComputed (name : String) (written : Option TypeExpr) (init : Expr) (span : Span) :
    Compile Unit := do
  let module := (← get).module
  let result ← lift (TypeExpr.resolve? written)
  let index ← addFunction module { name := name, signature := { result := result } }
  modify fun c => { c with pending := c.pending ++ [(index, ⟨⟨name, [], written, span⟩, init⟩)] }
  bindIn module ScopeTable.root name (.computed index)

def declare : Stmt → Compile Unit
  | .expr _ _ => return ()
  | .function h body _ => declareFunction ⟨h, body⟩
  | .bind name written (.lambda h body _) _ => do
    declareFunction ⟨← lift (h.bindTo name written), body⟩
  | .bind name written (.literal v span) _ => declareLiteral name v written span
  | .bind name written init span => declareComputed name written init span

/-- Hands the value of a statement to the host, or drops it. -/
def finishStatement (invoke : Bool) (t : Ty) (span : Span) : Compile Unit := do
  if 0 < t.size then
    if invoke then
      emit1 .invoke (← typeOperand t) span
      sink t.size
    else discard t span

/-- Writes the function that runs the program. -/
def writeMain (invoke : Bool) (p : Program) : Compile Nat := do
  let module := (← get).module
  let index ← addFunction module { name := "main", signature := {} }
  let last := (p.value.map Expr.span).getD {}
  writeFunction ⟨module, index⟩ [] ScopeTable.root {} last fun _ => do
    p.statements.forM fun s => match s with
      | .expr e _ => do finishStatement invoke (← expr (writeDeferred nestingLimit) e none) e.span
      | _ => return ()
    optional (writeDeferred nestingLimit) p.value none
  return index

/-- Compiles a program and gives the number of its function `main`. -/
def program (invoke : Bool) (p : Program) : Compile Nat := do
  let module := (← get).module
  p.statements.forM declare
  ((← get).pending.map (·.1)).forM fun i => ensureWritten (writeDeferred nestingLimit) ⟨module, i⟩
  writeMain invoke p

end Compile

/-- Compiles a program into a module of the world. The world stays changed if it does not compile. -/
def World.compile (w : World) (module : Nat) (invoke : Bool) (p : Program) : World × Except CompileError Nat :=
  match w with
  | ⟨library, ⟨stack, frames, heap, steps, limit, watch, journal⟩⟩ =>
    let draft : Draft := { target := ⟨module, 0⟩, name := library.nameOf module }
    let start : Compilation := { library := library, heap := heap, module := module, draft := draft }
    match Compile.program invoke p start with
    | .ok index c => (⟨c.library, ⟨stack, frames, c.heap, steps, limit, watch, journal⟩⟩, .ok index)
    | .error e c => (⟨c.library, ⟨stack, frames, c.heap, steps, limit, watch, journal⟩⟩, .error e)

end StackScript
