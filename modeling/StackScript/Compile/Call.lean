import StackScript.Builtin
import StackScript.Compile.Function

/-!
Uses of functions: calls, closures over them, instances of generic ones, and variables, which may stand for
functions. A function that is used before it is written is written first.
-/
namespace StackScript

/-- Writes a function whose body lies outside the tree at hand, in a scope. -/
abbrev Deferred := FunctionRef → FunctionDecl → Nat → Compile Unit

namespace Compile

/-- The result type of a call to a function that is written or being written. -/
def callResult (f : FunctionRef) (span : Span) : Compile Ty := do
  let function ← getFunction f span
  if (← get).unfinished.contains f && function.signature.result.isUnknown then
    fail (.cannotInfer ("return type of recursive function '" ++ function.name ++ "'")) span
  return function.signature.effectiveResult

/-- The number under which the module of the draft imports another. -/
def importIndex (module : Nat) (span : Span) : Compile Nat := do
  let importer ← here
  let names := (← get).library
  match ← onModule importer fun m => m.importVisible module with
  | none => fail (.notImported (names.nameOf module) (names.nameOf importer)) span
  | some i =>
    if i < CompileError.importLimit then return i
    else fail (.tooManyImports (names.nameOf module) i (names.nameOf importer)) span

/-- Calls a function whose arguments are pushed. A fragment is written out in place. -/
def emitCall (f : FunctionRef) (span : Span) : Compile Unit := do
  match (← getFunction f span).body with
  | .fragment op => emit op
  | _ =>
    if f.module = (← here) then emit1 .call0 f.index span
    else match ← importIndex f.module span with
      | 0 => emit1 .call1 f.index span
      | i => emit2 .call i f.index span

/-- Calls a native function of the builtin module. -/
def callNative (n : Native) (span : Span) : Compile Unit := do
  let c ← get
  let m := c.library.get c.draft.target.module
  match m.imports.find? fun id => c.library.nameOf id = Builtin.name with
  | none => fail .noBuiltin span
  | some id =>
    match (c.library.get id).findFunction? n.name with
    | none => fail (.undefinedName n.name) span
    | some i => emitCall ⟨id, i⟩ span

/-- Code that passes a call on. -/
def forwardingCode (f : FunctionRef) (span : Span) : Compile (Array UInt8) := do
  if 256 ≤ f.index then fail (.functionTooFar f.index) span
  let index : UInt8 := .ofNat f.index
  if f.module = (← here) then return #[Opcode.call0.toByte, index]
  match ← importIndex f.module span with
  | 0 => return #[Opcode.call1.toByte, index]
  | i => return #[Opcode.call.toByte, .ofNat i, index]

/-- A body in the module of the draft that does what a function does. -/
def forwardingBody (f : FunctionRef) (span : Span) : Compile Body := do
  let function ← getFunction f span
  match function.body with
  | .native n => return .native n
  | .fragment op => return .code #[op.toByte]
  | .code bytes =>
    if f.module = (← here) && !(← get).unfinished.contains f then return .code bytes
    else return .code (← forwardingCode f span)
  | _ => return .code (← forwardingCode f span)

section

variable (deferred : Deferred)

/-- Writes a function of the program now if it is still pending. -/
def ensureWritten (f : FunctionRef) : Compile Unit := do
  let c ← get
  if f.module = c.module then
    if let some decl := c.pending.lookup f.index then
      set { c with pending := c.pending.filter fun p => p.1 ≠ f.index }
      deferred f decl ScopeTable.root

/-- The name of an instance shows its parameter types. -/
def instanceName (name : String) (types : List Ty) : String := name ++ "<" ++ Ty.texts types ++ ">"

/-- The instance of a generic function for given parameter types. One whose body does not compile is
forgotten again. -/
def instantiate (f : FunctionRef) (types : List Ty) (span : Span) : Compile Nat := do
  if let some i := (← getModule f.module).findInstance? f.index types then return i
  let function ← getFunction f span
  match function.body with
  | .generic decl scope =>
    let i ← addFunction f.module {
      name := instanceName function.name types
      signature := { params := types, nonlocals := function.signature.nonlocals, result := function.signature.result }
      captures := function.captures }
    onModule f.module fun m => (m.addInstance ⟨f.index, types, i⟩, ())
    try deferred ⟨f.module, i⟩ decl scope
    catch e =>
      onModule f.module fun m => (m.removeInstance i, ())
      fail (.instantiation function.name e.message) span
    return i
  | _ => fail (.notGeneric function.name) span

/-- Pushes a variable by name, given the type that the context expects. -/
abbrev Push := String → Option Ty → Span → Compile Ty

/-- Pushes captured values, the first one on top. -/
def pushCaptures (push : Push) (function : Function) (span : Span) : Compile Unit :=
  (function.captures.zip function.signature.nonlocals).reverse.forM fun (name, expected) => do
    let t ← push name (some expected) span
    setDepth ((← getDraft).depth + t.size)
    if !t.agrees expected then fail (.mismatch expected t) span

/-- The function to be used where a generic function is named under an expected type. -/
def specialize (f : FunctionRef) (function : Function) (expected : Option Ty) (span : Span) :
    Compile FunctionRef := do
  if !function.isGeneric then return f
  match expected with
  | some (.function params _) =>
    if Ty.anyGeneric params then
      fail (.cannotInfer ("instance of generic function '" ++ function.name ++ "'")) span
    if params.length ≠ function.signature.params.length then
      fail (.argumentCount function.signature.params.length params.length) span
    return ⟨f.module, ← instantiate deferred f params span⟩
  | _ => fail (.cannotInfer ("instance of generic function '" ++ function.name ++ "'")) span

/-- Pushes a closure for a function. One of another module gets a function here that forwards to it. -/
def pushFunction (push : Push) (f : FunctionRef) (expected : Option Ty) (span : Span) : Compile Ty := do
  let f ← specialize deferred f (← getFunction f span) expected span
  ensureWritten deferred f
  let result ← callResult f span
  let function ← getFunction f span
  let index ←
    if f.module = (← here) && !function.body.isFragment then pure f.index
    else do
      let body ← forwardingBody f span
      addFunction (← here) { function with body := body }
  if function.captures.isEmpty then emit1 .loadFunction index span
  else
    pushCaptures push function span
    emit1 .makeClosure index span
  return .function function.signature.params result

/-- Pushes a static value. One of another module is copied to the module of the draft. -/
def pushStatic (name : String) (module index : Nat) (span : Span) : Compile Ty := do
  match (← getModule module).values[index]? with
  | none => fail (.missingValue name) span
  | some v =>
    let importer ← here
    if module = importer then emit1 .loadStatic index span
    else
      match ← onHeap v.incref with
      | .error fault => fail (.deadValue fault) span
      | .ok () => emit1 .loadStatic (← addValue importer v) span
    return v.ty

/-- Pushes a variable. A function that it stands for may itself need captured variables pushed. -/
def pushNested : Nat → Push
  | 0, _, _, span => fail .tooDeep span
  | fuel + 1, name, expected, span => do
    match ← resolve name span with
    | .stored op offset t =>
      if 0 < t.size then
        emit2 op offset t.size span
        retain t span
      return t
    | .function f => pushFunction deferred (pushNested fuel) f expected span
    | .computed f =>
      ensureWritten deferred f
      let t ← callResult f span
      emitCall f span
      return t
    | .value module index => pushStatic name module index span

/-- How many functions may wait for another while they are written. -/
def nestingLimit : Nat := 4096

def pushVariable : Push := pushNested deferred nestingLimit

/-! ### Calls -/

/-- The arguments of a call: where they are written, and the code that pushes them, last first, under the
given parameter types. -/
structure Arguments where
  spans : List Span
  push : List Ty → Compile (List Ty)

def Arguments.count (args : Arguments) : Nat := args.spans.length

/-- Calls a function of the module of the draft or another whose arguments are pushed. -/
def callWritten (f : FunctionRef) (span : Span) : Compile Ty := do
  let t ← callResult f span
  pushCaptures (pushVariable deferred) (← getFunction f span) span
  emitCall f span
  return t

/-- The types of arguments, refined by the parameters of a generic function. All must be known. -/
def refine (name : String) : List Ty → List Ty → List Span → Except CompileError (List Ty)
  | p :: ps, t :: ts, span :: spans =>
    match p.unify? t with
    | none => .error ⟨.mismatch p t, span⟩
    | some u =>
      if u.isGeneric then .error ⟨.cannotInfer ("argument of generic function '" ++ name ++ "'"), span⟩
      else (refine name ps ts spans).map (u :: ·)
  | _, _, _ => .ok []

def callGeneric (f : FunctionRef) (generic : Function) (args : Arguments) (span : Span) : Compile Ty := do
  let params := generic.signature.params
  if args.count ≠ params.length then
    fail (.instantiation generic.name
      ("expected " ++ toString params.length ++ " arguments, got " ++ toString args.count)) span
  let found ← args.push params
  let types ← lift (refine generic.name params found args.spans)
  let i ← instantiate deferred f types span
  callWritten deferred ⟨f.module, i⟩ span

/-- Binds the first arguments, which are pushed, into a closure over the other parameters. -/
def pushPartial (f : FunctionRef) (count : Nat) (span : Span) : Compile Ty := do
  let function ← getFunction f span
  let result ← callResult f span
  let s := function.signature
  let index ← addFunction (← here) {
    name := function.name ++ "/" ++ toString count
    signature := {
      params := s.params.drop count
      nonlocals := s.nonlocals
      bound := s.params.take count
      result := result }
    body := ← forwardingBody f span
    captures := function.captures }
  pushCaptures (pushVariable deferred) function span
  emit1 .makeClosure index span
  return .function (s.params.drop count) result

def callFunction (f : FunctionRef) (args : Arguments) (span : Span) : Compile Ty := do
  let function ← getFunction f span
  if function.isGeneric then callGeneric deferred f function args span
  else
    let params := function.signature.params
    if params.length < args.count || (args.count = 0 && params.length ≠ 0) then
      fail (.argumentCount params.length args.count) span
    let _ ← args.push params
    ensureWritten deferred f
    if args.count < params.length then pushPartial deferred f args.count span
    else callWritten deferred f span

/-- Calls a lambda where it is written. Its parameters take the types of the arguments. -/
def callLambda (decl : FunctionDecl) (body : Option Ty → Compile Ty) (args : Arguments) (span : Span) :
    Compile Ty := do
  let count := decl.header.params.length
  if args.count ≠ count then fail (.argumentCount count args.count) span
  let s ← lift decl.header.signature
  let found ← args.push s.params
  let params := List.zipWith (fun (p t : Ty) => (p.unify? t).getD t) s.params found
  if let some i := params.findIdx? Ty.isGeneric then
    fail (.cannotInfer "lambda parameter") (args.spans.getD i span)
  let i ← declareNested decl { params := params, result := s.result } body
  callWritten deferred ⟨← here, i⟩ span

/-- The first argument whose type is not that of its parameter. -/
def mismatch? : List Ty → List Ty → List Span → Option CompileError
  | p :: ps, t :: ts, span :: spans => if p.agrees t then mismatch? ps ts spans else some ⟨.mismatch p t, span⟩
  | _, _, _ => none

/-- Calls through a value: arguments, then the closure on top. -/
def callValue (callee : Expr) (push : Option Ty → Compile Ty) (args : Arguments) (span : Span) :
    Compile Ty := do
  let hint? ← hint? callee
  let params := match hint? with
    | some (.function params _) => params
    | _ => []
  let found ← args.push params
  match ← push (some (hint?.getD (.function found .unknown))) with
  | .function params result =>
    if params.length ≠ args.count then fail (.argumentCount params.length args.count) span
    if let some e := mismatch? params found args.spans then throw e
    emit .execute
    return result
  | t => fail (.notCallable t) callee.span

end

end Compile

end StackScript
