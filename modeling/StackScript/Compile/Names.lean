import StackScript.Compile.Draft

/-!
What names and written types mean to the function that is being written, and the type an expression is
likely to have before it is compiled.
-/
namespace StackScript

/-! ### Written types -/

mutual

def TypeExpr.resolve : TypeExpr → Except CompileError Ty
  | .named name span =>
    match Ty.ofName? name with
    | some t => .ok t
    | none => .error ⟨.undefinedType name, span⟩
  | .list elem _ => elem.resolve.map .list
  | .tuple items _ => (TypeExpr.resolveAll items).map .tuple
  | .function params result _ => do
    let params ← TypeExpr.resolveAll params
    let result ← result.resolve
    return .function params result

def TypeExpr.resolveAll : List TypeExpr → Except CompileError (List Ty)
  | [] => .ok []
  | t :: ts => do
    let t ← t.resolve
    let ts ← TypeExpr.resolveAll ts
    return t :: ts

end

/-- A type left out is unknown. -/
def TypeExpr.resolve? : Option TypeExpr → Except CompileError Ty
  | some t => t.resolve
  | none => .ok .unknown

namespace Header

/-- Parameter and result types as written. A parameter without a type makes the function generic. -/
def signature (h : Header) : Except CompileError Signature := do
  let params ← h.params.mapM fun p => TypeExpr.resolve? p.type?
  let result ← TypeExpr.resolve? h.result?
  return { params := params, result := result }

def fillParam (p : Param) (t : TypeExpr) : Param := { p with type? := some (p.type?.getD t) }

/-- Names a lambda, and fills types it leaves out from the function type it is bound under. -/
def bindTo (h : Header) (name : String) : Option TypeExpr → Except CompileError Header
  | none => .ok { h with name := name }
  | some (.function params result _) =>
    if params.length = h.params.length then
      .ok ⟨name, List.zipWith fillParam h.params params, some (h.result?.getD result), h.span⟩
    else .error ⟨.argumentCount params.length h.params.length, h.span⟩
  | some written => .error ⟨.notFunctionType written, h.span⟩

/-- The signature of a lambda, with gaps filled from the type that its context expects. -/
def signatureAs (h : Header) (expected : Option Ty) : Except CompileError Signature := do
  let s ← h.signature
  match expected with
  | some (.function params result) =>
    if params.length ≠ s.params.length then throw ⟨.mismatch (.function params result) s.ty, h.span⟩
    let filled := List.zipWith (fun (p hint : Ty) => if p.isUnknown then hint else p) s.params params
    return { s with
      params := filled
      result := if s.result.isUnknown && !result.isGeneric then result else s.result }
  | _ => return s

end Header

/-! ### Names -/

/-- What a name stands for in the function that is being written. -/
inductive Meaning
  /-- A variable of the function, read by an opcode at an offset. -/
  | stored (op : Opcode) (offset : Nat) (ty : Ty)
  | function (f : FunctionRef)
  | computed (f : FunctionRef)
  | value (module index : Nat)
deriving Repr

namespace Meaning

/-- The meaning of a symbol of the module itself. -/
def ofGlobal? (module : Nat) : Symbol → Option Meaning
  | .function i => some (function ⟨module, i⟩)
  | .computed i => some (computed ⟨module, i⟩)
  | .value i => some (value module i)
  | _ => none

/-- The meaning of a symbol that was found in the scopes of the module. -/
def ofLookup (module : Nat) (name : String) (span : Span) (found : Lookup) : Except CompileError Meaning :=
  match ofGlobal? module found.symbol with
  | some m => .ok m
  | none =>
    if found.crossed then .error ⟨.notCaptured name, span⟩
    else match found.symbol with
      | .slot offset t => .ok (stored .copyVariable offset t)
      | .parameter _ offset t | .nonlocal _ offset t => .ok (stored .copyArgument offset t)
      | _ => .error ⟨.undefinedName name, span⟩

end Meaning

/-- The modules whose names are seen from a module, the nearest first: visible ones before imports, and
later ones before earlier ones. -/
def Module.surroundings (m : Module) : List Nat := m.visible.toList.reverse ++ m.imports.toList.reverse

namespace Draft

def resolve (l : Library) (d : Draft) (name : String) (span : Span) : Except CompileError Meaning :=
  let m := l.get d.target.module
  match m.scopes.resolve? d.scope name with
  | some found => Meaning.ofLookup d.target.module name span found
  | none =>
    match m.surroundings.findSome? fun id => ((l.get id).lookup? name).bind (Meaning.ofGlobal? id) with
    | some meaning => .ok meaning
    | none => .error ⟨.undefinedName name, span⟩

end Draft

/-! ### Likely types -/

/-- The result type of a function, if it is known already. -/
def Library.knownResult? (l : Library) (f : FunctionRef) : Option Ty :=
  match l.function? f with
  | some function =>
    if function.body.isGeneric || function.signature.result.isUnknown then none
    else some function.signature.result
  | none => none

def Function.isGeneric (f : Function) : Bool := f.body.isGeneric

def Literal.ty : Literal → Ty
  | bool _ => .bool
  | byte _ => .byte
  | char _ => .char
  | int32 _ => .int32
  | int64 _ => .int64
  | float32 _ => .float32
  | float64 _ => .float64
  | string _ => .string

namespace Draft

variable (l : Library) (d : Draft)

def nameHint? (name : String) (span : Span) : Option Ty :=
  match d.resolve l name span with
  | .ok (.stored _ _ t) => some t
  | .ok (.value module index) => (l.get module).values[index]?.map (·.ty)
  | .ok (.function f) =>
    match l.function? f with
    | some function =>
      if function.isGeneric || function.signature.result.isUnknown then none else some function.signature.ty
    | none => none
  | .ok (.computed f) => l.knownResult? f
  | .error _ => none

def callHint? (name : String) (span : Span) : Option Ty :=
  match d.resolve l name span with
  | .ok (.function f) => l.knownResult? f
  | .ok (.stored _ _ (.function _ result)) => if result.isGeneric then none else some result
  | _ => none

/-- The likely type of an expression. Plain integer literals adapt to their context and give none. -/
def hint? : Expr → Option Ty
  | .literal (.int32 _) _ => none
  | .literal v _ => some v.ty
  | .variable name span => nameHint? l d name span
  | .group e _ | .unary _ e _ => hint? e
  | .binary op a b _ =>
    match op with
    | .compare _ | .and | .or => some .bool
    | .arith _ => (hint? a).or (hint? b)
  | .call (.variable name span) _ _ => callHint? l d name span
  | .index e _ _ => (hint? e).bind Ty.elem?
  | .field e i _ =>
    match hint? e with
    | some (.tuple items) => items[i]?
    | _ => none
  | _ => none

end Draft

namespace Compile

def resolve (name : String) (span : Span) : Compile Meaning := do
  let c ← get
  lift (c.draft.resolve c.library name span)

def hint? (e : Expr) : Compile (Option Ty) := do
  let c ← get
  return c.draft.hint? c.library e

end Compile

end StackScript
