import StackScript.Expr
import StackScript.Native
import StackScript.Scope
import StackScript.Value

/-!
Modules: functions, static values, types, imported modules and scopes, all by number. A number once given
keeps its meaning; a function may be replaced while it is being compiled.
-/
namespace StackScript

inductive Body
  /-- Declared and not compiled yet. -/
  | undefined
  | code (bytes : Array UInt8)
  /-- Code that callers inline. -/
  | fragment (op : Opcode)
  /-- Kept as a tree until it is called with known types; names resolve from the scope. -/
  | generic (decl : FunctionDecl) (scope : Nat)
  | native (n : Native)
deriving Inhabited

namespace Body

def kind : Body → String
  | undefined => "undefined"
  | code _ => "normal"
  | fragment _ => "fragment"
  | generic _ _ => "generic"
  | native _ => "native"

def code? : Body → Option (Array UInt8)
  | code bytes => some bytes
  | fragment op => some #[op.toByte]
  | _ => none

def isFragment : Body → Bool
  | fragment _ => true
  | _ => false

def isGeneric : Body → Bool
  | generic _ _ => true
  | _ => false

end Body

structure Function where
  name : String
  signature : Signature
  body : Body := .undefined
  /-- Names of the captured variables, in the order of the nonlocals. -/
  captures : List String := []
deriving Inhabited

/-- A generic function compiled for given argument types. -/
structure Instance where
  generic : Nat
  args : List Ty
  function : Nat
deriving DecidableEq, Repr, Inhabited

structure Module where
  name : String
  imports : Array Nat := #[]
  /-- Modules whose names resolve here; they are imported when first called. -/
  visible : Array Nat := #[]
  functions : Array Function := #[]
  values : Array Value := #[]
  types : Array Ty := #[]
  scopes : ScopeTable
  instances : List Instance := []
  /-- Whether something still refers to the module. -/
  alive : Bool := true
deriving Inhabited

namespace Module

def named (name : String) : Module := { name := name, scopes := .ofModule name }

def addImport (m : Module) (id : Nat) : Module × Nat :=
  ({ m with imports := m.imports.push id }, m.imports.size)

def importIndex? (m : Module) (id : Nat) : Option Nat := m.imports.findIdx? (· = id)

def addVisible (m : Module) (id : Nat) : Module := { m with visible := m.visible.push id }

/-- The number of an import, which a visible module becomes when it is asked for. -/
def importVisible (m : Module) (id : Nat) : Module × Option Nat :=
  match m.importIndex? id with
  | some i => (m, some i)
  | none =>
    if m.visible.contains id then
      let (m, i) := m.addImport id
      (m, some i)
    else (m, none)

def addFunction (m : Module) (f : Function) : Module × Nat :=
  ({ m with functions := m.functions.push f }, m.functions.size)

def setFunction (m : Module) (i : Nat) (f : Function) : Module :=
  { m with functions := m.functions.setIfInBounds i f }

/-- The module takes over one reference to each handle in the value. -/
def addValue (m : Module) (v : Value) : Module × Nat :=
  ({ m with values := m.values.push v }, m.values.size)

/-- A value with the same bits and type is shared, unless it is on the heap. -/
def internValue (m : Module) (v : Value) : Module × Nat :=
  match m.values.findIdx? fun u => u.same v && u.ty = v.ty && !u.ty.isHeap with
  | some i => (m, i)
  | none => m.addValue v

/-- Equal types are shared. -/
def addType (m : Module) (t : Ty) : Module × Nat :=
  match m.types.findIdx? (· = t) with
  | some i => (m, i)
  | none => ({ m with types := m.types.push t }, m.types.size)

/-- Binds a name in the scope of the module itself. -/
def define (m : Module) (name : String) (symbol : Symbol) : Module :=
  { m with scopes := m.scopes.bind ScopeTable.root name symbol }

def lookup? (m : Module) (name : String) : Option Symbol := m.scopes.get? ScopeTable.root name

/-- The function that a name is bound to, or else the first function of that name. -/
def findFunction? (m : Module) (name : String) : Option Nat :=
  match m.lookup? name with
  | some (.function i) => some i
  | _ => m.functions.findIdx? fun f => f.name = name

/-! ### Instances of generic functions -/

def addInstance (m : Module) (i : Instance) : Module := { m with instances := m.instances ++ [i] }

def findInstance? (m : Module) (generic : Nat) (args : List Ty) : Option Nat :=
  (m.instances.find? fun i => i.generic = generic && i.args = args).map (·.function)

/-- Forgets an instance whose body did not compile. -/
def removeInstance (m : Module) (function : Nat) : Module :=
  { m with instances := m.instances.filter fun i => i.function != function }

end Module

end StackScript
