import StackScript.Ty.Signature

/-!
Scopes: nested tables from names to what they refer to. The scopes of a module are numbered; scope zero is
the module itself, and every other scope has a parent with a smaller number.
-/
namespace StackScript

inductive Symbol
  /-- A parameter, at an offset below the frame base. -/
  | parameter (index offset : Nat) (ty : Ty)
  /-- A variable of a block, in a slot above the frame base. -/
  | slot (offset : Nat) (ty : Ty)
  /-- A value captured from an enclosing function. -/
  | nonlocal (index offset : Nat) (ty : Ty)
  | function (index : Nat)
  /-- A binding computed by a function without parameters. -/
  | computed (index : Nat)
  /-- A static value. -/
  | value (index : Nat)
deriving DecidableEq, Repr, Inhabited

def Symbol.text : Symbol → String
  | parameter i _ t => "parameter #" ++ toString i ++ ": " ++ t.text
  | slot o t => "local @" ++ toString o ++ ": " ++ t.text
  | nonlocal i _ t => "nonlocal #" ++ toString i ++ ": " ++ t.text
  | function i => "function #" ++ toString i
  | computed i => "computed #" ++ toString i
  | value i => "value #" ++ toString i

inductive ScopeKind
  | module | function | block
deriving DecidableEq, Repr, Inhabited

def ScopeKind.text : ScopeKind → String
  | module => "Module"
  | function => "Function"
  | block => "Block"

structure Scope where
  kind : ScopeKind
  parent : Option Nat
  name : String
  /-- In the order in which the names were first bound. -/
  symbols : List (String × Symbol) := []
deriving Repr, Inhabited

namespace Scope

def get? (s : Scope) (name : String) : Option Symbol := s.symbols.lookup name

def put (name : String) (symbol : Symbol) : List (String × Symbol) → List (String × Symbol)
  | [] => [(name, symbol)]
  | (n, s) :: rest => if n = name then (n, symbol) :: rest else (n, s) :: put name symbol rest

/-- Binds a name; one that is bound already keeps its place. -/
def bind (s : Scope) (name : String) (symbol : Symbol) : Scope :=
  { s with symbols := put name symbol s.symbols }

theorem lookup_put (name : String) (symbol : Symbol) (l : List (String × Symbol)) :
    (put name symbol l).lookup name = some symbol := by
  induction l with
  | nil => simp [put]
  | cons p l ih =>
    obtain ⟨n, s⟩ := p
    by_cases h : n = name
    · simp [put, h]
    · have h' : (name == n) = false := by simpa using fun e => h e.symm
      simp [put, h, List.lookup_cons, h', ih]

end Scope

/-- Where a name was found. -/
structure Lookup where
  scope : Nat
  symbol : Symbol
  /-- Whether the scope of a function was left on the way. -/
  crossed : Bool
deriving DecidableEq, Repr

structure ScopeTable where
  scopes : Array Scope
deriving Repr, Inhabited

namespace ScopeTable

/-- The number of the scope of the module itself. -/
def root : Nat := 0

def ofModule (name : String) : ScopeTable := ⟨#[{ kind := .module, parent := none, name := name }]⟩

def size (t : ScopeTable) : Nat := t.scopes.size

def add (t : ScopeTable) (parent : Nat) (kind : ScopeKind) (name : String) : ScopeTable × Nat :=
  (⟨t.scopes.push { kind := kind, parent := some parent, name := name }⟩, t.scopes.size)

def bind (t : ScopeTable) (scope : Nat) (name : String) (symbol : Symbol) : ScopeTable :=
  ⟨t.scopes.modify scope fun s => s.bind name symbol⟩

def get? (t : ScopeTable) (scope : Nat) (name : String) : Option Symbol :=
  (t.scopes[scope]?).bind fun s => s.get? name

/-- Looks for a name from a scope outwards, up to but not in the scope `stop`. -/
def resolveFrom (t : ScopeTable) (name : String) (stop : Option Nat) : Nat → Nat → Bool → Option Lookup
  | 0, _, _ => none
  | fuel + 1, scope, crossed =>
    if some scope = stop then none
    else match t.scopes[scope]? with
      | none => none
      | some s =>
        match s.get? name with
        | some symbol => some ⟨scope, symbol, crossed⟩
        | none =>
          match s.parent with
          | some p => resolveFrom t name stop fuel p (crossed || s.kind = .function)
          | none => none

/-- A chain of parents is no longer than the table. -/
def resolve? (t : ScopeTable) (scope : Nat) (name : String) (stop : Option Nat := none) : Option Lookup :=
  t.resolveFrom name stop t.size scope false

def indented (n : Nat) (s : String) : String := String.ofList (List.replicate n ' ') ++ s ++ "\n"

/-- A scope and the scopes within it, each indented under its parent. -/
def textFrom (t : ScopeTable) : Nat → Nat → Nat → String
  | 0, _, _ => ""
  | fuel + 1, id, indent =>
    match t.scopes[id]? with
    | none => ""
    | some s =>
      let head := indented indent (s.kind.text ++ " " ++ s.name)
      let names := s.symbols.map fun (name, symbol) => indented indent ("  " ++ name ++ " = " ++ symbol.text)
      let children := (List.range t.size).filter fun i => (t.scopes[i]?).bind (·.parent) = some id
      head ++ String.join names ++ String.join (children.map fun i => textFrom t fuel i (indent + 2))

def text (t : ScopeTable) : String := t.textFrom t.size root 0

end ScopeTable

end StackScript
