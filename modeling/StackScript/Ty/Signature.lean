import StackScript.Ty

/-!
Signatures: what a function takes and returns, and what its closures carry besides. The layout of a
closure is not part of the type.
-/
namespace StackScript

structure Signature where
  params : List Ty := []
  /-- Values captured from enclosing functions. -/
  nonlocals : List Ty := []
  /-- Arguments bound by partial application. -/
  bound : List Ty := []
  result : Ty := .unknown
deriving DecidableEq, Repr, Inhabited

/-- A result type was found that does not match the declared one. -/
structure ResultConflict where
  declared : Ty
  found : Ty

namespace Signature

def ty (s : Signature) : Ty := .function s.params s.result

def agrees (s t : Signature) : Bool := s.ty.agrees t.ty

/-- The signature with its result refined by a type that was found. -/
def resolve (s : Signature) (found : Ty) : Except ResultConflict Signature :=
  match s.result.unify? found with
  | some t => .ok { s with result := t }
  | none => .error ⟨s.result, found⟩

/-- Whether a parameter is still unknown. -/
def isGeneric (s : Signature) : Bool := Ty.anyGeneric s.params

def hasClosure (s : Signature) : Bool := !s.nonlocals.isEmpty || !s.bound.isEmpty

/-- What a closure carries, in capture order. -/
def closureTypes (s : Signature) : List Ty := s.nonlocals ++ s.bound

def closureSize (s : Signature) : Nat := Ty.sizes s.nonlocals + Ty.sizes s.bound

/-- What a closure carries, in the order of its bytes: bound arguments, then captures, the last ones first. -/
def closureLayout (s : Signature) : List Ty := s.bound.reverse ++ s.nonlocals.reverse

/-- Bytes below the frame base while the function runs. -/
def frameSize (s : Signature) : Nat := s.closureSize + Ty.sizes s.params

/-- The result type of a finished function; one that was never found is void. -/
def effectiveResult (s : Signature) : Ty :=
  match s.result with
  | .unknown => .void
  | t => t

def text (s : Signature) : String := s.ty.text

end Signature

end StackScript
