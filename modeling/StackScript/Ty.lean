import StackScript.Number.Word

/-!
Types. Every type has a fixed size in bytes on the stack. Two types match if they agree wherever both are
known; unification takes the known part of either.
-/
namespace StackScript

/-- The size of a heap handle on the stack. -/
def handleSize : Nat := 8

inductive Ty
  /-- Not known yet; matches every type. -/
  | unknown
  | void | bool | byte | char | int32 | int64 | float32 | float64 | string
  | list (elem : Ty)
  | tuple (items : List Ty)
  | function (params : List Ty) (result : Ty)
  | module
deriving Repr, Inhabited

namespace Ty

/-! ### Equality -/

mutual

def decEq : (a b : Ty) → Decidable (a = b)
  | unknown, b => by cases b <;> first | exact isTrue rfl | exact isFalse (by nofun)
  | void, b => by cases b <;> first | exact isTrue rfl | exact isFalse (by nofun)
  | bool, b => by cases b <;> first | exact isTrue rfl | exact isFalse (by nofun)
  | byte, b => by cases b <;> first | exact isTrue rfl | exact isFalse (by nofun)
  | char, b => by cases b <;> first | exact isTrue rfl | exact isFalse (by nofun)
  | int32, b => by cases b <;> first | exact isTrue rfl | exact isFalse (by nofun)
  | int64, b => by cases b <;> first | exact isTrue rfl | exact isFalse (by nofun)
  | float32, b => by cases b <;> first | exact isTrue rfl | exact isFalse (by nofun)
  | float64, b => by cases b <;> first | exact isTrue rfl | exact isFalse (by nofun)
  | string, b => by cases b <;> first | exact isTrue rfl | exact isFalse (by nofun)
  | module, b => by cases b <;> first | exact isTrue rfl | exact isFalse (by nofun)
  | list a, b => by
    cases b with
    | list b => exact match decEq a b with
      | isTrue h => isTrue (congrArg list h)
      | isFalse h => isFalse fun e => h (list.inj e)
    | _ => exact isFalse (by nofun)
  | tuple a, b => by
    cases b with
    | tuple b => exact match decEqs a b with
      | isTrue h => isTrue (congrArg tuple h)
      | isFalse h => isFalse fun e => h (tuple.inj e)
    | _ => exact isFalse (by nofun)
  | function ps r, b => by
    cases b with
    | function qs s => exact match decEqs ps qs, decEq r s with
      | isTrue h, isTrue k => isTrue (by rw [h, k])
      | isFalse h, _ => isFalse fun e => h (function.inj e).1
      | _, isFalse k => isFalse fun e => k (function.inj e).2
    | _ => exact isFalse (by nofun)

def decEqs : (as bs : List Ty) → Decidable (as = bs)
  | [], [] => isTrue rfl
  | [], _ :: _ => isFalse (by nofun)
  | _ :: _, [] => isFalse (by nofun)
  | a :: as, b :: bs => match decEq a b, decEqs as bs with
    | isTrue h, isTrue k => isTrue (by rw [h, k])
    | isFalse h, _ => isFalse fun e => h (List.cons.inj e).1
    | _, isFalse k => isFalse fun e => k (List.cons.inj e).2

end

instance : DecidableEq Ty := decEq

/-! ### Size and handles -/

mutual

/-- Bytes that a value takes on the stack. -/
def size : Ty → Nat
  | unknown | void | module => 0
  | bool | byte => 1
  | char | int32 | float32 => 4
  | int64 | float64 => 8
  | string | list _ | function _ _ => handleSize
  | tuple items => sizes items

def sizes : List Ty → Nat
  | [] => 0
  | t :: ts => t.size + sizes ts

end

/-- Whether a value is itself a heap handle. -/
def isHeap : Ty → Bool
  | string | list _ | function _ _ => true
  | _ => false

mutual

/-- Offsets of the handles inside a value that starts at `base`, in ascending order. -/
def slotsFrom (base : Nat) : Ty → List Nat
  | string | list _ | function _ _ => [base]
  | tuple items => slotsOf base items
  | _ => []

def slotsOf (base : Nat) : List Ty → List Nat
  | [] => []
  | t :: ts => slotsFrom base t ++ slotsOf (base + t.size) ts

end

def slots (t : Ty) : List Nat := slotsFrom 0 t

mutual

/-- Whether a part of the type is still unknown. -/
def isGeneric : Ty → Bool
  | unknown => true
  | list elem => elem.isGeneric
  | tuple items => anyGeneric items
  | function params result => anyGeneric params || result.isGeneric
  | _ => false

def anyGeneric : List Ty → Bool
  | [] => false
  | t :: ts => t.isGeneric || anyGeneric ts

end

/-! ### Matching -/

mutual

/-- Equality up to unknown parts. -/
def agrees : Ty → Ty → Bool
  | unknown, _ | _, unknown => true
  | list a, list b => a.agrees b
  | tuple as, tuple bs => agreeAll as bs
  | function ps r, function qs s => agreeAll ps qs && r.agrees s
  | a, b => a = b

def agreeAll : List Ty → List Ty → Bool
  | [], [] => true
  | a :: as, b :: bs => a.agrees b && agreeAll as bs
  | _, _ => false

end

mutual

/-- The known parts of two types that match. Function types are taken whole: the first unless it is generic. -/
def unify? : Ty → Ty → Option Ty
  | unknown, t | t, unknown => some t
  | list a, list b => (a.unify? b).map list
  | tuple as, tuple bs => (unifyAll? as bs).map tuple
  | a, b => if a.agrees b then some (if a.isGeneric then b else a) else none

def unifyAll? : List Ty → List Ty → Option (List Ty)
  | [], [] => some []
  | a :: as, b :: bs => do
    let t ← a.unify? b
    let ts ← unifyAll? as bs
    pure (t :: ts)
  | _, _ => none

end

def isUnknown : Ty → Bool
  | unknown => true
  | _ => false

def isVoid : Ty → Bool
  | void => true
  | _ => false

def elem? : Ty → Option Ty
  | list t => some t
  | _ => none

/-- Types that a source text can name; two of them have a second name. -/
def ofName? (s : String) : Option Ty :=
  if s = "Void" then some void
  else if s = "Bool" then some bool
  else if s = "Byte" then some byte
  else if s = "Char" then some char
  else if s = "Int32" ∨ s = "Int" then some int32
  else if s = "Int64" then some int64
  else if s = "Float32" then some float32
  else if s = "Float64" ∨ s = "Float" then some float64
  else if s = "String" then some string
  else none

mutual

def text : Ty → String
  | unknown => "?"
  | void => "Void"
  | bool => "Bool"
  | byte => "Byte"
  | char => "Char"
  | int32 => "Int32"
  | int64 => "Int64"
  | float32 => "Float32"
  | float64 => "Float64"
  | string => "String"
  | list elem => "[" ++ elem.text ++ "]"
  | tuple items => "(" ++ texts items ++ ")"
  | function params result => "fn(" ++ texts params ++ ") -> " ++ result.text
  | module => "Module"

/-- Separated by commas. -/
def texts : List Ty → String
  | [] => ""
  | [t] => t.text
  | t :: u :: ts => t.text ++ ", " ++ texts (u :: ts)

end

theorem sizes_append (as bs : List Ty) : sizes (as ++ bs) = sizes as + sizes bs := by
  induction as with
  | nil => simp [sizes]
  | cons a as ih => simp [sizes, ih, Nat.add_assoc]

end Ty

/-- Types of the words. -/
def Width.ty : Width → Ty
  | .w8 => .byte
  | .w32 => .int32
  | .w64 => .int64

end StackScript
