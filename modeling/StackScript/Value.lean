import StackScript.Heap
import StackScript.Number.Decimal

/-!
Values. On the stack a value is the bytes of its parts, one after another; with its type the bytes can be
read back. Texts, lists and closures are handles.
-/
namespace StackScript

/-- Floats are bit patterns. -/
inductive Value
  | void
  | bool (b : Bool)
  | byte (n : UInt8)
  | char (c : Char)
  | int32 (n : Int32)
  | int64 (n : Int64)
  | float32 (bits : UInt32)
  | float64 (bits : UInt64)
  | string (r : Handle)
  | list (elem : Ty) (r : Handle)
  | tuple (items : List Value)
  | closure (params : List Ty) (result : Ty) (r : Handle)
deriving Repr, Inhabited

namespace Value

mutual

def ty : Value → Ty
  | void => .void
  | bool _ => .bool
  | byte _ => .byte
  | char _ => .char
  | int32 _ => .int32
  | int64 _ => .int64
  | float32 _ => .float32
  | float64 _ => .float64
  | string _ => .string
  | list elem _ => .list elem
  | tuple items => .tuple (tys items)
  | closure params result _ => .function params result

def tys : List Value → List Ty
  | [] => []
  | v :: vs => v.ty :: tys vs

end

mutual

/-- Bytes that the value takes on the stack. -/
def size : Value → Nat
  | tuple items => sizes items
  | string _ | list _ _ | closure _ _ _ => handleSize
  | v => v.ty.size

def sizes : List Value → Nat
  | [] => 0
  | v :: vs => v.size + sizes vs

end

mutual

def encode : Value → Bytes
  | void => []
  | bool b => [if b then 1 else 0]
  | byte n => [n]
  | char c => Bytes.ofNat 4 c.toNat
  | int32 n => Bytes.ofNat 4 n.toUInt32.toNat
  | int64 n => Bytes.ofNat 8 n.toUInt64.toNat
  | float32 bits => Bytes.ofNat 4 bits.toNat
  | float64 bits => Bytes.ofNat 8 bits.toNat
  | string r | list _ r | closure _ _ r => r.toBytes
  | tuple items => encodes items

def encodes : List Value → Bytes
  | [] => []
  | v :: vs => v.encode ++ encodes vs

end

def isVoid : Value → Bool
  | void => true
  | _ => false

/-- The character with a code point; surrogates and numbers beyond the last one are no characters. -/
def charOf (n : Nat) : Except Fault Value :=
  if h : n.isValidChar then .ok (char (Char.ofNatAux n h))
  else .error (.unexpectedValueType "Char" ("0x" ++ Text.hex n))

mutual

/-- Reads a value from the start of bytes that are long enough for its type. -/
def read : Ty → Bytes → Except Fault Value
  | .unknown, _ | .void, _ | .module, _ => .ok void
  | .bool, bs => .ok (bool (bs.headD 0 != 0))
  | .byte, bs => .ok (byte (bs.headD 0))
  | .char, bs => charOf (Bytes.toNat (bs.take 4))
  | .int32, bs => .ok (int32 (UInt32.ofNat (Bytes.toNat (bs.take 4))).toInt32)
  | .int64, bs => .ok (int64 (UInt64.ofNat (Bytes.toNat (bs.take 8))).toInt64)
  | .float32, bs => .ok (float32 (.ofNat (Bytes.toNat (bs.take 4))))
  | .float64, bs => .ok (float64 (.ofNat (Bytes.toNat (bs.take 8))))
  | .string, bs => (Handle.ofBytes bs).map string
  | .list elem, bs => (Handle.ofBytes bs).map (list elem)
  | .function params result, bs => (Handle.ofBytes bs).map (closure params result)
  | .tuple items, bs => (reads items bs).map tuple

def reads : List Ty → Bytes → Except Fault (List Value)
  | [], _ => .ok []
  | t :: ts, bs => do
    let v ← read t bs
    let vs ← reads ts (bs.drop t.size)
    return v :: vs

end

def decode (t : Ty) (bs : Bytes) : Except Fault Value :=
  if bs.length < t.size then .error (.stackUnderflow t.size bs.length) else read t bs

mutual

/-- The handles in a value, in the order of its bytes. -/
def handles : Value → List Handle
  | string r | list _ r | closure _ _ r => [r]
  | tuple items => handlesOf items
  | _ => []

def handlesOf : List Value → List Handle
  | [] => []
  | v :: vs => v.handles ++ handlesOf vs

end

mutual

/-- Equality of scalars; texts, lists and closures are the same if their handles are. -/
def same : Value → Value → Bool
  | void, void => true
  | bool a, bool b => a = b
  | byte a, byte b => a = b
  | char a, char b => a = b
  | int32 a, int32 b => a = b
  | int64 a, int64 b => a = b
  | float32 a, float32 b => a = b
  | float64 a, float64 b => a = b
  | string a, string b => a = b
  | list _ a, list _ b => a = b
  | closure _ _ a, closure _ _ b => a = b
  | tuple as, tuple bs => sameAll as bs
  | _, _ => false

def sameAll : List Value → List Value → Bool
  | [], [] => true
  | a :: as, b :: bs => a.same b && sameAll as bs
  | _, _ => false

end

/-! ### With a heap -/

def incref (v : Value) (h : Heap) : Outcome Heap Unit := Heap.increfs v.handles h

def decref (v : Value) (h : Heap) : Outcome Heap Unit := Heap.decrefs v.handles h

/-- A new text. The value owns one reference. -/
def ofString (h : Heap) (s : String) : Heap × Value :=
  let (h, r) := h.allocString s
  (h, string r)

/-- The elements laid out in the bytes of a list. -/
def elements (elem : Ty) (bytes : Bytes) : Except Fault (List Value) :=
  (List.range (Content.count elem bytes)).mapM fun i => decode elem ((bytes.drop (i * elem.size)).take elem.size)

def mismatch {α : Type} (expected : String) (v : Value) : Except Fault α :=
  .error (.unexpectedValueType expected v.ty.text)

def asBool : Value → Except Fault Bool
  | bool b => .ok b
  | v => v.mismatch "Bool"

def asInt32 : Value → Except Fault Int32
  | int32 n => .ok n
  | v => v.mismatch "Int32"

def asInt64 : Value → Except Fault Int64
  | int64 n => .ok n
  | v => v.mismatch "Int64"

def asFloat64 : Value → Except Fault UInt64
  | float64 bits => .ok bits
  | v => v.mismatch "Float64"

def asString (h : Heap) : Value → Except Fault String
  | string r => h.string r
  | v => v.mismatch "String"

def asList (h : Heap) : Value → Except Fault (List Value)
  | list elem r => do
    let (_, bytes) ← h.list r
    elements elem bytes
  | v => v.mismatch "List"

def asTuple : Value → Except Fault (List Value)
  | tuple items => .ok items
  | v => v.mismatch "Tuple"

mutual

/-- The text of a value of the given type. -/
def textAs (h : Heap) : Ty → Value → String
  | .list elem, list _ r =>
    match asList h (list elem r) with
    | .ok items => "[" ++ ", ".intercalate (items.map fun v => textAs h elem v) ++ "]"
    | .error _ => "<dangling list>"
  | .tuple ts, tuple items => "(" ++ ", ".intercalate (textsAs h ts items) ++ ")"
  | .string, string r =>
    match h.string r with
    | .ok s => Text.quoted s
    | .error _ => "<dangling " ++ r.text ++ ">"
  | t, closure _ _ r => "<closure " ++ t.text ++ " " ++ r.text ++ ">"
  | _, bool b => if b then "true" else "false"
  | _, byte n => toString n.toNat ++ "b"
  | _, char c => Text.quotedChar c
  | _, int32 n => toString n.toInt
  | _, int64 n => toString n.toInt ++ "L"
  | _, float32 bits => Binary.text32 bits ++ "f"
  | _, float64 bits => Binary.text64 bits
  | _, _ => "void"

def textsAs (h : Heap) : List Ty → List Value → List String
  | t :: ts, v :: vs => textAs h t v :: textsAs h ts vs
  | _, _ => []

end

def text (h : Heap) (v : Value) : String := textAs h v.ty v

end Value

end StackScript
