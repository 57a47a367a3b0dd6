import StackScript.Bytecode.Opcode
import StackScript.Ty.Signature
import StackScript.Number.Binary

/-!
Functions that the machine itself provides, for texts, lists, floats and conversions.
-/
namespace StackScript

inductive FloatWidth
  | f32 | f64
deriving DecidableEq, Repr, Inhabited

def FloatWidth.text : FloatWidth → String
  | f32 => "f32"
  | f64 => "f64"

def FloatWidth.ty : FloatWidth → Ty
  | f32 => .float32
  | f64 => .float64

inductive Native
  | stringConcat | stringEqual | stringLength | listLength | print
  | int32ToInt64 | int64ToInt32 | int32ToFloat64 | float64ToInt32
  | int32ToString | int64ToString | float64ToString
  | floatArith (w : FloatWidth) (op : FloatOp)
  | floatTest (w : FloatWidth) (c : Comparison)
  | floatNegate (w : FloatWidth)
deriving DecidableEq, Repr, Inhabited

namespace Native

def floats (w : FloatWidth) : List Native :=
  FloatOp.all.map (floatArith w) ++ Comparison.all.map (floatTest w) ++ [floatNegate w]

def all : List Native :=
  [stringConcat, stringEqual, stringLength, listLength, print, int32ToInt64, int64ToInt32, int32ToFloat64,
   float64ToInt32, int32ToString, int64ToString, float64ToString] ++ floats .f32 ++ floats .f64

def name : Native → String
  | stringConcat => "string_concat"
  | stringEqual => "string_equal"
  | stringLength => "string_length"
  | listLength => "list_length"
  | print => "print"
  | int32ToInt64 => "int32_to_int64"
  | int64ToInt32 => "int64_to_int32"
  | int32ToFloat64 => "int32_to_float64"
  | float64ToInt32 => "float64_to_int32"
  | int32ToString => "int32_to_string"
  | int64ToString => "int64_to_string"
  | float64ToString => "float64_to_string"
  | floatArith w op => op.name ++ "_" ++ w.text
  | floatTest w c => c.name ++ "_" ++ w.text
  | floatNegate w => "neg_" ++ w.text

def signature : Native → Signature
  | stringConcat => { params := [.string, .string], result := .string }
  | stringEqual => { params := [.string, .string], result := .bool }
  | stringLength => { params := [.string], result := .int32 }
  | listLength => { params := [.list .unknown], result := .int32 }
  | print => { params := [.string], result := .void }
  | int32ToInt64 => { params := [.int32], result := .int64 }
  | int64ToInt32 => { params := [.int64], result := .int32 }
  | int32ToFloat64 => { params := [.int32], result := .float64 }
  | float64ToInt32 => { params := [.float64], result := .int32 }
  | int32ToString => { params := [.int32], result := .string }
  | int64ToString => { params := [.int64], result := .string }
  | float64ToString => { params := [.float64], result := .string }
  | floatArith w _ => { params := [w.ty, w.ty], result := w.ty }
  | floatTest w _ => { params := [w.ty, w.ty], result := .bool }
  | floatNegate w => { params := [w.ty], result := w.ty }

end Native

end StackScript
