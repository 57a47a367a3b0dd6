import StackScript.Token
import StackScript.Number.Word

/-!
Programs as trees. Every expression and statement keeps the span of text that it was read from.
-/
namespace StackScript

/-- A type as written. -/
inductive TypeExpr
  | named (name : String) (span : Span)
  | list (elem : TypeExpr) (span : Span)
  | tuple (items : List TypeExpr) (span : Span)
  | function (params : List TypeExpr) (result : TypeExpr) (span : Span)
deriving Repr, Inhabited

def TypeExpr.span : TypeExpr → Span
  | named _ s | list _ s | tuple _ s | function _ _ s => s

/-- A parameter without a type is a type variable. -/
structure Param where
  name : String
  type? : Option TypeExpr
  span : Span
deriving Repr, Inhabited

/-- Floats are bit patterns. -/
inductive Literal
  | bool (b : Bool)
  | byte (n : UInt8)
  | char (c : Char)
  | int32 (n : Int32)
  | int64 (n : Int64)
  | float32 (bits : UInt32)
  | float64 (bits : UInt64)
  | string (s : String)
deriving DecidableEq, Repr, Inhabited

inductive BinaryOp
  | arith (op : Arith)
  | compare (c : Comparison)
  | and | or
deriving DecidableEq, Repr, Inhabited

inductive UnaryOp
  | negate | not | bitNot
deriving DecidableEq, Repr, Inhabited

/-- What is declared of a function before its body. A lambda has an empty name until it is bound. -/
structure Header where
  name : String
  params : List Param
  result? : Option TypeExpr
  span : Span
deriving Repr, Inhabited

mutual

inductive Expr
  | literal (value : Literal) (span : Span)
  | variable (name : String) (span : Span)
  | group (inner : Expr) (span : Span)
  | binary (op : BinaryOp) (left right : Expr) (span : Span)
  | unary (op : UnaryOp) (operand : Expr) (span : Span)
  | call (callee : Expr) (args : List Expr) (span : Span)
  | index (object position : Expr) (span : Span)
  | field (object : Expr) (position : Nat) (span : Span)
  | tuple (items : List Expr) (span : Span)
  | list (items : List Expr) (span : Span)
  | lambda (header : Header) (body : Expr) (span : Span)
  | block (statements : List Stmt) (value : Option Expr) (span : Span)
  | cond (test yes : Expr) (no : Option Expr) (span : Span)

inductive Stmt
  | expr (e : Expr) (span : Span)
  | bind (name : String) (type? : Option TypeExpr) (value : Expr) (span : Span)
  | function (header : Header) (body : Expr) (span : Span)

end

instance : Inhabited Expr := ⟨.tuple [] {}⟩

instance : Inhabited Stmt := ⟨.expr default {}⟩

/-- A function with its body. -/
structure FunctionDecl where
  header : Header
  body : Expr
deriving Inhabited

/-- Statements, then the expression whose value is the result. -/
structure Program where
  statements : List Stmt
  value : Option Expr
deriving Inhabited

def Expr.span : Expr → Span
  | .literal _ s | .variable _ s | .group _ s | .binary _ _ _ s | .unary _ _ s | .call _ _ s | .index _ _ s
  | .field _ _ s | .tuple _ s | .list _ s | .lambda _ _ s | .block _ _ s | .cond _ _ _ s => s

def Stmt.span : Stmt → Span
  | .expr _ s | .bind _ _ _ s | .function _ _ s => s

/-- Blocks and conditionals end a statement without a semicolon. -/
def Expr.isBraced : Expr → Bool
  | .block .. | .cond .. => true
  | _ => false

def BinaryOp.isComparison : BinaryOp → Bool
  | .compare _ => true
  | _ => false

end StackScript
