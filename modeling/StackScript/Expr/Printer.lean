import StackScript.Expr

/-!
The text of programs: like a source text, with every binary and unary operation in parentheses and without
the parentheses of groups.
-/
namespace StackScript

namespace TypeExpr

mutual

def text : TypeExpr → String
  | named name _ => name
  | list elem _ => "[" ++ elem.text ++ "]"
  | tuple items _ => "(" ++ texts items ++ ")"
  | function params result _ => "fn(" ++ texts params ++ ") -> " ++ result.text

def texts : List TypeExpr → String
  | [] => ""
  | [t] => t.text
  | t :: u :: ts => t.text ++ ", " ++ texts (u :: ts)

end

end TypeExpr

namespace Literal

def text : Literal → String
  | bool b => if b then "true" else "false"
  | byte n => toString n.toNat ++ "b"
  | char c => Text.quotedChar c
  | int32 n => toString n.toInt
  | int64 n => toString n.toInt ++ "L"
  | float32 bits => Binary.text32 bits ++ "f"
  | float64 bits => Binary.text64 bits
  | string s => Text.quoted s

end Literal

def Comparison.sign : Comparison → String
  | equal => "=="
  | notEqual => "!="
  | lessThan => "<"
  | lessEqual => "<="
  | greaterThan => ">"
  | greaterEqual => ">="

def Arith.sign : Arith → String
  | add => "+"
  | sub => "-"
  | mul => "*"
  | div => "/"
  | mod => "%"
  | exp => "**"
  | bitAnd => "&"
  | bitOr => "|"
  | bitXor => "^"
  | shiftLeft => "<<"
  | shiftRight => ">>"

def BinaryOp.sign : BinaryOp → String
  | arith op => op.sign
  | compare c => c.sign
  | and => "&&"
  | or => "||"

def UnaryOp.sign : UnaryOp → String
  | negate => "-"
  | not => "!"
  | bitNot => "~"

def Param.text (p : Param) : String :=
  match p.type? with
  | some t => p.name ++ ": " ++ t.text
  | none => p.name

def Param.texts (ps : List Param) : String := ", ".intercalate (ps.map Param.text)

mutual

def Expr.text : Expr → String
  | .literal value _ => value.text
  | .variable name _ => name
  | .group inner _ => inner.text
  | .binary op left right _ => "(" ++ left.text ++ " " ++ op.sign ++ " " ++ right.text ++ ")"
  | .unary op operand _ => "(" ++ op.sign ++ operand.text ++ ")"
  | .call callee args _ => callee.text ++ "(" ++ exprTexts args ++ ")"
  | .index object position _ => object.text ++ "[" ++ position.text ++ "]"
  | .field object position _ => object.text ++ "." ++ toString position
  | .tuple [e] _ => "(" ++ e.text ++ ",)"
  | .tuple items _ => "(" ++ exprTexts items ++ ")"
  | .list items _ => "[" ++ exprTexts items ++ "]"
  | .lambda header body _ =>
    "|" ++ Param.texts header.params ++ "| " ++
      (match header.result? with | some t => "-> " ++ t.text ++ " " | none => "") ++ body.text
  | .block statements none _ => "\x7b " ++ blockTexts statements ++ "\x7d"
  | .block statements (some value) _ => "\x7b " ++ blockTexts statements ++ value.text ++ " \x7d"
  | .cond test yes none _ => "if " ++ test.text ++ " " ++ yes.text
  | .cond test yes (some no) _ => "if " ++ test.text ++ " " ++ yes.text ++ " else " ++ no.text

/-- Separated by commas. -/
def exprTexts : List Expr → String
  | [] => ""
  | [e] => e.text
  | e :: d :: es => e.text ++ ", " ++ exprTexts (d :: es)

def Stmt.text : Stmt → String
  | .expr e _ => e.text ++ ";"
  | .bind name (some t) value _ => "let " ++ name ++ ": " ++ t.text ++ " = " ++ value.text ++ ";"
  | .bind name none value _ => "let " ++ name ++ " = " ++ value.text ++ ";"
  | .function header body _ =>
    "fn " ++ header.name ++ "(" ++ Param.texts header.params ++ ")" ++
      (match header.result? with | some t => " -> " ++ t.text | none => "") ++ " " ++ body.text

/-- Each followed by a blank. -/
def blockTexts : List Stmt → String
  | [] => ""
  | s :: ss => s.text ++ " " ++ blockTexts ss

end

/-- One line for each statement and for the value. -/
def Program.text (p : Program) : String :=
  String.join (p.statements.map fun s => s.text ++ "\n") ++
    (match p.value with | some e => e.text ++ "\n" | none => "")

end StackScript
