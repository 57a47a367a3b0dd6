import StackScript.Span
import StackScript.Text.Quoted
import StackScript.Number.Decimal

/-!
Tokens: literals, names, keywords and marks, each with the span of text it was read from.
-/
namespace StackScript

inductive Keyword
  | let_ | fn | if_ | else_
deriving DecidableEq, Repr, Inhabited

namespace Keyword

def text : Keyword → String
  | let_ => "let"
  | fn => "fn"
  | if_ => "if"
  | else_ => "else"

end Keyword

/-- Operators and delimiters. -/
inductive Mark
  | plus | minus | star | starStar | slash | percent
  | equal | equalEqual | bangEqual | less | lessEqual | lessLess | greater | greaterEqual | greaterGreater
  | bang | tilde | amp | caret | ampAmp | pipePipe | pipe
  | leftParen | rightParen | leftBrace | rightBrace | leftBracket | rightBracket
  | comma | dot | colon | semicolon | arrow
deriving DecidableEq, Repr, Inhabited

namespace Mark

def text : Mark → String
  | plus => "+"
  | minus => "-"
  | star => "*"
  | starStar => "**"
  | slash => "/"
  | percent => "%"
  | equal => "="
  | equalEqual => "=="
  | bangEqual => "!="
  | less => "<"
  | lessEqual => "<="
  | lessLess => "<<"
  | greater => ">"
  | greaterEqual => ">="
  | greaterGreater => ">>"
  | bang => "!"
  | tilde => "~"
  | amp => "&"
  | caret => "^"
  | ampAmp => "&&"
  | pipePipe => "||"
  | pipe => "|"
  | leftParen => "("
  | rightParen => ")"
  | leftBrace => "\x7b"
  | rightBrace => "\x7d"
  | leftBracket => "["
  | rightBracket => "]"
  | comma => ","
  | dot => "."
  | colon => ":"
  | semicolon => ";"
  | arrow => "->"

/-- The mark that consists of one character. -/
def single? (c : Char) : Option Mark :=
  if c = '(' then some leftParen
  else if c = ')' then some rightParen
  else if c = '\x7b' then some leftBrace
  else if c = '\x7d' then some rightBrace
  else if c = '[' then some leftBracket
  else if c = ']' then some rightBracket
  else if c = ',' then some comma
  else if c = '.' then some dot
  else if c = ':' then some colon
  else if c = ';' then some semicolon
  else if c = '+' then some plus
  else if c = '-' then some minus
  else if c = '*' then some star
  else if c = '/' then some slash
  else if c = '%' then some percent
  else if c = '~' then some tilde
  else if c = '^' then some caret
  else if c = '=' then some equal
  else if c = '!' then some bang
  else if c = '<' then some less
  else if c = '>' then some greater
  else if c = '&' then some amp
  else if c = '|' then some pipe
  else none

/-- The longer mark that a one-character mark forms with the next character. -/
def double? : Mark → Char → Option Mark
  | star, c => if c = '*' then some starStar else none
  | minus, c => if c = '>' then some arrow else none
  | equal, c => if c = '=' then some equalEqual else none
  | bang, c => if c = '=' then some bangEqual else none
  | less, c => if c = '=' then some lessEqual else if c = '<' then some lessLess else none
  | greater, c => if c = '=' then some greaterEqual else if c = '>' then some greaterGreater else none
  | amp, c => if c = '&' then some ampAmp else none
  | pipe, c => if c = '|' then some pipePipe else none
  | _, _ => none

end Mark

namespace Token

/-- Integers are below `2 ^ 63`; floats are bit patterns. -/
inductive Kind
  | int (n : Nat)
  | int64 (n : Nat)
  | byte (n : UInt8)
  | float64 (bits : UInt64)
  | float32 (bits : UInt32)
  | char (c : Char)
  | string (s : String)
  | bool (b : Bool)
  | name (s : String)
  | keyword (k : Keyword)
  | mark (m : Mark)
  | endOfInput
deriving DecidableEq, Repr, Inhabited

namespace Kind

def text : Kind → String
  | int n => toString n
  | int64 n => toString n ++ "L"
  | byte n => toString n.toNat ++ "b"
  | float64 bits => Binary.text64 bits
  | float32 bits => Binary.text32 bits ++ "f"
  | char c => Text.quotedChar c
  | string s => "\"" ++ s ++ "\""
  | bool b => if b then "true" else "false"
  | name s => s
  | keyword k => k.text
  | mark m => m.text
  | endOfInput => "EOF"

/-- A name is a keyword or a truth value if it is spelled like one. -/
def ofWord (s : String) : Kind :=
  if s = "let" then keyword .let_
  else if s = "fn" then keyword .fn
  else if s = "if" then keyword .if_
  else if s = "else" then keyword .else_
  else if s = "true" then bool true
  else if s = "false" then bool false
  else name s

end Kind

end Token

structure Token where
  kind : Token.Kind
  span : Span
deriving DecidableEq, Repr, Inhabited

end StackScript
