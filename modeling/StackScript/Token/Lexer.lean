import StackScript.Token

/-!
Reading tokens. Blanks and comments separate tokens; block comments nest, and one that is never closed
ends the text. After a dot a number has no fraction, so that `t.0.1` selects twice.
-/
namespace StackScript

inductive LexError
  | unexpectedChar (c : Char) (span : Span)
  | unterminatedString (span : Span)
  | invalidChar (span : Span)
  | invalidEscape (c : Char) (span : Span)
  | invalidNumber (digits : String) (span : Span)
deriving DecidableEq, Repr

namespace LexError

def span : LexError → Span
  | unexpectedChar _ s | unterminatedString s | invalidChar s | invalidEscape _ s | invalidNumber _ s => s

def message (e : LexError) : String :=
  let what := match e with
    | unexpectedChar c _ => "Unexpected character '" ++ c.toString ++ "'"
    | unterminatedString _ => "Unterminated string"
    | invalidChar _ => "Invalid character literal"
    | invalidEscape c _ => "Invalid escape sequence '\\" ++ c.toString ++ "'"
    | invalidNumber digits _ => "Invalid number '" ++ digits ++ "'"
  what ++ " at " ++ e.span.text

end LexError

namespace Token

/-- What is left of the text, and where it starts. -/
structure Cursor where
  rest : List Char
  pos : Position

namespace Cursor

def start (source : String) : Cursor := ⟨source.toList, {}⟩

/-- Moves past the first `n` characters. -/
def skip (n : Nat) (c : Cursor) : Cursor := ⟨c.rest.drop n, c.pos.advance (c.rest.take n)⟩

end Cursor

/-- What a run of skipped text is inside of. -/
inductive Gap
  | blank
  | line
  | block (depth : Nat)

/-- Skips blanks and comments. -/
def skipGap : Gap → List Char → Position → Cursor
  | _, [], p => ⟨[], p⟩
  | .blank, '/' :: '/' :: r, p => skipGap .line r ((p.next '/').next '/')
  | .blank, '/' :: '*' :: r, p => skipGap (.block 0) r ((p.next '/').next '*')
  | .blank, c :: r, p =>
    if c = ' ' ∨ c = '\t' ∨ c = '\r' ∨ c = '\n' then skipGap .blank r (p.next c) else ⟨c :: r, p⟩
  | .line, c :: r, p => skipGap (if c = '\n' then .blank else .line) r (p.next c)
  | .block 0, '*' :: '/' :: r, p => skipGap .blank r ((p.next '*').next '/')
  | .block (n + 1), '*' :: '/' :: r, p => skipGap (.block n) r ((p.next '*').next '/')
  | .block n, '/' :: '*' :: r, p => skipGap (.block (n + 1)) r ((p.next '/').next '*')
  | .block n, c :: r, p => skipGap (.block n) r (p.next c)

/-- Why a lexeme is malformed, with the number of characters read when that is found. -/
inductive Fault
  | unterminatedString
  | invalidChar
  | invalidEscape (c : Char)
  | invalidNumber (digits : String)
  | unexpectedChar (c : Char)

def Fault.located (span : Span) : Fault → LexError
  | unterminatedString => .unterminatedString span
  | invalidChar => .invalidChar span
  | invalidEscape c => .invalidEscape c span
  | invalidNumber digits => .invalidNumber digits span
  | unexpectedChar c => .unexpectedChar c span

/-- A lexeme: its kind or fault, and its length in characters. -/
abbrev Lexeme := Except Fault Kind × Nat

/-- The text of a string literal after its opening quote; `n` characters of the token are read. -/
def lexString : List Char → List Char → Nat → Lexeme
  | [], _, n => (.error .unterminatedString, n)
  | '"' :: _, text, n => (.ok (.string (String.ofList text.reverse)), n + 1)
  | ['\\'], _, n => (.error .unterminatedString, n + 1)
  | '\\' :: c :: r, text, n =>
    match Text.unescape c with
    | some d => lexString r (d :: text) (n + 2)
    | none => (.error (.invalidEscape c), n + 2)
  | c :: r, text, n =>
    if c = '\n' then (.error .unterminatedString, n) else lexString r (c :: text) (n + 1)

/-- The closing quote of a character literal. -/
def closeChar (c : Char) (n : Nat) : List Char → Lexeme
  | '\'' :: _ => (.ok (.char c), n + 1)
  | _ => (.error .invalidChar, n)

/-- A character literal after its opening quote. -/
def lexChar : List Char → Lexeme
  | [] => (.error .invalidChar, 1)
  | ['\\'] => (.error .unterminatedString, 2)
  | '\\' :: c :: r =>
    match Text.unescape c with
    | some d => closeChar d 3 r
    | none => (.error (.invalidEscape c), 3)
  | c :: r => if c = '\'' ∨ c = '\n' then (.error .invalidChar, 2) else closeChar c 2 r

/-- The digits of a number without its underscores, whether it has a point, and its length. -/
def lexDigits (pointed : Bool) : List Char → List Char → Bool → Nat → List Char × Bool × Nat
  | [], ds, isFloat, n => (ds.reverse, isFloat, n)
  | c :: r, ds, isFloat, n =>
    if Text.isDigit c then lexDigits pointed r (c :: ds) isFloat (n + 1)
    else if c = '_' then lexDigits pointed r ds isFloat (n + 1)
    else if c = '.' ∧ !isFloat ∧ pointed ∧ (r.head?.any Text.isDigit) then
      lexDigits pointed r (c :: ds) true (n + 1)
    else (ds.reverse, isFloat, n)

/-- A type letter after a number, unless it begins a longer word. -/
def suffix? : List Char → Option Char
  | c :: r =>
    if (c = 'l' ∨ c = 'L' ∨ c = 'b' ∨ c = 'f') ∧ !(r.head?.any Text.continuesName) then some c else none
  | [] => none

/-- The number that digits and a type letter stand for, if it has a value of that type. -/
def numberOf? (suffix : Option Char) (isFloat : Bool) (ds : List Char) : Option Kind :=
  let value := Decimal.digitsValue ds
  match suffix, isFloat with
  | some 'f', _ => some (.float32 (.ofNat ((Decimal.ofChars ds).toBinary .single)))
  | none, true => some (.float64 (.ofNat ((Decimal.ofChars ds).toBinary .double)))
  | some _, true => none
  | some 'b', false => if value < 256 then some (.byte (.ofNat value)) else none
  | some _, false => if value < 0x8000000000000000 then some (.int64 value) else none
  | none, false => if value < 0x8000000000000000 then some (.int value) else none

/-- A number; after a dot it has no point. -/
def lexNumber (afterDot : Bool) (cs : List Char) : Lexeme :=
  let (ds, isFloat, n) := lexDigits (!afterDot) cs [] false 0
  let suffix := suffix? (cs.drop n)
  let length := if suffix.isSome then n + 1 else n
  match numberOf? suffix isFloat ds with
  | some k => (.ok k, length)
  | none => (.error (.invalidNumber (String.ofList ds)), length)

def lexWord (cs : List Char) : Lexeme :=
  let w := cs.takeWhile Text.continuesName
  (.ok (.ofWord (String.ofList w)), w.length)

/-- The lexeme at the start of a text that begins with `c`. -/
def lexeme (afterDot : Bool) (c : Char) (r : List Char) : Lexeme :=
  if c = '"' then lexString r [] 1
  else if c = '\'' then lexChar r
  else match Mark.single? c with
    | some m =>
      match r.head?.bind m.double? with
      | some d => (.ok (.mark d), 2)
      | none => (.ok (.mark m), 1)
    | none =>
      if Text.isDigit c then lexNumber afterDot (c :: r)
      else if Text.startsName c then lexWord (c :: r)
      else (.error (.unexpectedChar c), 1)

/-- The next token and the text after it. -/
def next (afterDot : Bool) (c : Cursor) : Except LexError (Token × Cursor) :=
  let here := skipGap .blank c.rest c.pos
  match here.rest with
  | [] => .ok (⟨.endOfInput, Span.between here.pos here.pos⟩, here)
  | a :: r =>
    let (result, n) := lexeme afterDot a r
    let after := here.skip n
    let span := Span.between here.pos after.pos
    match result with
    | .ok k => .ok (⟨k, span⟩, after)
    | .error e => .error (e.located span)

/-- All tokens up to the end of input. Each token but the last takes a character, so the length of the text
bounds their number. -/
def scanFrom : Nat → Bool → Cursor → Except LexError (List Token)
  | 0, _, c => .ok [⟨.endOfInput, Span.between c.pos c.pos⟩]
  | fuel + 1, afterDot, c => do
    let (token, rest) ← next afterDot c
    if token.kind = .endOfInput then pure [token]
    else
      let tokens ← scanFrom fuel (token.kind = .mark .dot) rest
      pure (token :: tokens)

def scan (source : String) : Except LexError (List Token) :=
  scanFrom (source.length + 1) false (.start source)

end Token

end StackScript
