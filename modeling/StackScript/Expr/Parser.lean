import StackScript.Expr.Printer
import StackScript.Token.Lexer

/-!
Reading programs from tokens. Binary operators bind by level, all but the power operator to the left; calls,
indexing and field selection bind tightest. Every function takes a bound on its nesting, and the tokens
determine one that is never reached.
-/
namespace StackScript

inductive ParseError
  | unexpectedToken (expected found : String) (span : Span)
  | unexpectedEnd (span : Span)
  | literalOutOfRange (digits : String) (span : Span)
  | nestingTooDeep (span : Span)
deriving DecidableEq, Repr

namespace ParseError

def span : ParseError → Span
  | unexpectedToken _ _ s | unexpectedEnd s | literalOutOfRange _ s | nestingTooDeep s => s

def message (e : ParseError) : String :=
  let what := match e with
    | unexpectedToken expected found _ => "Unexpected token '" ++ found ++ "', expected " ++ expected
    | unexpectedEnd _ => "Unexpected end of input"
    | literalOutOfRange digits _ => "integer literal " ++ digits ++ " out of range"
    | nestingTooDeep _ => "Nesting too deep"
  what ++ " at " ++ e.span.text

end ParseError

/-! ### Levels of binding -/

namespace Level

def lowest : Nat := 1
def power : Nat := 11
def unary : Nat := 12
def postfixes : Nat := 13

end Level

namespace BinaryOp

def ofMark? : Mark → Option BinaryOp
  | .plus => some (arith .add)
  | .minus => some (arith .sub)
  | .star => some (arith .mul)
  | .slash => some (arith .div)
  | .percent => some (arith .mod)
  | .starStar => some (arith .exp)
  | .equalEqual => some (compare .equal)
  | .bangEqual => some (compare .notEqual)
  | .less => some (compare .lessThan)
  | .lessEqual => some (compare .lessEqual)
  | .greater => some (compare .greaterThan)
  | .greaterEqual => some (compare .greaterEqual)
  | .amp => some (arith .bitAnd)
  | .pipe => some (arith .bitOr)
  | .caret => some (arith .bitXor)
  | .lessLess => some (arith .shiftLeft)
  | .greaterGreater => some (arith .shiftRight)
  | .ampAmp => some and
  | .pipePipe => some or
  | _ => none

def level : BinaryOp → Nat
  | or => 1
  | and => 2
  | compare .equal | compare .notEqual => 3
  | compare _ => 4
  | arith .bitOr => 5
  | arith .bitXor => 6
  | arith .bitAnd => 7
  | arith .shiftLeft | arith .shiftRight => 8
  | arith .add | arith .sub => 9
  | arith .mul | arith .div | arith .mod => 10
  | arith .exp => Level.power

/-- The least level of the right operand. -/
def rightLevel (op : BinaryOp) : Nat := if op = arith .exp then op.level else op.level + 1

end BinaryOp

/-! ### Tokens still to be read -/

/-- The rest of the tokens, and the span of the one read last. -/
structure Stream where
  rest : List Token
  last : Span

abbrev Parser := StateT Stream (Except ParseError)

namespace Parser

def peek : Parser Token := do
  let s ← get
  pure (s.rest.headD ⟨.endOfInput, s.last⟩)

def peekSecond : Parser Token.Kind := do
  let s ← get
  match s.rest with
  | _ :: t :: _ => pure t.kind
  | [t] => pure t.kind
  | [] => pure .endOfInput

def here : Parser Span := return (← peek).span

def last : Parser Span := return (← get).last

/-- Reads a token. The end of input stays. -/
def advance : Parser Unit := modify fun s =>
  match s.rest with
  | t :: r => if t.kind = .endOfInput then s else ⟨r, t.span⟩
  | [] => s

def check (k : Token.Kind) : Parser Bool := return (← peek).kind = k

def accept (m : Mark) : Parser Bool := do
  if ← check (.mark m) then advance; pure true else pure false

def acceptKeyword (k : Keyword) : Parser Bool := do
  if ← check (.keyword k) then advance; pure true else pure false

def fail {α : Type} (e : ParseError) : Parser α := throw e

def unexpected {α : Type} (expected : String) : Parser α := do
  let t ← peek
  fail (.unexpectedToken expected t.kind.text t.span)

/-- Reads the given token and gives its span. -/
def expectKind (k : Token.Kind) : Parser Span := do
  let t ← peek
  if t.kind = .endOfInput then fail (.unexpectedEnd t.span)
  else if t.kind = k then advance; pure t.span
  else unexpected ("'" ++ k.text ++ "'")

def expect (m : Mark) : Parser Span := expectKind (.mark m)

def expectName : Parser String := do
  let t ← peek
  match t.kind with
  | .name s => advance; pure s
  | .endOfInput => fail (.unexpectedEnd t.span)
  | _ => unexpected "identifier"

/-- From the given span to the end of the token read last. -/
def upToLast (start : Span) : Parser Span := return start.merge (← last)

def tooDeep {α : Type} : Parser α := do fail (.nestingTooDeep (← here))

/-! ### Types -/

mutual

def type : Nat → Parser TypeExpr
  | 0 => tooDeep
  | n + 1 => do
    let start ← here
    if ← accept .leftBracket then
      let elem ← type n
      let _ ← expect .rightBracket
      return .list elem (← upToLast start)
    if ← accept .leftParen then
      match ← types n .rightParen with
      | [only] => return only
      | items => return .tuple items (← upToLast start)
    if ← acceptKeyword .fn then
      let _ ← expect .leftParen
      let params ← types n .rightParen
      let _ ← expect .arrow
      let result ← type n
      return .function params result (← upToLast start)
    match (← peek).kind with
    | .name s => advance; return .named s start
    | _ => unexpected "type"

/-- Types separated by commas, up to and including the closing mark. -/
def types : Nat → Mark → Parser (List TypeExpr)
  | 0, _ => tooDeep
  | n + 1, close => do
    if ← accept close then return []
    moreTypes n close

def moreTypes : Nat → Mark → Parser (List TypeExpr)
  | 0, _ => tooDeep
  | n + 1, close => do
    let t ← type n
    if ← accept .comma then
      let ts ← moreTypes n close
      return t :: ts
    let _ ← expect close
    return [t]

end

/-- The type after a colon or an arrow, if the mark is there. -/
def typeAfter (n : Nat) (m : Mark) : Parser (Option TypeExpr) := do
  if ← accept m then return some (← type n) else return none

/-- Parameters after the first opening mark, up to and including the closing one. -/
def moreParams : Nat → Mark → Parser (List Param)
  | 0, _ => tooDeep
  | n + 1, close => do
    let start ← here
    let name ← expectName
    let type? ← typeAfter n .colon
    let param : Param := ⟨name, type?, ← upToLast start⟩
    if ← accept .comma then
      let ps ← moreParams n close
      return param :: ps
    let _ ← expect close
    return [param]

def params (n : Nat) (close : Mark) : Parser (List Param) := do
  if ← accept close then return [] else moreParams n close

/-! ### Expressions -/

def int32? (negative : Bool) (n : Nat) : Option Int32 :=
  let k : Int := if negative then -n else n
  if -0x80000000 ≤ k ∧ k < 0x80000000 then some (.ofInt k) else none

/-- The literal that a token stands for. -/
def literal? (k : Token.Kind) (span : Span) : Option (Except ParseError Literal) :=
  match k with
  | .int n => some (match int32? false n with
    | some v => .ok (.int32 v)
    | none => .error (.literalOutOfRange (toString n) span))
  | .int64 n => some (.ok (.int64 (.ofNat n)))
  | .byte n => some (.ok (.byte n))
  | .float64 bits => some (.ok (.float64 bits))
  | .float32 bits => some (.ok (.float32 bits))
  | .char c => some (.ok (.char c))
  | .string s => some (.ok (.string s))
  | .bool b => some (.ok (.bool b))
  | _ => none

/-- A minus sign right before an integer literal belongs to it, so that the least integers can be written. -/
def negatedLiteral? (k : Token.Kind) (span : Span) : Option (Except ParseError Literal) :=
  match k with
  | .int n => some (match int32? true n with
    | some v => .ok (.int32 v)
    | none => .error (.literalOutOfRange ("-" ++ toString n) span))
  | .int64 n => some (.ok (.int64 (-(.ofNat n))))
  | _ => none

/-- A bound lambda takes the name of its binding. -/
def named (name : String) : Expr → Expr
  | .lambda h body span => .lambda { h with name := name } body span
  | e => e

mutual

/-- An expression whose operators are of the given level or tighter. -/
def level : Nat → Nat → Parser Expr
  | 0, _ => tooDeep
  | n + 1, least => do
    let left ← operand n
    operators n least left

/-- Operators and postfixes after an operand. -/
def operators : Nat → Nat → Expr → Parser Expr
  | 0, _, _ => tooDeep
  | n + 1, least, left => do
    match (← peek).kind with
    | .mark .leftParen =>
      if Level.postfixes < least then return left
      advance
      let args ← exprs n .rightParen
      operators n least (.call left args (← upToLast left.span))
    | .mark .leftBracket =>
      if Level.postfixes < least then return left
      advance
      let position ← level n Level.lowest
      let _ ← expect .rightBracket
      operators n least (.index left position (← upToLast left.span))
    | .mark .dot =>
      if Level.postfixes < least then return left
      advance
      let t ← peek
      match t.kind with
      | .int i =>
        advance
        operators n least (.field left i (left.span.merge t.span))
      | .endOfInput => fail (.unexpectedToken "tuple field index" (Token.Kind.mark .dot).text (← last))
      | _ => unexpected "tuple field index"
    | .mark m =>
      match BinaryOp.ofMark? m with
      | some op =>
        if op.level < least then return left
        advance
        let right ← level n op.rightLevel
        operators n least (.binary op left right (left.span.merge right.span))
      | none => return left
    | _ => return left

/-- What an expression can start with. -/
def operand : Nat → Parser Expr
  | 0 => tooDeep
  | n + 1 => do
    let t ← peek
    let start := t.span
    if t.kind = .endOfInput then fail (.unexpectedEnd start)
    advance
    match literal? t.kind start with
    | some (.ok v) => return .literal v start
    | some (.error e) => fail e
    | none =>
    match t.kind with
    | .name s => return .variable s start
    | .mark .leftParen =>
      if ← accept .rightParen then return .tuple [] (← upToLast start)
      let first ← level n Level.lowest
      if ← accept .rightParen then return .group first (← upToLast start)
      let _ ← expect .comma
      let items ← exprs n .rightParen
      return .tuple (first :: items) (← upToLast start)
    | .mark .leftBracket =>
      let items ← exprs n .rightBracket
      return .list items (← upToLast start)
    | .mark .leftBrace => blockFrom n start
    | .mark .minus =>
      match negatedLiteral? (← peek).kind start with
      | some (.ok v) => advance; return .literal v (← upToLast start)
      | some (.error e) => fail e
      | none => unaryFrom n .negate start
    | .mark .bang => unaryFrom n .not start
    | .mark .tilde => unaryFrom n .bitNot start
    | .mark .pipe =>
      let ps ← params n .pipe
      lambdaFrom n ps start
    | .mark .pipePipe => lambdaFrom n [] start
    | .keyword .fn =>
      let _ ← expect .leftParen
      let ps ← params n .rightParen
      lambdaFrom n ps start
    | .keyword .if_ => condFrom n start
    | k => fail (.unexpectedToken "expression" k.text start)

def unaryFrom : Nat → UnaryOp → Span → Parser Expr
  | 0, _, _ => tooDeep
  | n + 1, op, start => do
    let e ← level n Level.unary
    return .unary op e (start.merge e.span)

/-- The result type and body of a lambda. -/
def lambdaFrom : Nat → List Param → Span → Parser Expr
  | 0, _, _ => tooDeep
  | n + 1, ps, start => do
    let result? ← typeAfter n .arrow
    let body ← level n Level.lowest
    let span := start.merge body.span
    return .lambda ⟨"", ps, result?, span⟩ body span

/-- A conditional after its keyword. -/
def condFrom : Nat → Span → Parser Expr
  | 0, _ => tooDeep
  | n + 1, start => do
    let test ← level n Level.lowest
    let yes ← block n
    if ← acceptKeyword .else_ then
      let next ← here
      let no ← if ← acceptKeyword .if_ then condFrom n next else block n
      return .cond test yes (some no) (← upToLast start)
    return .cond test yes none (← upToLast start)

def block : Nat → Parser Expr
  | 0 => tooDeep
  | n + 1 => do
    let start ← expect .leftBrace
    blockFrom n start

/-- A block after its opening brace. -/
def blockFrom : Nat → Span → Parser Expr
  | 0, _ => tooDeep
  | n + 1, start => do
    let (statements, value) ← sequence n (.mark .rightBrace)
    let _ ← expect .rightBrace
    return .block statements value (← upToLast start)

/-- Expressions separated by commas, one more comma allowed, up to and including the closing mark. -/
def exprs : Nat → Mark → Parser (List Expr)
  | 0, _ => tooDeep
  | n + 1, close => do
    if ← accept close then return []
    let e ← level n Level.lowest
    if ← accept .comma then
      let es ← exprs n close
      return e :: es
    let _ ← expect close
    return [e]

/-- Statements up to the given token, and the value if the last expression has no semicolon. -/
def sequence : Nat → Token.Kind → Parser (List Stmt × Option Expr)
  | 0, _ => tooDeep
  | n + 1, close => do
    let t ← peek
    if t.kind = close then return ([], none)
    if t.kind = .endOfInput then fail (.unexpectedEnd t.span)
    if ← accept .semicolon then sequence n close
    else if t.kind = .keyword .let_ then
      let s ← binding n
      let (ss, v) ← sequence n close
      return (s :: ss, v)
    else if t.kind = .keyword .fn ∧ (← peekSecond) matches .name _ then
      let s ← function n
      let (ss, v) ← sequence n close
      return (s :: ss, v)
    else
      let e ← level n Level.lowest
      if ← accept .semicolon then
        let span ← upToLast e.span
        let (ss, v) ← sequence n close
        return (.expr e span :: ss, v)
      if ← check close then return ([], some e)
      if e.isBraced then
        let (ss, v) ← sequence n close
        return (.expr e e.span :: ss, v)
      unexpected "';'"

def binding : Nat → Parser Stmt
  | 0 => tooDeep
  | n + 1 => do
    let start ← expectKind (.keyword .let_)
    let name ← expectName
    let type? ← typeAfter n .colon
    let _ ← expect .equal
    let value ← level n Level.lowest
    let _ ← expect .semicolon
    return .bind name type? (named name value) (← upToLast start)

def function : Nat → Parser Stmt
  | 0 => tooDeep
  | n + 1 => do
    let start ← expectKind (.keyword .fn)
    let name ← expectName
    let _ ← expect .leftParen
    let ps ← params n .rightParen
    let result? ← typeAfter n .arrow
    let body ← block n
    let span ← upToLast start
    return .function ⟨name, ps, result?, span⟩ body span

end

end Parser

namespace Program

/-- A bound on the nesting of calls while the tokens are read. -/
def nesting (tokens : List Token) : Nat := 8 * (tokens.length + 1)

def ofTokens (tokens : List Token) : Except ParseError Program := do
  let ((statements, value), _) ← (Parser.sequence (nesting tokens) .endOfInput).run ⟨tokens, {}⟩
  return ⟨statements, value⟩

end Program

end StackScript
