import StackScript.Proofs.Precedence

/-!
Reading by index. A vector of tokens and the index of the current one take the place of the tokens that are left, and an access
outside the vector stops everything. What a run does to the index is written down: where it was at each access, and which
tokens it went past. If calls are nested deeper than they may be, there is no outcome at all.
-/
namespace StackScript

/-- Why a run stops without a result. -/
inductive Stop
  | failed (e : ParseError)
  | outOfRange
deriving DecidableEq, Repr

/-- The index, what it was at all accesses so far, and the tokens that were consumed. -/
structure Track where
  current : Nat := 0
  trail : List Nat := []
  consumed : List Nat := []
deriving DecidableEq, Repr

/-- Parts of a parser that may not come to an outcome. -/
abbrev Walk := ReaderT (List Token) (ExceptT Stop (StateT Track Option))

namespace Walk

/-- How a run on the tokens ends. -/
def run {α : Type} (q : Walk α) (tokens : List Token) (track : Track) : Option (Except Stop α × Track) :=
  StateT.run (ExceptT.run (ReaderT.run q tokens)) track

/-- No outcome. -/
def endless {α : Type} : Walk α := fun _ _ => none

def stop {α : Type} (e : ParseError) : Walk α := throw (.failed e)

def outside {α : Type} : Walk α := throw .outOfRange

def orOutside : Option Token → Walk Token
  | some t => return t
  | none => outside

/-- The token at an index. -/
def look (i : Nat) : Walk Token := do
  modify fun t => { t with trail := t.trail ++ [t.current] }
  orOutside (← read)[i]?

def peek : Walk Token := do look (← get).current

/-- The token at an index, or the last one of as many tokens if the index is behind it. -/
def lookWithin (i : Nat) : Nat → Walk Token
  | 0 => outside
  | last + 1 => look (min i last)

/-- The token that many places on, the last one if there are not as many. -/
def peekNth (n : Nat) : Walk Token := do lookWithin ((← get).current + n) (← read).length

def atEnd : Walk Bool := return (← peek).kind = .endOfInput

def lookBefore : Nat → Walk Token
  | 0 => outside
  | i + 1 => look i

/-- The token right before the index. -/
def before : Walk Token := do lookBefore (← get).current

/-- Goes on by a token unless that is the end of input. -/
def advance : Walk Token := do
  let ended ← atEnd
  if ended then before
  else
    modify fun t => { t with current := t.current + 1, consumed := t.consumed ++ [t.current] }
    before

def currentSpan : Walk Span := return (← peek).span

/-- The span of the token before the index, of the first one at the start. -/
def lastSpan : Walk Span := return (← look ((← get).current - 1)).span

def check (k : Token.Kind) : Walk Bool := return (← peek).kind = k

def accept (k : Token.Kind) : Walk Bool := do
  let there ← check k
  let ended ← atEnd
  if there && !ended then
    let _ ← advance
    return true
  else return false

def unexpected {α : Type} (expected : String) (span : Span) : Walk α := do
  let t ← peek
  stop (.unexpectedToken expected t.kind.text span)

def expect (k : Token.Kind) : Walk Token := do
  let there ← check k
  let ended ← atEnd
  if there && !ended then advance
  else if ended then stop (.unexpectedEnd (← currentSpan))
  else unexpected ("'" ++ k.text ++ "'") (← currentSpan)

def expectName : Walk String := do
  let t ← peek
  match t.kind with
  | .name s => let _ ← advance; return s
  | .endOfInput => stop (.unexpectedEnd (← currentSpan))
  | _ => unexpected "identifier" (← currentSpan)

/-! ### The grammar -/

/-- The parts of the parser that call each other, with what they are called with. -/
inductive Call
  | type
  | types (close : Token.Kind)
  | moreTypes
  | moreParams
  | level (least : Nat)
  /-- Operators and postfixes while they bind tight enough. -/
  | operators (least : Nat) (left : Expr)
  /-- What an operator that was read does with the operand before it. -/
  | operation (left : Expr) (binding : Nat) (token : Token)
  | operand
  | unaryFrom (op : UnaryOp) (start : Span)
  | paren (start : Span)
  | lambdaFrom (ps : List Param) (start : Span)
  | condFrom (start : Span)
  | block
  | blockFrom (start : Span)
  | exprs (close : Token.Kind)
  | moreExprs (close : Token.Kind)
  | sequence (close : Token.Kind)
  | binding
  | function

/-- What a part gives. -/
abbrev Call.Result : Call → Type
  | type => TypeExpr
  | types _ | moreTypes => List TypeExpr
  | moreParams => List Param
  | exprs _ | moreExprs _ => List Expr
  | sequence _ => List Stmt × Option Expr
  | binding | function => Stmt
  | level _ | operators _ _ | operation _ _ _ | operand | unaryFrom _ _ | paren _ | lambdaFrom _ _ | condFrom _ | block
  | blockFrom _ => Expr

section

variable (parse : ∀ call : Call, Walk call.Result)

def typeAfter (k : Token.Kind) : Walk (Option TypeExpr) := do
  if ← accept k then return some (← parse .type) else return none

def params (close : Token.Kind) : Walk (List Param) := do
  let items ← if ← check close then pure [] else parse .moreParams
  let _ ← expect close
  return items

/-- Each part by calls of the others. -/
def step : ∀ call : Call, Walk call.Result
  | .type => do
    let start ← currentSpan
    if ← accept (.mark .leftBracket) then
      let elem ← parse .type
      let _ ← expect (.mark .rightBracket)
      return .list elem (start.merge (← lastSpan))
    else if ← accept (.mark .leftParen) then
      let items ← parse (.types (.mark .rightParen))
      let span := start.merge (← lastSpan)
      match items with
      | [only] => return only
      | items => return .tuple items span
    else if ← accept (.keyword .fn) then
      let _ ← expect (.mark .leftParen)
      let params ← parse (.types (.mark .rightParen))
      let _ ← expect (.mark .arrow)
      let result ← parse .type
      return .function params result (start.merge (← lastSpan))
    else
      let t ← peek
      match t.kind with
      | .name s => let _ ← advance; return .named s start
      | _ => unexpected "type" start
  | .types close => do
    let items ← if ← check close then pure [] else parse .moreTypes
    let _ ← expect close
    return items
  | .moreTypes => do
    let t ← parse .type
    if ← accept (.mark .comma) then return t :: (← parse .moreTypes) else return [t]
  | .moreParams => do
    let start ← currentSpan
    let name ← expectName
    let type? ← typeAfter parse (.mark .colon)
    let param : Param := ⟨name, type?, start.merge (← lastSpan)⟩
    if ← accept (.mark .comma) then return param :: (← parse .moreParams) else return [param]
  | .level least => do
    let left ← parse .operand
    parse (.operators least left)
  | .operators least left => do
    if ← atEnd then return left
    else
      let t ← peek
      if t.kind.binding = 0 ∨ t.kind.binding < least then return left
      else
        let token ← advance
        parse (.operators least (← parse (.operation left t.kind.binding token)))
  | .operation left binding token => do
    match token.kind with
    | .mark .leftParen =>
      let args ← parse (.exprs (.mark .rightParen))
      return .call left args (left.span.merge (← lastSpan))
    | .mark .leftBracket =>
      let position ← parse (.level Level.lowest)
      let _ ← expect (.mark .rightBracket)
      return .index left position (left.span.merge (← lastSpan))
    | .mark .dot =>
      let field ← advance
      match field.kind with
      | .int i => return .field left i (left.span.merge field.span)
      | k => stop (.unexpectedToken "tuple field index" k.text field.span)
    | .mark m =>
      match BinaryOp.ofMark? m with
      | some op =>
        let right ← parse (.level (if op = .arith .exp then binding else binding + 1))
        return .binary op left right (left.span.merge right.span)
      | none => stop (.unexpectedToken "operator" token.kind.text token.span)
    | k => stop (.unexpectedToken "operator" k.text token.span)
  | .operand => do
    if ← atEnd then stop (.unexpectedEnd (← currentSpan))
    else
      let token ← advance
      let start := token.span
      match Parser.literal? token.kind start with
      | some (.ok v) => return .literal v start
      | some (.error e) => stop e
      | none =>
      match token.kind with
      | .name s => return .variable s start
      | .mark .leftParen => parse (.paren start)
      | .mark .leftBracket =>
        let items ← parse (.exprs (.mark .rightBracket))
        return .list items (start.merge (← lastSpan))
      | .mark .leftBrace => parse (.blockFrom start)
      | .mark .minus =>
        let t ← peek
        match Parser.negatedLiteral? t.kind start with
        | some (.ok v) => let _ ← advance; return .literal v (start.merge (← lastSpan))
        | some (.error e) => stop e
        | none => parse (.unaryFrom .negate start)
      | .mark .bang => parse (.unaryFrom .not start)
      | .mark .tilde => parse (.unaryFrom .bitNot start)
      | .mark .pipe =>
        let ps ← params parse (.mark .pipe)
        parse (.lambdaFrom ps start)
      | .mark .pipePipe => parse (.lambdaFrom [] start)
      | .keyword .fn =>
        let _ ← expect (.mark .leftParen)
        let ps ← params parse (.mark .rightParen)
        parse (.lambdaFrom ps start)
      | .keyword .if_ => parse (.condFrom start)
      | k => stop (.unexpectedToken "expression" k.text start)
  | .unaryFrom op start => do
    let e ← parse (.level Level.unary)
    return .unary op e (start.merge e.span)
  | .paren start => do
    if ← accept (.mark .rightParen) then return .tuple [] (start.merge (← lastSpan))
    else
      let first ← parse (.level Level.lowest)
      if ← accept (.mark .rightParen) then return .group first (start.merge (← lastSpan))
      else
        let _ ← expect (.mark .comma)
        let closed ← check (.mark .rightParen)
        if closed then
          let _ ← advance
          return .tuple [first] (start.merge (← lastSpan))
        else
          let items ← parse (.exprs (.mark .rightParen))
          return .tuple (first :: items) (start.merge (← lastSpan))
  | .lambdaFrom ps start => do
    let result? ← typeAfter parse (.mark .arrow)
    let body ← parse (.level Level.lowest)
    let span := start.merge body.span
    return .lambda ⟨"", ps, result?, span⟩ body span
  | .condFrom start => do
    let test ← parse (.level Level.lowest)
    let yes ← parse .block
    if ← accept (.keyword .else_) then
      let again ← check (.keyword .if_)
      if again then
        let token ← advance
        let no ← parse (.condFrom token.span)
        return .cond test yes (some no) (start.merge (← lastSpan))
      else
        let no ← parse .block
        return .cond test yes (some no) (start.merge (← lastSpan))
    else return .cond test yes none (start.merge (← lastSpan))
  | .block => do
    let opening ← expect (.mark .leftBrace)
    parse (.blockFrom opening.span)
  | .blockFrom start => do
    let (statements, value) ← parse (.sequence (.mark .rightBrace))
    let _ ← expect (.mark .rightBrace)
    return .block statements value (start.merge (← lastSpan))
  | .exprs close => do
    let items ← if ← check close then pure [] else parse (.moreExprs close)
    let _ ← expect close
    return items
  | .moreExprs close => do
    let e ← parse (.level Level.lowest)
    if ← accept (.mark .comma) then
      let closed ← check close
      if closed then return [e] else return e :: (← parse (.moreExprs close))
    else return [e]
  | .sequence close => do
    if ← check close then return ([], none)
    else if ← atEnd then stop (.unexpectedEnd (← currentSpan))
    else if ← accept (.mark .semicolon) then parse (.sequence close)
    else if ← check (.keyword .let_) then
      let s ← parse .binding
      let (ss, v) ← parse (.sequence close)
      return (s :: ss, v)
    else
      let begun ← check (.keyword .fn)
      let declares ← if begun then do pure ((← peekNth 1).kind matches .name _) else pure false
      if declares then
        let s ← parse .function
        let (ss, v) ← parse (.sequence close)
        return (s :: ss, v)
      else
        let e ← parse (.level Level.lowest)
        if ← accept (.mark .semicolon) then
          let span := e.span.merge (← lastSpan)
          let (ss, v) ← parse (.sequence close)
          return (.expr e span :: ss, v)
        else if ← check close then return ([], some e)
        else if e.isBraced then
          let (ss, v) ← parse (.sequence close)
          return (.expr e e.span :: ss, v)
        else unexpected "';'" (← currentSpan)
  | .binding => do
    let start ← expect (.keyword .let_)
    let name ← expectName
    let type? ← typeAfter parse (.mark .colon)
    let _ ← expect (.mark .equal)
    let value ← parse (.level Level.lowest)
    let _ ← expect (.mark .semicolon)
    return .bind name type? (Parser.named name value) (start.span.merge (← lastSpan))
  | .function => do
    let start ← expect (.keyword .fn)
    let name ← expectName
    let _ ← expect (.mark .leftParen)
    let ps ← params parse (.mark .rightParen)
    let result? ← typeAfter parse (.mark .arrow)
    let body ← parse .block
    let span := start.span.merge (← lastSpan)
    return .function ⟨name, ps, result?, span⟩ body span

end

/-- The parts, with calls nested at most so many deep. -/
def parse : Nat → ∀ call : Call, Walk call.Result
  | 0, _ => endless
  | n + 1, call => step (parse n) call

theorem parse_succ (n : Nat) (call : Call) : parse (n + 1) call = step (parse n) call := rfl

def program (n : Nat) : Walk Program := do
  let (statements, value) ← parse n (.sequence .endOfInput)
  return ⟨statements, value⟩

end Walk

end StackScript
