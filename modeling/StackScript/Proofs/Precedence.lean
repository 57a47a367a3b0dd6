import StackScript.Proofs.Reading

/-!
Precedence and associativity. What it takes that the operands of a tree fit their operators, how a tree is spelled by
tokens, and what both say of each construct that is read.
-/
namespace StackScript

/-! ### Trees in order -/

namespace Expr

def isBinary : Expr → Bool
  | .binary .. => true
  | _ => false

def isUnary : Expr → Bool
  | .unary .. => true
  | _ => false

/-- As a left operand, an operation binds tighter, or as tight if operators of its level group to the left. -/
def FitsLeft (op : BinaryOp) : Expr → Prop
  | .binary inner .. => op.level < inner.level ∨ op.level = inner.level ∧ op ≠ .arith .exp
  | _ => True

/-- As a right operand, an operation binds tighter, or as tight if operators of its level group to the right. -/
def FitsRight (op : BinaryOp) : Expr → Prop
  | .binary inner .. => op.level < inner.level ∨ op.level = inner.level ∧ op = .arith .exp
  | _ => True

end Expr

mutual

/-- Everywhere in the tree the operands fit their operators, no binary operation is the operand of a unary one, and no
operation is called, indexed or selected from. -/
def Expr.Ordered : Expr → Prop
  | .literal .. | .variable .. => True
  | .group e _ => e.Ordered
  | .binary op left right _ => left.Ordered ∧ right.Ordered ∧ left.FitsLeft op ∧ right.FitsRight op
  | .unary _ e _ => e.Ordered ∧ ¬ e.isBinary
  | .call callee args _ => callee.Ordered ∧ ¬ callee.isBinary ∧ ¬ callee.isUnary ∧ Expr.AllOrdered args
  | .index object position _ => object.Ordered ∧ ¬ object.isBinary ∧ ¬ object.isUnary ∧ position.Ordered
  | .field object _ _ => object.Ordered ∧ ¬ object.isBinary ∧ ¬ object.isUnary
  | .tuple items _ | .list items _ => Expr.AllOrdered items
  | .lambda _ body _ => body.Ordered
  | .block statements value _ => Stmt.AllOrdered statements ∧ Expr.OptionOrdered value
  | .cond test yes no _ => test.Ordered ∧ yes.Ordered ∧ Expr.OptionOrdered no

def Expr.AllOrdered : List Expr → Prop
  | [] => True
  | e :: es => e.Ordered ∧ Expr.AllOrdered es

def Expr.OptionOrdered : Option Expr → Prop
  | none => True
  | some e => e.Ordered

def Stmt.Ordered : Stmt → Prop
  | .expr e _ | .bind _ _ e _ => e.Ordered
  | .function _ body _ => body.Ordered

def Stmt.AllOrdered : List Stmt → Prop
  | [] => True
  | s :: ss => s.Ordered ∧ Stmt.AllOrdered ss

end

/-! ### Trees as tokens -/

mutual

/-- Without lambdas, blocks and conditionals. -/
def Expr.isFlat : Expr → Bool
  | .literal .. | .variable .. => true
  | .group e _ | .unary _ e _ | .field e _ _ => e.isFlat
  | .binary _ a b _ | .index a b _ => a.isFlat && b.isFlat
  | .call f args _ => f.isFlat && Expr.areFlat args
  | .tuple es _ | .list es _ => Expr.areFlat es
  | .lambda .. | .block .. | .cond .. => false

def Expr.areFlat : List Expr → Bool
  | [] => true
  | e :: es => e.isFlat && Expr.areFlat es

end

/-- What a literal is written as. -/
inductive Literal.Written : Literal → Token.Kind → Prop
  | bool (b : Bool) : Written (.bool b) (.bool b)
  | byte (n : UInt8) : Written (.byte n) (.byte n)
  | char (c : Char) : Written (.char c) (.char c)
  | string (s : String) : Written (.string s) (.string s)
  | float32 (bits : UInt32) : Written (.float32 bits) (.float32 bits)
  | float64 (bits : UInt64) : Written (.float64 bits) (.float64 bits)
  | int32 {v : Int32} {n : Nat} (value : v.toInt = n) : Written (.int32 v) (.int n)
  | int64 (n : Nat) : Written (.int64 (.ofNat n)) (.int64 n)

/-- What follows the minus sign of a literal. -/
inductive Literal.Negated : Literal → Token.Kind → Prop
  | int32 {v : Int32} {n : Nat} (value : v.toInt = -n) : Negated (.int32 v) (.int n)
  | int64 (n : Nat) : Negated (.int64 (-(.ofNat n))) (.int64 n)

/-- A token that is the mark of the text. -/
def Token.Spells (t : Token) (text : String) : Prop := ∃ m, t.kind = .mark m ∧ m.text = text

mutual

/-- The tokens of a tree, one after another: a group has its parentheses, and a literal that was read together with a
minus sign has the span of both. -/
inductive Expr.Spelled : Expr → List Token → Prop
  | literal {v : Literal} {t : Token} (written : v.Written t.kind) : Spelled (.literal v t.span) [t]
  | negative {v : Literal} {sign t : Token} (minus : sign.Spells "-") (negated : v.Negated t.kind) :
      Spelled (.literal v (sign.span.merge t.span)) [sign, t]
  | variable {name : String} {t : Token} (word : t.kind = .name name) : Spelled (.variable name t.span) [t]
  | group {e : Expr} {span : Span} {ts : List Token} {left right : Token} (opening : left.Spells "(") (inner : e.Spelled ts)
      (closing : right.Spells ")") : Spelled (.group e span) (left :: (ts ++ [right]))
  | binary {op : BinaryOp} {a b : Expr} {span : Span} {xs ys : List Token} {t : Token} (left : a.Spelled xs)
      (sign : t.Spells op.sign) (right : b.Spelled ys) : Spelled (.binary op a b span) (xs ++ t :: ys)
  | unary {op : UnaryOp} {e : Expr} {span : Span} {ts : List Token} {t : Token} (sign : t.Spells op.sign)
      (operand : e.Spelled ts) : Spelled (.unary op e span) (t :: ts)
  | call {f : Expr} {args : List Expr} {span : Span} {xs ys : List Token} {left right : Token} (callee : f.Spelled xs)
      (opening : left.Spells "(") (items : Expr.AllSpelled args ys) (closing : right.Spells ")") :
      Spelled (.call f args span) (xs ++ left :: (ys ++ [right]))
  | index {a b : Expr} {span : Span} {xs ys : List Token} {left right : Token} (object : a.Spelled xs)
      (opening : left.Spells "[") (position : b.Spelled ys) (closing : right.Spells "]") :
      Spelled (.index a b span) (xs ++ left :: (ys ++ [right]))
  | field {a : Expr} {i : Nat} {span : Span} {xs : List Token} {dot t : Token} (object : a.Spelled xs)
      (point : dot.Spells ".") (number : t.kind = .int i) : Spelled (.field a i span) (xs ++ [dot, t])
  | unit {span : Span} {left right : Token} (opening : left.Spells "(") (closing : right.Spells ")") :
      Spelled (.tuple [] span) [left, right]
  | tuple {e : Expr} {es : List Expr} {span : Span} {xs ys : List Token} {left comma right : Token}
      (opening : left.Spells "(") (first : e.Spelled xs) (separator : comma.Spells ",") (others : Expr.AllSpelled es ys)
      (closing : right.Spells ")") : Spelled (.tuple (e :: es) span) (left :: (xs ++ comma :: (ys ++ [right])))
  | list {es : List Expr} {span : Span} {ts : List Token} {left right : Token} (opening : left.Spells "[")
      (items : Expr.AllSpelled es ts) (closing : right.Spells "]") : Spelled (.list es span) (left :: (ts ++ [right]))

/-- Trees with commas between them. A comma after the last one may be there or not. -/
inductive Expr.AllSpelled : List Expr → List Token → Prop
  | none : AllSpelled [] []
  | last {e : Expr} {ts : List Token} (item : e.Spelled ts) : AllSpelled [e] ts
  | comma {e : Expr} {es : List Expr} {xs ys : List Token} {t : Token} (item : e.Spelled xs) (separator : t.Spells ",")
      (others : Expr.AllSpelled es ys) : AllSpelled (e :: es) (xs ++ t :: ys)

end

/-! ### Operators that may follow -/

/-- The level at which a token goes on with an expression before it, zero if it does not. -/
def Token.Kind.binding : Token.Kind → Nat
  | .mark .leftParen | .mark .leftBracket | .mark .dot => Level.postfixes
  | .mark m => ((BinaryOp.ofMark? m).map BinaryOp.level).getD 0
  | _ => 0

namespace BinaryOp

variable {op : BinaryOp} {m : Mark}

theorem level_le (op : BinaryOp) : op.level ≤ Level.power := by
  cases op with
  | arith a => cases a <;> decide
  | compare c => cases c <;> decide
  | and | or => decide

theorem level_eq_power (h : op.level = Level.power) : op = .arith .exp := by
  cases op with
  | arith a => cases a <;> first | rfl | cases h
  | compare c => cases c <;> cases h
  | and | or => cases h

theorem level_pos (op : BinaryOp) : 0 < op.level := by
  cases op with
  | arith a => cases a <;> decide
  | compare c => cases c <;> decide
  | and | or => decide

theorem level_le_rightLevel (op : BinaryOp) : op.level ≤ op.rightLevel := by
  unfold rightLevel
  split
  · exact Nat.le_refl _
  · exact Nat.le_succ _

theorem rightLevel_le (op : BinaryOp) : op.rightLevel ≤ Level.unary := by
  unfold rightLevel
  split
  · exact Nat.le_succ_of_le (level_le op)
  · exact Nat.succ_le_succ (level_le op)

theorem sign_of_ofMark? (h : ofMark? m = some op) : m.text = op.sign := by
  cases m <;> cases h <;> rfl

theorem binding_of_ofMark? (h : ofMark? m = some op) : (Token.Kind.mark m).binding = op.level := by
  cases m <;> cases h <;> rfl

theorem binding_of_none (h : ofMark? m = none) (paren : m ≠ .leftParen) (bracket : m ≠ .leftBracket) (dot : m ≠ .dot) :
    (Token.Kind.mark m).binding = 0 := by
  cases m <;> first | rfl | contradiction

end BinaryOp

namespace Expr

variable {op : BinaryOp} {e : Expr} {k least : Nat}

/-- Whether an operator of the level, if one follows, does not belong to an operand at the end of the expression. -/
def Admits (k : Nat) : Expr → Prop
  | .binary op .. => k < op.rightLevel
  | .unary .. => k < Level.unary
  | _ => True

/-- Whether the expression is no operation of a looser level. -/
def Within (least : Nat) : Expr → Prop
  | .binary op .. => least ≤ op.level
  | _ => True

theorem Admits.not_operation (h : e.Admits Level.postfixes) : ¬ e.isBinary ∧ ¬ e.isUnary := by
  cases e with
  | binary op =>
    have := op.rightLevel_le
    exact absurd (Nat.lt_of_lt_of_le h this) (by decide)
  | unary => exact absurd h (by decide : ¬ Level.postfixes < Level.unary)
  | _ => exact ⟨nofun, nofun⟩

theorem Admits.fitsLeft (h : e.Admits op.level) : e.FitsLeft op := by
  cases e with
  | binary inner =>
    have admitted : op.level < inner.rightLevel := h
    unfold BinaryOp.rightLevel at admitted
    split at admitted
    · exact .inl admitted
    · next other =>
      rcases Nat.lt_or_eq_of_le (Nat.le_of_lt_succ admitted) with tighter | same
      · exact .inl tighter
      · -- two operators of the level of the power operator are both the power operator
        refine .inr ⟨same, fun power => other (BinaryOp.level_eq_power ?_)⟩
        rw [← same, power]
        rfl
  | _ => trivial

theorem Within.fitsRight (h : e.Within op.rightLevel) : e.FitsRight op := by
  cases e with
  | binary inner =>
    have within : op.rightLevel ≤ inner.level := h
    unfold BinaryOp.rightLevel at within
    split at within
    · next power =>
      rcases Nat.lt_or_eq_of_le within with tighter | same
      · exact .inl tighter
      · exact .inr ⟨same, power⟩
    · exact .inl within
  | _ => trivial

theorem Within.not_binary (h : e.Within Level.unary) : ¬ e.isBinary := by
  cases e with
  | binary op => exact absurd (Nat.le_trans h op.level_le) (by decide)
  | _ => nofun

/-! ### What the parser gives -/

/-- An expression without an operator at its end or around it. -/
structure Delimited (e : Expr) : Prop where
  ordered : e.Ordered
  shape : e.isFlat = false
  admits : ∀ k, e.Admits k
  binary : ¬ e.isBinary

/-- What is read before operators and postfixes. -/
structure IsOperand (s : Stream) (e : Expr) (t : Stream) : Prop where
  ordered : e.Ordered
  binary : ¬ e.isBinary
  admits : e.Admits t.head.kind.binding
  spelled : e.isFlat → ∃ read, s.rest = read ++ t.rest ∧ e.Spelled read

/-- What is read with operators of the level or tighter: all that follow. -/
structure IsLevel (s : Stream) (least : Nat) (e : Expr) (t : Stream) : Prop where
  ordered : e.Ordered
  within : e.Within least
  followed : t.head.kind.binding < least
  spelled : e.isFlat → ∃ read, s.rest = read ++ t.rest ∧ e.Spelled read

/-- What an expression becomes with the operators and postfixes of the level or tighter after it. -/
structure Extends (s : Stream) (least : Nat) (left e : Expr) (t : Stream) : Prop where
  ordered : e.Ordered
  within : e.Within least
  followed : t.head.kind.binding < least
  spelled : e.isFlat → left.isFlat ∧
    ∃ read, s.rest = read ++ t.rest ∧ ∀ before, left.Spelled before → e.Spelled (before ++ read)

/-- What is read up to and including a closing mark. -/
structure AreItems (s : Stream) (close : Mark) (es : List Expr) (t : Stream) : Prop where
  ordered : AllOrdered es
  spelled : areFlat es → ∃ read last, s.rest = read ++ last :: t.rest ∧ last.kind = .mark close ∧ AllSpelled es read

variable {s t u : Stream} {span : Span}

theorem Delimited.isOperand (h : e.Delimited) : e.IsOperand s t :=
  ⟨h.ordered, h.binary, h.admits _, fun flat => absurd flat (by rw [h.shape]; nofun)⟩

/-- A name for a lambda changes nothing about its body. -/
theorem ordered_named {name : String} (h : e.Ordered) : (Parser.named name e).Ordered := by
  cases e <;> exact h

end Expr

/-! ### Literals -/

namespace Parser

theorem toInt_of_int32? {negative : Bool} {n : Nat} {v : Int32} (h : int32? negative n = some v) :
    v.toInt = if negative then -(n : Int) else n := by
  unfold int32? at h
  dsimp only at h
  generalize (if negative then -(n : Int) else n) = k at h ⊢
  split at h
  · next range =>
    obtain rfl := Option.some.inj h
    exact Int32.toInt_ofInt_of_le range.1 range.2
  · cases h

theorem written_of_literal? {k : Token.Kind} {span : Span} {v : Literal} (h : literal? k span = some (.ok v)) :
    v.Written k := by
  cases k with
  | int n =>
    cases hv : int32? false n with
    | none =>
      rw [literal?, hv] at h
      cases h
    | some w =>
      rw [literal?, hv] at h
      cases h
      exact .int32 (toInt_of_int32? hv)
  | int64 n => cases h; exact .int64 n
  | byte n => cases h; exact .byte n
  | float64 bits => cases h; exact .float64 bits
  | float32 bits => cases h; exact .float32 bits
  | char c => cases h; exact .char c
  | string s => cases h; exact .string s
  | bool b => cases h; exact .bool b
  | name | keyword | mark | endOfInput => cases h

theorem negated_of_negatedLiteral? {k : Token.Kind} {span : Span} {v : Literal}
    (h : negatedLiteral? k span = some (.ok v)) : v.Negated k := by
  cases k with
  | int n =>
    cases hv : int32? true n with
    | none =>
      rw [negatedLiteral?, hv] at h
      cases h
    | some w =>
      rw [negatedLiteral?, hv] at h
      cases h
      exact .int32 (toInt_of_int32? hv)
  | int64 n => cases h; exact .int64 n
  | _ => cases h

end Parser

/-! ### One construct at a time -/

namespace Expr

variable {e left mid : Expr} {es : List Expr} {least : Nat} {m : Mark} {s t u : Stream} {span : Span}

theorem spells (h : s.head.kind = .mark m) : s.head.Spells m.text := ⟨m, h, rfl⟩

theorem IsOperand.literal {v : Literal} (written : v.Written s.head.kind) :
    (Expr.literal v s.head.span).IsOperand s s.next := by
  have some_token : s.head.kind ≠ .endOfInput := by
    intro ended
    rw [ended] at written
    cases written
  exact ⟨trivial, nofun, trivial, fun _ => ⟨[s.head], s.rest_eq some_token, .literal written⟩⟩

theorem IsOperand.negative {v : Literal} (minus : s.head.kind = .mark .minus) (negated : v.Negated s.next.head.kind) :
    (Expr.literal v (s.head.span.merge s.next.next.last)).IsOperand s s.next.next := by
  have some_token : s.next.head.kind ≠ .endOfInput := by
    intro ended
    rw [ended] at negated
    cases negated
  refine ⟨trivial, nofun, trivial, fun _ => ⟨[s.head, s.next.head], ?_, ?_⟩⟩
  · rw [Stream.rest_of_mark minus, s.next.rest_eq some_token]
    rfl
  · rw [Stream.last_next some_token]
    exact .negative (spells minus) negated

theorem IsOperand.variable {name : String} (word : s.head.kind = .name name) :
    (Expr.variable name s.head.span).IsOperand s s.next := by
  have some_token : s.head.kind ≠ .endOfInput := by rw [word]; nofun
  exact ⟨trivial, nofun, trivial, fun _ => ⟨[s.head], s.rest_eq some_token, .variable word⟩⟩

theorem IsOperand.unit (opening : s.head.kind = .mark .leftParen) (closing : s.next.head.kind = .mark .rightParen) :
    (Expr.tuple [] span).IsOperand s s.next.next := by
  refine ⟨trivial, nofun, trivial, fun _ => ⟨[s.head, s.next.head], ?_, .unit (spells opening) (spells closing)⟩⟩
  rw [Stream.rest_of_mark opening, Stream.rest_of_mark closing]
  rfl

theorem IsOperand.group (opening : s.head.kind = .mark .leftParen) (inner : e.IsLevel s.next least t)
    (closing : t.head.kind = .mark .rightParen) : (Expr.group e span).IsOperand s t.next := by
  refine ⟨inner.ordered, nofun, trivial, fun flat => ?_⟩
  obtain ⟨read, rest, spelled⟩ := inner.spelled flat
  refine ⟨s.head :: (read ++ [t.head]), ?_, .group (spells opening) spelled (spells closing)⟩
  rw [Stream.rest_of_mark opening, rest, Stream.rest_of_mark closing]
  simp

theorem IsOperand.tuple (opening : s.head.kind = .mark .leftParen) (first : e.IsLevel s.next least t)
    (separator : t.head.kind = .mark .comma) (others : AreItems t.next .rightParen es u) :
    (Expr.tuple (e :: es) span).IsOperand s u := by
  refine ⟨⟨first.ordered, others.ordered⟩, nofun, trivial, fun flat => ?_⟩
  obtain ⟨flatFirst, flatOthers⟩ : e.isFlat ∧ areFlat es := by simpa [isFlat, areFlat] using flat
  obtain ⟨xs, rest, spelled⟩ := first.spelled flatFirst
  obtain ⟨ys, last, rest', closing, spelled'⟩ := others.spelled flatOthers
  refine ⟨s.head :: (xs ++ t.head :: (ys ++ [last])), ?_,
    .tuple (spells opening) spelled (spells separator) spelled' ⟨_, closing, rfl⟩⟩
  rw [Stream.rest_of_mark opening, rest, Stream.rest_of_mark separator, rest']
  simp

theorem IsOperand.list (opening : s.head.kind = .mark .leftBracket) (items : AreItems s.next .rightBracket es t) :
    (Expr.list es span).IsOperand s t := by
  refine ⟨items.ordered, nofun, trivial, fun flat => ?_⟩
  obtain ⟨read, last, rest, closing, spelled⟩ := items.spelled flat
  refine ⟨s.head :: (read ++ [last]), ?_, .list (spells opening) spelled ⟨_, closing, rfl⟩⟩
  rw [Stream.rest_of_mark opening, rest]
  simp

theorem IsOperand.unary {op : UnaryOp} (sign : s.head.kind = .mark m) (text : m.text = op.sign)
    (inner : e.IsLevel s.next Level.unary t) : (Expr.unary op e span).IsOperand s t := by
  -- the operand took all that binds as tight as a unary operator, so what follows binds looser
  refine ⟨⟨inner.ordered, inner.within.not_binary⟩, nofun, inner.followed, fun flat => ?_⟩
  obtain ⟨read, rest, spelled⟩ := inner.spelled flat
  refine ⟨s.head :: read, ?_, .unary ⟨m, sign, text⟩ spelled⟩
  rw [Stream.rest_of_mark sign, rest]
  rfl

/-- An expression that nothing follows is as it was. -/
theorem Extends.refl (ordered : e.Ordered) (within : e.Within least) (followed : s.head.kind.binding < least) :
    e.Extends s least e s :=
  ⟨ordered, within, followed, fun flat => ⟨flat, [], rfl, fun before spelled => by rwa [List.append_nil]⟩⟩

/-- One operator or postfix, and then the others. -/
theorem Extends.step (more : mid.Extends t least e u)
    (once : mid.isFlat → left.isFlat ∧
      ∃ read, s.rest = read ++ t.rest ∧ ∀ before, left.Spelled before → mid.Spelled (before ++ read)) :
    left.Extends s least e u := by
  refine ⟨more.ordered, more.within, more.followed, fun flat => ?_⟩
  obtain ⟨flatMid, ys, rest', spelled'⟩ := more.spelled flat
  obtain ⟨flatLeft, xs, rest, spelled⟩ := once flatMid
  refine ⟨flatLeft, xs ++ ys, by rw [rest, rest', List.append_assoc], fun before first => ?_⟩
  rw [← List.append_assoc]
  exact spelled' _ (spelled before first)

theorem Extends.call (opening : s.head.kind = .mark .leftParen) (items : AreItems s.next .rightParen es t)
    (more : (Expr.call left es span).Extends t least e u) : left.Extends s least e u := by
  refine more.step fun flat => ?_
  obtain ⟨flatLeft, flatItems⟩ : left.isFlat ∧ areFlat es := by simpa [isFlat] using flat
  obtain ⟨read, last, rest, closing, spelled⟩ := items.spelled flatItems
  refine ⟨flatLeft, s.head :: (read ++ [last]), ?_, fun before callee => ?_⟩
  · rw [Stream.rest_of_mark opening, rest]
    simp
  · exact .call callee (spells opening) spelled ⟨_, closing, rfl⟩

theorem Extends.index {position : Expr} (opening : s.head.kind = .mark .leftBracket)
    (inner : position.IsLevel s.next Level.lowest t) (closing : t.head.kind = .mark .rightBracket)
    (more : (Expr.index left position span).Extends t.next least e u) : left.Extends s least e u := by
  refine more.step fun flat => ?_
  obtain ⟨flatLeft, flatInner⟩ : left.isFlat ∧ position.isFlat := by simpa [isFlat] using flat
  obtain ⟨read, rest, spelled⟩ := inner.spelled flatInner
  refine ⟨flatLeft, s.head :: (read ++ [t.head]), ?_, fun before object => ?_⟩
  · rw [Stream.rest_of_mark opening, rest, Stream.rest_of_mark closing]
    simp
  · exact .index object (spells opening) spelled (spells closing)

theorem Extends.field {i : Nat} (point : s.head.kind = .mark .dot) (number : s.next.head.kind = .int i)
    (more : (Expr.field left i span).Extends s.next.next least e u) : left.Extends s least e u := by
  refine more.step fun flat => ⟨flat, [s.head, s.next.head], ?_, fun before object => ?_⟩
  · have some_token : s.next.head.kind ≠ .endOfInput := by rw [number]; nofun
    rw [Stream.rest_of_mark point, s.next.rest_eq some_token]
    rfl
  · exact .field object (spells point) number

theorem Extends.binary {op : BinaryOp} {right : Expr} (sign : s.head.kind = .mark m)
    (operator : BinaryOp.ofMark? m = some op) (operand : right.IsLevel s.next op.rightLevel t)
    (more : (Expr.binary op left right span).Extends t least e u) : left.Extends s least e u := by
  refine more.step fun flat => ?_
  obtain ⟨flatLeft, flatRight⟩ : left.isFlat ∧ right.isFlat := by simpa [isFlat] using flat
  obtain ⟨read, rest, spelled⟩ := operand.spelled flatRight
  refine ⟨flatLeft, s.head :: read, ?_, fun before first => ?_⟩
  · rw [Stream.rest_of_mark sign, rest]
    rfl
  · exact .binary first ⟨m, sign, BinaryOp.sign_of_ofMark? operator⟩ spelled

theorem AreItems.nil {close : Mark} (closing : s.head.kind = .mark close) : AreItems s close [] s.next :=
  ⟨trivial, fun _ => ⟨[], s.head, Stream.rest_of_mark closing, closing, .none⟩⟩

theorem AreItems.last {close : Mark} (item : e.IsLevel s least t) (closing : t.head.kind = .mark close) :
    AreItems s close [e] t.next := by
  refine ⟨⟨item.ordered, trivial⟩, fun flat => ?_⟩
  obtain ⟨read, rest, spelled⟩ := item.spelled (by simpa [areFlat] using flat)
  exact ⟨read, t.head, by rw [rest, Stream.rest_of_mark closing], closing, .last spelled⟩

theorem AreItems.comma {close : Mark} (item : e.IsLevel s least t) (separator : t.head.kind = .mark .comma)
    (others : AreItems t.next close es u) : AreItems s close (e :: es) u := by
  refine ⟨⟨item.ordered, others.ordered⟩, fun flat => ?_⟩
  obtain ⟨flatItem, flatOthers⟩ : e.isFlat ∧ areFlat es := by simpa [areFlat] using flat
  obtain ⟨xs, rest, spelled⟩ := item.spelled flatItem
  obtain ⟨ys, last, rest', closing, spelled'⟩ := others.spelled flatOthers
  refine ⟨xs ++ t.head :: ys, last, ?_, closing, .comma spelled (spells separator) spelled'⟩
  rw [rest, Stream.rest_of_mark separator, rest']
  simp

end Expr

end StackScript
