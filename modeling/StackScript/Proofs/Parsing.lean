import StackScript.Proofs.Precedence

/-!
Trees that are read from tokens. All operands fit their operators, and a tree of operators, calls and lists is spelled by
the very tokens that it was read from.
-/
namespace StackScript

namespace Parser

/-- What all parts of the parser give at a bound on their nesting. -/
structure Specs (n : Nat) : Prop where
  level : ∀ least s, 0 < least → (level n least).Gives s (Expr.IsLevel s least)
  operators : ∀ least left s, 0 < least → left.Ordered → left.Within least → left.Admits s.head.kind.binding →
    (operators n least left).Gives s (Expr.Extends s least left)
  operand : ∀ s, (operand n).Gives s (Expr.IsOperand s)
  unaryFrom : ∀ op start s, (unaryFrom n op start).Gives s fun e t =>
    ∃ inner, e = .unary op inner (start.merge inner.span) ∧ inner.IsLevel s Level.unary t
  lambdaFrom : ∀ ps start s, (lambdaFrom n ps start).Gives s fun e _ => e.Delimited
  condFrom : ∀ start s, (condFrom n start).Gives s fun e _ => e.Delimited
  block : ∀ s, (block n).Gives s fun e _ => e.Delimited
  blockFrom : ∀ start s, (blockFrom n start).Gives s fun e _ => e.Delimited
  exprs : ∀ close s, (exprs n close).Gives s (Expr.AreItems s close)
  sequence : ∀ close s, (sequence n close).Gives s fun p _ => Stmt.AllOrdered p.1 ∧ Expr.OptionOrdered p.2
  binding : ∀ s, (binding n).Gives s fun d _ => d.Ordered
  function : ∀ s, (function n).Gives s fun d _ => d.Ordered

section

variable {n : Nat} (ih : Specs n) {s : Stream}

include ih

theorem Specs.gives_level (least : Nat) (pos : 0 < least) :
    (Parser.level (n + 1) least).Gives s (Expr.IsLevel s least) := by
  rw [Parser.level]
  simp only [gives_bind]
  refine (ih.operand s).imp fun left t first => ?_
  have within : left.Within least := by
    -- an operand is no binary operation
    cases left with
    | binary => exact absurd rfl first.binary
    | _ => trivial
  refine (ih.operators least left t pos first.ordered within first.admits).imp fun e u more => ?_
  refine ⟨more.ordered, more.within, more.followed, fun flat => ?_⟩
  obtain ⟨flatLeft, read, rest, spelled⟩ := more.spelled flat
  obtain ⟨before, split, spelledLeft⟩ := first.spelled flatLeft
  exact ⟨before ++ read, by rw [split, rest, List.append_assoc], spelled before spelledLeft⟩

theorem Specs.gives_operators (least : Nat) (left : Expr) (pos : 0 < least) (ordered : left.Ordered)
    (within : left.Within least) (admits : left.Admits s.head.kind.binding) :
    (Parser.operators (n + 1) least left).Gives s (Expr.Extends s least left) := by
  rw [Parser.operators]
  simp only [gives_bind, gives_peek]
  have stop (low : s.head.kind.binding < least) : (pure left : Parser Expr).Gives s (Expr.Extends s least left) :=
    gives_pure.2 (.refl ordered within low)
  have postfixed {m : Mark} (sign : s.head.kind = .mark m) (binds : (Token.Kind.mark m).binding = Level.postfixes)
      {p : Parser Expr} (tight : ¬ left.isBinary → ¬ left.isUnary → p.Gives s (Expr.Extends s least left)) :
      (if Level.postfixes < least then pure left else p).Gives s (Expr.Extends s least left) := by
    have binding : s.head.kind.binding = Level.postfixes := by rw [sign, binds]
    -- an operation would have let its last operand take the postfix
    obtain ⟨binary, unary⟩ := (binding ▸ admits).not_operation
    exact gives_ite.2 ⟨fun low => stop (binding ▸ low), fun _ => tight binary unary⟩
  split
  · next opening =>
    refine postfixed opening rfl fun binary unary => ?_
    simp only [gives_bind, gives_advance, gives_upToLast]
    refine (ih.exprs .rightParen s.next).imp fun args t items => ?_
    have ordered' : (Expr.call left args (left.span.merge t.last)).Ordered := ⟨ordered, binary, unary, items.ordered⟩
    exact (ih.operators least _ t pos ordered' trivial trivial).imp fun e u more => .call opening items more
  · next opening =>
    refine postfixed opening rfl fun binary unary => ?_
    simp only [gives_bind, gives_advance, gives_expect, gives_upToLast]
    refine (ih.level Level.lowest s.next Nat.one_pos).imp fun position t inner closing => ?_
    have ordered' : (Expr.index left position (left.span.merge t.next.last)).Ordered :=
      ⟨ordered, binary, unary, inner.ordered⟩
    exact (ih.operators least _ t.next pos ordered' trivial trivial).imp fun e u more => .index opening inner closing more
  · next point =>
    refine postfixed point rfl fun binary unary => ?_
    simp only [gives_bind, gives_advance, gives_peek]
    split
    · next i number =>
      simp only [gives_bind, gives_advance]
      have ordered' : (Expr.field left i (left.span.merge s.next.head.span)).Ordered := ⟨ordered, binary, unary⟩
      exact (ih.operators least _ s.next.next pos ordered' trivial trivial).imp fun e u more => .field point number more
    · simp only [gives_bind, gives_last, gives_fail]
    · simp only [gives_unexpected]
  · next m noParen noBracket noDot sign =>
    cases operator : BinaryOp.ofMark? m with
    | none =>
      refine stop ?_
      have binding : s.head.kind.binding = 0 := by rw [sign, BinaryOp.binding_of_none operator noParen noBracket noDot]
      rwa [binding]
    | some op =>
      have binding : s.head.kind.binding = op.level := by rw [sign, BinaryOp.binding_of_ofMark? operator]
      dsimp only
      split
      · next low => exact stop (binding ▸ low)
      · next tight =>
        simp only [gives_bind, gives_advance]
        have pos' : 0 < op.rightLevel := Nat.lt_of_lt_of_le op.level_pos op.level_le_rightLevel
        refine (ih.level op.rightLevel s.next pos').imp fun right t operand => ?_
        -- no operand at the end of what is on the left could have taken the operator
        have fits : left.FitsLeft op := (binding ▸ admits).fitsLeft
        have ordered' : (Expr.binary op left right (left.span.merge right.span)).Ordered :=
          ⟨ordered, operand.ordered, fits, operand.within.fitsRight⟩
        exact (ih.operators least _ t pos ordered' (Nat.le_of_not_lt tight) operand.followed).imp
          fun e u more => .binary sign operator operand more
  · next noParen noBracket noDot noMark =>
    refine stop ?_
    have binding : s.head.kind.binding = 0 := by
      cases kind : s.head.kind with
      | mark m => exact absurd kind (noMark m)
      | _ => rfl
    rwa [binding]

theorem Specs.gives_operand : (Parser.operand (n + 1)).Gives s (Expr.IsOperand s) := by
  rw [Parser.operand]
  simp only [gives_bind, gives_peek]
  split
  · simp only [gives_bind, gives_fail]
  simp only [gives_bind, gives_advance]
  split
  · next v literal => exact gives_pure.2 (.literal (written_of_literal? literal))
  · simp only [gives_fail]
  have unary (op : UnaryOp) {m : Mark} (sign : s.head.kind = .mark m) (text : m.text = op.sign) :
      (Parser.unaryFrom n op s.head.span).Gives s.next (Expr.IsOperand s) := by
    refine (ih.unaryFrom op s.head.span s.next).imp ?_
    rintro _ t ⟨inner, rfl, operand⟩
    exact .unary sign text operand
  split
  · next name word => exact gives_pure.2 (.variable word)
  · next opening =>
    simp only [gives_bind, gives_accept, if_true, Bool.false_eq_true, if_false, gives_upToLast, gives_pure, gives_expect]
    refine ⟨fun closing => .unit opening closing, fun _ => ?_⟩
    refine (ih.level Level.lowest s.next Nat.one_pos).imp fun first t inner => ?_
    refine ⟨fun closing => .group opening inner closing, fun _ separator => ?_⟩
    exact (ih.exprs .rightParen t.next).imp fun items u others => .tuple opening inner separator others
  · next opening =>
    simp only [gives_bind, gives_upToLast, gives_pure]
    exact (ih.exprs .rightBracket s.next).imp fun items t others => .list opening others
  · exact (ih.blockFrom s.head.span s.next).imp fun e t block => block.isOperand
  · next minus =>
    simp only [gives_bind, gives_peek]
    split
    · next v literal =>
      simp only [gives_bind, gives_advance, gives_upToLast, gives_pure]
      exact .negative minus (negated_of_negatedLiteral? literal)
    · simp only [gives_fail]
    · exact unary .negate minus rfl
  · next bang => exact unary .not bang rfl
  · next tilde => exact unary .bitNot tilde rfl
  · simp only [gives_bind]
    exact .any fun ps t => (ih.lambdaFrom ps s.head.span t).imp fun e u lambda => lambda.isOperand
  · exact (ih.lambdaFrom [] s.head.span s.next).imp fun e t lambda => lambda.isOperand
  · simp only [gives_bind, gives_expect]
    exact fun _ => .any fun ps t => (ih.lambdaFrom ps s.head.span t).imp fun e u lambda => lambda.isOperand
  · exact (ih.condFrom s.head.span s.next).imp fun e t cond => cond.isOperand
  · simp only [gives_fail]

theorem Specs.gives_unaryFrom (op : UnaryOp) (start : Span) : (Parser.unaryFrom (n + 1) op start).Gives s fun e t =>
    ∃ inner, e = .unary op inner (start.merge inner.span) ∧ inner.IsLevel s Level.unary t := by
  rw [Parser.unaryFrom]
  simp only [gives_bind, gives_pure]
  exact (ih.level Level.unary s (by decide)).imp fun e t operand => ⟨e, rfl, operand⟩

theorem Specs.gives_lambdaFrom (ps : List Param) (start : Span) :
    (Parser.lambdaFrom (n + 1) ps start).Gives s fun e _ => e.Delimited := by
  rw [Parser.lambdaFrom]
  simp only [gives_bind, gives_pure]
  refine .any fun result? t => ?_
  exact (ih.level Level.lowest t Nat.one_pos).imp fun e u body => ⟨body.ordered, rfl, fun _ => trivial, Bool.false_ne_true⟩

theorem Specs.gives_condFrom (start : Span) : (Parser.condFrom (n + 1) start).Gives s fun e _ => e.Delimited := by
  rw [Parser.condFrom]
  simp only [gives_bind]
  refine (ih.level Level.lowest s Nat.one_pos).imp fun test t tested => ?_
  refine (ih.block t).imp fun yes u taken => ?_
  simp only [gives_acceptKeyword, if_true, Bool.false_eq_true, if_false, gives_bind, gives_here, gives_upToLast, gives_pure]
  have whole {span : Span} {no : Option Expr} (h : Expr.OptionOrdered no) : (Expr.cond test yes no span).Delimited :=
    ⟨⟨tested.ordered, taken.ordered, h⟩, rfl, fun _ => trivial, Bool.false_ne_true⟩
  refine ⟨fun _ => ⟨fun _ => ?_, fun _ => ?_⟩, fun _ => whole trivial⟩
  · exact (ih.condFrom _ _).imp fun no v other => whole other.ordered
  · exact (ih.block _).imp fun no v other => whole other.ordered

theorem Specs.gives_block : (Parser.block (n + 1)).Gives s fun e _ => e.Delimited := by
  rw [Parser.block]
  simp only [gives_bind, gives_expect]
  exact fun _ => ih.blockFrom s.head.span s.next

theorem Specs.gives_blockFrom (start : Span) : (Parser.blockFrom (n + 1) start).Gives s fun e _ => e.Delimited := by
  rw [Parser.blockFrom]
  simp only [gives_bind, gives_expect, gives_upToLast, gives_pure]
  refine (ih.sequence _ s).imp fun p t inner _ => ?_
  exact ⟨inner, rfl, fun _ => trivial, Bool.false_ne_true⟩

theorem Specs.gives_exprs (close : Mark) : (Parser.exprs (n + 1) close).Gives s (Expr.AreItems s close) := by
  rw [Parser.exprs]
  simp only [gives_bind, gives_accept, if_true, Bool.false_eq_true, if_false, gives_pure, gives_expect]
  refine ⟨fun closing => .nil closing, fun _ => ?_⟩
  refine (ih.level Level.lowest s Nat.one_pos).imp fun e t item => ?_
  refine ⟨fun separator => ?_, fun _ closing => .last item closing⟩
  exact (ih.exprs close t.next).imp fun es u others => .comma item separator others

theorem Specs.gives_sequence (close : Token.Kind) : (Parser.sequence (n + 1) close).Gives s fun p _ =>
    Stmt.AllOrdered p.1 ∧ Expr.OptionOrdered p.2 := by
  have more (d : Stmt) (ordered : d.Ordered) (t : Stream) : (Parser.sequence n close).Gives t fun p _ =>
      Stmt.AllOrdered (d :: p.1) ∧ Expr.OptionOrdered p.2 :=
    (ih.sequence close t).imp fun p u others => ⟨⟨ordered, others.1⟩, others.2⟩
  rw [Parser.sequence]
  simp only [gives_bind, gives_peek]
  split
  · exact gives_pure.2 ⟨trivial, trivial⟩
  split
  · simp only [gives_bind, gives_fail]
  simp only [gives_bind, gives_accept, if_true, Bool.false_eq_true, if_false]
  refine ⟨fun _ => ih.sequence close s.next, fun _ => ?_⟩
  split
  · simp only [gives_bind, gives_pure]
    exact (ih.binding s).imp fun d t ordered => more d ordered t
  simp only [gives_bind, gives_peekSecond]
  refine fun second _ => gives_ite.2 ⟨fun _ => ?_, fun _ => ?_⟩
  · simp only [gives_bind, gives_pure]
    exact (ih.function s).imp fun d t ordered => more d ordered t
  simp only [gives_bind, gives_accept, if_true, Bool.false_eq_true, if_false, gives_upToLast, gives_pure, gives_check]
  refine (ih.level Level.lowest s Nat.one_pos).imp fun e t read => ?_
  refine ⟨fun _ => more (.expr e _) read.ordered t.next, fun _ => ?_⟩
  split
  · exact gives_pure.2 ⟨trivial, read.ordered⟩
  split
  · simp only [gives_bind, gives_pure]
    exact more (.expr e e.span) read.ordered t
  · simp only [gives_unexpected]

theorem Specs.gives_binding : (Parser.binding (n + 1)).Gives s fun d _ => d.Ordered := by
  rw [Parser.binding]
  simp only [gives_bind, gives_expectKind, gives_expect, gives_upToLast, gives_pure]
  refine fun _ _ => .any fun name t => .any fun type? u _ => ?_
  exact (ih.level Level.lowest u.next Nat.one_pos).imp fun e v value _ => Expr.ordered_named value.ordered

theorem Specs.gives_function : (Parser.function (n + 1)).Gives s fun d _ => d.Ordered := by
  rw [Parser.function]
  simp only [gives_bind, gives_expectKind, gives_expect, gives_upToLast, gives_pure]
  refine fun _ _ => .any fun name t _ => .any fun ps u => .any fun result? v => ?_
  exact (ih.block v).imp fun body w inner => inner.ordered

end

/-- Whatever the bound, all parts of the parser give trees in order. -/
theorem specs : ∀ n, Specs n
  | 0 => by
    constructor <;> intros
    all_goals simp only [Parser.level, Parser.operators, Parser.operand, Parser.unaryFrom, Parser.lambdaFrom, Parser.condFrom,
      Parser.block, Parser.blockFrom, Parser.exprs, Parser.sequence, Parser.binding, Parser.function, gives_tooDeep]
  | n + 1 => {
      level := fun least s pos => (specs n).gives_level least pos
      operators := fun least left s pos ordered within admits => (specs n).gives_operators least left pos ordered within admits
      operand := fun s => (specs n).gives_operand
      unaryFrom := fun op start s => (specs n).gives_unaryFrom op start
      lambdaFrom := fun ps start s => (specs n).gives_lambdaFrom ps start
      condFrom := fun start s => (specs n).gives_condFrom start
      block := fun s => (specs n).gives_block
      blockFrom := fun start s => (specs n).gives_blockFrom start
      exprs := fun close s => (specs n).gives_exprs close
      sequence := fun close s => (specs n).gives_sequence close
      binding := fun s => (specs n).gives_binding
      function := fun s => (specs n).gives_function }

/-- Whatever is read as an expression is a tree in which all operands fit their operators, and the tokens that were read
spell it unless a lambda, a block or a conditional is in it. -/
theorem level_ordered {n : Nat} {s t : Stream} {e : Expr} (read : (Parser.level n Level.lowest).run s = .ok (e, t)) :
    e.Ordered ∧ (e.isFlat → ∃ tokens, s.rest = tokens ++ t.rest ∧ e.Spelled tokens) := by
  have level : e.IsLevel s Level.lowest t := (specs n).level Level.lowest s Nat.one_pos e t read
  exact ⟨level.ordered, level.spelled⟩

/-- `1 + 2 ** -3` is read as one tree: the power operator binds tighter, and the minus sign belongs to its number. -/
theorem level_ordered_power :
    let tokens : List Token := [⟨.int 1, ⟨0, 1, 1, 1⟩⟩, ⟨.mark .plus, ⟨2, 3, 1, 3⟩⟩, ⟨.int 2, ⟨4, 5, 1, 5⟩⟩,
      ⟨.mark .starStar, ⟨6, 8, 1, 7⟩⟩, ⟨.mark .minus, ⟨9, 10, 1, 10⟩⟩, ⟨.int 3, ⟨10, 11, 1, 11⟩⟩, ⟨.endOfInput, ⟨11, 11, 1, 12⟩⟩]
    let power : Expr := .binary (.arith .exp) (.literal (.int32 2) ⟨4, 5, 1, 5⟩) (.literal (.int32 (-3)) ⟨9, 11, 1, 10⟩)
      ⟨4, 11, 1, 5⟩
    let sum : Expr := .binary (.arith .add) (.literal (.int32 1) ⟨0, 1, 1, 1⟩) power ⟨0, 11, 1, 1⟩
    let left : Stream := ⟨[⟨.endOfInput, ⟨11, 11, 1, 12⟩⟩], ⟨10, 11, 1, 11⟩⟩
    (Parser.level (Program.nesting tokens) Level.lowest).run ⟨tokens, {}⟩ = .ok (sum, left) ∧
      sum.Ordered ∧ (sum.isFlat → ∃ read, tokens = read ++ left.rest ∧ sum.Spelled read) := by
  intro tokens power sum left
  have read : (Parser.level (Program.nesting tokens) Level.lowest).run ⟨tokens, {}⟩ = .ok (sum, left) := rfl
  exact ⟨read, level_ordered read⟩

end Parser

/-- In a whole program, too, all operands fit their operators. -/
theorem Program.ordered_of_ofTokens {tokens : List Token} {p : Program} (h : ofTokens tokens = .ok p) :
    Stmt.AllOrdered p.statements ∧ Expr.OptionOrdered p.value := by
  cases read : (Parser.sequence (nesting tokens) .endOfInput).run ⟨tokens, {}⟩ with
  | error e =>
    rw [ofTokens, read] at h
    cases h
  | ok r =>
    rw [ofTokens, read] at h
    cases h
    exact (Parser.specs _).sequence .endOfInput _ r.1 r.2 read

end StackScript
