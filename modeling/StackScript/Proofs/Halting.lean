import StackScript.Proofs.Following

/-!
The parser is total. On every vector of tokens whose only end of input is its last token, reading by index ends: the index
never goes back, no access is outside the vector, and the outcome is that of the parser, whose bound on nesting is never
reached. Nor does it depend on how deep calls may be nested, if that is deep enough for the tokens.
-/
namespace StackScript

namespace Walk

/-! ### Types and parameters -/

/-- What the parts that read types do where the bound on their nesting lasts for the tokens that are left. A token takes 8 of
the bound; what is added to that are the calls that may be made before the next one is consumed. -/
structure TypesEnd (v : TokenVector) (n m : Nat) : Prop where
  type : ∀ i, 8 * (v.length - i) + 1 ≤ n → Ends v (parse m .type) i ((Parser.type n).run (v.after i)) (i < ·)
  types : ∀ close i, 8 * (v.length - i) + 3 ≤ n →
    Ends v (parse m (.types (.mark close))) i ((Parser.types n close).run (v.after i)) fun _ => True
  moreTypes : ∀ close i, 8 * (v.length - i) + 2 ≤ n → Ends v (do
    let ts ← parse m .moreTypes
    let _ ← Walk.expect (.mark close)
    return ts) i ((Parser.moreTypes n close).run (v.after i)) fun _ => True

section

variable {v : TokenVector} {n m i : Nat} (ih : TypesEnd v n m)

include ih

theorem TypesEnd.type_ends (enough : 8 * (v.length - i) + 1 ≤ n + 1) :
    Ends v (parse (m + 1) .type) i ((Parser.type (n + 1)).run (v.after i)) (i < ·) := by
  rw [parse_succ, step, Parser.type]
  refine .here (.accept (fun _ _ => ?_) fun _ => .accept (fun _ _ => ?_) fun _ => .acceptKeyword (fun _ _ => ?_) fun _ => ?_)
  · refine .bind (ih.type _ (by omega)) fun elem j _ _ _ => .expect fun _ _ => .upToLast (by omega) (.pure (by omega))
  · refine .bind (ih.types _ _ (by omega)) fun items j _ _ _ => .seen (.lastSpan (by omega)) (Nat.le_refl j) ?_
    rcases items with - | ⟨only, - | ⟨second, others⟩⟩
    · exact .pure (by omega)
    · exact .pure (by omega)
    · exact .pure (by omega)
  · refine .expect fun _ _ => .bind (ih.types _ _ (by omega)) fun params j _ _ _ => .expect fun _ _ => ?_
    refine .bind (ih.type _ (by omega)) fun result k _ _ _ => .upToLast (by omega) (.pure (by omega))
  · refine .peek ?_
    cases word : (v.head i).kind with
    | name name => exact .advance (by rw [word]; nofun) fun _ => .pure (by omega)
    | _ => exact .unexpected

theorem TypesEnd.types_ends (close : Mark) (enough : 8 * (v.length - i) + 3 ≤ n + 1) :
    Ends v (parse (m + 1) (.types (.mark close))) i ((Parser.types (n + 1) close).run (v.after i)) fun _ => True := by
  rw [parse_succ, step, Parser.types]
  simp only [pure_bind]
  exact .close (fun _ _ => trivial) (ih.moreTypes close i (by omega))

theorem TypesEnd.moreTypes_ends (close : Mark) (enough : 8 * (v.length - i) + 2 ≤ n + 1) : Ends v (do
    let ts ← parse (m + 1) .moreTypes
    let _ ← Walk.expect (.mark close)
    return ts) i ((Parser.moreTypes (n + 1) close).run (v.after i)) fun _ => True := by
  rw [parse_succ, step, Parser.moreTypes]
  simp only [bind_assoc, ite_bind, pure_bind]
  -- the closing mark is read by the caller here, and by the part itself in the parser
  refine .bind (ih.type _ (by omega)) fun t j _ _ _ => .accept (fun _ _ => ?_) fun _ => .expect fun _ _ => .pure trivial
  simpa only [bind_assoc, pure_bind] using (ih.moreTypes close (j + 1) (by omega)).map (h := (t :: ·))

end

section

variable {v : TokenVector}

theorem typesEnd : ∀ {n m : Nat}, n ≤ m → TypesEnd v n m
  -- every part takes some of the bound before it reads a token, so that there is nothing to show at 0
  | 0, _, _ => by constructor <;> intros <;> omega
  | _ + 1, 0, deep => absurd deep (Nat.not_succ_le_zero _)
  | _ + 1, _ + 1, deep =>
    have ih := typesEnd (Nat.le_of_succ_le_succ deep)
    { type := fun _ enough => ih.type_ends enough
      types := fun close _ enough => ih.types_ends close enough
      moreTypes := fun close _ enough => ih.moreTypes_ends close enough }

theorem typeAfter_ends {n m i : Nat} (lead : Mark) (deep : n ≤ m) (enough : 8 * (v.length - i) ≤ n) :
    Ends v (Walk.typeAfter (parse m) (.mark lead)) i ((Parser.typeAfter n lead).run (v.after i)) fun _ => True := by
  rw [Walk.typeAfter, Parser.typeAfter]
  refine .accept (fun _ _ => ?_) fun _ => .pure trivial
  exact ((typesEnd deep).type (i + 1) (by omega)).map.imp fun _ _ _ _ => trivial

theorem moreParams_ends : ∀ {n m : Nat} (close : Mark) (i : Nat), n ≤ m → 8 * (v.length - i) + 2 ≤ n → Ends v (do
    let ps ← parse m .moreParams
    let _ ← Walk.expect (.mark close)
    return ps) i ((Parser.moreParams n close).run (v.after i)) fun _ => True
  | 0, _, _, _, _, enough => by omega
  | _ + 1, 0, _, _, deep, _ => by omega
  | n + 1, m + 1, close, i, deep, enough => by
    rw [parse_succ, step, Parser.moreParams]
    simp only [bind_assoc, ite_bind, pure_bind]
    refine .here (.expectName fun name _ _ => ?_)
    refine .bind (typeAfter_ends .colon (m := m) (by omega) (by omega)) fun type? j _ _ _ => .upToLast (by omega) ?_
    refine .accept (fun _ _ => ?_) fun _ => .expect fun _ _ => .pure trivial
    have others := moreParams_ends (n := n) (m := m) close (j + 1) (by omega) (by omega)
    simpa only [bind_assoc, pure_bind] using others.map (h := (_ :: ·))

theorem params_ends {n m i : Nat} (close : Mark) (deep : n ≤ m) (enough : 8 * (v.length - i) + 2 ≤ n) :
    Ends v (Walk.params (parse m) (.mark close)) i ((Parser.params n close).run (v.after i)) fun _ => True := by
  rw [Walk.params, Parser.params]
  simp only [pure_bind]
  exact .close (fun _ _ => trivial) (moreParams_ends close i deep enough)

end

/-! ### Expressions and statements -/

section

variable {v : TokenVector} {m i least : Nat} {left : Expr}

/-- A literal can only fail by its range. -/
theorem error_of_literal? {k : Token.Kind} {s : Span} {e : ParseError} (h : Parser.literal? k s = some (.error e)) :
    ∃ digits, e = .literalOutOfRange digits s := by
  cases k with
  | int n =>
    cases hv : Parser.int32? false n with
    | none =>
      rw [Parser.literal?, hv] at h
      cases h
      exact ⟨_, rfl⟩
    | some w =>
      rw [Parser.literal?, hv] at h
      cases h
  | _ => cases h

theorem error_of_negatedLiteral? {k : Token.Kind} {s : Span} {e : ParseError}
    (h : Parser.negatedLiteral? k s = some (.error e)) : ∃ digits, e = .literalOutOfRange digits s := by
  cases k with
  | int n =>
    cases hv : Parser.int32? true n with
    | none =>
      rw [Parser.negatedLiteral?, hv] at h
      cases h
      exact ⟨_, rfl⟩
    | some w =>
      rw [Parser.negatedLiteral?, hv] at h
      cases h
  | _ => cases h

theorem live_of_negatedLiteral? {k : Token.Kind} {s : Span} {result : Except ParseError Literal}
    (h : Parser.negatedLiteral? k s = some result) : k ≠ .endOfInput := by
  rintro rfl
  cases h

theorem exprs_nil {n : Nat} {close : Mark} {s : Stream} (pos : 0 < n) (closing : s.head.kind = .mark close) :
    (Parser.exprs n close).run s = .ok ([], s.next) := by
  obtain ⟨n, rfl⟩ := Nat.exists_eq_add_one_of_ne_zero (Nat.ne_of_gt pos)
  have accepts : Ends.Accepts (Parser.accept close) (.mark close) := Ends.accepts rfl nofun
  rw [Parser.exprs, StateT.run_bind, accepts.2, if_pos closing]
  rfl

theorem operation_binary {binding : Nat} {token : Token} {mark : Mark} {op : BinaryOp} (sign : token.kind = .mark mark)
    (operator : BinaryOp.ofMark? mark = some op) : parse (m + 1) (.operation left binding token) = do
      let right ← parse m (.level (if op = .arith .exp then binding else binding + 1))
      return .binary op left right (left.span.merge right.span) := by
  rw [parse_succ, step, sign]
  cases mark <;> cases operator <;> rfl

/-- What follows does not bind tight enough. -/
theorem Ends.stays (low : (v.head i).kind.binding = 0 ∨ (v.head i).kind.binding < least) :
    Ends v (parse (m + 1) (.operators least left)) i ((Pure.pure left : Parser Expr).run (v.after i)) fun _ => True := by
  rw [parse_succ, step]
  refine .atEnd (fun _ => .pure trivial) fun _ => .seen .peek (Nat.le_refl i) ?_
  rw [if_pos low]
  exact .pure trivial

/-- An operator that binds tight enough is read. -/
theorem Ends.goes {f : Unit → Parser Expr} {ok : Nat → Prop}
    (tight : ¬ ((v.head i).kind.binding = 0 ∨ (v.head i).kind.binding < least))
    (h : i + 1 < v.length → Ends v (do
        let e ← parse m (.operation left (v.head i).kind.binding (v.head i))
        parse m (.operators least e)) (i + 1) ((f ()).run (v.after (i + 1))) ok) :
    Ends v (parse (m + 1) (.operators least left)) i ((Parser.advance >>= f).run (v.after i)) ok := by
  rw [parse_succ, step]
  refine .atEnd (fun ended => absurd (.inl (by rw [ended]; rfl)) tight) fun live => .seen .peek (Nat.le_refl i) ?_
  rw [if_neg tight]
  exact .advance live h

end

/-- What the parts of the parser do where the bound on their nesting lasts for the tokens that are left. Every expression and
statement takes a token at least. -/
structure PartsEnd (v : TokenVector) (n m : Nat) : Prop where
  level : ∀ least i, 8 * (v.length - i) + 2 ≤ n →
    Ends v (parse m (.level least)) i ((Parser.level n least).run (v.after i)) (i < ·)
  operators : ∀ least left i, 0 < i → 8 * (v.length - i) + 1 ≤ n →
    Ends v (parse m (.operators least left)) i ((Parser.operators n least left).run (v.after i)) fun _ => True
  operand : ∀ i, 8 * (v.length - i) + 1 ≤ n → Ends v (parse m .operand) i ((Parser.operand n).run (v.after i)) (i < ·)
  unaryFrom : ∀ op start i, 8 * (v.length - i) + 3 ≤ n →
    Ends v (parse m (.unaryFrom op start)) i ((Parser.unaryFrom n op start).run (v.after i)) fun _ => True
  lambdaFrom : ∀ ps start i, 8 * (v.length - i) + 3 ≤ n →
    Ends v (parse m (.lambdaFrom ps start)) i ((Parser.lambdaFrom n ps start).run (v.after i)) fun _ => True
  condFrom : ∀ start i, 8 * (v.length - i) + 3 ≤ n →
    Ends v (parse m (.condFrom start)) i ((Parser.condFrom n start).run (v.after i)) fun _ => True
  block : ∀ i, 8 * (v.length - i) + 1 ≤ n → Ends v (parse m .block) i ((Parser.block n).run (v.after i)) (i < ·)
  blockFrom : ∀ start i, 8 * (v.length - i) + 4 ≤ n →
    Ends v (parse m (.blockFrom start)) i ((Parser.blockFrom n start).run (v.after i)) fun _ => True
  exprs : ∀ close i, 8 * (v.length - i) + 3 ≤ n →
    Ends v (parse m (.exprs (.mark close))) i ((Parser.exprs n close).run (v.after i)) fun _ => True
  sequence : ∀ close i, 8 * (v.length - i) + 3 ≤ n →
    Ends v (parse m (.sequence close)) i ((Parser.sequence n close).run (v.after i)) fun j => (v.head j).kind = close
  binding : ∀ i, 8 * (v.length - i) + 1 ≤ n → Ends v (parse m .binding) i ((Parser.binding n).run (v.after i)) (i < ·)
  function : ∀ i, 8 * (v.length - i) + 1 ≤ n → Ends v (parse m .function) i ((Parser.function n).run (v.after i)) (i < ·)

section

variable {v : TokenVector} {n m i : Nat} (ih : PartsEnd v n (m + 1))

include ih

theorem PartsEnd.level_ends (least : Nat) (enough : 8 * (v.length - i) + 2 ≤ n + 1) :
    Ends v (parse (m + 2) (.level least)) i ((Parser.level (n + 1) least).run (v.after i)) (i < ·) := by
  rw [parse_succ, step, Parser.level]
  refine .bind (ih.operand i (by omega)) fun left j _ _ _ => ?_
  exact (ih.operators least left j (by omega) (by omega)).imp fun _ _ _ _ => by omega

theorem PartsEnd.operators_ends (inner : PartsEnd v n m) (least : Nat) (left : Expr) (pos : 0 < i)
    (enough : 8 * (v.length - i) + 1 ≤ n + 1) : Ends v (parse (m + 2) (.operators least left)) i
      ((Parser.operators (n + 1) least left).run (v.after i)) fun _ => True := by
  rw [Parser.operators]
  refine .peeked ?_
  -- the parser asks for the form first and then how tight it binds, by index it is the other way
  have postfixed (binds : (v.head i).kind.binding = Level.postfixes) :
      (v.head i).kind.binding = 0 ∨ (v.head i).kind.binding < least ↔ Level.postfixes < least := by
    rw [binds]
    exact or_iff_right (by decide)
  split
  · next opening =>
    have binds := postfixed (by rw [opening]; rfl)
    split
    · next low => exact .stays (binds.2 low)
    refine .goes (mt binds.1 ‹_›) fun _ => ?_
    rw [parse_succ, step, opening]
    simp only [bind_assoc, pure_bind]
    refine .bind (inner.exprs .rightParen (i + 1) (by omega)) fun args j _ _ _ => .upToLast (by omega) ?_
    exact ih.operators least _ j (by omega) (by omega)
  · next opening =>
    have binds := postfixed (by rw [opening]; rfl)
    split
    · next low => exact .stays (binds.2 low)
    refine .goes (mt binds.1 ‹_›) fun _ => ?_
    rw [parse_succ, step, opening]
    simp only [bind_assoc, pure_bind]
    refine .bind (inner.level Level.lowest (i + 1) (by omega)) fun position j _ _ _ => .expect fun _ _ => .upToLast (by omega) ?_
    exact ih.operators least _ (j + 1) (by omega) (by omega)
  · next point =>
    have binds := postfixed (by rw [point]; rfl)
    split
    · next low => exact .stays (binds.2 low)
    refine .goes (mt binds.1 ‹_›) fun _ => ?_
    rw [parse_succ, step, point]
    simp only [bind_assoc]
    refine .peeked ?_
    cases number : (v.head (i + 1)).kind with
    | int k =>
      refine .advance (by rw [number]; nofun) fun _ => ?_
      rw [number]
      exact ih.operators least _ (i + 2) (by omega) (by omega)
    | endOfInput =>
      -- the token that is given once more is the dot
      refine .seen (.advance_end number) (Nat.le_refl _) ?_
      change Ends v _ _ (.error (.unexpectedToken _ _ (v.after (i + 1)).last)) _
      rw [point, v.last_after (by omega)]
      exact .bind_error (.stop nofun)
    | _ =>
      refine .seen (.advance (by rw [number]; nofun)) (Nat.le_succ _) ?_
      change Ends v _ _ (.error (.unexpectedToken _ (v.head (i + 1)).kind.text _)) _
      rw [number]
      exact .bind_error (.stop nofun)
  · next m noParen noBracket noDot sign =>
    cases operator : BinaryOp.ofMark? m with
    | none => exact .stays (.inl (by rw [sign, BinaryOp.binding_of_none operator noParen noBracket noDot]))
    | some op =>
      have binds : (v.head i).kind.binding = op.level := by rw [sign, BinaryOp.binding_of_ofMark? operator]
      have tight : (v.head i).kind.binding = 0 ∨ (v.head i).kind.binding < least ↔ op.level < least := by
        rw [binds]
        exact or_iff_right (Nat.ne_of_gt op.level_pos)
      dsimp only
      split
      · next low => exact .stays (tight.2 low)
      refine .goes (mt tight.1 ‹_›) fun _ => ?_
      rw [operation_binary sign operator, binds]
      simp only [bind_assoc, pure_bind]
      refine .bind (inner.level op.rightLevel (i + 1) (by omega)) fun right j _ _ _ => ?_
      exact ih.operators least _ j (by omega) (by omega)
  · next noParen noBracket noDot noMark =>
    refine .stays (.inl ?_)
    cases kind : (v.head i).kind with
    | mark m => exact absurd kind (noMark m)
    | _ => rfl

theorem PartsEnd.operand_ends (inner : PartsEnd v n m) (deep : n ≤ m) (enough : 8 * (v.length - i) + 1 ≤ n + 1) :
    Ends v (parse (m + 2) .operand) i ((Parser.operand (n + 1)).run (v.after i)) (i < ·) := by
  rw [parse_succ, step, Parser.operand]
  refine .peeked (.atEnd (fun ended => ?_) fun live => ?_)
  · dsimp only
    rw [if_pos ended]
    exact .cut
  dsimp only
  rw [if_neg live]
  refine .advance live fun more => ?_
  cases literal : Parser.literal? (v.head i).kind (v.head i).span with
  | some result =>
    cases result with
    | ok a => exact .pure (by omega)
    | error e =>
      obtain ⟨digits, rfl⟩ := error_of_literal? literal
      exact .stop nofun
  | none =>
  dsimp only
  cases word : (v.head i).kind with
  | name name => exact .pure (by omega)
  | mark m =>
    cases m with
    | leftParen =>
      dsimp only
      rw [parse_succ, step]
      refine .accept (fun _ _ => .upToLast (by omega) (.pure (by omega))) fun _ => ?_
      refine .bind (inner.level Level.lowest (i + 1) (by omega)) fun first j within _ _ => ?_
      refine .accept (fun _ _ => .upToLast (by omega) (.pure (by omega))) fun _ => .expect fun _ more => ?_
      refine .check (fun closing => ?_) fun _ => ?_
      -- the mark that closes after a comma is consumed here, where the parser reads a list without items
      · have live : (v.head (j + 1)).kind ≠ .endOfInput := by rw [closing]; nofun
        rw [StateT.run_bind, exprs_nil (by omega) closing, v.next_after more live]
        exact .seen (.advance live) (Nat.le_succ _) (.seen (.lastSpan (by omega)) (Nat.le_refl _) (.pure (by omega)))
      · exact .bind (inner.exprs .rightParen (j + 1) (by omega)) fun items k _ _ _ => .upToLast (by omega) (.pure (by omega))
    | leftBracket =>
      exact .bind (ih.exprs .rightBracket (i + 1) (by omega)) fun items j _ _ _ => .upToLast (by omega) (.pure (by omega))
    | leftBrace => exact (ih.blockFrom _ (i + 1) (by omega)).imp fun _ _ _ _ => by omega
    | minus =>
      refine .peek ?_
      cases negated : Parser.negatedLiteral? (v.head (i + 1)).kind (v.head i).span with
      | some result =>
        cases result with
        | ok a =>
          refine .advance (live_of_negatedLiteral? negated) fun _ => .upToLast (by omega) (.pure (by omega))
        | error e =>
          obtain ⟨digits, rfl⟩ := error_of_negatedLiteral? negated
          exact .stop nofun
      | none => exact (ih.unaryFrom .negate _ (i + 1) (by omega)).imp fun _ _ _ _ => by omega
    | bang => exact (ih.unaryFrom .not _ (i + 1) (by omega)).imp fun _ _ _ _ => by omega
    | tilde => exact (ih.unaryFrom .bitNot _ (i + 1) (by omega)).imp fun _ _ _ _ => by omega
    | pipe =>
      refine .bind (params_ends .pipe (by omega) (by omega)) fun ps j _ _ _ => ?_
      exact (ih.lambdaFrom ps _ j (by omega)).imp fun _ _ _ _ => by omega
    | pipePipe => exact (ih.lambdaFrom [] _ (i + 1) (by omega)).imp fun _ _ _ _ => by omega
    | _ => exact .stop nofun
  | keyword k =>
    cases k with
    | fn =>
      refine .expect fun _ _ => .bind (params_ends .rightParen (by omega) (by omega)) fun ps j _ _ _ => ?_
      exact (ih.lambdaFrom ps _ j (by omega)).imp fun _ _ _ _ => by omega
    | if_ => exact (ih.condFrom _ (i + 1) (by omega)).imp fun _ _ _ _ => by omega
    | _ => exact .stop nofun
  | _ => exact .stop nofun

theorem PartsEnd.unaryFrom_ends (op : UnaryOp) (start : Span) (enough : 8 * (v.length - i) + 3 ≤ n + 1) :
    Ends v (parse (m + 2) (.unaryFrom op start)) i ((Parser.unaryFrom (n + 1) op start).run (v.after i)) fun _ => True := by
  rw [parse_succ, step, Parser.unaryFrom]
  exact .bind (ih.level Level.unary i (by omega)) fun e j _ _ _ => .pure trivial

theorem PartsEnd.lambdaFrom_ends (deep : n ≤ m) (ps : List Param) (start : Span) (enough : 8 * (v.length - i) + 3 ≤ n + 1) :
    Ends v (parse (m + 2) (.lambdaFrom ps start)) i ((Parser.lambdaFrom (n + 1) ps start).run (v.after i)) fun _ => True := by
  rw [parse_succ, step, Parser.lambdaFrom]
  refine .bind (typeAfter_ends .arrow (by omega) (by omega)) fun result? j _ _ _ => ?_
  exact .bind (ih.level Level.lowest j (by omega)) fun body k _ _ _ => .pure trivial

theorem PartsEnd.condFrom_ends (start : Span) (enough : 8 * (v.length - i) + 3 ≤ n + 1) :
    Ends v (parse (m + 2) (.condFrom start)) i ((Parser.condFrom (n + 1) start).run (v.after i)) fun _ => True := by
  rw [parse_succ, step, Parser.condFrom]
  refine .bind (ih.level Level.lowest i (by omega)) fun test j _ _ _ => ?_
  refine .bind (ih.block j (by omega)) fun yes k _ _ _ => ?_
  refine .acceptKeyword (fun _ _ => .hereSeen (.again (fun _ _ => ?_) fun _ => ?_)) fun _ => .upToLast (by omega) (.pure trivial)
  · exact .bind (ih.condFrom _ (k + 2) (by omega)) fun no l _ _ _ => .upToLast (by omega) (.pure trivial)
  · exact .bind (ih.block (k + 1) (by omega)) fun no l _ _ _ => .upToLast (by omega) (.pure trivial)

theorem PartsEnd.block_ends (enough : 8 * (v.length - i) + 1 ≤ n + 1) :
    Ends v (parse (m + 2) .block) i ((Parser.block (n + 1)).run (v.after i)) (i < ·) := by
  rw [parse_succ, step, Parser.block]
  refine .expect fun _ _ => ?_
  exact (ih.blockFrom (v.head i).span (i + 1) (by omega)).imp fun _ _ _ _ => by omega

theorem PartsEnd.blockFrom_ends (start : Span) (enough : 8 * (v.length - i) + 4 ≤ n + 1) :
    Ends v (parse (m + 2) (.blockFrom start)) i ((Parser.blockFrom (n + 1) start).run (v.after i)) fun _ => True := by
  rw [parse_succ, step, Parser.blockFrom]
  refine .bind (ih.sequence _ i (by omega)) fun p j _ _ _ => ?_
  exact .expect fun _ _ => .upToLast (by omega) (.pure trivial)

theorem PartsEnd.exprs_ends (inner : PartsEnd v n m) (close : Mark) (enough : 8 * (v.length - i) + 3 ≤ n + 1) :
    Ends v (parse (m + 2) (.exprs (.mark close))) i ((Parser.exprs (n + 1) close).run (v.after i)) fun _ => True := by
  rw [parse_succ, step, Parser.exprs]
  simp only [pure_bind]
  refine .close (fun _ _ => trivial) ?_
  rw [parse_succ, step]
  simp only [bind_assoc, ite_bind, pure_bind]
  refine .bind (inner.level Level.lowest i (by omega)) fun e j _ _ _ => ?_
  refine .accept (fun _ _ => ?_) fun _ => .expect fun _ _ => .pure trivial
  -- behind a comma the items go on as a list of their own, which is opened for its part after the mark that closes it
  have rest := (ih.exprs close (j + 1) (by omega)).map (h := (e :: ·))
  rw [parse_succ, step] at rest
  simpa only [bind_assoc, ite_bind, pure_bind] using rest

theorem PartsEnd.sequence_ends (close : Token.Kind) (enough : 8 * (v.length - i) + 3 ≤ n + 1) :
    Ends v (parse (m + 2) (.sequence close)) i ((Parser.sequence (n + 1) close).run (v.after i)) fun j =>
      (v.head j).kind = close := by
  rw [parse_succ, step, Parser.sequence]
  refine .peeked ?_
  dsimp only
  refine .check (fun ended => ?_) fun other => ?_
  · rw [if_pos ended]
    exact .pure ended
  rw [if_neg other]
  refine .atEnd (fun ended => ?_) fun live => ?_
  · rw [if_pos ended]
    exact .cut
  rw [if_neg live]
  refine .accept (fun _ _ => ih.sequence close (i + 1) (by omega)) fun _ => .check (fun word => ?_) fun noLet => ?_
  · rw [if_pos word]
    refine .bind (ih.binding i (by omega)) fun d j _ _ _ => ?_
    exact .bind (ih.sequence close j (by omega)) fun p k _ _ closed => .pure closed
  rw [if_neg noLet]
  simp only [pure_bind]
  refine .declares live ?_ ?_
  · refine .bind (ih.function i (by omega)) fun d j _ _ _ => ?_
    exact .bind (ih.sequence close j (by omega)) fun p k _ _ closed => .pure closed
  refine .bind (ih.level Level.lowest i (by omega)) fun e j _ _ _ => ?_
  refine .accept (fun _ _ => .upToLast (by omega) ?_) fun _ => ?_
  · exact .bind (ih.sequence close (j + 1) (by omega)) fun p k _ _ closed => .pure closed
  refine .checked (fun ended => .pure ended) fun _ => ?_
  split
  · exact .bind (ih.sequence close j (by omega)) fun p k _ _ closed => .pure closed
  · exact .seen .currentSpan (Nat.le_refl j) .unexpected

theorem PartsEnd.binding_ends (deep : n ≤ m) (enough : 8 * (v.length - i) + 1 ≤ n + 1) :
    Ends v (parse (m + 2) .binding) i ((Parser.binding (n + 1)).run (v.after i)) (i < ·) := by
  rw [parse_succ, step, Parser.binding]
  refine .expectKind nofun fun _ _ => .expectName fun name _ _ => ?_
  refine .bind (typeAfter_ends .colon (by omega) (by omega)) fun type? j _ _ _ => .expect fun _ _ => ?_
  refine .bind (ih.level Level.lowest (j + 1) (by omega)) fun value k _ _ _ => .expect fun _ _ => ?_
  exact .upToLast (by omega) (.pure (by omega))

theorem PartsEnd.function_ends (deep : n ≤ m) (enough : 8 * (v.length - i) + 1 ≤ n + 1) :
    Ends v (parse (m + 2) .function) i ((Parser.function (n + 1)).run (v.after i)) (i < ·) := by
  rw [parse_succ, step, Parser.function]
  refine .expectKind nofun fun _ _ => .expectName fun name _ _ => .expect fun _ _ => ?_
  refine .bind (params_ends .rightParen (by omega) (by omega)) fun ps j _ _ _ => ?_
  refine .bind (typeAfter_ends .arrow (by omega) (by omega)) fun result? k _ _ _ => ?_
  refine .bind (ih.block k (by omega)) fun body l _ _ _ => ?_
  exact .upToLast (by omega) (.pure (by omega))

end

/-- Two calls by index may take the place of one call of the parser. -/
theorem partsEnd (v : TokenVector) : ∀ {n m : Nat}, 2 * n ≤ m → PartsEnd v n m
  | 0, _, _ => by constructor <;> intros <;> omega
  | _ + 1, 0, deep | _ + 1, 1, deep => by omega
  | n + 1, m + 2, deep =>
    have inner : PartsEnd v n m := partsEnd v (by omega)
    have ih : PartsEnd v n (m + 1) := partsEnd v (by omega)
    have enough : n ≤ m := by omega
    { level := fun least _ => ih.level_ends least
      operators := fun least left _ => ih.operators_ends inner least left
      operand := fun _ => ih.operand_ends inner enough
      unaryFrom := fun op start _ => ih.unaryFrom_ends op start
      lambdaFrom := fun ps start _ => ih.lambdaFrom_ends enough ps start
      condFrom := fun start _ => ih.condFrom_ends start
      block := fun _ => ih.block_ends
      blockFrom := fun start _ => ih.blockFrom_ends start
      exprs := fun close _ => ih.exprs_ends inner close
      sequence := fun close _ => ih.sequence_ends close
      binding := fun _ => ih.binding_ends enough
      function := fun _ => ih.function_ends enough }

/-! ### Depth -/

section

variable {α β : Type}

/-- Where the first part comes to an outcome, the other comes to the same one. -/
def Below (q q' : Walk α) : Prop := ∀ tokens track r, q.run tokens track = some r → q'.run tokens track = some r

theorem Below.refl (q : Walk α) : Below q q := fun _ _ _ h => h

theorem Below.trans {q q' q'' : Walk α} (h : Below q q') (h' : Below q' q'') : Below q q'' :=
  fun tokens track r run => h' tokens track r (h tokens track r run)

theorem Below.bind {q q' : Walk α} {g g' : α → Walk β} (h : Below q q') (h' : ∀ a, Below (g a) (g' a)) :
    Below (q >>= g) (q' >>= g') := by
  intro tokens track r run
  rw [run_bind] at run ⊢
  cases first : q.run tokens track with
  | none =>
    rw [first] at run
    cases run
  | some r' =>
    rw [first] at run
    rw [h tokens track r' first]
    obtain ⟨e | a, track'⟩ := r'
    · exact run
    · exact h' a tokens track' r run

theorem Below.ite {c : Prop} [Decidable c] {x x' y y' : Walk α} (h : Below x x') (h' : Below y y') :
    Below (if c then x else y) (if c then x' else y') := by
  split
  · exact h
  · exact h'

end

section

variable {p p' : ∀ call : Call, Walk call.Result} (h : ∀ call, Below (p call) (p' call))

include h

theorem typeAfter_below (k : Token.Kind) : Below (typeAfter p k) (typeAfter p' k) :=
  .bind (.refl _) fun _ => .ite (.bind (h _) fun _ => .refl _) (.refl _)

theorem params_below (close : Token.Kind) : Below (params p close) (params p' close) :=
  .bind (.refl _) fun _ => .ite (.refl _) (.bind (h _) fun _ => .refl _)

theorem step_below (call : Call) : Below (step p call) (step p' call) := by
  cases call
  all_goals
    rw [step, step]
    -- there is one rule for each form that a part may have
    repeat' first
      | with_reducible exact .refl _
      | with_reducible exact h _
      | with_reducible exact typeAfter_below h _
      | with_reducible exact params_below h _
      | with_reducible refine .bind ?_ fun _ => ?_
      | with_reducible refine .ite ?_ ?_
      | split
      | dsimp only

end

theorem parse_below (n : Nat) : ∀ call : Call, Below (parse n call) (parse (n + 1) call) := by
  induction n with
  | zero =>
    intro call tokens track r run
    cases run
  | succ n ih => exact step_below ih

theorem program_below {n m : Nat} (h : n ≤ m) : Below (program n) (program m) := by
  induction h with
  | refl => exact .refl _
  | @step k _ ih => exact ih.trans (.bind (parse_below k _) fun _ => .refl _)

/-! ### Programs -/

/-- The parser of programs at a bound on nesting. -/
def bounded (n : Nat) : Parser Program := do
  let (statements, value) ← Parser.sequence n .endOfInput
  return ⟨statements, value⟩

theorem ofTokens_eq (tokens : List Token) :
    Program.ofTokens tokens = ((bounded (Program.nesting tokens)).run ⟨tokens, {}⟩).map Prod.fst := by
  rw [Program.ofTokens, bounded, StateT.run_bind]
  cases (Parser.sequence (Program.nesting tokens) .endOfInput).run ⟨tokens, {}⟩ <;> rfl

theorem program_ends (v : TokenVector) : Ends v (program (2 * Program.nesting v.tokens)) 0
    ((bounded (Program.nesting v.tokens)).run (v.after 0)) fun j => (v.head j).kind = .endOfInput := by
  have enough : 8 * (v.length - 0) + 3 ≤ Program.nesting v.tokens := by
    rw [Program.nesting]
    change 8 * v.length + 3 ≤ 8 * (v.length + 1)
    omega
  exact .bind ((partsEnd v (Nat.le_refl _)).sequence .endOfInput 0 enough) fun p j _ _ ended => .pure ended

end Walk

end StackScript
