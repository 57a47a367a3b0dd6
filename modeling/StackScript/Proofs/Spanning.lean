import StackScript.Proofs.Phrases
import StackScript.Proofs.Tiling

/-!
Spans of trees. What the parser reads between two places stands in the tokens between them, so that every span in the tree
covers the tokens that its node was read from, from the start of the first to the end of the last one.
-/
namespace StackScript

open Token (InOrder)

namespace Span

variable {a b : Span}

/-- Spans are merged into one that reaches from the first to the second, if that starts and ends behind the first one. -/
theorem merge_eq (start : a.start ≤ b.start) (stop : a.stop ≤ b.stop) : a.merge b = a.upTo b := by
  rw [merge, if_pos start, Nat.min_eq_left start, Nat.max_eq_right stop, upTo]

end Span

/-! ### Between two places -/

namespace Stream

/-- The tokens between two places. The end of input is not read. -/
structure Reads (s : Stream) (ts : List Token) (t : Stream) : Prop where
  rest : s.rest = ts ++ t.rest
  live : ∀ u ∈ ts, u.kind ≠ .endOfInput
  last : t.last = (ts.getLast?.map Token.span).getD s.last

/-- A phrase stands in the tokens between two places. -/
def Read (s : Stream) (ps : List Part) (t : Stream) : Prop := ∃ ts, s.Reads ts t ∧ Stands ps ts

variable {o s t u : Stream} {ps qs : List Part} {ts us : List Token} {n : Node} {e : Expr} {m : Mark}

theorem Reads.trans (h : s.Reads ts t) (h' : t.Reads us u) : s.Reads (ts ++ us) u := by
  refine ⟨by rw [h.rest, h'.rest, List.append_assoc], List.forall_mem_append.2 ⟨h.live, h'.live⟩, ?_⟩
  rw [h'.last, h.last, List.getLast?_append]
  cases us.getLast? <;> rfl

theorem Reads.head? (h : s.Reads ts t) (there : ts ≠ []) : ts.head? = some s.head := by
  obtain ⟨first, us, rfl⟩ := List.exists_cons_of_ne_nil there
  rw [head, h.rest]
  rfl

theorem Reads.exists_last (h : s.Reads ts t) (there : ts ≠ []) : ∃ last, ts.getLast? = some last ∧ t.last = last.span := by
  refine ⟨ts.getLast there, List.getLast?_eq_some_getLast there, ?_⟩
  rw [h.last, List.getLast?_eq_some_getLast there]
  rfl

theorem Read.nil : s.Read [] s := ⟨[], ⟨rfl, nofun, rfl⟩, .nil⟩

theorem Read.append (h : s.Read ps t) (h' : t.Read qs u) : s.Read (ps ++ qs) u := by
  obtain ⟨ts, reads, stands⟩ := h
  obtain ⟨us, reads', stands'⟩ := h'
  exact ⟨ts ++ us, reads.trans reads', stands.append stands'⟩

theorem Read.token {k : Token.Kind} (h : s.head.kind = k) (some_token : k ≠ .endOfInput) : s.Read [.token k] s.next := by
  subst h
  exact ⟨[s.head], ⟨s.rest_eq some_token, List.forall_mem_singleton.2 some_token, Stream.last_next some_token⟩, .token .nil⟩

theorem Read.mark (h : s.head.kind = .mark m) : s.Read [.mark m] s.next := .token h nofun

theorem Read.keyword {k : Keyword} (h : s.head.kind = .keyword k) : s.Read [.keyword k] s.next := .token h nofun

theorem Read.name {name : String} (h : s.head.kind = .name name) : s.Read [.token (.name name)] s.next := .token h nofun

theorem Read.int {i : Nat} (h : s.head.kind = .int i) : s.Read [.token (.int i)] s.next := .token h nofun

theorem Read.inOrder (h : s.Read ps t) (order : InOrder s.rest) : InOrder t.rest := by
  obtain ⟨ts, reads, -⟩ := h
  rw [reads.rest] at order
  exact order.right

/-- What is read between two places starts before it ends. -/
theorem Read.le_last (h : o.Read ps t) (there : ps ≠ []) (order : InOrder o.rest) :
    o.head.span.start ≤ t.last.start ∧ o.head.span.stop ≤ t.last.stop := by
  obtain ⟨ts, reads, stands⟩ := h
  have some_token := stands.ne_nil there
  have head := reads.head? some_token
  obtain ⟨last, tail, same⟩ := reads.exists_last some_token
  rw [reads.rest] at order
  rw [same]
  exact ⟨order.left.first_le head (List.mem_of_mem_getLast? tail), order.left.le_last tail (List.mem_of_mem_head? head)⟩

/-- Of two phrases one after another the second starts and ends behind the first. -/
theorem Read.le_next (h : o.Read ps s) (h' : s.Read qs t) (there : ps ≠ []) (there' : qs ≠ []) (order : InOrder o.rest) :
    o.head.span.start ≤ s.head.span.start ∧ s.last.stop ≤ t.last.stop := by
  have whole := (h.append h').le_last (List.append_ne_nil_of_left_ne_nil there qs) order
  obtain ⟨ts, reads, stands⟩ := h
  obtain ⟨us, reads', stands'⟩ := h'
  have head := reads'.head? (stands'.ne_nil there')
  have first := reads.head? (stands.ne_nil there)
  obtain ⟨last, tail, same⟩ := reads.exists_last (stands.ne_nil there)
  obtain ⟨last', tail', same'⟩ := reads'.exists_last (stands'.ne_nil there')
  -- each token of the second phrase is behind those of the first, as all are in order
  rw [reads.rest, reads'.rest, ← List.append_assoc] at order
  have inner : InOrder (ts ++ us) := order.left
  constructor
  · have step := inner.between (List.mem_of_mem_head? first) (List.mem_of_mem_head? head)
    exact Nat.le_trans (inner.left.each _ (List.mem_of_mem_head? first)) step
  · rw [same, same']
    have step := inner.between (List.mem_of_mem_getLast? tail) (List.mem_of_mem_getLast? tail')
    exact Nat.le_trans step (inner.right.each _ (List.mem_of_mem_getLast? tail'))

/-- A phrase with a span from its first token to its last one. -/
theorem Read.node (h : o.Read ps t) (form : n.Form ps) (span : n.span = o.head.span.upTo t.last) : o.Read [.node n] t := by
  obtain ⟨ts, reads, stands⟩ := h
  have some_token := stands.ne_nil form.ne_nil
  obtain ⟨last, tail, same⟩ := reads.exists_last some_token
  have covers : n.span.Covers ts := ⟨o.head, last, reads.head? some_token, tail, by rw [span, same]⟩
  refine ⟨ts, reads, ?_⟩
  simpa using Stands.node form stands covers .nil

theorem Read.span_eq (h : o.Read [.expr e] t) : e.span = o.head.span.upTo t.last := by
  obtain ⟨ts, reads, stands⟩ := h
  have some_token := stands.covers.ne_nil
  obtain ⟨first, last, head, tail, span⟩ := stands.covers
  obtain ⟨last', tail', same⟩ := reads.exists_last some_token
  rw [reads.head? some_token, Option.some.injEq] at head
  rw [tail', Option.some.injEq] at tail
  rw [span, ← head, ← tail, same]

/-- A node whose span was taken from its first token up to the one read last. -/
theorem Read.whole (h : o.Read ps t) (order : InOrder o.rest) (form : n.Form ps) (span : n.span = o.head.span.merge t.last) :
    o.Read [.node n] t := by
  obtain ⟨start, stop⟩ := h.le_last form.ne_nil order
  exact h.node form (span.trans (Span.merge_eq start stop))

/-- A node that begins with an expression and goes on to the token read last. -/
theorem Read.extend (h : o.Read [.expr e] s) (h' : s.Read qs t) (there : qs ≠ []) (order : InOrder o.rest)
    (form : n.Form (.expr e :: qs)) (span : n.span = e.span.merge t.last) : o.Read [.node n] t := by
  have whole := h.append h'
  have behind := (h.le_next h' nofun there order).2
  refine whole.node form ?_
  rw [span, h.span_eq, Span.merge_eq]
  · rfl
  · exact (whole.le_last nofun order).1
  · exact behind

/-- A node that ends with an expression. -/
theorem Read.prefixed (h : o.Read ps s) (h' : s.Read [.expr e] t) (there : ps ≠ []) (order : InOrder o.rest)
    (form : n.Form (ps ++ [.expr e])) (span : n.span = o.head.span.merge e.span) : o.Read [.node n] t := by
  have whole := h.append h'
  refine whole.node form ?_
  rw [span, h'.span_eq, Span.merge_eq]
  · rfl
  · exact (h.le_next h' there nofun order).1
  · exact (whole.le_last form.ne_nil order).2

theorem Read.binary {op : BinaryOp} {a b : Expr} (h : o.Read [.expr a] s) (sign : s.head.kind = .mark m)
    (text : m.text = op.sign) (h' : s.next.Read [.expr b] t) (order : InOrder o.rest) :
    o.Read [.expr (.binary op a b (a.span.merge b.span))] t := by
  have operator : s.Read [.mark m] s.next := .mark sign
  have whole := h.append (operator.append h')
  have behind := (h.le_next (operator.append h') nofun nofun order).2
  have start := ((h.append operator).le_next h' nofun nofun order).1
  refine whole.node (.binary text) ?_
  change a.span.merge b.span = _
  rw [h.span_eq, h'.span_eq, Span.merge_eq]
  · rfl
  · exact start
  · exact behind

/-- A name for a lambda is no part of its phrase. -/
theorem Read.named (h : o.Read [.expr e] t) (name : String) : o.Read [.expr (Parser.named name e)] t := by
  cases e with
  | lambda header body span =>
    obtain ⟨ts, reads, stands⟩ := h
    refine ⟨ts, reads, ?_⟩
    generalize whole : [Part.expr (.lambda header body span)] = ps at stands
    -- an expression can only stand as a node, and the form of a lambda leaves its name open
    cases stands with
    | node form inner covers others =>
      cases whole
      cases form with
      | lambda opening => exact .node (.lambda opening) inner covers others
    | _ => cases whole
  | _ => exact h

/-- Parentheses around a type are read with it. -/
theorem Read.enclosed {y : TypeExpr} (h : o.Read [.mark .leftParen, .type y, .mark .rightParen] t) : o.Read [.type y] t := by
  obtain ⟨ts, reads, stands⟩ := h
  exact ⟨ts, reads, stands.enclosed⟩

/-- Nodes in a list up to and including its closing mark are read. -/
def ReadItems (s : Stream) (lax : Prop) (close : Mark) (ns : List Node) (t : Stream) : Prop :=
  ∃ ps, Listed lax close ns ps ∧ s.Read ps t

section

variable {lax : Prop} {close : Mark} {ns : List Node}

theorem ReadItems.none (closing : s.head.kind = .mark close) : s.ReadItems lax close [] s.next :=
  ⟨_, .none, .mark closing⟩

theorem ReadItems.last (item : s.Read [.node n] t) (closing : t.head.kind = .mark close) :
    s.ReadItems lax close [n] t.next :=
  ⟨_, .last n, item.append (.mark closing)⟩

theorem ReadItems.comma (item : s.Read [.node n] t) (separator : t.head.kind = .mark .comma)
    (others : t.next.ReadItems lax close ns u) (more : lax ∨ ns ≠ []) : s.ReadItems lax close (n :: ns) u := by
  obtain ⟨ps, listed, read⟩ := others
  exact ⟨_, .comma n listed more, (item.append (.mark separator)).append read⟩

end

end Stream

/-! ### Types and parameters -/

namespace Parser

open StackScript.Stream (Read)

/-- What the parts of the parser that read types give at a bound on their nesting. -/
structure TypePhrases (n : Nat) : Prop where
  type : ∀ s, InOrder s.rest → (type n).Gives s fun t u => s.Read [.type t] u
  types : ∀ close s, InOrder s.rest → (types n close).Gives s fun ts u => s.ReadItems False close (ts.map .type) u
  moreTypes : ∀ close s, InOrder s.rest →
    (moreTypes n close).Gives s fun ts u => s.ReadItems False close (ts.map .type) u ∧ ts ≠ []

section

variable {n : Nat} {s : Stream}

theorem TypePhrases.gives_type (ih : TypePhrases n) (order : InOrder s.rest) :
    (Parser.type (n + 1)).Gives s fun t u => s.Read [.type t] u := by
  rw [Parser.type]
  simp only [gives_bind, gives_here, gives_accept, gives_acceptKeyword, gives_expect, gives_upToLast, gives_pure, gives_peek,
    if_true, Bool.false_eq_true, if_false]
  refine ⟨fun opening => ?_, fun _ => ⟨fun opening => ?_, fun _ => ⟨fun word => ?_, fun _ => ?_⟩⟩⟩
  · have first : s.Read [.mark .leftBracket] s.next := .mark opening
    refine (ih.type s.next (first.inOrder order)).imp fun elem t inner closing => ?_
    exact ((first.append inner).append (.mark closing)).whole order .listType rfl
  · have first : s.Read [.mark .leftParen] s.next := .mark opening
    refine (ih.types .rightParen s.next (first.inOrder order)).imp fun items t inner => ?_
    split
    · next only =>
      obtain ⟨ps, listed, read⟩ := inner
      have whole := first.append read
      cases listed with
      | last => exact gives_pure.2 whole.enclosed
      | comma _ others more => exact absurd rfl (more.resolve_left id)
    · next items _ =>
      obtain ⟨ps, listed, read⟩ := inner
      simp only [gives_bind, gives_upToLast, gives_pure]
      exact (first.append read).whole order (.tupleType listed) rfl
  · have first : s.Read [.keyword .fn] s.next := .keyword word
    intro opening
    have second := first.append (.mark opening)
    refine (ih.types .rightParen s.next.next (second.inOrder order)).imp fun params t inner arrow => ?_
    obtain ⟨ps, listed, read⟩ := inner
    have third := (second.append read).append (.mark arrow)
    refine (ih.type t.next (third.inOrder order)).imp fun result u last => ?_
    refine (third.append last).whole order ?_ rfl
    simpa using Node.Form.functionType listed
  · split
    · next name word =>
      simp only [gives_bind, gives_advance, gives_pure]
      refine (Read.name word).node .namedType ?_
      rw [Stream.last_next (by simp [word])]
      rfl
    · simp only [gives_unexpected]

theorem TypePhrases.gives_types (ih : TypePhrases n) (close : Mark) (order : InOrder s.rest) :
    (Parser.types (n + 1) close).Gives s fun ts u => s.ReadItems False close (ts.map .type) u := by
  rw [Parser.types]
  simp only [gives_bind, gives_accept, if_true, Bool.false_eq_true, if_false, gives_pure]
  exact ⟨fun closing => .none closing, fun _ => (ih.moreTypes close s order).imp fun ts u items => items.1⟩

theorem TypePhrases.gives_moreTypes (ih : TypePhrases n) (close : Mark) (order : InOrder s.rest) :
    (Parser.moreTypes (n + 1) close).Gives s fun ts u => s.ReadItems False close (ts.map .type) u ∧ ts ≠ [] := by
  rw [Parser.moreTypes]
  simp only [gives_bind, gives_accept, if_true, Bool.false_eq_true, if_false, gives_pure, gives_expect]
  refine (ih.type s order).imp fun t u item => ⟨fun separator => ?_, fun _ closing => ⟨.last item closing, List.cons_ne_nil _ _⟩⟩
  have before := item.append (.mark separator)
  refine (ih.moreTypes close u.next (before.inOrder order)).imp fun ts v others => ⟨?_, List.cons_ne_nil _ _⟩
  exact .comma item separator others.1 (.inr (by simpa using others.2))

end

theorem typePhrases : ∀ n, TypePhrases n
  | 0 => by
    constructor <;> intros
    all_goals simp only [Parser.type, Parser.types, Parser.moreTypes, gives_tooDeep]
  | n + 1 => {
      type := fun s order => (typePhrases n).gives_type order
      types := fun close s order => (typePhrases n).gives_types close order
      moreTypes := fun close s order => (typePhrases n).gives_moreTypes close order }

theorem gives_typeAfter (n : Nat) (m : Mark) {s : Stream} (order : InOrder s.rest) :
    (typeAfter n m).Gives s fun type? t => s.Read (typing m type?) t := by
  rw [typeAfter]
  simp only [gives_bind, gives_accept, if_true, Bool.false_eq_true, if_false, gives_pure]
  refine ⟨fun sign => ?_, fun _ => .nil⟩
  have first : s.Read [.mark m] s.next := .mark sign
  exact ((typePhrases n).type s.next (first.inOrder order)).imp fun t u inner => first.append inner

@[simp] theorem gives_expectName {s : Stream} {ok : String → Stream → Prop} :
    Gives expectName s ok ↔ ∀ name, s.head.kind = .name name → ok name s.next := by
  simp only [expectName, gives_bind, gives_peek]
  split
  · next name word =>
    simp only [gives_bind, gives_advance, gives_pure, word, Token.Kind.name.injEq]
    exact ⟨fun h other same => same ▸ h, fun h => h name rfl⟩
  · next ended => simp [ended]
  · next other _ =>
    simp only [gives_unexpected, true_iff]
    exact fun name word => absurd word (other name)

theorem gives_moreParams : ∀ (n : Nat) (close : Mark) (s : Stream), InOrder s.rest →
    (moreParams n close).Gives s fun ps t => s.ReadItems False close (ps.map .param) t ∧ ps ≠ []
  | 0, _, _, _ => by simp only [moreParams, gives_tooDeep]
  | n + 1, close, s, order => by
    rw [moreParams]
    simp only [gives_bind, gives_here, gives_expectName, gives_upToLast, gives_pure, gives_accept, gives_expect, if_true,
      Bool.false_eq_true, if_false]
    intro name word
    have first : s.Read [.token (.name name)] s.next := .name word
    refine (gives_typeAfter n .colon (first.inOrder order)).imp fun type? t annotated => ?_
    have item : s.Read [.node (.param ⟨name, type?, s.head.span.merge t.last⟩)] t :=
      (first.append annotated).whole order .param rfl
    refine ⟨fun separator => ?_, fun _ closing => ⟨.last item closing, List.cons_ne_nil _ _⟩⟩
    have before := item.append (.mark separator)
    refine (gives_moreParams n close t.next (before.inOrder order)).imp fun ps u others => ⟨?_, List.cons_ne_nil _ _⟩
    exact .comma item separator others.1 (.inr (by simpa using others.2))

theorem gives_params (n : Nat) (close : Mark) {s : Stream} (order : InOrder s.rest) :
    (params n close).Gives s fun ps t => s.ReadItems False close (ps.map .param) t := by
  rw [params]
  simp only [gives_bind, gives_accept, if_true, Bool.false_eq_true, if_false, gives_pure]
  exact ⟨fun closing => .none closing, fun _ => (gives_moreParams n close s order).imp fun ps t items => items.1⟩

/-! ### Expressions and statements -/

/-- What the parts of the parser give at a bound on their nesting. What was read before a part is asked to go on belongs to
the phrase. -/
structure Phrases (n : Nat) : Prop where
  level : ∀ (least : Nat) (s : Stream), InOrder s.rest → (level n least).Gives s fun e t => s.Read [.expr e] t
  operators : ∀ (least : Nat) (left : Expr) (o s : Stream), InOrder o.rest → o.Read [.expr left] s →
    (operators n least left).Gives s fun e t => o.Read [.expr e] t
  operand : ∀ s : Stream, InOrder s.rest → (operand n).Gives s fun e t => s.Read [.expr e] t
  unaryFrom : ∀ (op : UnaryOp) (m : Mark) (o s : Stream), InOrder o.rest → m.text = op.sign → o.Read [.mark m] s →
    (unaryFrom n op o.head.span).Gives s fun e t => o.Read [.expr e] t
  lambdaFrom : ∀ (params : List Param) (ps : List Part) (o s : Stream), InOrder o.rest → Opening params ps → o.Read ps s →
    (lambdaFrom n params o.head.span).Gives s fun e t => o.Read [.expr e] t
  condFrom : ∀ o s : Stream, InOrder o.rest → o.Read [.keyword .if_] s →
    (condFrom n o.head.span).Gives s fun e t => o.Read [.expr e] t
  block : ∀ s : Stream, InOrder s.rest → (block n).Gives s fun e t => s.Read [.expr e] t
  blockFrom : ∀ o s : Stream, InOrder o.rest → o.Read [.mark .leftBrace] s →
    (blockFrom n o.head.span).Gives s fun e t => o.Read [.expr e] t
  exprs : ∀ (close : Mark) (s : Stream), InOrder s.rest →
    (exprs n close).Gives s fun es t => s.ReadItems True close (es.map .expr) t
  sequence : ∀ (close : Token.Kind) (s : Stream), InOrder s.rest →
    (sequence n close).Gives s fun p t => t.head.kind = close ∧ ∃ ps, Sequenced p.1 p.2 ps ∧ s.Read ps t
  binding : ∀ s : Stream, InOrder s.rest → (binding n).Gives s fun d t => s.Read [.node (.stmt d)] t
  function : ∀ s : Stream, InOrder s.rest → (function n).Gives s fun d t => s.Read [.node (.stmt d)] t

section

variable {n : Nat} (ih : Phrases n) {o s : Stream}

include ih

theorem Phrases.gives_level (least : Nat) (order : InOrder s.rest) :
    (Parser.level (n + 1) least).Gives s fun e t => s.Read [.expr e] t := by
  rw [Parser.level]
  simp only [gives_bind]
  exact (ih.operand s order).imp fun left t first => ih.operators least left s t order first

theorem Phrases.gives_operators (least : Nat) (left : Expr) (order : InOrder o.rest) (first : o.Read [.expr left] s) :
    (Parser.operators (n + 1) least left).Gives s fun e t => o.Read [.expr e] t := by
  have rest := first.inOrder order
  rw [Parser.operators]
  simp only [gives_bind, gives_peek]
  split
  · next opening =>
    refine gives_ite.2 ⟨fun _ => gives_pure.2 first, fun _ => ?_⟩
    simp only [gives_bind, gives_advance, gives_upToLast]
    have sign : s.Read [.mark .leftParen] s.next := .mark opening
    refine (ih.exprs .rightParen s.next (sign.inOrder rest)).imp fun args t inner => ?_
    obtain ⟨ps, listed, read⟩ := inner
    exact ih.operators least _ o t order (first.extend (sign.append read) (List.cons_ne_nil _ _) order (.call listed) rfl)
  · next opening =>
    refine gives_ite.2 ⟨fun _ => gives_pure.2 first, fun _ => ?_⟩
    simp only [gives_bind, gives_advance, gives_expect, gives_upToLast]
    have sign : s.Read [.mark .leftBracket] s.next := .mark opening
    refine (ih.level Level.lowest s.next (sign.inOrder rest)).imp fun position t inner closing => ?_
    have more := (sign.append inner).append (.mark closing)
    exact ih.operators least _ o t.next order (first.extend more (List.cons_ne_nil _ _) order .index rfl)
  · next point =>
    refine gives_ite.2 ⟨fun _ => gives_pure.2 first, fun _ => ?_⟩
    simp only [gives_bind, gives_advance, gives_peek]
    split
    · next i number =>
      simp only [gives_bind, gives_advance]
      have sign : s.Read [.mark .dot] s.next := .mark point
      have more := sign.append (.int number)
      refine ih.operators least _ o s.next.next order (first.extend more (List.cons_ne_nil _ _) order .field ?_)
      rw [Stream.last_next (by simp [number])]
      rfl
    · simp only [gives_bind, gives_last, gives_fail]
    · simp only [gives_unexpected]
  · next m _ _ _ sign =>
    cases operator : BinaryOp.ofMark? m with
    | none => exact gives_pure.2 first
    | some op =>
      dsimp only
      refine gives_ite.2 ⟨fun _ => gives_pure.2 first, fun _ => ?_⟩
      simp only [gives_bind, gives_advance]
      have read : s.Read [.mark m] s.next := .mark sign
      refine (ih.level op.rightLevel s.next (read.inOrder rest)).imp fun right t operand => ?_
      exact ih.operators least _ o t order (first.binary sign (BinaryOp.sign_of_ofMark? operator) operand order)
  · exact gives_pure.2 first

theorem Phrases.gives_operand (order : InOrder s.rest) :
    (Parser.operand (n + 1)).Gives s fun e t => s.Read [.expr e] t := by
  rw [Parser.operand]
  simp only [gives_bind, gives_peek]
  split
  · simp only [gives_bind, gives_fail]
  next some_token =>
  simp only [gives_bind, gives_advance]
  -- a tree of one token has the span of that token
  have single {e : Expr} (form : Node.Form (.expr e) [.token s.head.kind]) (span : e.span = s.head.span) :
      s.Read [.expr e] s.next := by
    refine (Read.token rfl some_token).node form ?_
    rw [Stream.last_next some_token]
    exact span
  split
  · next v literal => exact gives_pure.2 (single (.literal (written_of_literal? literal)) rfl)
  · simp only [gives_fail]
  have unary (op : UnaryOp) {m : Mark} (sign : s.head.kind = .mark m) (text : m.text = op.sign) :
      (Parser.unaryFrom n op s.head.span).Gives s.next fun e t => s.Read [.expr e] t :=
    ih.unaryFrom op m s s.next order text (.mark sign)
  split
  · next name word => exact gives_pure.2 (single (word ▸ .variable) rfl)
  · next opening =>
    have first : s.Read [.mark .leftParen] s.next := .mark opening
    simp only [gives_bind, gives_accept, if_true, Bool.false_eq_true, if_false, gives_upToLast, gives_pure, gives_expect]
    refine ⟨fun closing => (first.append (.mark closing)).whole order .unit rfl, fun _ => ?_⟩
    refine (ih.level Level.lowest s.next (first.inOrder order)).imp fun e t inner => ?_
    have second := first.append inner
    refine ⟨fun closing => (second.append (.mark closing)).whole order .group rfl, fun _ separator => ?_⟩
    have third := second.append (.mark separator)
    refine (ih.exprs .rightParen t.next (third.inOrder order)).imp fun es u inner => ?_
    obtain ⟨ps, listed, read⟩ := inner
    exact (third.append read).whole order (.tuple listed) rfl
  · next opening =>
    have first : s.Read [.mark .leftBracket] s.next := .mark opening
    simp only [gives_bind, gives_upToLast, gives_pure]
    refine (ih.exprs .rightBracket s.next (first.inOrder order)).imp fun es t inner => ?_
    obtain ⟨ps, listed, read⟩ := inner
    exact (first.append read).whole order (.list listed) rfl
  · next opening => exact ih.blockFrom s s.next order (.mark opening)
  · next minus =>
    simp only [gives_bind, gives_peek]
    split
    · next v literal =>
      simp only [gives_bind, gives_advance, gives_upToLast, gives_pure]
      have negated := negated_of_negatedLiteral? literal
      have digits : s.next.head.kind ≠ .endOfInput := by
        intro ended
        rw [ended] at negated
        cases negated
      have whole := (Read.mark minus).append (.token rfl digits)
      exact whole.whole order (.negative negated) rfl
    · simp only [gives_fail]
    · exact unary .negate minus rfl
  · next bang => exact unary .not bang rfl
  · next tilde => exact unary .bitNot tilde rfl
  · next bar =>
    have first : s.Read [.mark .pipe] s.next := .mark bar
    simp only [gives_bind]
    refine (gives_params n .pipe (first.inOrder order)).imp fun params t inner => ?_
    obtain ⟨ps, listed, read⟩ := inner
    exact ih.lambdaFrom params _ s t order (.bars listed) (first.append read)
  · next bars => exact ih.lambdaFrom [] _ s s.next order .none (.mark bars)
  · next word =>
    simp only [gives_bind, gives_expect]
    intro opening
    have first := (Read.keyword word).append (.mark opening)
    refine (gives_params n .rightParen (first.inOrder order)).imp fun params t inner => ?_
    obtain ⟨ps, listed, read⟩ := inner
    exact ih.lambdaFrom params _ s t order (.fn listed) (first.append read)
  · next word => exact ih.condFrom s s.next order (.keyword word)
  · simp only [gives_fail]

theorem Phrases.gives_unaryFrom (op : UnaryOp) {m : Mark} (order : InOrder o.rest) (text : m.text = op.sign)
    (sign : o.Read [.mark m] s) : (Parser.unaryFrom (n + 1) op o.head.span).Gives s fun e t => o.Read [.expr e] t := by
  rw [Parser.unaryFrom]
  simp only [gives_bind, gives_pure]
  refine (ih.level Level.unary s (sign.inOrder order)).imp fun e t operand => ?_
  exact sign.prefixed operand (List.cons_ne_nil _ _) order (.unary text) rfl

theorem Phrases.gives_lambdaFrom {params : List Param} {ps : List Part} (order : InOrder o.rest) (opening : Opening params ps)
    (first : o.Read ps s) : (Parser.lambdaFrom (n + 1) params o.head.span).Gives s fun e t => o.Read [.expr e] t := by
  rw [Parser.lambdaFrom]
  simp only [gives_bind, gives_pure]
  refine (gives_typeAfter n .arrow (first.inOrder order)).imp fun result? t annotated => ?_
  have before := first.append annotated
  refine (ih.level Level.lowest t (before.inOrder order)).imp fun body u read => ?_
  have there : ps ++ typing .arrow result? ≠ [] := by
    cases opening <;> exact List.cons_ne_nil _ _
  refine before.prefixed read there order ?_ rfl
  rw [List.append_assoc]
  exact .lambda opening

theorem Phrases.gives_condFrom (order : InOrder o.rest) (first : o.Read [.keyword .if_] s) :
    (Parser.condFrom (n + 1) o.head.span).Gives s fun e t => o.Read [.expr e] t := by
  rw [Parser.condFrom]
  simp only [gives_bind]
  refine (ih.level Level.lowest s (first.inOrder order)).imp fun test t tested => ?_
  have second := first.append tested
  refine (ih.block t (second.inOrder order)).imp fun yes u taken => ?_
  have third := second.append taken
  simp only [gives_acceptKeyword, if_true, Bool.false_eq_true, if_false, gives_bind, gives_here, gives_upToLast, gives_pure]
  refine ⟨fun otherwise => ?_, fun _ => third.whole order .cond rfl⟩
  have fourth := third.append (.keyword otherwise)
  have last (no : Expr) (v : Stream) (read : u.next.Read [.expr no] v) :
      o.Read [.expr (.cond test yes (some no) (o.head.span.merge v.last))] v :=
    (fourth.append read).whole order .condElse rfl
  refine ⟨fun again => ?_, fun _ => ?_⟩
  · exact (ih.condFrom u.next u.next.next (fourth.inOrder order) (.keyword again)).imp last
  · exact (ih.block u.next (fourth.inOrder order)).imp last

theorem Phrases.gives_block (order : InOrder s.rest) : (Parser.block (n + 1)).Gives s fun e t => s.Read [.expr e] t := by
  rw [Parser.block]
  simp only [gives_bind, gives_expect]
  exact fun opening => ih.blockFrom s s.next order (.mark opening)

theorem Phrases.gives_blockFrom (order : InOrder o.rest) (opening : o.Read [.mark .leftBrace] s) :
    (Parser.blockFrom (n + 1) o.head.span).Gives s fun e t => o.Read [.expr e] t := by
  rw [Parser.blockFrom]
  simp only [gives_bind, gives_expect, gives_upToLast, gives_pure]
  refine (ih.sequence _ s (opening.inOrder order)).imp fun p t inner closing => ?_
  obtain ⟨-, ps, sequenced, read⟩ := inner
  have whole := opening.append (read.append (.mark closing))
  exact whole.whole order (.block sequenced) rfl

theorem Phrases.gives_exprs (close : Mark) (order : InOrder s.rest) :
    (Parser.exprs (n + 1) close).Gives s fun es t => s.ReadItems True close (es.map .expr) t := by
  rw [Parser.exprs]
  simp only [gives_bind, gives_accept, if_true, Bool.false_eq_true, if_false, gives_pure, gives_expect]
  refine ⟨fun closing => .none closing, fun _ => ?_⟩
  refine (ih.level Level.lowest s order).imp fun e t item => ⟨fun separator => ?_, fun _ closing => .last item closing⟩
  have before := item.append (.mark separator)
  exact (ih.exprs close t.next (before.inOrder order)).imp fun es u others => .comma item separator others (.inl trivial)

theorem Phrases.gives_sequence (close : Token.Kind) (order : InOrder s.rest) : (Parser.sequence (n + 1) close).Gives s
    fun p t => t.head.kind = close ∧ ∃ ps, Sequenced p.1 p.2 ps ∧ s.Read ps t := by
  -- what follows each statement is the same: the sequence goes on with the bound that is left
  have more (d : Stmt) (t : Stream) (first : s.Read [.node (.stmt d)] t) : (Parser.sequence n close).Gives t fun p u =>
      u.head.kind = close ∧ ∃ ps, Sequenced (d :: p.1) p.2 ps ∧ s.Read ps u :=
    (ih.sequence close t (first.inOrder order)).imp fun p u others => by
      obtain ⟨ended, ps, sequenced, read⟩ := others
      exact ⟨ended, _, .stmt d sequenced, first.append read⟩
  rw [Parser.sequence]
  simp only [gives_bind, gives_peek]
  split
  · next ended => exact gives_pure.2 ⟨ended, [], .none, .nil⟩
  split
  · simp only [gives_bind, gives_fail]
  simp only [gives_bind, gives_accept, if_true, Bool.false_eq_true, if_false]
  refine ⟨fun separator => ?_, fun _ => ?_⟩
  · have first : s.Read [.mark .semicolon] s.next := .mark separator
    refine (ih.sequence close s.next (first.inOrder order)).imp fun p t others => ?_
    obtain ⟨ended, ps, sequenced, read⟩ := others
    exact ⟨ended, _, .semicolon sequenced, first.append read⟩
  split
  · simp only [gives_bind, gives_pure]
    exact (ih.binding s order).imp fun d t first => more d t first
  simp only [gives_bind, gives_peekSecond]
  refine fun second _ => gives_ite.2 ⟨fun _ => ?_, fun _ => ?_⟩
  · simp only [gives_bind, gives_pure]
    exact (ih.function s order).imp fun d t first => more d t first
  simp only [gives_bind, gives_accept, if_true, Bool.false_eq_true, if_false, gives_upToLast, gives_pure, gives_check]
  refine (ih.level Level.lowest s order).imp fun e t read => ?_
  refine ⟨fun separator => more _ t.next (read.extend (.mark separator) (List.cons_ne_nil _ _) order .ended rfl), fun _ => ?_⟩
  split
  · next ended => exact gives_pure.2 ⟨of_decide_eq_true ended, _, .value e, read⟩
  split
  · next braced =>
    simp only [gives_bind, gives_pure]
    exact more _ t (read.node (.braced braced) read.span_eq)
  · simp only [gives_unexpected]

theorem Phrases.gives_binding (order : InOrder s.rest) :
    (Parser.binding (n + 1)).Gives s fun d t => s.Read [.node (.stmt d)] t := by
  rw [Parser.binding]
  simp only [gives_bind, gives_expectKind, gives_expectName, gives_expect, gives_upToLast, gives_pure]
  intro _ word name named
  have first := (Read.keyword word).append (.name named)
  refine (gives_typeAfter n .colon (first.inOrder order)).imp fun type? t annotated sign => ?_
  have second := (first.append annotated).append (.mark sign)
  refine (ih.level Level.lowest t.next (second.inOrder order)).imp fun e u value separator => ?_
  have whole := (second.append (value.named name)).append (.mark separator)
  refine whole.whole order ?_ rfl
  simpa using Node.Form.bind

theorem Phrases.gives_function (order : InOrder s.rest) :
    (Parser.function (n + 1)).Gives s fun d t => s.Read [.node (.stmt d)] t := by
  rw [Parser.function]
  simp only [gives_bind, gives_expectKind, gives_expectName, gives_expect, gives_upToLast, gives_pure]
  intro _ word name named opening
  have first := ((Read.keyword word).append (.name named)).append (.mark opening)
  refine (gives_params n .rightParen (first.inOrder order)).imp fun params t inner => ?_
  obtain ⟨ps, listed, read⟩ := inner
  have second := first.append read
  refine (gives_typeAfter n .arrow (second.inOrder order)).imp fun result? u annotated => ?_
  have third := second.append annotated
  refine (ih.block u (third.inOrder order)).imp fun body v last => ?_
  refine (third.append last).whole order ?_ rfl
  simpa using Node.Form.function listed

end

/-- Whatever the bound, all parts of the parser give phrases of the tokens that they read. -/
theorem phrases : ∀ n, Phrases n
  | 0 => by
    constructor <;> intros
    all_goals simp only [Parser.level, Parser.operators, Parser.operand, Parser.unaryFrom, Parser.lambdaFrom, Parser.condFrom,
      Parser.block, Parser.blockFrom, Parser.exprs, Parser.sequence, Parser.binding, Parser.function, gives_tooDeep]
  | n + 1 => {
      level := fun least s order => (phrases n).gives_level least order
      operators := fun least left o s order first => (phrases n).gives_operators least left order first
      operand := fun s order => (phrases n).gives_operand order
      unaryFrom := fun op m o s order text sign => (phrases n).gives_unaryFrom op order text sign
      lambdaFrom := fun params ps o s order opening first => (phrases n).gives_lambdaFrom order opening first
      condFrom := fun o s order first => (phrases n).gives_condFrom order first
      block := fun s order => (phrases n).gives_block order
      blockFrom := fun o s order opening => (phrases n).gives_blockFrom order opening
      exprs := fun close s order => (phrases n).gives_exprs close order
      sequence := fun close s order => (phrases n).gives_sequence close order
      binding := fun s order => (phrases n).gives_binding order
      function := fun s order => (phrases n).gives_function order }

end Parser

/-! ### Programs -/

namespace Token

variable {source : String} {tokens : List Token}

theorem tiling_of_scan (h : scan source = .ok tokens) : Tiling source tokens := by
  have length : source.toList.length < source.length + 1 := by
    rw [String.length_toList]
    exact Nat.lt_succ_self _
  have scanned : Scanned [] source.toList (scan source) :=
    scanFrom_scanned (source.length + 1) false [] source.toList length
  rw [h] at scanned
  exact Tiles.tiling scanned

theorem Tiling.inOrder (h : Tiling source tokens) : InOrder tokens :=
  ⟨fun t member => (h.exact t member).start_le_stop, h.ordered⟩

/-- Tokens can be split in one way right before their only end of input. -/
theorem upTo_end {read rest others : List Token} {last : Token} (same : read ++ rest = others ++ [last])
    (live : ∀ t ∈ read, t.kind ≠ .endOfInput) (ended : ∀ t ∈ rest.head?, t.kind = .endOfInput)
    (kinds : ∀ t ∈ others, t.kind ≠ .endOfInput) (isEnd : last.kind = .endOfInput) : read = others ∧ rest = [last] := by
  -- tokens between the two places where the vector is split would be an end of input and none at once
  obtain ⟨more, rfl, rfl⟩ | ⟨more, rfl, split⟩ := List.append_eq_append_iff.1 same
  · cases more with
    | nil => exact ⟨(List.append_nil read).symm, rfl⟩
    | cons t more => exact absurd (ended t rfl) (kinds t (by simp))
  · cases more with
    | nil => exact ⟨List.append_nil others, split.symm⟩
    | cons t more =>
      obtain ⟨rfl, -⟩ := List.cons.inj split
      exact absurd isEnd (live last (by simp))

end Token

namespace Program

variable {tokens : List Token} {p : Program}

/-- A program is read from all tokens before an end of input. -/
theorem stands_of_ofTokens (order : InOrder tokens) (h : ofTokens tokens = .ok p) : ∃ read rest ps,
    tokens = read ++ rest ∧ (∀ t ∈ read, t.kind ≠ .endOfInput) ∧ (∀ t ∈ rest.head?, t.kind = .endOfInput) ∧
      Sequenced p.statements p.value ps ∧ Stands ps read := by
  cases run : (Parser.sequence (nesting tokens) .endOfInput).run ⟨tokens, {}⟩ with
  | error e =>
    rw [ofTokens, run] at h
    cases h
  | ok r =>
    rw [ofTokens, run] at h
    cases h
    obtain ⟨ended, ps, sequenced, read, reads, stands⟩ := (Parser.phrases _).sequence .endOfInput ⟨tokens, {}⟩ order r.1 r.2 run
    refine ⟨read, r.2.rest, ps, reads.rest, reads.live, fun t first => ?_, sequenced, stands⟩
    rwa [Stream.head, List.headD_eq_head?_getD, Option.mem_def.1 first] at ended

/-- Every node of a program is written where the program is. -/
theorem Has.placed {ps : List Part} {read : List Token} {n : Node} (h : p.Has n)
    (sequenced : Sequenced p.statements p.value ps) (stands : Stands ps read) : n.Placed read := by
  have top {m : Node} (member : m ∈ p.statements.map .stmt ++ p.value.toList.map .expr) : m.Placed read := by
    rw [← sequenced.nodes_eq] at member
    exact stands.placed (mem_nodes.1 member)
  induction h with
  | stmt member => exact top (List.mem_append_left _ (List.mem_map_of_mem member))
  | value member => exact top (List.mem_append_right _ (List.mem_map_of_mem (Option.mem_toList.2 member)))
  | child _ member ih =>
    obtain ⟨before, inner, after, qs, rfl, form, within, -⟩ := ih
    rw [← form.nodes_eq] at member
    exact (within.placed (mem_nodes.1 member)).within before after

/-- Spans are exact. A program is read from all tokens of its text but the end of input. Each node in it has the span from
the start of the first to the end of the last of the tokens that it was read from; and what is inside of it lies inside its
span, in order. -/
theorem spans_exact {source : String} (scanned : Token.scan source = .ok tokens) (parsed : ofTokens tokens = .ok p) :
    ∃ read last ps, tokens = read ++ [last] ∧ last.kind = .endOfInput ∧ Sequenced p.statements p.value ps ∧ Stands ps read ∧
      ∀ n, p.Has n → n.Placed read ∧ n.Encloses := by
  have tiling := Token.tiling_of_scan scanned
  have order := tiling.inOrder
  obtain ⟨read, rest, ps, split, live, ended, sequenced, stands⟩ := stands_of_ofTokens order parsed
  obtain ⟨others, last, split', isEnd, -, kinds⟩ := tiling.ends
  obtain ⟨rfl, rfl⟩ : read = others ∧ rest = [last] :=
    Token.upTo_end (split.symm.trans split') live ended kinds isEnd
  refine ⟨read, last, ps, split, isEnd, sequenced, stands, fun n inside => ?_⟩
  have placed := inside.placed sequenced stands
  rw [split] at order
  exact ⟨placed, placed.encloses order.left⟩

/-- The span of a binding has its semicolon, that of a group its parentheses, and that of a literal its minus sign. -/
theorem spans_exact_negative :
    let tokens : List Token := [⟨.keyword .let_, ⟨0, 3, 1, 1⟩⟩, ⟨.name "n", ⟨4, 5, 1, 5⟩⟩, ⟨.mark .equal, ⟨6, 7, 1, 7⟩⟩,
      ⟨.mark .leftParen, ⟨8, 9, 1, 9⟩⟩, ⟨.mark .minus, ⟨9, 10, 1, 10⟩⟩, ⟨.int 1, ⟨10, 11, 1, 11⟩⟩,
      ⟨.mark .rightParen, ⟨11, 12, 1, 12⟩⟩, ⟨.mark .semicolon, ⟨12, 13, 1, 13⟩⟩, ⟨.endOfInput, ⟨13, 13, 1, 14⟩⟩]
    let one : Expr := .literal (.int32 (-1)) ⟨9, 11, 1, 10⟩
    let p : Program := ⟨[.bind "n" none (.group one ⟨8, 12, 1, 9⟩) ⟨0, 13, 1, 1⟩], none⟩
    Token.scan "let n = (-1);" = .ok tokens ∧ ofTokens tokens = .ok p ∧ p.Has (.expr one) ∧
      ∃ read last ps, tokens = read ++ [last] ∧ last.kind = .endOfInput ∧ Sequenced p.statements p.value ps ∧ Stands ps read ∧
        ∀ n, p.Has n → n.Placed read ∧ n.Encloses := by
  intro tokens one p
  have scanned : Token.scan "let n = (-1);" = .ok tokens := by decide +kernel
  have parsed : ofTokens tokens = .ok p := rfl
  have inside : p.Has (.expr one) := .child (.child (.stmt (.head _)) (.head _)) (.head _)
  exact ⟨scanned, parsed, inside, spans_exact scanned parsed⟩

end Program

end StackScript
