import StackScript.Proofs.Precedence

/-!
Phrases of a program. Every expression, statement, parameter and type is written as a phrase of tokens and of phrases
inside it. A tree stands in tokens if they are its phrase and the spans in it cover the tokens that they stand for; then
what is inside of a node lies inside its span, one after another.
-/
namespace StackScript

/-- A part of a program that has a span. -/
inductive Node
  | expr (e : Expr)
  | stmt (d : Stmt)
  | param (p : Param)
  | type (t : TypeExpr)

namespace Node

def span : Node → Span
  | expr e => e.span
  | stmt d => d.span
  | param p => p.span
  | type t => t.span

/-- What a function declares before its body. -/
def ofHeader (params : List Param) (result? : Option TypeExpr) : List Node :=
  params.map param ++ result?.toList.map type

/-- The nodes right inside a node, in the order of the text. -/
def children : Node → List Node
  | expr (.literal _ _) | expr (.variable _ _) => []
  | expr (.group e _) | expr (.unary _ e _) | expr (.field e _ _) => [expr e]
  | expr (.binary _ a b _) | expr (.index a b _) => [expr a, expr b]
  | expr (.call f args _) => expr f :: args.map expr
  | expr (.tuple items _) | expr (.list items _) => items.map expr
  | expr (.lambda h body _) => ofHeader h.params h.result? ++ [expr body]
  | expr (.block ss value _) => ss.map stmt ++ value.toList.map expr
  | expr (.cond test yes no _) => expr test :: expr yes :: no.toList.map expr
  | stmt (.expr e _) => [expr e]
  | stmt (.bind _ type? e _) => type?.toList.map type ++ [expr e]
  | stmt (.function h body _) => ofHeader h.params h.result? ++ [expr body]
  | param p => p.type?.toList.map type
  | type (.named _ _) => []
  | type (.list t _) => [type t]
  | type (.tuple ts _) => ts.map type
  | type (.function ps r _) => ps.map type ++ [type r]

end Node

/-! ### Phrases -/

/-- A part of a phrase. -/
inductive Part
  | token (k : Token.Kind)
  | node (n : Node)

namespace Part

def mark (m : Mark) : Part := token (.mark m)

def keyword (k : Keyword) : Part := token (.keyword k)

def expr (e : Expr) : Part := node (.expr e)

def type (t : TypeExpr) : Part := node (.type t)

def node? : Part → Option Node
  | token _ => none
  | node n => some n

end Part

/-- Nodes with commas between them, up to and including a closing mark. Only a lax list may have a comma before the mark. -/
inductive Listed (lax : Prop) (close : Mark) : List Node → List Part → Prop
  | none : Listed lax close [] [.mark close]
  | last (n : Node) : Listed lax close [n] [.node n, .mark close]
  | comma (n : Node) {ns : List Node} {ps : List Part} (others : Listed lax close ns ps) (more : lax ∨ ns ≠ []) :
      Listed lax close (n :: ns) (.node n :: .mark .comma :: ps)

/-- A type with a mark before it, if there is one. -/
def typing (m : Mark) : Option TypeExpr → List Part
  | none => []
  | some t => [.mark m, .type t]

/-- The parameters of a lambda. -/
inductive Opening : List Param → List Part → Prop
  | bars {params : List Param} {ps : List Part} (listed : Listed False .pipe (params.map .param) ps) :
      Opening params (.mark .pipe :: ps)
  | none : Opening [] [.mark .pipePipe]
  | fn {params : List Param} {ps : List Part} (listed : Listed False .rightParen (params.map .param) ps) :
      Opening params (.keyword .fn :: .mark .leftParen :: ps)

/-- Statements and the value behind them, with semicolons that belong to none of them. -/
inductive Sequenced : List Stmt → Option Expr → List Part → Prop
  | none : Sequenced [] none []
  | value (e : Expr) : Sequenced [] (some e) [.expr e]
  | semicolon {ss : List Stmt} {value : Option Expr} {ps : List Part} (others : Sequenced ss value ps) :
      Sequenced ss value (.mark .semicolon :: ps)
  | stmt (d : Stmt) {ss : List Stmt} {value : Option Expr} {ps : List Part} (others : Sequenced ss value ps) :
      Sequenced (d :: ss) value (.node (.stmt d) :: ps)

/-- How a node is written. -/
inductive Node.Form : Node → List Part → Prop
  | literal {v : Literal} {k : Token.Kind} {s : Span} (written : v.Written k) : Form (.expr (.literal v s)) [.token k]
  | negative {v : Literal} {k : Token.Kind} {s : Span} (negated : v.Negated k) :
      Form (.expr (.literal v s)) [.mark .minus, .token k]
  | variable {name : String} {s : Span} : Form (.expr (.variable name s)) [.token (.name name)]
  | group {e : Expr} {s : Span} : Form (.expr (.group e s)) [.mark .leftParen, .expr e, .mark .rightParen]
  | binary {op : BinaryOp} {m : Mark} {a b : Expr} {s : Span} (sign : m.text = op.sign) :
      Form (.expr (.binary op a b s)) [.expr a, .mark m, .expr b]
  | unary {op : UnaryOp} {m : Mark} {e : Expr} {s : Span} (sign : m.text = op.sign) :
      Form (.expr (.unary op e s)) [.mark m, .expr e]
  | call {f : Expr} {args : List Expr} {s : Span} {ps : List Part}
      (listed : Listed True .rightParen (args.map .expr) ps) : Form (.expr (.call f args s)) (.expr f :: .mark .leftParen :: ps)
  | index {a b : Expr} {s : Span} :
      Form (.expr (.index a b s)) [.expr a, .mark .leftBracket, .expr b, .mark .rightBracket]
  | field {a : Expr} {i : Nat} {s : Span} : Form (.expr (.field a i s)) [.expr a, .mark .dot, .token (.int i)]
  | unit {s : Span} : Form (.expr (.tuple [] s)) [.mark .leftParen, .mark .rightParen]
  | tuple {e : Expr} {es : List Expr} {s : Span} {ps : List Part} (listed : Listed True .rightParen (es.map .expr) ps) :
      Form (.expr (.tuple (e :: es) s)) (.mark .leftParen :: .expr e :: .mark .comma :: ps)
  | list {es : List Expr} {s : Span} {ps : List Part} (listed : Listed True .rightBracket (es.map .expr) ps) :
      Form (.expr (.list es s)) (.mark .leftBracket :: ps)
  | lambda {name : String} {params : List Param} {result? : Option TypeExpr} {body : Expr} {s : Span} {ps : List Part}
      (opening : Opening params ps) :
      Form (.expr (.lambda ⟨name, params, result?, s⟩ body s)) (ps ++ (typing .arrow result? ++ [.expr body]))
  | block {ss : List Stmt} {value : Option Expr} {s : Span} {ps : List Part} (sequenced : Sequenced ss value ps) :
      Form (.expr (.block ss value s)) (.mark .leftBrace :: (ps ++ [.mark .rightBrace]))
  | cond {test yes : Expr} {s : Span} : Form (.expr (.cond test yes none s)) [.keyword .if_, .expr test, .expr yes]
  | condElse {test yes no : Expr} {s : Span} :
      Form (.expr (.cond test yes (some no) s)) [.keyword .if_, .expr test, .expr yes, .keyword .else_, .expr no]
  | ended {e : Expr} {s : Span} : Form (.stmt (.expr e s)) [.expr e, .mark .semicolon]
  | braced {e : Expr} {s : Span} (braced : e.isBraced) : Form (.stmt (.expr e s)) [.expr e]
  | bind {name : String} {type? : Option TypeExpr} {e : Expr} {s : Span} : Form (.stmt (.bind name type? e s))
      (.keyword .let_ :: .token (.name name) :: (typing .colon type? ++ [.mark .equal, .expr e, .mark .semicolon]))
  | function {name : String} {params : List Param} {result? : Option TypeExpr} {body : Expr} {s : Span} {ps : List Part}
      (listed : Listed False .rightParen (params.map .param) ps) :
      Form (.stmt (.function ⟨name, params, result?, s⟩ body s))
        (.keyword .fn :: .token (.name name) :: .mark .leftParen :: (ps ++ (typing .arrow result? ++ [.expr body])))
  | param {name : String} {type? : Option TypeExpr} {s : Span} :
      Form (.param ⟨name, type?, s⟩) (.token (.name name) :: typing .colon type?)
  | namedType {name : String} {s : Span} : Form (.type (.named name s)) [.token (.name name)]
  | listType {t : TypeExpr} {s : Span} : Form (.type (.list t s)) [.mark .leftBracket, .type t, .mark .rightBracket]
  | tupleType {ts : List TypeExpr} {s : Span} {ps : List Part} (listed : Listed False .rightParen (ts.map .type) ps) :
      Form (.type (.tuple ts s)) (.mark .leftParen :: ps)
  | functionType {ts : List TypeExpr} {r : TypeExpr} {s : Span} {ps : List Part}
      (listed : Listed False .rightParen (ts.map .type) ps) :
      Form (.type (.function ts r s)) (.keyword .fn :: .mark .leftParen :: (ps ++ [.mark .arrow, .type r]))

/-! ### Phrases in tokens -/

namespace Span

/-- From the start of one span to the end of another. -/
def upTo (a b : Span) : Span := ⟨a.start, b.stop, a.line, a.column⟩

/-- The span starts where the first token does and ends where the last one does. -/
def Covers (s : Span) (ts : List Token) : Prop :=
  ∃ first last, ts.head? = some first ∧ ts.getLast? = some last ∧ s = first.span.upTo last.span

end Span

/-- The parts of a phrase are in the tokens one after another, each node with the span that covers it. The parentheses of a
type of their own are left out of it. -/
inductive Stands : List Part → List Token → Prop
  | nil : Stands [] []
  | token {t : Token} {ps : List Part} {ts : List Token} (others : Stands ps ts) : Stands (.token t.kind :: ps) (t :: ts)
  | node {n : Node} {qs ps : List Part} {us ts : List Token} (form : n.Form qs) (inner : Stands qs us)
      (covers : n.span.Covers us) (others : Stands ps ts) : Stands (.node n :: ps) (us ++ ts)
  | parens {t : TypeExpr} {left right : Token} {ps : List Part} {us ts : List Token} (opening : left.Spells "(")
      (inner : Stands [.type t] us) (closing : right.Spells ")") (others : Stands ps ts) :
      Stands (.type t :: ps) (left :: (us ++ right :: ts))

/-- Tokens that do not overlap, in the order of the text. -/
structure Token.InOrder (ts : List Token) : Prop where
  each : ∀ t ∈ ts, t.span.start ≤ t.span.stop
  ordered : ts.Pairwise fun t u => t.span.stop ≤ u.span.start

/-- Where a node is written in the tokens. -/
def Node.Placed (n : Node) (tokens : List Token) : Prop :=
  ∃ before read after ps, tokens = before ++ read ++ after ∧ n.Form ps ∧ Stands ps read ∧ n.span.Covers read

/-- What is inside of a node lies inside its span, one after another. -/
structure Node.Encloses (n : Node) : Prop where
  inside : ∀ c ∈ n.children, n.span.start ≤ c.span.start ∧ c.span.stop ≤ n.span.stop
  ordered : n.children.Pairwise fun c d => c.span.stop ≤ d.span.start

/-- The nodes anywhere in a program. -/
inductive Program.Has (p : Program) : Node → Prop
  | stmt {d : Stmt} (h : d ∈ p.statements) : Has p (.stmt d)
  | value {e : Expr} (h : e ∈ p.value) : Has p (.expr e)
  | child {n c : Node} (parent : Has p n) (h : c ∈ n.children) : Has p c

/-! ### The nodes of a phrase -/

section

variable {lax : Prop} {close : Mark} {m : Mark} {n : Node} {ns : List Node} {ps qs : List Part} {ts us : List Token}

def Part.nodes (ps : List Part) : List Node := ps.filterMap Part.node?

open StackScript.Part (nodes)

@[simp] theorem nodes_nil : nodes [] = [] := rfl

@[simp] theorem nodes_mark : nodes (.mark m :: ps) = nodes ps := rfl

@[simp] theorem nodes_keyword {k : Keyword} : nodes (.keyword k :: ps) = nodes ps := rfl

@[simp] theorem nodes_token {k : Token.Kind} : nodes (.token k :: ps) = nodes ps := rfl

@[simp] theorem nodes_node : nodes (.node n :: ps) = n :: nodes ps := rfl

@[simp] theorem nodes_expr {e : Expr} : nodes (.expr e :: ps) = .expr e :: nodes ps := rfl

@[simp] theorem nodes_type {t : TypeExpr} : nodes (.type t :: ps) = .type t :: nodes ps := rfl

@[simp] theorem nodes_append : nodes (ps ++ qs) = nodes ps ++ nodes qs := List.filterMap_append

@[simp] theorem nodes_typing (type? : Option TypeExpr) : nodes (typing m type?) = type?.toList.map .type := by
  cases type? <;> rfl

theorem mem_nodes : n ∈ nodes ps ↔ .node n ∈ ps := by
  simp only [nodes, List.mem_filterMap]
  constructor
  · rintro ⟨p, member, h⟩
    cases p with
    | token => cases h
    | node => cases h; exact member
  · exact fun member => ⟨_, member, rfl⟩

theorem Listed.nodes_eq (h : Listed lax close ns ps) : nodes ps = ns := by
  induction h with
  | none | last => rfl
  | comma n _ _ ih => simp [ih]

theorem Opening.nodes_eq {params : List Param} (h : Opening params ps) : nodes ps = params.map .param := by
  cases h with
  | bars listed | fn listed => simpa using listed.nodes_eq
  | none => rfl

theorem Sequenced.nodes_eq {ss : List Stmt} {value : Option Expr} (h : Sequenced ss value ps) :
    nodes ps = ss.map .stmt ++ value.toList.map .expr := by
  induction h with
  | none | value => rfl
  | semicolon _ ih => simpa using ih
  | stmt d _ ih => simp [ih]

/-- The nodes of the phrase of a node are those right inside it. -/
theorem Node.Form.nodes_eq (h : n.Form ps) : nodes ps = n.children := by
  cases h with
  | call listed | tuple listed | list listed | tupleType listed | functionType listed | function listed =>
    simp [children, ofHeader, listed.nodes_eq]
  | lambda opening => simp [children, ofHeader, opening.nodes_eq]
  | block sequenced => simp [children, sequenced.nodes_eq]
  | _ => simp [children]

theorem Node.Form.ne_nil (h : n.Form ps) : ps ≠ [] := by
  cases h with
  | lambda opening => simp
  | _ => simp

/-! ### Where phrases stand -/

theorem Span.covers_token (t : Token) : t.span.Covers [t] := ⟨t, t, rfl, rfl, rfl⟩

theorem Span.Covers.ne_nil {s : Span} (h : s.Covers ts) : ts ≠ [] := by
  obtain ⟨first, last, head, -⟩ := h
  rintro rfl
  cases head

theorem Stands.append (h : Stands ps ts) (h' : Stands qs us) : Stands (ps ++ qs) (ts ++ us) := by
  induction h with
  | nil => exact h'
  | token _ ih => exact .token ih
  | node form inner covers _ _ ih =>
    rw [List.append_assoc]
    exact .node form inner covers ih
  | parens opening inner closing _ _ ih =>
    simp only [List.cons_append, List.append_assoc]
    exact .parens opening inner closing ih

theorem Stands.ne_nil (h : Stands ps ts) (there : ps ≠ []) : ts ≠ [] := by
  cases h with
  | nil => exact absurd rfl there
  | token | parens => nofun
  | node _ _ covers _ => exact fun none => covers.ne_nil (List.append_eq_nil_iff.1 none).1

theorem Stands.split {p : Part} (h : Stands (p :: ps) ts) : ∃ us vs, ts = us ++ vs ∧ Stands [p] us ∧ Stands ps vs := by
  cases h with
  | @token t _ vs others => exact ⟨[t], vs, rfl, .token .nil, others⟩
  | @node _ _ _ us vs form inner covers others =>
    refine ⟨us, vs, rfl, ?_, others⟩
    simpa using Stands.node form inner covers .nil
  | @parens _ left right _ us vs opening inner closing others =>
    exact ⟨left :: (us ++ [right]), vs, by simp, .parens opening inner closing .nil, others⟩

/-- A type stands in the tokens together with parentheses around it. -/
theorem Stands.enclosed {t : TypeExpr} (h : Stands [.mark .leftParen, .type t, .mark .rightParen] ts) :
    Stands [.type t] ts := by
  obtain ⟨left, rest, rfl, opening, others⟩ := h.split
  obtain ⟨us, right, rfl, inner, closing⟩ := others.split
  have single {k : Token.Kind} {vs : List Token} (h : Stands [.token k] vs) : ∃ t, vs = [t] ∧ t.kind = k := by
    cases h with
    | token none => cases none; exact ⟨_, rfl, rfl⟩
  obtain ⟨l, rfl, openingKind⟩ := single opening
  obtain ⟨r, rfl, closingKind⟩ := single closing
  exact .parens ⟨_, openingKind, rfl⟩ inner ⟨_, closingKind, rfl⟩ .nil

/-- Only types may have parentheses around them that are not theirs. -/
theorem Stands.covers {e : Expr} (h : Stands [.expr e] ts) : e.span.Covers ts := by
  generalize whole : [Part.expr e] = ps at h
  cases h with
  | node form inner covers others =>
    cases whole
    cases others
    rwa [List.append_nil]
  | _ => cases whole

/-- A phrase that is written in a part of the tokens is written in them. -/
theorem Node.Placed.within (h : n.Placed ts) (before after : List Token) : n.Placed (before ++ ts ++ after) := by
  obtain ⟨left, read, right, qs, rfl, placed⟩ := h
  exact ⟨before ++ left, read, right ++ after, qs, by simp only [List.append_assoc], placed⟩

theorem Stands.placed (h : Stands ps ts) (member : .node n ∈ ps) : n.Placed ts := by
  induction h with
  | nil => cases member
  | @token t ps ts _ ih =>
    rcases List.mem_cons.1 member with head | tail
    · cases head
    · simpa using (ih tail).within [t] []
  | @node m qs ps us ts form inner covers _ _ ih =>
    rcases List.mem_cons.1 member with head | tail
    · cases head
      exact ⟨[], us, ts, qs, rfl, form, inner, covers⟩
    · simpa using (ih tail).within us []
  | @parens t left right ps us ts _ _ _ _ inside ih =>
    rcases List.mem_cons.1 member with head | tail
    · cases head
      simpa using (inside (.head _)).within [left] (right :: ts)
    · simpa using (ih tail).within (left :: (us ++ [right])) []

/-- A node starts and ends with tokens of the phrase. -/
theorem Node.Placed.bounds (h : n.Placed ts) :
    (∃ t ∈ ts, n.span.start = t.span.start) ∧ ∃ t ∈ ts, n.span.stop = t.span.stop := by
  obtain ⟨before, read, after, qs, rfl, -, -, first, last, head, tail, span⟩ := h
  have member {t : Token} (h : t ∈ read) : t ∈ before ++ read ++ after := by simp [h]
  exact ⟨⟨first, member (List.mem_of_mem_head? head), by rw [span]; rfl⟩,
    last, member (List.mem_of_mem_getLast? tail), by rw [span]; rfl⟩

namespace Token.InOrder

theorem sublist (h : InOrder us) (part : ts.Sublist us) : InOrder ts :=
  ⟨fun t member => h.each t (part.subset member), h.ordered.sublist part⟩

theorem left (h : InOrder (ts ++ us)) : InOrder ts := h.sublist (List.sublist_append_left ts us)

theorem right (h : InOrder (ts ++ us)) : InOrder us := h.sublist (List.sublist_append_right ts us)

theorem between (h : InOrder (ts ++ us)) {t u : Token} (ht : t ∈ ts) (hu : u ∈ us) : t.span.stop ≤ u.span.start :=
  (List.pairwise_append.1 h.ordered).2.2 t ht u hu

/-- The first of the tokens starts before all of them. -/
theorem first_le (h : InOrder ts) {first t : Token} (head : ts.head? = some first) (ht : t ∈ ts) :
    first.span.start ≤ t.span.start := by
  obtain ⟨us, rfl⟩ := List.head?_eq_some_iff.1 head
  rcases List.mem_cons.1 ht with rfl | later
  · exact Nat.le_refl _
  · exact Nat.le_trans (h.each first (.head _)) ((List.pairwise_cons.1 h.ordered).1 t later)

/-- The last of the tokens ends behind all of them. -/
theorem le_last (h : InOrder ts) {last t : Token} (tail : ts.getLast? = some last) (ht : t ∈ ts) :
    t.span.stop ≤ last.span.stop := by
  obtain ⟨us, rfl⟩ := List.getLast?_eq_some_iff.1 tail
  rcases List.mem_append.1 ht with earlier | same
  · exact Nat.le_trans (h.between earlier (.head _)) (h.each last (by simp))
  · exact Nat.le_of_eq (by rw [List.mem_singleton.1 same])

end Token.InOrder

/-- The nodes of a phrase are written one after another. -/
theorem Stands.ordered (h : Stands ps ts) (order : Token.InOrder ts) :
    (nodes ps).Pairwise fun c d => c.span.stop ≤ d.span.start := by
  -- what stands behind a node starts with a token behind the last one of the node
  have behind {n : Node} {us vs : List Token} {ps : List Part} (first : n.Placed us) (others : Stands ps vs)
      (order : Token.InOrder (us ++ vs)) : ∀ d ∈ nodes ps, n.span.stop ≤ d.span.start := by
    intro d member
    obtain ⟨-, t, ht, stop⟩ := first.bounds
    obtain ⟨⟨u, hu, start⟩, -⟩ := (others.placed (mem_nodes.1 member)).bounds
    rw [stop, start]
    exact order.between ht hu
  induction h with
  | nil => exact .nil
  | @token t ps ts _ ih => exact ih (order.sublist (List.sublist_cons_self t ts))
  | @node m qs ps us ts form inner covers others _ ih =>
    have placed : m.Placed us := ⟨[], us, [], qs, (List.append_nil us).symm, form, inner, covers⟩
    exact List.pairwise_cons.2 ⟨behind placed others order, ih order.right⟩
  | @parens t left right ps us ts _ inner _ others _ ih =>
    have order' : Token.InOrder (us ++ right :: ts) := order.sublist (List.sublist_cons_self left _)
    have order'' : Token.InOrder (us ++ ts) :=
      order'.sublist ((List.Sublist.refl us).append (List.sublist_cons_self right ts))
    exact List.pairwise_cons.2 ⟨behind (inner.placed (.head _)) others order'', ih order''.right⟩

/-- A node that is written in tokens in order encloses what is inside of it. -/
theorem Node.Placed.encloses (h : n.Placed ts) (order : Token.InOrder ts) : n.Encloses := by
  obtain ⟨before, read, after, qs, rfl, form, inner, first, last, head, tail, span⟩ := h
  have inOrder : Token.InOrder read := order.left.right
  refine ⟨fun c member => ?_, ?_⟩
  · rw [← form.nodes_eq] at member
    obtain ⟨⟨t, ht, start⟩, u, hu, stop⟩ := (inner.placed (mem_nodes.1 member)).bounds
    rw [span, start, stop]
    exact ⟨inOrder.first_le head ht, inOrder.le_last tail hu⟩
  · rw [← form.nodes_eq]
    exact inner.ordered inOrder

end

end StackScript
