import StackScript.Proofs.Reading
import StackScript.Proofs.Regular
import StackScript.Proofs.Shaping
import StackScript.Session.Failure

/-!
Programs that are read from a text are well-formed. The names among the tokens of a text are identifiers, and so are those in
the tree; every function that is declared has one.
-/
namespace StackScript

/-! ### Tokens -/

namespace Token

/-- A name is an identifier. -/
def Kind.Worded : Kind → Prop
  | .name s => Text.isIdentifier s
  | _ => True

theorem Kind.Proper.worded {k : Kind} (h : k.Proper) : k.Worded := by
  cases k with
  | name s => exact h
  | _ => trivial

theorem next_worded {afterDot : Bool} {c c' : Cursor} {t : Token} (h : next afterDot c = .ok (t, c')) : t.kind.Worded := by
  unfold next at h
  dsimp only at h
  split at h
  · cases h
    trivial
  · next a r _ =>
    cases hl : lexeme afterDot a r with
    | mk result n =>
      simp only [hl] at h
      cases result with
      | error f => cases h
      | ok k =>
        cases h
        exact (lexeme_proper hl).worded

theorem scanFrom_worded : ∀ {fuel : Nat} {afterDot : Bool} {c : Cursor} {ts : List Token},
    scanFrom fuel afterDot c = .ok ts → ∀ t ∈ ts, t.kind.Worded
  | 0, _, _, _, h => by
    cases h
    exact List.forall_mem_singleton.2 trivial
  | fuel + 1, afterDot, c, ts, h => by
    unfold scanFrom at h
    cases hn : next afterDot c with
    | error e =>
      rw [hn] at h
      cases h
    | ok r =>
      obtain ⟨t, rest⟩ := r
      have worded := next_worded hn
      rw [hn] at h
      dsimp only [bind, Except.bind] at h
      split at h
      · cases h
        exact List.forall_mem_singleton.2 worded
      · cases hr : scanFrom fuel (t.kind = .mark .dot) rest with
        | error e =>
          rw [hr] at h
          cases h
        | ok us =>
          rw [hr] at h
          cases h
          exact List.forall_mem_cons.2 ⟨worded, scanFrom_worded hr⟩

end Token

/-! ### Trees -/

namespace Parser

/-- The names among the tokens that are left are identifiers. -/
def Worded (s : Stream) : Prop := ∀ t ∈ s.rest, t.kind.Worded

/-- What is read from such tokens. -/
def Reads {α : Type} (p : Parser α) (ok : α → Prop) : Prop := ∀ s, Worded s → p.Gives s fun a t => ok a ∧ Worded t

theorem Worded.head {s : Stream} (h : Worded s) : s.head.kind.Worded := by
  obtain ⟨rest, last⟩ := s
  cases rest with
  | nil => trivial
  | cons t r => exact h t (.head _)

theorem Worded.next {s : Stream} (h : Worded s) : Worded s.next := by
  obtain ⟨rest, last⟩ := s
  cases rest with
  | nil => exact h
  | cons t r =>
    unfold Stream.next
    dsimp only
    split
    · exact h
    · exact fun u hu => h u (.tail _ hu)

namespace Reads

variable {α β : Type} {p : Parser α} {f : α → Parser β} {ok : α → Prop} {ok' : β → Prop} {m : Mark}

theorem pure {a : α} (h : ok a) : Reads (Pure.pure a) ok := fun _ hs => gives_pure.2 ⟨h, hs⟩

theorem bind (hp : Reads p ok) (hf : ∀ a, ok a → Reads (f a) ok') : Reads (p >>= f) ok' := fun s hs =>
  gives_bind.2 ((hp s hs).imp fun a t ha => hf a ha.1 t ha.2)

/-- Nothing is known of what is read first. -/
theorem skip (hp : Reads p fun _ => True) (hf : ∀ a, Reads (f a) ok') : Reads (p >>= f) ok' := bind hp fun a _ => hf a

theorem imp {ok' : α → Prop} (hp : Reads p ok) (h : ∀ a, ok a → ok' a) : Reads p ok' := fun s hs =>
  (hp s hs).imp fun a _ ha => ⟨h a ha.1, ha.2⟩

theorem forget (hp : Reads p ok) : Reads p fun _ => True := hp.imp fun _ _ => trivial

theorem ite {c : Prop} [Decidable c] {q : Parser α} (hp : Reads p ok) (hq : Reads q ok) : Reads (if c then p else q) ok := by
  split
  · exact hp
  · exact hq

theorem fail {e : ParseError} : Reads (Parser.fail e) ok := fun _ _ => gives_fail.2 trivial

/-- Nothing is read after a failure. -/
theorem failing {e : ParseError} : Reads (Parser.fail e >>= f) ok' := bind (fail : Reads _ fun _ => False) fun _ h => h.elim

theorem tooDeep : Reads Parser.tooDeep ok := fun _ _ => gives_tooDeep.2 trivial

theorem unexpected {expected : String} : Reads (Parser.unexpected expected) ok := fun _ _ => gives_unexpected.2 trivial

theorem peek : Reads Parser.peek fun t => t.kind.Worded := fun _ hs => gives_peek.2 ⟨hs.head, hs⟩

theorem peekSecond : Reads Parser.peekSecond fun _ => True := fun _ hs => gives_peekSecond.2 fun _ _ => ⟨trivial, hs⟩

theorem here : Reads Parser.here fun _ => True := fun _ hs => gives_here.2 ⟨trivial, hs⟩

theorem last : Reads Parser.last fun _ => True := fun _ hs => gives_last.2 ⟨trivial, hs⟩

theorem upToLast {start : Span} : Reads (Parser.upToLast start) fun _ => True := fun _ hs => gives_upToLast.2 ⟨trivial, hs⟩

theorem advance : Reads Parser.advance fun _ => True := fun _ hs => gives_advance.2 ⟨trivial, hs.next⟩

theorem check {k : Token.Kind} : Reads (Parser.check k) fun _ => True := fun _ hs => gives_check.2 ⟨trivial, hs⟩

theorem accept : Reads (Parser.accept m) fun _ => True := fun _ hs =>
  gives_accept.2 ⟨fun _ => ⟨trivial, hs.next⟩, fun _ => ⟨trivial, hs⟩⟩

theorem acceptKeyword {k : Keyword} : Reads (Parser.acceptKeyword k) fun _ => True := fun _ hs =>
  gives_acceptKeyword.2 ⟨fun _ => ⟨trivial, hs.next⟩, fun _ => ⟨trivial, hs⟩⟩

theorem expectKind {k : Token.Kind} : Reads (Parser.expectKind k) fun _ => True := fun _ hs =>
  gives_expectKind.2 fun _ _ => ⟨trivial, hs.next⟩

theorem expect : Reads (Parser.expect m) fun _ => True := fun _ hs => gives_expect.2 fun _ => ⟨trivial, hs.next⟩

theorem expectName : Reads Parser.expectName fun name => Text.isIdentifier name := by
  refine bind peek fun t ht => ?_
  split
  · next name kind =>
    rw [kind] at ht
    exact skip advance fun _ => pure ht
  · exact fail
  · exact unexpected

/-! ### Types and parameters -/

theorem types_spec : ∀ n, Reads (type n) (fun t => t.isFormed) ∧ (∀ close, Reads (types n close) fun ts => TypeExpr.areFormed ts) ∧
    ∀ close, Reads (moreTypes n close) fun ts => TypeExpr.areFormed ts
  | 0 => by
    simp only [type, types, moreTypes]
    exact ⟨tooDeep, fun _ => tooDeep, fun _ => tooDeep⟩
  | n + 1 => by
    obtain ⟨type, types, more⟩ := types_spec n
    simp only [Parser.type, Parser.types, Parser.moreTypes]
    refine ⟨skip here fun start => skip accept fun list => ?_, fun close => skip accept fun done => ?_,
      fun close => bind type fun t ht => skip accept fun comma => ?_⟩
    · split
      · exact bind type fun _ h => skip expect fun _ => skip upToLast fun _ => pure h
      refine skip accept fun tuple => ?_
      split
      · refine bind (types _) fun ts h => ?_
        split
        · exact pure (Bool.and_eq_true_iff.1 h).1
        · exact skip upToLast fun _ => pure h
      refine skip acceptKeyword fun function => ?_
      split
      · exact skip expect fun _ => bind (types _) fun _ params => skip expect fun _ => bind type fun _ result =>
          skip upToLast fun _ => pure (Bool.and_eq_true_iff.2 ⟨params, result⟩)
      refine bind peek fun t ht => ?_
      split
      · next name kind =>
        rw [kind] at ht
        exact skip advance fun _ => pure ht
      · exact unexpected
    · split
      · exact pure rfl
      · exact more _
    · split
      · exact bind (more _) fun _ h => pure (Bool.and_eq_true_iff.2 ⟨ht, h⟩)
      · exact skip expect fun _ => pure (Bool.and_eq_true_iff.2 ⟨ht, rfl⟩)

theorem typeAfter (n : Nat) : Reads (Parser.typeAfter n m) fun t => t.all TypeExpr.isFormed := by
  refine skip accept fun there => ?_
  split
  · exact bind (types_spec n).1 fun _ h => pure h
  · exact pure rfl

theorem moreParams : ∀ n, Reads (Parser.moreParams n m) fun ps => ps.all Param.isFormed
  | 0 => tooDeep
  | n + 1 => by
    unfold Parser.moreParams
    refine skip here fun _ => bind expectName fun name named => bind (typeAfter n) fun type? written => skip upToLast fun _ =>
      skip accept fun comma => ?_
    have formed (span : Span) : (Param.mk name type? span).isFormed := Bool.and_eq_true_iff.2 ⟨named, written⟩
    split
    · exact bind (moreParams n) fun _ h => pure (Bool.and_eq_true_iff.2 ⟨formed _, h⟩)
    · exact skip expect fun _ => pure (Bool.and_eq_true_iff.2 ⟨formed _, rfl⟩)

theorem params (n : Nat) : Reads (Parser.params n m) fun ps => ps.all Param.isFormed := by
  refine skip accept fun done => ?_
  split
  · exact pure rfl
  · exact moreParams n

end Reads

/-! ### Expressions and statements -/

/-- What all parts of the parser read at a bound on their nesting. -/
structure Forms (n : Nat) : Prop where
  level : ∀ least, (level n least).Reads fun e => e.Formed
  operators : ∀ least left, left.Formed → (operators n least left).Reads fun e => e.Formed
  operand : (operand n).Reads fun e => e.Formed
  unaryFrom : ∀ op start, (unaryFrom n op start).Reads fun e => e.Formed
  lambdaFrom : ∀ ps start, ps.all Param.isFormed → (lambdaFrom n ps start).Reads fun e => e.Formed
  condFrom : ∀ start, (condFrom n start).Reads fun e => e.Formed ∧ e.isBraced
  block : (block n).Reads fun e => e.Formed ∧ e.isBlock
  blockFrom : ∀ start, (blockFrom n start).Reads fun e => e.Formed ∧ e.isBlock
  exprs : ∀ close, (exprs n close).Reads fun es => Expr.AllFormed es
  sequence : ∀ close, (sequence n close).Reads fun p => Stmt.AllFormed p.1 ∧ Expr.OptionFormed p.2
  binding : (binding n).Reads fun d => d.Formed
  function : (function n).Reads fun d => d.Formed

theorem formed_named {name : String} {e : Expr} (h : e.Formed) : (named name e).Formed := by
  cases e with
  | lambda header body span => exact h
  | _ => exact h

section

variable {n : Nat} (ih : Forms n)
include ih

theorem Forms.reads_operators (least : Nat) (left : Expr) (h : left.Formed) :
    (Parser.operators (n + 1) least left).Reads fun e => e.Formed := by
  rw [Parser.operators]
  refine .skip Reads.peek.forget fun t => ?_
  have postfixed {p : Parser Expr} (hp : p.Reads fun e => e.Formed) :
      (if Level.postfixes < least then pure left else p).Reads fun e => e.Formed := by
    split
    · exact .pure h
    · exact hp
  split
  · refine postfixed (.skip .advance fun _ => .bind (ih.exprs _) fun args hargs => .skip .upToLast fun _ =>
      ih.operators _ _ ?_)
    rw [Expr.Formed, Expr.every, h, hargs]
    rfl
  · refine postfixed (.skip .advance fun _ => .bind (ih.level _) fun position hp => .skip .expect fun _ =>
      .skip .upToLast fun _ => ih.operators _ _ ?_)
    rw [Expr.Formed, Expr.every, h, hp]
    rfl
  · refine postfixed (.skip .advance fun _ => .skip Reads.peek.forget fun u => ?_)
    split
    · exact .skip .advance fun _ => ih.operators _ _ h
    · exact .skip .last fun _ => .fail
    · exact .unexpected
  · split
    · split
      · exact .pure h
      · refine .skip .advance fun _ => .bind (ih.level _) fun right hr => ih.operators _ _ ?_
        rw [Expr.Formed, Expr.every, h, hr]
        rfl
    · exact .pure h
  · exact .pure h

theorem Forms.reads_operand : (Parser.operand (n + 1)).Reads fun e => e.Formed := by
  rw [Parser.operand]
  refine .bind Reads.peek fun t worded => ?_
  dsimp only
  split
  · exact .failing
  refine .skip .advance fun _ => ?_
  split
  · exact .pure rfl
  · exact .fail
  split
  · next name kind =>
    rw [kind] at worded
    exact .pure worded
  · refine .skip .accept fun unit => ?_
    split
    · exact .skip .upToLast fun _ => .pure rfl
    refine .bind (ih.level _) fun first h => .skip .accept fun group => ?_
    split
    · exact .skip .upToLast fun _ => .pure h
    refine .skip .expect fun _ => .bind (ih.exprs _) fun items hi => .skip .upToLast fun _ => .pure ?_
    rw [Expr.Formed, Expr.every, Expr.allEvery, h, hi]
    rfl
  · exact .bind (ih.exprs _) fun items hi => .skip .upToLast fun _ => .pure hi
  · exact (ih.blockFrom _).imp fun _ h => h.1
  · refine .skip Reads.peek.forget fun u => ?_
    split
    · exact .skip .advance fun _ => .skip .upToLast fun _ => .pure rfl
    · exact .fail
    · exact ih.unaryFrom _ _
  · exact ih.unaryFrom _ _
  · exact ih.unaryFrom _ _
  · exact .bind (.params n) fun ps h => ih.lambdaFrom _ _ h
  · exact ih.lambdaFrom _ _ rfl
  · exact .skip .expect fun _ => .bind (.params n) fun ps h => ih.lambdaFrom _ _ h
  · exact (ih.condFrom _).imp fun _ h => h.1
  · exact .fail

theorem Forms.reads_condFrom (start : Span) : (Parser.condFrom (n + 1) start).Reads fun e => e.Formed ∧ e.isBraced := by
  rw [Parser.condFrom]
  refine .bind (ih.level _) fun test ht => .bind ih.block fun yes hy => .skip .acceptKeyword fun other => ?_
  split
  · have whole (no : Expr) (h : no.Formed ∧ no.isBraced) (span : Span) :
        (Expr.cond test yes (some no) span).Formed ∧ (Expr.cond test yes (some no) span).isBraced := by
      refine ⟨?_, rfl⟩
      rw [Expr.Formed, Expr.every, Expr.optionEvery, Expr.hasForm, ht, hy.1, hy.2, h.1, Option.all_some, h.2]
      rfl
    refine .skip .here fun next => .skip .acceptKeyword fun again => ?_
    split
    · exact .bind (ih.condFrom _) fun no h => .skip .upToLast fun _ => .pure (whole no h _)
    · exact .bind ih.block fun no h => .skip .upToLast fun _ => .pure (whole no ⟨h.1, Expr.isBraced_of_isBlock h.2⟩ _)
  · refine .skip .upToLast fun _ => .pure ⟨?_, rfl⟩
    rw [Expr.Formed, Expr.every, Expr.optionEvery, Expr.hasForm, ht, hy.1, hy.2]
    rfl

theorem Forms.reads_exprs (close : Mark) : (Parser.exprs (n + 1) close).Reads fun es => Expr.AllFormed es := by
  rw [Parser.exprs]
  refine .skip .accept fun done => ?_
  split
  · exact .pure rfl
  refine .bind (ih.level _) fun e h => .skip .accept fun comma => ?_
  split
  · exact .bind (ih.exprs _) fun es hes => .pure (Bool.and_eq_true_iff.2 ⟨h, hes⟩)
  · exact .skip .expect fun _ => .pure (Bool.and_eq_true_iff.2 ⟨h, rfl⟩)

theorem Forms.reads_sequence (close : Token.Kind) : (Parser.sequence (n + 1) close).Reads fun p =>
    Stmt.AllFormed p.1 ∧ Expr.OptionFormed p.2 := by
  have more (d : Stmt) (h : d.Formed) : (Parser.sequence n close >>= fun p => pure (d :: p.1, p.2)).Reads fun p =>
      Stmt.AllFormed p.1 ∧ Expr.OptionFormed p.2 :=
    .bind (ih.sequence close) fun p hp => .pure ⟨Bool.and_eq_true_iff.2 ⟨h, hp.1⟩, hp.2⟩
  rw [Parser.sequence]
  refine .skip Reads.peek.forget fun t => ?_
  split
  · exact .pure ⟨rfl, rfl⟩
  dsimp only
  split
  · exact .failing
  refine .skip .accept fun empty => ?_
  split
  · exact ih.sequence close
  split
  · exact .bind ih.binding fun d h => more d h
  refine .skip .peekSecond fun second => .ite ?_ ?_
  · exact .bind ih.function fun d h => more d h
  refine .bind (ih.level _) fun e h => .skip .accept fun ends => ?_
  split
  · exact .skip .upToLast fun span => more (.expr e span) h
  refine .skip .check fun closed => ?_
  split
  · exact .pure ⟨rfl, h⟩
  split
  · exact more (.expr e e.span) h
  · exact .unexpected

end

/-- Whatever the bound, what is read is well-formed. -/
theorem forms : ∀ n, Forms n
  | 0 => by
    constructor <;> intros
    all_goals simp only [Parser.level, Parser.operators, Parser.operand, Parser.unaryFrom, Parser.lambdaFrom, Parser.condFrom,
      Parser.block, Parser.blockFrom, Parser.exprs, Parser.sequence, Parser.binding, Parser.function]
    all_goals exact .tooDeep
  | n + 1 => {
      level := fun least => .bind (forms n).operand fun left h => (forms n).operators least left h
      operators := fun least left h => (forms n).reads_operators least left h
      operand := (forms n).reads_operand
      unaryFrom := fun op start => .bind ((forms n).level _) fun e h => .pure h
      lambdaFrom := fun ps start formed => .bind (.typeAfter n) fun _ result => .bind ((forms n).level _) fun body h =>
        .pure (Bool.and_eq_true_iff.2 ⟨Bool.and_eq_true_iff.2 ⟨formed, result⟩, h⟩)
      condFrom := fun start => (forms n).reads_condFrom start
      block := .skip .expect fun _ => (forms n).blockFrom _
      blockFrom := fun start => .bind ((forms n).sequence _) fun p h => .skip .expect fun _ => .skip .upToLast fun _ =>
        .pure ⟨Bool.and_eq_true_iff.2 h, rfl⟩
      exprs := fun close => (forms n).reads_exprs close
      sequence := fun close => (forms n).reads_sequence close
      binding := .skip .expectKind fun _ => .bind .expectName fun name named => .bind (.typeAfter n) fun _ written =>
        .skip .expect fun _ => .bind ((forms n).level _) fun e h => .skip .expect fun _ => .skip .upToLast fun _ =>
          .pure (Bool.and_eq_true_iff.2 ⟨Bool.and_eq_true_iff.2 ⟨named, written⟩, formed_named h⟩)
      function := .skip .expectKind fun _ => .bind .expectName fun name named => .skip .expect fun _ =>
        .bind (.params n) fun ps params => .bind (.typeAfter n) fun _ result => .bind (forms n).block fun body h =>
          .skip .upToLast fun _ => .pure (Bool.and_eq_true_iff.2 ⟨Bool.and_eq_true_iff.2 ⟨Bool.and_eq_true_iff.2 ⟨named,
            Bool.and_eq_true_iff.2 ⟨params, result⟩⟩, h.2⟩, h.1⟩) }

end Parser

/-- A program that is read from a text is well-formed. -/
theorem Program.formed_of_read {source : String} {p : Program} (h : read source = .ok p) :
    Stmt.AllFormed p.statements ∧ Expr.OptionFormed p.value := by
  unfold read at h
  cases ht : Token.scan source with
  | error e =>
    rw [ht] at h
    cases h
  | ok tokens =>
    rw [ht] at h
    dsimp only at h
    cases hr : (Parser.sequence (nesting tokens) .endOfInput).run ⟨tokens, {}⟩ with
    | error e =>
      rw [ofTokens, hr] at h
      cases h
    | ok r =>
      rw [ofTokens, hr] at h
      cases h
      exact ((Parser.forms _).sequence .endOfInput ⟨tokens, {}⟩ (Token.scanFrom_worded ht) r.1 r.2 hr).1

/-- In a program that is read from a text, every function has a name. -/
theorem Program.named_of_read {source : String} {p : Program} (h : read source = .ok p) :
    Stmt.allNest Header.isNamed p.statements ∧ Expr.optionNests Header.isNamed p.value :=
  ⟨Stmt.allNest_of_formed _ (formed_of_read h).1, Expr.optionNests_of_formed _ (formed_of_read h).2⟩

/-! ### Requirements on functions in trees -/

section

variable {ι : Type} {p : ι → Header → Bool} {q : Header → Bool}

theorem Header.passes_of (imp : ∀ h, (∀ i, p i h) → q h) : ∀ r : Except CompileError Header, (∀ i, passes (p i) r) → passes q r
  | .ok h, hr => imp h hr
  | .error _, _ => rfl

mutual

/-- What is required of each function follows for a tree if it does for one function. -/
theorem Expr.nests_of (imp : ∀ h, (∀ i, p i h) → q h) : ∀ e : Expr, (∀ i, e.nests (p i)) → e.nests q
  | .literal _ _, _ | .variable _ _, _ => rfl
  | .group e _, h | .unary _ e _, h | .field e _ _, h => by
    simp only [Expr.nests] at h ⊢
    exact Expr.nests_of imp e h
  | .lambda _ body _, h => by
    simp only [Expr.nests] at h ⊢
    exact Expr.nests_of imp body h
  | .tuple es _, h | .list es _, h => by
    simp only [Expr.nests] at h ⊢
    exact Expr.allNest_of imp es h
  | .binary _ a b _, h | .index a b _, h => by
    simp only [Expr.nests, Bool.and_eq_true, forall_and] at h ⊢
    exact ⟨Expr.nests_of imp a h.1, Expr.nests_of imp b h.2⟩
  | .call f args _, h => by
    simp only [Expr.nests, Bool.and_eq_true, forall_and] at h ⊢
    exact ⟨Expr.nests_of imp f h.1, Expr.allNest_of imp args h.2⟩
  | .block ss value _, h => by
    simp only [Expr.nests, Bool.and_eq_true, forall_and] at h ⊢
    exact ⟨Stmt.allNest_of imp ss h.1, Expr.optionNests_of imp value h.2⟩
  | .cond test yes no _, h => by
    simp only [Expr.nests, Bool.and_eq_true, forall_and] at h ⊢
    exact ⟨⟨Expr.nests_of imp test h.1.1, Expr.nests_of imp yes h.1.2⟩, Expr.optionNests_of imp no h.2⟩

theorem Expr.allNest_of (imp : ∀ h, (∀ i, p i h) → q h) : ∀ es : List Expr, (∀ i, Expr.allNest (p i) es) → Expr.allNest q es
  | [], _ => rfl
  | e :: es, h => by
    simp only [Expr.allNest, Bool.and_eq_true, forall_and] at h ⊢
    exact ⟨Expr.nests_of imp e h.1, Expr.allNest_of imp es h.2⟩

theorem Expr.optionNests_of (imp : ∀ h, (∀ i, p i h) → q h) :
    ∀ e : Option Expr, (∀ i, Expr.optionNests (p i) e) → Expr.optionNests q e
  | none, _ => rfl
  | some e, h => by
    simp only [Expr.optionNests] at h ⊢
    exact Expr.nests_of imp e h

theorem Stmt.nests_of (imp : ∀ h, (∀ i, p i h) → q h) : ∀ s : Stmt, (∀ i, s.nests (p i)) → s.nests q
  | .expr e _, h => by
    simp only [Stmt.nests] at h ⊢
    exact Expr.nests_of imp e h
  | .function header body _, h => by
    simp only [Stmt.nests, Bool.and_eq_true, forall_and] at h ⊢
    exact ⟨imp header h.1, Expr.nests_of imp body h.2⟩
  | .bind name written (.lambda header body _) _, h => by
    simp only [Stmt.nests, Bool.and_eq_true, forall_and] at h ⊢
    exact ⟨Header.passes_of imp _ h.1, Expr.nests_of imp body h.2⟩
  | .bind _ _ (.variable _ _) _, h | .bind _ _ (.literal _ _) _, h | .bind _ _ (.unary _ _ _) _, h
  | .bind _ _ (.field _ _ _) _, h | .bind _ _ (.binary _ _ _ _) _, h | .bind _ _ (.index _ _ _) _, h
  | .bind _ _ (.call _ _ _) _, h | .bind _ _ (.tuple _ _) _, h | .bind _ _ (.list _ _) _, h
  | .bind _ _ (.block _ _ _) _, h | .bind _ _ (.cond _ _ _ _) _, h | .bind _ _ (.group _ _) _, h => by
    simp only [Stmt.nests] at h ⊢
    exact Expr.nests_of imp _ h

theorem Stmt.allNest_of (imp : ∀ h, (∀ i, p i h) → q h) : ∀ ss : List Stmt, (∀ i, Stmt.allNest (p i) ss) → Stmt.allNest q ss
  | [], _ => rfl
  | s :: ss, h => by
    simp only [Stmt.allNest, Bool.and_eq_true, forall_and] at h ⊢
    exact ⟨Stmt.nests_of imp s h.1, Stmt.allNest_of imp ss h.2⟩

end

theorem Stmt.nestsBelow_of (imp : ∀ h, (∀ i, p i h) → q h) : ∀ s : Stmt, (∀ i, s.nestsBelow (p i)) → s.nestsBelow q
  | .function _ e _, h | .bind _ _ e _, h | .expr e _, h => Expr.nests_of imp e h

theorem Program.nests_of (imp : ∀ h, (∀ i, p i h) → q h) {program : Program} (h : ∀ i, program.nests (p i)) :
    program.nests q := by
  simp only [nests, Bool.and_eq_true, List.all_eq_true, forall_and] at h ⊢
  exact ⟨fun s hs => s.nestsBelow_of imp fun i => h.1 i s hs, Expr.optionNests_of imp _ h.2⟩

theorem Stmt.nestsBelow_of_nests {s : Stmt} (h : s.nests q) : s.nestsBelow q := by
  unfold nests at h
  split at h
  · exact h
  · exact (Bool.and_eq_true_iff.1 h).2
  · exact h
  · exact (Bool.and_eq_true_iff.1 h).2

theorem Program.nests_of_allNest : ∀ {ss : List Stmt}, Stmt.allNest q ss → ss.all (Stmt.nestsBelow q)
  | [], _ => rfl
  | _ :: _, h => by
    rw [Stmt.allNest, Bool.and_eq_true] at h
    rw [List.all_cons, Stmt.nestsBelow_of_nests h.1, nests_of_allNest h.2, Bool.and_self]

end

/-! ### Functions that may be compiled -/

/-- Unless we are strict, anything may stand inside a function. -/
theorem Expr.nests_lenient (e : Expr) : e.nests (Header.isAdmitted false) :=
  Expr.nests_of (p := fun i : Empty => i.elim) (fun _ _ => rfl) e nofun

theorem Stmt.allNest_lenient (ss : List Stmt) : allNest (Header.isAdmitted false) ss :=
  Stmt.allNest_of (p := fun i : Empty => i.elim) (fun _ _ => rfl) ss nofun

theorem Program.nests_lenient (program : Program) : program.nests (Header.isAdmitted false) :=
  nests_of (p := fun i : Empty => i.elim) (fun _ _ => rfl) nofun

/-- A program that is read from a text can be compiled: strictly so if its functions inside others have no open
parameters. -/
theorem Program.nests_admitted {source : String} {program : Program} {strict : Bool} (h : read source = .ok program)
    (specific : strict → program.nests Header.isSpecific) : program.nests (Header.isAdmitted strict) := by
  cases strict with
  | false => exact program.nests_lenient
  | true =>
    obtain ⟨statements, value⟩ := named_of_read h
    have named : program.nests Header.isNamed := Bool.and_eq_true_iff.2 ⟨nests_of_allNest statements, value⟩
    refine nests_of (p := fun i : Bool => if i then Header.isSpecific else Header.isNamed) (fun header both => ?_) fun i => ?_
    · exact Bool.and_eq_true_iff.2 ⟨both true, both false⟩
    · cases i with
      | true => exact specific rfl
      | false => exact named

end StackScript
