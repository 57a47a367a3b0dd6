import StackScript.Proofs.Rereading
import StackScript.Proofs.Wording

/-!
Displayed programs are read back. If its parts can be told apart, the text of a program tells the program up to where it was written,
groups and the names of lambdas; so programs that are displayed alike are alike.
-/
namespace StackScript

namespace Display

open Text (isDigit isIdentifier)
open TypeExpr (leading)

section

variable (atom : List Char → Expr)

/-- The text of a statement and what separates it from the next one are read as the statement. -/
def RereadStmt (s : Stmt) : Prop := ∀ ⦃n : Nat⦄ ⦃c : Char⦄ ⦃r : List Char⦄, c = ' ' ∨ c = '\n' → 4 * sizeOf s < n →
  sequence atom (n + 1) (s.text.toList ++ c :: r) = (sequence atom n r).map fun x => (s.bare :: x.1, x.2)

/-- Statements, each with what separates it from the next one. -/
def lines (c : Char) (ss : List Stmt) : List Char := ss.flatMap fun s => s.text.toList ++ [c]

def RereadStmts (ss : List Stmt) : Prop := ∀ ⦃n : Nat⦄ ⦃c : Char⦄ ⦃r : List Char⦄ ⦃x : List Stmt × Option Expr × List Char⦄,
  c = ' ' ∨ c = '\n' → 4 * sizeOf ss < n → (∀ m, n ≤ m + 4 * sizeOf ss → sequence atom m r = some x) →
    sequence atom n (lines c ss ++ r) = some (Stmt.bares ss ++ x.1, x.2)

/-- A value with what is behind it. -/
def valueLine (c : Char) : Option Expr → List Char
  | some e => e.text.toList ++ [c]
  | none => []

/-- The end of a block or of the whole text. -/
def Ended (r : List Char) : Prop := r = [] ∨ ∃ t, r = '\x7d' :: t

def RereadValue (value : Option Expr) : Prop := ∀ ⦃n : Nat⦄ ⦃c : Char⦄ ⦃r : List Char⦄, c = ' ' ∨ c = '\n' → 4 * sizeOf value < n →
  Ended r → sequence atom n (valueLine c value ++ r) = some ([], Expr.bareOption value, r)

end

variable {atom : List Char → Expr} {e d body test yes no : Expr} {h : Header} {ss : List Stmt} {value : Option Expr} {s : Stmt}
  {span : Span} {n : Nat} {r : List Char}

/-! ### Lambdas -/

/-- No expression begins with an arrow. -/
theorem Reread.no_arrow (h : Reread atom e) (closes : Closes r) : ¬ ['-', '>', ' '] <+: e.text.toList ++ r := by
  rintro ⟨t, ht⟩
  cases he : e.text.toList with
  | nil =>
    obtain ⟨c, u, rfl, mark, -⟩ := closes
    rw [he] at ht
    obtain ⟨rfl, -⟩ := List.cons.inj ht
    exact absurd mark (by decide)
  | cons c u =>
    rw [he, List.cons_append, List.cons_append] at ht
    obtain ⟨rfl, rest⟩ := List.cons.inj ht
    obtain ⟨⟨d, ds, rfl, digit⟩, -⟩ := h.unsigned he
    rw [List.cons_append] at rest
    obtain ⟨rfl, -⟩ := List.cons.inj rest
    exact absurd digit (by decide)

theorem lambda_toList : (Expr.lambda h body span).text.toList =
    '|' :: ((Param.texts h.params).toList ++ '|' :: ' ' :: (leading ['-', '>', ' '] h.result? ++
      (if h.result?.isSome then ' ' :: body.text.toList else body.text.toList))) := by
  obtain ⟨name, ps, result?, hspan⟩ := h
  cases result? with
  | none =>
    change ("|" ++ Param.texts ps ++ "| " ++ "" ++ body.text).toList = _
    simp [leading]
  | some t =>
    change ("|" ++ Param.texts ps ++ "| " ++ ("-> " ++ t.text ++ " ") ++ body.text).toList = _
    simp [leading]

theorem head_bar : head atom (n + 1) ('|' :: r) = (params n r).bind fun x =>
    (typeAfter n ['-', '>', ' '] (x.2.drop 1)).bind fun y =>
      (expr atom n (if y.1.isSome then y.2.drop 1 else y.2)).bind fun z => some (.lambda ⟨"", x.1, y.1, {}⟩ z.1 {}, z.2) := rfl

theorem reread_lambda (formed : h.isFormed) (inner : Reread atom body) : Reread atom (.lambda h body span) := by
  have size : sizeOf (Expr.lambda h body span) = 1 + sizeOf h + sizeOf body + sizeOf span := Expr.lambda.sizeOf_spec ..
  refine .of_plain Bool.false_ne_true ⟨_, _, lambda_toList, by decide⟩ fun {n r} bound follows => ?_
  -- a lambda takes no postfix, its body would
  have closes : Closes r := follows.resolve_right fun ⟨_, _, _, _, takes⟩ => absurd takes (by rw [Expr.takes]; decide)
  obtain ⟨name, ps, result?, hspan⟩ := h
  rw [Header.mk.sizeOf_spec] at size
  rw [Header.isFormed, Bool.and_eq_true] at formed
  rw [lambda_toList]
  simp only [List.append_assoc, List.cons_append]
  obtain ⟨n, rfl⟩ : ∃ k, n = k + 1 := ⟨n - 1, by omega⟩
  have last := inner.closed (n := n) (r := r) (by omega) closes
  rw [head_bar, params_text ps formed.1 (.inr rfl) (by omega), Option.bind_some]
  simp only [List.drop_succ_cons, List.drop_zero]
  cases result? with
  | none =>
    have read := typeAfter_text ['-', '>', ' '] none rfl (n := n) (by omega) (by simp) fun _ => inner.no_arrow closes
    simp only [Option.isSome_none, Bool.false_eq_true, if_false, read, Option.map_none, Option.bind_some, last]
    rfl
  | some t =>
    have read := typeAfter_text ['-', '>', ' '] (some t) (r := ' ' :: (body.text.toList ++ r)) formed.2 (n := n) (by omega)
      (fun _ => .of_mem (by decide)) (by simp)
    simp only [Option.isSome_some, if_true, List.cons_append, read, Option.map_some, Option.bind_some, List.drop_succ_cons,
      List.drop_zero, last]
    rfl

/-! ### Blocks and conditionals -/

theorem blockTexts_toList (ss : List Stmt) : (blockTexts ss).toList = lines ' ' ss := by
  induction ss with
  | nil => rfl
  | cons s ss ih =>
    change (s.text ++ " " ++ blockTexts ss).toList = _
    simp [ih, lines]

theorem block_toList : (Expr.block ss value span).text.toList =
    '\x7b' :: ' ' :: (lines ' ' ss ++ (valueLine ' ' value ++ ['\x7d'])) := by
  cases value with
  | none =>
    change ("\x7b " ++ blockTexts ss ++ "\x7d").toList = _
    simp [blockTexts_toList, valueLine]
  | some e =>
    change ("\x7b " ++ blockTexts ss ++ e.text ++ " \x7d").toList = _
    simp [blockTexts_toList, valueLine]

theorem head_block (statements : RereadStmts atom ss) (last : RereadValue atom value)
    (bound : 4 * sizeOf (Expr.block ss value span) < n + 1) :
    head atom n ((Expr.block ss value span).text.toList ++ r) = some ((Expr.block ss value span).bare, r) := by
  rw [Expr.block.sizeOf_spec] at bound
  obtain ⟨n, rfl⟩ : ∃ k, n = k + 1 := ⟨n - 1, by omega⟩
  have read := statements (n := n) (r := valueLine ' ' value ++ '\x7d' :: r) (.inl rfl) (by omega) fun m left =>
    last (.inl rfl) (by omega) (.inr ⟨r, rfl⟩)
  have shape : (Expr.block ss value span).text.toList ++ r =
      '\x7b' :: ' ' :: (lines ' ' ss ++ (valueLine ' ' value ++ '\x7d' :: r)) := by
    rw [block_toList]
    simp
  rw [shape]
  change ((sequence atom n (lines ' ' ss ++ _)).bind fun x => some (Expr.block x.1 x.2.1 {}, x.2.2.drop 1)) = _
  rw [read]
  simp [Expr.bare]

theorem reread_block (statements : RereadStmts atom ss) (last : RereadValue atom value) : Reread atom (.block ss value span) :=
  .of_head ⟨_, _, block_toList, by decide⟩ (fun bound _ => head_block statements last bound) fun _ _ _ bound _ =>
    head_block statements last bound

/-- The other branch of a conditional. -/
def otherwise : Option Expr → List Char
  | some no => ' ' :: 'e' :: 'l' :: 's' :: 'e' :: ' ' :: no.text.toList
  | none => []

theorem cond_toList : (Expr.cond test yes value span).text.toList =
    'i' :: 'f' :: ' ' :: (test.text.toList ++ ' ' :: (yes.text.toList ++ otherwise value)) := by
  cases value with
  | none =>
    change ("if " ++ test.text ++ " " ++ yes.text).toList = _
    simp [otherwise]
  | some no =>
    change ("if " ++ test.text ++ " " ++ yes.text ++ " else " ++ no.text).toList = _
    simp [otherwise]

/-- A block begins with its brace. -/
theorem closes_block (h : e.isBlock) : Closes (' ' :: (e.text.toList ++ r)) := by
  cases e with
  | block ss value span =>
    rw [block_toList]
    exact .blank (by decide)
  | _ => cases h

theorem head_cond (condition : Reread atom test) (first : Reread atom yes) (second : ∀ no ∈ value, Reread atom no)
    (block : yes.isBlock) (braced : value.all Expr.isBraced) (bound : 4 * sizeOf (Expr.cond test yes value span) < n + 1)
    (alone : Alone r) :
    head atom n ((Expr.cond test yes value span).text.toList ++ r) = some ((Expr.cond test yes value span).bare, r) := by
  rw [Expr.cond.sizeOf_spec] at bound
  obtain ⟨n, rfl⟩ : ∃ k, n = k + 2 := ⟨n - 2, by omega⟩
  have shape : (Expr.cond test yes value span).text.toList ++ r =
      'i' :: 'f' :: ' ' :: (test.text.toList ++ ' ' :: (yes.text.toList ++ (otherwise value ++ r))) := by
    rw [cond_toList]
    simp
  -- the block behind the test closes it, and the braces of a branch tell where that ends
  have read := condition.closed (n := n) (by omega) (closes_block (r := otherwise value ++ r) block)
  have branch := first.braced (Expr.isBraced_of_isBlock block) (n := n) (r := otherwise value ++ r) (by omega) (.inl block)
  rw [shape]
  change cond atom (n + 1) (test.text.toList ++ _) = _
  rw [cond, read]
  simp only [Option.bind_eq_bind, Option.bind_some, List.drop_succ_cons, List.drop_zero, branch]
  cases value with
  | none =>
    simp only [otherwise, List.nil_append]
    split
    · next t => exact absurd rfl (alone t)
    · rfl
  | some no =>
    rw [Option.some.sizeOf_spec] at bound
    have other := (second no rfl).braced braced (n := n) (r := r) (by omega) (.inr alone)
    simp only [otherwise, List.cons_append, List.drop_succ_cons, List.drop_zero, other]
    rfl

theorem reread_cond (condition : Reread atom test) (first : Reread atom yes) (second : ∀ no ∈ value, Reread atom no)
    (block : yes.isBlock) (braced : value.all Expr.isBraced) : Reread atom (.cond test yes value span) :=
  .of_head ⟨_, _, cond_toList, by decide⟩
    (fun bound follows => head_cond condition first second block braced bound follows.alone) fun _ _ _ bound alone =>
      head_cond condition first second block braced bound (alone.resolve_left nofun)

/-! ### Statements -/

theorem expr_let {t : List Char} : expr atom n ('l' :: 'e' :: 't' :: ' ' :: t) = none := by
  rcases n with - | - | n <;> rfl

theorem expr_fn {t : List Char} : expr atom n ('f' :: 'n' :: ' ' :: t) = none := by
  rcases n with - | - | n <;> rfl

theorem rereadStmt_expr (inner : Reread atom e) : RereadStmt atom (.expr e span) := by
  intro n c r mark bound
  rw [Stmt.expr.sizeOf_spec] at bound
  have read := inner.closed (n := n) (r := ';' :: c :: r) (by omega) (.of_mem (by decide))
  simp only [Stmt.text, String.toList_append, String.reduceToList, List.append_assoc, List.cons_append, List.nil_append]
  rw [sequence, read]
  cases hs : sequence atom n r with
  | none => simp [hs]
  | some x => simp [hs, Stmt.bare]

/-- What is read is a binding or a function. -/
theorem rereadStmt_of_stmt (no : ∀ {n : Nat} {r : List Char}, expr atom n (s.text.toList ++ r) = none)
    (read : ∀ {n : Nat} {c : Char} {r : List Char}, c = ' ' ∨ c = '\n' → 4 * sizeOf s < n →
      stmt atom n (s.text.toList ++ c :: r) = some (s.bare, c :: r)) : RereadStmt atom s := by
  intro n c r mark bound
  rw [sequence, no]
  dsimp only
  rw [read mark bound]
  cases hs : sequence atom n r with
  | none => simp [hs]
  | some x => simp [hs]

theorem stmt_let {cs : List Char} : stmt atom (n + 1) ('l' :: 'e' :: 't' :: ' ' :: cs) =
    (typeAfter n [':', ' '] (word cs).2).bind fun x => (expr atom n (x.2.drop 3)).bind fun y =>
      some (.bind (String.ofList (word cs).1) x.1 y.1 {}, y.2.drop 1) := rfl

theorem stmt_fn {cs : List Char} : stmt atom (n + 1) ('f' :: 'n' :: ' ' :: cs) =
    (params n ((word cs).2.drop 1)).bind fun x => (typeAfter n [' ', '-', '>', ' '] x.2).bind fun y =>
      (head atom n (y.2.drop 1)).bind fun z => some (.function ⟨String.ofList (word cs).1, x.1, y.1, {}⟩ z.1 {}, z.2) := rfl

theorem rereadStmt_bind {name : String} {type? : Option TypeExpr} (named : isIdentifier name) (formed : type?.all TypeExpr.isFormed)
    (inner : Reread atom e) : RereadStmt atom (.bind name type? e span) := by
  have shape (r : List Char) : (Stmt.bind name type? e span).text.toList ++ r = 'l' :: 'e' :: 't' :: ' ' ::
      (name.toList ++ (leading [':', ' '] type? ++ ' ' :: '=' :: ' ' :: (e.text.toList ++ ';' :: r))) := by
    cases type? <;> simp [Stmt.text, leading]
  refine rereadStmt_of_stmt (fun {n r} => by rw [shape]; exact expr_let) fun {n c r} mark bound => ?_
  rw [Stmt.bind.sizeOf_spec] at bound
  obtain ⟨n, rfl⟩ : ∃ k, n = k + 1 := ⟨n - 1, by omega⟩
  have split : word (name.toList ++ (leading [':', ' '] type? ++ ' ' :: '=' :: ' ' :: (e.text.toList ++ ';' :: c :: r))) =
      (name.toList, leading [':', ' '] type? ++ ' ' :: '=' :: ' ' :: (e.text.toList ++ ';' :: c :: r)) := by
    refine word_append (Text.identifier_cases named).2.1 fun c hc => ?_
    cases type? <;> cases hc <;> decide
  have type := typeAfter_text [':', ' '] type? (r := ' ' :: '=' :: ' ' :: (e.text.toList ++ ';' :: c :: r)) formed (n := n)
    (by omega) (fun _ => .of_mem (by decide)) fun _ => by simp
  have value := inner.closed (n := n) (r := ';' :: c :: r) (by omega) (.of_mem (by decide))
  rw [shape, stmt_let, split]
  simp [type, value, Stmt.bare]

theorem rereadStmt_function (named : isIdentifier h.name) (formed : h.isFormed) (block : e.isBlock) (inner : Reread atom e) :
    RereadStmt atom (.function h e span) := by
  obtain ⟨name, ps, result?, hspan⟩ := h
  dsimp only at named
  rw [Header.isFormed, Bool.and_eq_true] at formed
  have shape (r : List Char) : (Stmt.function ⟨name, ps, result?, hspan⟩ e span).text.toList ++ r = 'f' :: 'n' :: ' ' ::
      (name.toList ++ '(' :: ((Param.texts ps).toList ++
        ')' :: (leading [' ', '-', '>', ' '] result? ++ ' ' :: (e.text.toList ++ r)))) := by
    cases result? <;> simp [Stmt.text, leading]
  refine rereadStmt_of_stmt (fun {n r} => by rw [shape]; exact expr_fn) fun {n c r} mark bound => ?_
  rw [Stmt.function.sizeOf_spec, Header.mk.sizeOf_spec] at bound
  obtain ⟨n, rfl⟩ : ∃ k, n = k + 1 := ⟨n - 1, by omega⟩
  have split (t : List Char) : word (name.toList ++ '(' :: t) = (name.toList, '(' :: t) :=
    word_append (Text.identifier_cases named).2.1 fun c hc => by cases hc; decide
  have params := params_text ps formed.1 (n := n) (r := leading [' ', '-', '>', ' '] result? ++ ' ' :: (e.text.toList ++ c :: r))
    (.inl rfl) (by omega)
  have result := typeAfter_text [' ', '-', '>', ' '] result? (r := ' ' :: (e.text.toList ++ c :: r)) formed.2
    (n := n) (by omega) (fun _ => .of_mem (by decide)) fun _ => by
      cases e with
      | block ss value span =>
        rw [block_toList]
        simp
      | _ => cases block
  have body := inner.braced (Expr.isBraced_of_isBlock block) (n := n) (r := c :: r) (by omega) (.inl block)
  rw [shape, stmt_fn, split]
  simp [params, result, body, Stmt.bare, Header.bare]

theorem rereadStmts_nil : RereadStmts atom [] := by
  intro n c r x mark bound rest
  exact rest n (by omega)

theorem rereadStmts_cons (first : RereadStmt atom s) (others : RereadStmts atom ss) : RereadStmts atom (s :: ss) := by
  intro n c r x mark bound rest
  rw [List.cons.sizeOf_spec] at bound rest
  obtain ⟨n, rfl⟩ : ∃ k, n = k + 1 := ⟨n - 1, by omega⟩
  have read := others (n := n) (r := r) (x := x) mark (by omega) fun m left => rest m (by omega)
  have shape : lines c (s :: ss) ++ r = s.text.toList ++ c :: (lines c ss ++ r) := by
    simp [lines]
  rw [shape, first mark (by omega), read]
  rfl

theorem expr_ended (h : Ended r) : expr atom n r = none := by
  rcases h with rfl | ⟨t, rfl⟩
  · exact expr_nil
  · exact expr_none (by decide)

theorem rereadValue_none : RereadValue atom none := by
  intro n c r mark bound ended
  obtain ⟨n, rfl⟩ : ∃ k, n = k + 1 := ⟨n - 1, by omega⟩
  have no : stmt atom n r = none := by
    rcases ended with rfl | ⟨t, rfl⟩ <;> cases n <;> rfl
  rw [valueLine, List.nil_append, sequence, expr_ended ended]
  simp [no, Expr.bareOption]

theorem rereadValue_some (inner : Reread atom e) : RereadValue atom (some e) := by
  intro n c r mark bound ended
  rw [Option.some.sizeOf_spec] at bound
  obtain ⟨n, rfl⟩ : ∃ k, n = k + 1 := ⟨n - 1, by omega⟩
  have closes : Closes (c :: r) := by
    rcases mark with rfl | rfl
    · rcases ended with rfl | ⟨t, rfl⟩
      · exact ⟨' ', [], rfl, by decide, fun _ => nofun⟩
      · exact .blank (by decide)
    · exact .of_mem (by decide)
  rw [valueLine, List.append_assoc, List.singleton_append, sequence, inner.closed (by omega) closes]
  rcases mark with rfl | rfl <;> rfl

/-! ### All trees -/

/-- Words are understood as what they are the text of. -/
structure Understands (atom : List Char → Expr) : Prop where
  literal : ∀ v : Literal, v.isFinite → atom v.text.toList = .literal v {}
  name : ∀ s : String, isIdentifier s → atom s.toList = .variable s {}

mutual

/-- The texts of clear expressions are read as the expressions. -/
theorem reread_of_clear (known : Understands atom) : ∀ e : Expr, e.Formed → e.Clear → Reread atom e
  | .literal v s, _, clear => reread_literal (known.literal v clear) clear
  | .variable name s, formed, _ => reread_variable (known.name name formed) formed
  | .group e s, formed, clear => by
    simp only [Expr.Formed, Expr.Clear, Expr.every, Bool.and_eq_true] at formed clear
    exact reread_group (reread_of_clear known e formed.2 clear.2)
  | .binary op a b s, formed, clear => by
    simp only [Expr.Formed, Expr.Clear, Expr.every, Bool.and_eq_true] at formed clear
    exact reread_binary (reread_of_clear known a formed.1.2 clear.1.2) (reread_of_clear known b formed.2 clear.2)
  | .unary op e s, formed, clear => by
    simp only [Expr.Formed, Expr.Clear, Expr.every, Bool.and_eq_true] at formed clear
    exact reread_unary (reread_of_clear known e formed.2 clear.2)
  | .call f args s, formed, clear => by
    simp only [Expr.Formed, Expr.Clear, Expr.every, Bool.and_eq_true] at formed clear
    exact reread_call (reread_of_clear known f formed.1.2 clear.1.2) (rereadAll_of_clear known args formed.2 clear.2) clear.1.1
  | .index a b s, formed, clear => by
    simp only [Expr.Formed, Expr.Clear, Expr.every, Bool.and_eq_true] at formed clear
    exact reread_index (reread_of_clear known a formed.1.2 clear.1.2) (reread_of_clear known b formed.2 clear.2) clear.1.1
  | .field e k s, formed, clear => by
    simp only [Expr.Formed, Expr.Clear, Expr.every, Bool.and_eq_true] at formed clear
    exact reread_field (reread_of_clear known e formed.2 clear.2) clear.1
  | .tuple [] s, _, _ => reread_unit
  | .tuple [e] s, formed, clear => by
    simp only [Expr.Formed, Expr.Clear, Expr.every, Expr.allEvery, Bool.and_eq_true] at formed clear
    exact reread_single (reread_of_clear known e formed.2.1 clear.2.1)
  | .tuple (e :: d :: es) s, formed, clear => by
    rw [Expr.Formed, Expr.every, Expr.allEvery, Bool.and_eq_true, Bool.and_eq_true] at formed
    rw [Expr.Clear, Expr.every, Expr.allEvery, Bool.and_eq_true, Bool.and_eq_true] at clear
    exact reread_tuple (reread_of_clear known e formed.2.1 clear.2.1) (rereadAll_of_clear known (d :: es) formed.2.2 clear.2.2)
  | .list es s, formed, clear => by
    simp only [Expr.Formed, Expr.Clear, Expr.every, Bool.and_eq_true] at formed clear
    exact reread_list (rereadAll_of_clear known es formed.2 clear.2)
  | .lambda h body s, formed, clear => by
    simp only [Expr.Formed, Expr.Clear, Expr.every, Bool.and_eq_true] at formed clear
    exact reread_lambda formed.1 (reread_of_clear known body formed.2 clear.2)
  | .block ss value s, formed, clear => by
    simp only [Expr.Formed, Expr.Clear, Expr.every, Bool.and_eq_true] at formed clear
    exact reread_block (rereadStmts_of_clear known ss formed.1.2 clear.1.2) (rereadValue_of_clear known value formed.2 clear.2)
  | .cond test yes none s, formed, clear => by
    simp only [Expr.Formed, Expr.Clear, Expr.every, Expr.hasForm, Bool.and_eq_true] at formed clear
    exact reread_cond (reread_of_clear known test formed.1.1.2 clear.1.1.2) (reread_of_clear known yes formed.1.2 clear.1.2) nofun
      formed.1.1.1.1 rfl
  | .cond test yes (some no) s, formed, clear => by
    simp only [Expr.Formed, Expr.Clear, Expr.every, Expr.optionEvery, Expr.hasForm, Bool.and_eq_true] at formed clear
    have other := reread_of_clear known no formed.2 clear.2
    exact reread_cond (reread_of_clear known test formed.1.1.2 clear.1.1.2) (reread_of_clear known yes formed.1.2 clear.1.2)
      (fun e he => Option.some.inj he ▸ other) formed.1.1.1.1 formed.1.1.1.2

theorem rereadAll_of_clear (known : Understands atom) : ∀ es : List Expr, Expr.AllFormed es → Expr.AllClear es →
    RereadAll atom es
  | [], _, _ => rereadAll_nil
  | [e], formed, clear => by
    simp only [Expr.AllFormed, Expr.AllClear, Expr.allEvery, Bool.and_eq_true] at formed clear
    exact rereadAll_singleton (reread_of_clear known e formed.1 clear.1)
  | e :: d :: es, formed, clear => by
    rw [Expr.AllFormed, Expr.allEvery, Bool.and_eq_true] at formed
    rw [Expr.AllClear, Expr.allEvery, Bool.and_eq_true] at clear
    exact rereadAll_cons (reread_of_clear known e formed.1 clear.1) (rereadAll_of_clear known (d :: es) formed.2 clear.2)

theorem rereadValue_of_clear (known : Understands atom) : ∀ value : Option Expr, Expr.OptionFormed value →
    Expr.OptionClear value → RereadValue atom value
  | none, _, _ => rereadValue_none
  | some e, formed, clear => rereadValue_some (reread_of_clear known e formed clear)

theorem rereadStmt_of_clear (known : Understands atom) : ∀ s : Stmt, s.Formed → s.Clear → RereadStmt atom s
  | .expr e _, formed, clear => rereadStmt_expr (reread_of_clear known e formed clear)
  | .bind name type? e _, formed, clear => by
    simp only [Stmt.Formed, Stmt.Clear, Stmt.every, Stmt.hasForm, Bool.and_eq_true] at formed clear
    exact rereadStmt_bind formed.1.1 formed.1.2 (reread_of_clear known e formed.2 clear.2)
  | .function h body _, formed, clear => by
    simp only [Stmt.Formed, Stmt.Clear, Stmt.every, Stmt.hasForm, Bool.and_eq_true] at formed clear
    exact rereadStmt_function formed.1.1.1 formed.1.1.2 formed.1.2 (reread_of_clear known body formed.2 clear.2)

theorem rereadStmts_of_clear (known : Understands atom) : ∀ ss : List Stmt, Stmt.AllFormed ss → Stmt.AllClear ss →
    RereadStmts atom ss
  | [], _, _ => rereadStmts_nil
  | s :: ss, formed, clear => by
    simp only [Stmt.AllFormed, Stmt.AllClear, Stmt.allEvery, Bool.and_eq_true] at formed clear
    exact rereadStmts_cons (rereadStmt_of_clear known s formed.1 clear.1) (rereadStmts_of_clear known ss formed.2 clear.2)

end

/-! ### Programs -/

open Classical in
/-- A word stands for the literal that it is the text of, and else for itself as a name. -/
noncomputable def meaning (w : List Char) : Expr :=
  if h : ∃ v : Literal, v.isFinite ∧ v.text.toList = w then .literal h.choose {} else .variable (String.ofList w) {}

theorem understands_meaning : Understands meaning where
  literal := fun v finite => by
    have shown : ∃ u : Literal, u.isFinite ∧ u.text.toList = v.text.toList := ⟨v, finite, rfl⟩
    have same := Literal.text_inj shown.choose_spec.1 finite (String.toList_inj.1 shown.choose_spec.2)
    rw [meaning, dif_pos shown, same]
  name := fun s named => by
    have other : ¬ ∃ v : Literal, v.isFinite ∧ v.text.toList = s.toList := fun ⟨v, finite, same⟩ =>
      Literal.text_ne_identifier finite named (String.toList_inj.1 same)
    rw [meaning, dif_neg other, String.ofList_toList]

end Display

namespace Program

open Display (lines valueLine sequence Understands)

variable {p q : Program}

/-- All parts of the program can be told apart. -/
def isClear (p : Program) : Bool :=
  Stmt.allEvery Expr.isClear (fun _ => true) p.statements && Expr.optionEvery Expr.isClear (fun _ => true) p.value

theorem text_toList (p : Program) : p.text.toList = lines '\n' p.statements ++ valueLine '\n' p.value := by
  obtain ⟨ss, value⟩ := p
  have shown : (String.join (ss.map fun s => s.text ++ "\n")).toList = lines '\n' ss := by
    induction ss with
    | nil => rfl
    | cons s ss ih => simp [String.join_cons, lines, ih]
  unfold text
  rw [String.toList_append, shown]
  cases value with
  | none => rfl
  | some e => rw [String.toList_append]; rfl

/-- The text of a program is read as the program. -/
theorem sequence_text {atom : List Char → Expr} (known : Understands atom)
    (formed : Stmt.AllFormed p.statements ∧ Expr.OptionFormed p.value)
    (clear : p.isClear) {n : Nat} (bound : 4 * sizeOf p.statements + 4 * sizeOf p.value < n) :
    sequence atom n p.text.toList = some (p.bare.statements, p.bare.value, []) := by
  obtain ⟨statements, value⟩ := Bool.and_eq_true_iff.1 clear
  have read := Display.rereadStmts_of_clear known _ formed.1 statements (n := n) (r := valueLine '\n' p.value ++ []) (.inr rfl)
    (by omega) fun m left => Display.rereadValue_of_clear known _ formed.2 value (.inr rfl) (by omega) (.inl rfl)
  rw [List.append_nil] at read
  rw [text_toList, read, List.append_nil]
  rfl

/-- Programs that are displayed alike are alike, up to where they were written, groups and the names of lambdas. -/
theorem bare_eq_of_text_eq {source source' : String} (hp : read source = .ok p) (hq : read source' = .ok q) (clear : p.isClear)
    (clear' : q.isClear) (same : p.text = q.text) : p.bare = q.bare := by
  have enough := Nat.lt_succ_self (4 * sizeOf p.statements + 4 * sizeOf p.value + (4 * sizeOf q.statements + 4 * sizeOf q.value))
  have left := sequence_text Display.understands_meaning (formed_of_read hp) clear (Nat.lt_of_le_of_lt (Nat.le_add_right ..) enough)
  have right := sequence_text Display.understands_meaning (formed_of_read hq) clear' (Nat.lt_of_le_of_lt (Nat.le_add_left ..) enough)
  rw [same, right] at left
  simp only [Option.some.injEq, Prod.mk.injEq, and_true] at left
  exact (congrArg₂ Program.mk left.1 left.2).symm

/-- The program of a text, if it is one. -/
def ofText (source : String) : Program := (read source).toOption.getD ⟨[], none⟩

theorem read_ofText (source : String) (h : (read source).toOption.isSome) : read source = .ok (ofText source) := by
  unfold ofText
  cases hr : read source with
  | ok p => rfl
  | error e =>
    rw [hr] at h
    cases h

/-- With other blanks and more groups a text is displayed alike; the lambda has a name in one of the programs. -/
theorem bare_eq_of_groups : ∃ p q, read "let f = |x| x + 1;\nf(2 * 3)" = .ok p ∧ read "let f = (|x| (x + 1)); (f)((2 * 3))" = .ok q ∧
    p.text = "let f = |x| (x + 1);\nf((2 * 3))\n" ∧ q.text = p.text ∧ p.bare = q.bare := by
  have hp := read_ofText "let f = |x| x + 1;\nf(2 * 3)" (by decide +kernel)
  have hq := read_ofText "let f = (|x| (x + 1)); (f)((2 * 3))" (by decide +kernel)
  have same : (ofText "let f = |x| x + 1;\nf(2 * 3)").text = (ofText "let f = (|x| (x + 1)); (f)((2 * 3))").text := by decide +kernel
  exact ⟨_, _, hp, hq, by decide +kernel, same.symm, bare_eq_of_text_eq hp hq (by decide +kernel) (by decide +kernel) same⟩

/-- A lambda that is called is displayed like a lambda that makes the call. -/
theorem text_of_called_lambda : ∃ p q, read "(|x| x)(1)" = .ok p ∧ read "|x| x(1)" = .ok q ∧ p.text = q.text ∧ p.bare ≠ q.bare := by
  refine ⟨_, _, read_ofText "(|x| x)(1)" (by decide +kernel), read_ofText "|x| x(1)" (by decide +kernel),
    by decide +kernel, fun same => ?_⟩
  have other : (ofText "(|x| x)(1)").bare.value.map (Expr.takes '(') ≠ (ofText "|x| x(1)").bare.value.map (Expr.takes '(') := by
    decide +kernel
  exact other (congrArg (fun p => p.value.map (Expr.takes '(')) same)

end Program

end StackScript
