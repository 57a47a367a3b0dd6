import StackScript.Proofs.Displaying

/-!
Displayed trees are read back. What is lost of a tree is where it was written, its groups and the names of its lambdas, if its
parts can be told apart: a lambda in front of a postfix and a number in front of a point cannot.
-/
namespace StackScript

open Text (isDigit continuesName inNumber isIdentifier cut_append ne_of_digit)
open TypeExpr (leading)

/-! ### Clear trees -/

/-- A postfix that begins with the mark can be told from what is before it: a lambda would take it into its body, and a
number would take a point for its own. -/
def Expr.takes (mark : Char) : Expr → Bool
  | .group e _ => e.takes mark
  | .lambda .. => false
  | .literal v _ => !v.isNumber || mark != '.'
  | _ => true

/-- Where an expression is joined with its parts, the parts can be told from each other. -/
def Expr.isClear : Expr → Bool
  | .literal v _ => v.isFinite
  | .call callee _ _ => callee.takes '('
  | .index object _ _ => object.takes '['
  | .field object _ _ => object.takes '.'
  | _ => true

abbrev Expr.Clear (e : Expr) : Prop := e.every isClear fun _ => true

abbrev Expr.AllClear (es : List Expr) : Prop := Expr.allEvery isClear (fun _ => true) es

abbrev Expr.OptionClear (e : Option Expr) : Prop := Expr.optionEvery isClear (fun _ => true) e

abbrev Stmt.Clear (s : Stmt) : Prop := s.every Expr.isClear fun _ => true

abbrev Stmt.AllClear (ss : List Stmt) : Prop := Stmt.allEvery Expr.isClear (fun _ => true) ss

namespace Display

/-! ### The characters of a text -/

section

variable {op : BinaryOp} {sign : UnaryOp} {a b e d : Expr} {es : List Expr} {s : Span}

theorem binary_toList : (Expr.binary op a b s).text.toList =
    '(' :: (a.text.toList ++ ' ' :: (op.sign.toList ++ ' ' :: (b.text.toList ++ [')']))) := by
  change ("(" ++ a.text ++ " " ++ op.sign ++ " " ++ b.text ++ ")").toList = _
  simp

theorem unary_toList : (Expr.unary sign a s).text.toList = '(' :: (sign.sign.toList ++ (a.text.toList ++ [')'])) := by
  change ("(" ++ sign.sign ++ a.text ++ ")").toList = _
  simp

theorem call_toList : (Expr.call e es s).text.toList = e.text.toList ++ '(' :: ((exprTexts es).toList ++ [')']) := by
  change (e.text ++ "(" ++ exprTexts es ++ ")").toList = _
  simp

theorem index_toList : (Expr.index e d s).text.toList = e.text.toList ++ '[' :: (d.text.toList ++ [']']) := by
  change (e.text ++ "[" ++ d.text ++ "]").toList = _
  simp

theorem field_toList {k : Nat} : (Expr.field e k s).text.toList = e.text.toList ++ '.' :: Token.digitsOf k := by
  change (e.text ++ "." ++ toString k).toList = _
  simp [Token.digitsOf]

theorem single_toList : (Expr.tuple [e] s).text.toList = '(' :: (e.text.toList ++ [',', ')']) := by
  change ("(" ++ e.text ++ ",)").toList = _
  simp

theorem exprTexts_toList : (exprTexts (e :: d :: es)).toList = e.text.toList ++ ',' :: ' ' :: (exprTexts (d :: es)).toList := by
  change (e.text ++ ", " ++ exprTexts (d :: es)).toList = _
  simp

theorem tuple_toList : (Expr.tuple (e :: d :: es) s).text.toList =
    '(' :: (e.text.toList ++ ',' :: ' ' :: ((exprTexts (d :: es)).toList ++ [')'])) := by
  change ("(" ++ exprTexts (e :: d :: es) ++ ")").toList = _
  simp [exprTexts_toList]

theorem list_toList : (Expr.list es s).text.toList = '[' :: ((exprTexts es).toList ++ [']']) := by
  change ("[" ++ exprTexts es ++ "]").toList = _
  simp

end

/-! ### Places between expressions -/

variable {atom : List Char → Expr} {n : Nat} {c d : Char} {r cs w : List Char} {e : Expr}

/-- An expression has ended. -/
def Closes (r : List Char) : Prop :=
  ∃ c t, r = c :: t ∧ c ∈ [' ', '\n', ')', ']', ',', ';'] ∧ (c = ' ' → t.head? ≠ some 'e')

theorem Closes.of_mem (h : c ∈ ['\n', ')', ']', ',', ';']) : Closes (c :: r) :=
  ⟨c, r, rfl, List.mem_cons_of_mem _ h, by rintro rfl; exact absurd h (by decide)⟩

theorem Closes.blank (h : d ≠ 'e') : Closes (' ' :: d :: r) :=
  ⟨' ', d :: r, rfl, List.mem_cons_self .., fun _ => by simpa using h⟩

/-- An expression has ended, or a postfix begins that the expression takes. -/
def Follows (e : Expr) (r : List Char) : Prop := Closes r ∨ ∃ c t, r = c :: t ∧ c ∈ ['(', '[', '.'] ∧ e.takes c

theorem Follows.stops (h : Follows e r) : ∀ c ∈ r.head?, ¬ continuesName c := by
  have all : [' ', '\n', ')', ']', ',', ';', '(', '[', '.'].all (fun c => !continuesName c) = true := by decide
  rcases h with ⟨c, t, rfl, mark, -⟩ | ⟨c, t, rfl, mark, -⟩ <;> rintro _ ⟨⟩
  · simpa using List.all_eq_true.1 all c (List.mem_append_left ['(', '[', '.'] mark)
  · simpa using List.all_eq_true.1 all c (List.mem_append_right [' ', '\n', ')', ']', ',', ';'] mark)

theorem Follows.stops_number (h : Follows e r) (point : e.takes '.' = false) : ∀ c ∈ r.head?, ¬ inNumber c := by
  have all : [' ', '\n', ')', ']', ',', ';', '(', '['].all (fun c => !inNumber c) = true := by decide
  rcases h with ⟨c, t, rfl, mark, -⟩ | ⟨c, t, rfl, mark, takes⟩ <;> rintro _ ⟨⟩
  · simpa using List.all_eq_true.1 all c (List.mem_append_left ['(', '['] mark)
  · have : c ∈ ['(', '['] := by
      simp only [List.mem_cons, List.not_mem_nil, or_false] at mark ⊢
      rcases mark with rfl | rfl | rfl
      · exact .inl rfl
      · exact .inr rfl
      · exact absurd takes (by simp [point])
    simpa using List.all_eq_true.1 all c (List.mem_append_right [' ', '\n', ')', ']', ',', ';'] this)

/-- No other branch of a conditional follows. -/
def Alone (r : List Char) : Prop := ∀ t, r ≠ ' ' :: 'e' :: t

theorem Follows.alone (h : Follows e r) : Alone r := by
  rintro t rfl
  rcases h with ⟨c, u, same, -, other⟩ | ⟨c, u, same, mark, -⟩ <;> cases same
  · exact other rfl rfl
  · exact absurd mark (by decide)

theorem postfixes_closed (h : Closes r) : postfixes atom (n + 1) e r = some (e, r) := by
  obtain ⟨c, t, rfl, mark, -⟩ := h
  simp only [List.mem_cons, List.not_mem_nil, or_false] at mark
  rcases mark with rfl | rfl | rfl | rfl | rfl | rfl <;> rfl

/-! ### Beginnings -/

/-- What does not begin with a bracket or a bar is a single word. -/
theorem head_other (h : c ∉ ['(', '[', '\x7b', '|']) : head atom (n + 1) (c :: r) =
    if c = '"' ∨ c = '\'' then some (atom (c :: (quoted c r).1), (quoted c r).2)
    else if isDigit c ∨ c = '-' then some (atom (number (c :: r)).1, (number (c :: r)).2)
    else if (word (c :: r)).1 = [] ∨ (word (c :: r)).1 = ['l', 'e', 't'] ∨ (word (c :: r)).1 = ['f', 'n'] then none
    else if (word (c :: r)).1 = ['i', 'f'] then cond atom n ((word (c :: r)).2.drop 1)
    else some (atom (word (c :: r)).1, (word (c :: r)).2) := by
  unfold head
  split
  · next e => cases e
  · next e =>
    cases e
    exact absurd h (by decide)
  · next e =>
    cases e
    exact absurd h (by decide)
  · next e =>
    cases e
    exact absurd h (by decide)
  · next e =>
    cases e
    exact absurd h (by decide)
  · next e =>
    cases e
    rfl

theorem head_number (h : isDigit c ∨ c = '-') (all : ∀ d ∈ c :: w, inNumber d) (stop : ∀ d ∈ r.head?, ¬ inNumber d) :
    head atom (n + 1) (c :: w ++ r) = some (atom (c :: w), r) := by
  have split := number_append all stop
  rw [List.cons_append] at split ⊢
  have other (d : Char) (hd : ¬ isDigit d) (minus : d ≠ '-') : c ≠ d := by
    rintro rfl
    exact h.elim hd minus
  have mark : c ∉ ['(', '[', '\x7b', '|'] := by
    simp only [List.mem_cons, List.not_mem_nil, or_false, not_or]
    exact ⟨other _ (by decide) (by decide), other _ (by decide) (by decide), other _ (by decide) (by decide),
      other _ (by decide) (by decide)⟩
  rw [head_other mark, if_neg (not_or.2 ⟨other _ (by decide) (by decide), other _ (by decide) (by decide)⟩), if_pos h, split]

theorem head_quoted (h : c = '"' ∨ c = '\'') : head atom (n + 1) (c :: r) = some (atom (c :: (quoted c r).1), (quoted c r).2) := by
  rcases h with rfl | rfl <;> rfl

theorem head_word (first : Text.startsName c) (all : ∀ d ∈ c :: w, continuesName d) (stop : ∀ d ∈ r.head?, ¬ continuesName d) :
    head atom (n + 1) (c :: w ++ r) =
      if c :: w = ['l', 'e', 't'] ∨ c :: w = ['f', 'n'] then none
      else if c :: w = ['i', 'f'] then cond atom n (r.drop 1) else some (atom (c :: w), r) := by
  have split := word_append all stop
  rw [List.cons_append] at split ⊢
  have other (d : Char) (hd : ¬ Text.startsName d) : c ≠ d := by
    rintro rfl
    exact hd first
  have mark : c ∉ ['(', '[', '\x7b', '|'] := by
    simp only [List.mem_cons, List.not_mem_nil, or_false, not_or]
    exact ⟨other _ (by decide), other _ (by decide), other _ (by decide), other _ (by decide)⟩
  have digit : ¬ (isDigit c ∨ c = '-') := by
    rintro (digit | rfl)
    · exact Text.not_startsName_of_digit digit first
    · exact absurd first (by decide)
  rw [head_other mark, if_neg (not_or.2 ⟨other _ (by decide), other _ (by decide)⟩), if_neg digit, split]
  simp only [reduceCtorEq, false_or]


/-! ### Expressions that are read back -/

section

variable (atom : List Char → Expr)

/-- The text of an expression is read as the expression. -/
structure Reread (e : Expr) : Prop where
  whole : ∀ {n : Nat} {r : List Char}, 4 * sizeOf e < n → Follows e r →
    ∃ m, n ≤ m + 4 * sizeOf e ∧ expr atom n (e.text.toList ++ r) = postfixes atom m e.bare r
  /-- Without a minus sign in front it is read as something. -/
  unsigned : ∀ {t : List Char}, e.text.toList = '-' :: t → (∃ d ds, t = d :: ds ∧ isDigit d) ∧
    ∀ {n : Nat} {r : List Char}, 4 * sizeOf e < n → Follows e r →
      ∃ m e', n ≤ m + 4 * sizeOf e ∧ expr atom n (t ++ r) = postfixes atom m e' r
  braced : e.isBraced → ∀ {n : Nat} {r : List Char}, 4 * sizeOf e < n + 1 → e.isBlock ∨ Alone r →
    head atom n (e.text.toList ++ r) = some (e.bare, r)

end

variable {atom : List Char → Expr} {n : Nat} {r : List Char} {e e' : Expr}

theorem one_le_sizeOf (e : Expr) : 1 ≤ sizeOf e := by
  cases e <;> simp <;> omega

theorem expr_of_head {cs : List Char} (h : head atom n cs = some (e, r)) : expr atom (n + 1) cs = postfixes atom n e r := by
  rw [expr, h]
  rfl

theorem Reread.closed (h : Reread atom e) (bound : 4 * sizeOf e < n) (closes : Closes r) :
    expr atom n (e.text.toList ++ r) = some (e.bare, r) := by
  obtain ⟨m, left, read⟩ := h.whole bound (.inl closes)
  obtain ⟨m, rfl⟩ : ∃ k, m = k + 1 := ⟨m - 1, by omega⟩
  rw [read, postfixes_closed closes]

/-- An expression that is no postfix operation. -/
theorem Reread.of_head (start : ∃ c t, e.text.toList = c :: t ∧ c ≠ '-')
    (read : ∀ {n : Nat} {r : List Char}, 4 * sizeOf e < n + 1 → Follows e r → head atom n (e.text.toList ++ r) = some (e.bare, r))
    (braced : e.isBraced → ∀ {n : Nat} {r : List Char}, 4 * sizeOf e < n + 1 → e.isBlock ∨ Alone r →
      head atom n (e.text.toList ++ r) = some (e.bare, r)) : Reread atom e where
  whole := fun {n r} bound follows => by
    obtain ⟨n, rfl⟩ : ∃ k, n = k + 1 := ⟨n - 1, by omega⟩
    have := one_le_sizeOf e
    exact ⟨n, by omega, expr_of_head (read bound follows)⟩
  unsigned := fun ht => by
    obtain ⟨c, t, hc, sign⟩ := start
    rw [hc] at ht
    exact absurd (List.cons.inj ht).1 sign
  braced := braced

/-- An expression that is neither a postfix operation nor ends with a brace. -/
theorem Reread.of_plain (plain : ¬ e.isBraced) (start : ∃ c t, e.text.toList = c :: t ∧ c ≠ '-')
    (read : ∀ {n : Nat} {r : List Char}, 4 * sizeOf e < n + 1 → Follows e r → head atom n (e.text.toList ++ r) = some (e.bare, r)) :
    Reread atom e :=
  .of_head start read fun braced => absurd braced plain

/-- A postfix is read behind its expression. -/
theorem Reread.extend (suffix : List Char) (wrap : Expr → Expr) {c : Char} {cs : List Char} (h : Reread atom e)
    (text : e'.text.toList = e.text.toList ++ suffix) (bare : e'.bare = wrap e.bare) (plain : ¬ e'.isBraced)
    (begins : suffix = c :: cs) (mark : c ∈ ['(', '[', '.']) (takes : e.takes c) (size : sizeOf e < sizeOf e')
    (step : ∀ {m : Nat} {b : Expr} {r : List Char}, 4 * sizeOf e' < m + 4 * sizeOf e → Follows e' r →
      postfixes atom m b (suffix ++ r) = postfixes atom (m - 1) (wrap b) r) : Reread atom e' where
  whole := fun {n r} bound follows => by
    have behind : Follows e (suffix ++ r) := .inr ⟨c, cs ++ r, by rw [begins]; rfl, mark, takes⟩
    obtain ⟨m, left, read⟩ := h.whole (n := n) (by omega) behind
    refine ⟨m - 1, by omega, ?_⟩
    rw [text, List.append_assoc, read, step (by omega) follows, bare]
  unsigned := fun {t} ht => by
    rw [text] at ht
    cases he : e.text.toList with
    | nil =>
      rw [he, begins] at ht
      obtain ⟨rfl, -⟩ := List.cons.inj ht
      exact absurd mark (by decide)
    | cons d ds =>
      rw [he, List.cons_append] at ht
      obtain ⟨rfl, rfl⟩ := List.cons.inj ht
      obtain ⟨⟨d, es, rfl, digit⟩, read⟩ := h.unsigned he
      refine ⟨⟨d, es ++ suffix, rfl, digit⟩, fun {n r} bound follows => ?_⟩
      have behind : Follows e (suffix ++ r) := .inr ⟨c, cs ++ r, by rw [begins]; rfl, mark, takes⟩
      obtain ⟨m, b, left, read⟩ := read (n := n) (by omega) behind
      refine ⟨m - 1, wrap b, by omega, ?_⟩
      rw [List.append_assoc, read, step (by omega) follows]
  braced := fun h => absurd h plain

/-! ### Words -/

theorem reread_literal {v : Literal} {s : Span} (known : atom v.text.toList = .literal v {}) (finite : v.isFinite) :
    Reread atom (.literal v s) := by
  have text : (Expr.literal v s).text = v.text := rfl
  have bare : (Expr.literal v s).bare = atom v.text.toList := known.symm
  have size : 0 < sizeOf (Expr.literal v s) := one_le_sizeOf _
  rcases v.text_cases finite with ⟨b, rfl⟩ | ⟨number, all, d, ds, digit, shown⟩ | ⟨q, cs, quote, shown⟩
  · refine .of_plain Bool.false_ne_true (by rw [text]; cases b <;> exact ⟨_, _, rfl, by decide⟩) fun {n r} bound follows => ?_
    obtain ⟨n, rfl⟩ : ∃ k, n = k + 1 := ⟨n - 1, by omega⟩
    rw [bare, text]
    cases b with
    | true => exact head_word (by decide) (List.all_eq_true.1 (by decide)) follows.stops
    | false => exact head_word (by decide) (List.all_eq_true.1 (by decide)) follows.stops
  · have point : (Expr.literal v s).takes '.' = false := by
      rw [Expr.takes, number]
      rfl
    -- any number may stand here
    have word {a : Char} {w : List Char} {n : Nat} {r : List Char} (first : isDigit a ∨ a = '-') (all : ∀ c ∈ a :: w, inNumber c)
        (bound : 4 * sizeOf (Expr.literal v s) < n) (follows : Follows (.literal v s) r) :
        ∃ m, n ≤ m + 4 * sizeOf (Expr.literal v s) ∧ expr atom n (a :: w ++ r) = postfixes atom m (atom (a :: w)) r := by
      obtain ⟨n, rfl⟩ : ∃ k, n = k + 2 := ⟨n - 2, by omega⟩
      exact ⟨n + 1, by omega, expr_of_head (head_number first all (follows.stops_number point))⟩
    refine ⟨fun {n r} bound follows => ?_, fun {t} ht => ?_, nofun⟩
    · rw [bare, text]
      rcases shown with shown | shown <;> rw [shown] at all ⊢
      · exact word (.inl digit) all bound follows
      · exact word (.inr rfl) all bound follows
    · rw [text] at ht
      rcases shown with shown | shown <;> rw [shown] at ht all
      · obtain ⟨rfl, -⟩ := List.cons.inj ht
        exact absurd digit (by decide)
      · obtain ⟨-, rfl⟩ := List.cons.inj ht
        refine ⟨⟨d, ds, rfl, digit⟩, fun {n r} bound follows => ?_⟩
        obtain ⟨m, left, read⟩ := word (.inl digit) (List.forall_mem_cons.1 all).2 bound follows
        exact ⟨m, _, left, read⟩
  · refine .of_plain Bool.false_ne_true ⟨q, _, shown, by rcases quote with rfl | rfl <;> decide⟩ fun {n r} bound follows => ?_
    obtain ⟨n, rfl⟩ : ∃ k, n = k + 1 := ⟨n - 1, by omega⟩
    rw [bare, text, shown, List.cons_append, List.append_assoc, List.singleton_append, head_quoted quote, quoted_escapes quote]

theorem head_identifier {s : String} (named : isIdentifier s) (stop : ∀ c ∈ r.head?, ¬ continuesName c) :
    head atom (n + 1) (s.toList ++ r) = some (atom s.toList, r) := by
  obtain ⟨⟨c, cs, hs, first⟩, all, -⟩ := Text.identifier_cases named
  have other (w : String) (h : Token.Kind.ofWord w ≠ .name w) : c :: cs ≠ w.toList := fun e =>
    Text.identifier_ne named h (String.toList_inj.1 (hs.trans e))
  rw [hs] at all ⊢
  have notLet : c :: cs ≠ ['l', 'e', 't'] := other "let" (by decide)
  have notFn : c :: cs ≠ ['f', 'n'] := other "fn" (by decide)
  have notIf : c :: cs ≠ ['i', 'f'] := other "if" (by decide)
  rw [head_word first all stop, if_neg (not_or.2 ⟨notLet, notFn⟩), if_neg notIf]

theorem reread_variable {name : String} {s : Span} (known : atom name.toList = .variable name {}) (named : isIdentifier name) :
    Reread atom (.variable name s) := by
  have text : (Expr.variable name s).text = name := rfl
  have bare : (Expr.variable name s).bare = atom name.toList := known.symm
  have size : 0 < sizeOf (Expr.variable name s) := one_le_sizeOf _
  obtain ⟨⟨c, cs, hs, first⟩, -, -⟩ := Text.identifier_cases named
  refine .of_plain Bool.false_ne_true ⟨c, cs, hs, fun e => absurd (e ▸ first) (by decide)⟩ fun {n r} bound follows => ?_
  obtain ⟨n, rfl⟩ : ∃ k, n = k + 1 := ⟨n - 1, by omega⟩
  rw [bare, text]
  exact head_identifier named follows.stops

/-! ### Parentheses -/

theorem operator?_sign (op : BinaryOp) : operator? op.sign.toList = some op := by
  cases op with
  | arith op => cases op <;> rfl
  | compare c => cases c <;> rfl
  | and | or => rfl

theorem sign_ne_blank (op : BinaryOp) : ∀ c ∈ op.sign.toList, (c ≠ ' ' : Bool) := by
  refine List.all_eq_true.1 ?_
  cases op with
  | arith op => cases op <;> rfl
  | compare c => cases c <;> rfl
  | and | or => rfl

theorem operator?_append (op : BinaryOp) : operator? ((op.sign.toList ++ ' ' :: r).takeWhile (· ≠ ' ')) = some op ∧
    (op.sign.toList ++ ' ' :: r).dropWhile (· ≠ ' ') = ' ' :: r := by
  obtain ⟨sign, rest⟩ := cut_append (p := (· ≠ ' ')) (r := ' ' :: r) (sign_ne_blank op) (by simp)
  exact ⟨by rw [sign, operator?_sign], rest⟩

theorem operands_none {cs : List Char} (h : expr atom n cs = none) : operands atom (n + 1) cs = none := by
  rw [operands, h]

theorem exprs_none {cs : List Char} (h : expr atom n cs = none) : exprs atom (n + 1) cs = some ([], cs.drop 1) := by
  rw [exprs, h]

/-- With these characters no expression begins. -/
theorem expr_none {c : Char} (h : c ∈ ['!', '~', ')', ']', '\x7d']) : expr atom n (c :: r) = none := by
  simp only [List.mem_cons, List.not_mem_nil, or_false] at h
  rcases n with - | - | n
  · rfl
  · rfl
  · rcases h with rfl | rfl | rfl | rfl | rfl <;> rfl

theorem expr_nil : expr atom n [] = none := by
  rcases n with - | - | n <;> rfl

/-- What begins with an operand is no unary operation: nothing but its minus sign could be one. -/
theorem paren_operands {cs : List Char} {x : Expr × List Char} (h : Reread atom e) (bound : 4 * sizeOf e + 1 < n)
    (closes : Closes cs) (open_ : ∀ t, cs ≠ ')' :: t) (read : operands atom n (e.text.toList ++ cs) = some x) :
    paren atom (n + 1) (e.text.toList ++ cs) = some x := by
  obtain ⟨n, rfl⟩ : ∃ k, n = k + 1 := ⟨n - 1, by omega⟩
  have no {c : Char} {t : List Char} (h : c ∈ ['!', '~', ')', ']', '\x7d']) : operands atom (n + 1) (c :: t) ≠ some x := by
    rw [operands_none (expr_none h)]
    exact (Option.some_ne_none x).symm
  generalize hs : e.text.toList ++ cs = s at read
  unfold paren
  split
  · exact absurd read (no (by decide))
  · exact absurd read (no (by decide))
  · exact absurd read (no (by decide))
  · next t =>
    obtain ⟨u, hu, rfl⟩ : ∃ u, e.text.toList = '-' :: u ∧ t = u ++ cs := by
      cases he : e.text.toList with
      | nil =>
        obtain ⟨c, v, rfl, mark, -⟩ := closes
        rw [he] at hs
        obtain ⟨rfl, -⟩ := List.cons.inj hs
        exact absurd mark (by decide)
      | cons c u =>
        rw [he, List.cons_append] at hs
        obtain ⟨rfl, rfl⟩ := List.cons.inj hs
        exact ⟨u, rfl, rfl⟩
    obtain ⟨m, b, left, other⟩ := (h.unsigned hu).2 (n := n) (by omega) (.inl closes)
    obtain ⟨m, rfl⟩ : ∃ k, m = k + 1 := ⟨m - 1, by omega⟩
    rw [postfixes_closed closes] at other
    have none : unary atom (n + 1) .negate (u ++ cs) = none := by
      rw [unary, other]
      split
      · next e => cases e; exact absurd rfl (open_ _)
      · rfl
    rw [none, Option.none_or, read]
  · exact read

theorem reread_binary {op : BinaryOp} {a b : Expr} {s : Span} (left : Reread atom a) (right : Reread atom b) :
    Reread atom (.binary op a b s) := by
  have size : sizeOf (Expr.binary op a b s) = 1 + sizeOf op + sizeOf a + sizeOf b + sizeOf s := rfl
  refine .of_plain Bool.false_ne_true ⟨_, _, binary_toList, by decide⟩ fun {n r} bound follows => ?_
  simp only [binary_toList, List.append_assoc, List.cons_append, List.nil_append]
  obtain ⟨n, rfl⟩ : ∃ k, n = k + 3 := ⟨n - 3, by have := one_le_sizeOf a; omega⟩
  have blank : Closes (' ' :: (op.sign.toList ++ ' ' :: (b.text.toList ++ ')' :: r))) := by
    obtain ⟨c, t, hs, other⟩ : ∃ c t, op.sign.toList = c :: t ∧ c ≠ 'e' := by
      cases op with
      | arith op => cases op <;> exact ⟨_, _, rfl, by decide⟩
      | compare c => cases c <;> exact ⟨_, _, rfl, by decide⟩
      | and | or => exact ⟨_, _, rfl, by decide⟩
    rw [hs]
    exact .blank other
  have first := left.closed (n := n) (by omega) blank
  have second := right.closed (n := n) (r := ')' :: r) (by omega) (.of_mem (by decide))
  obtain ⟨sign, rest⟩ := operator?_append (r := b.text.toList ++ ')' :: r) op
  change paren atom (n + 2) _ = _
  refine paren_operands left (by omega) blank (by simp) ?_
  rw [operands, first]
  simp only [sign, rest, Option.bind_eq_bind, Option.bind_some, List.drop_succ_cons, List.drop_zero, second]
  rfl

theorem reread_unary {op : UnaryOp} {a : Expr} {s : Span} (operand : Reread atom a) : Reread atom (.unary op a s) := by
  have size : sizeOf (Expr.unary op a s) = 1 + sizeOf op + sizeOf a + sizeOf s := rfl
  refine .of_plain Bool.false_ne_true ⟨_, _, unary_toList, by decide⟩ fun {n r} bound follows => ?_
  simp only [unary_toList, List.append_assoc, List.cons_append, List.nil_append]
  obtain ⟨n, rfl⟩ : ∃ k, n = k + 3 := ⟨n - 3, by have := one_le_sizeOf a; omega⟩
  have inner := operand.closed (n := n) (r := ')' :: r) (by omega) (.of_mem (by decide))
  have read : unary atom (n + 1) op (a.text.toList ++ ')' :: r) = some (.unary op a.bare {}, r) := by
    rw [unary, inner]
    rfl
  cases op with
  | negate =>
    change (unary atom (n + 1) .negate (a.text.toList ++ ')' :: r)).or _ = _
    rw [read]
    rfl
  | not | bitNot => exact read

section

variable (atom : List Char → Expr)

/-- The texts of expressions are read as the expressions. -/
def RereadAll (es : List Expr) : Prop := ∀ ⦃n : Nat⦄ ⦃c : Char⦄ ⦃r : List Char⦄, c = ')' ∨ c = ']' → 4 * sizeOf es < n →
  exprs atom n ((exprTexts es).toList ++ c :: r) = some (Expr.bares es, r)

end

variable {atom : List Char → Expr} {e d : Expr} {es : List Expr} {span : Span}

/-! ### Lists of expressions -/

theorem rereadAll_nil : RereadAll atom [] := by
  intro n c r mark bound
  obtain ⟨n, rfl⟩ : ∃ k, n = k + 1 := ⟨n - 1, by omega⟩
  change exprs atom (n + 1) ("".toList ++ c :: r) = _
  rw [String.toList_empty, List.nil_append, exprs_none (expr_none (by rcases mark with rfl | rfl <;> decide))]
  rfl

theorem rereadAll_singleton (h : Reread atom e) : RereadAll atom [e] := by
  intro n c r mark bound
  rw [List.cons.sizeOf_spec] at bound
  obtain ⟨n, rfl⟩ : ∃ k, n = k + 1 := ⟨n - 1, by omega⟩
  change exprs atom (n + 1) (e.text.toList ++ c :: r) = _
  rw [exprs, h.closed (by omega) (.of_mem (by rcases mark with rfl | rfl <;> decide))]
  rcases mark with rfl | rfl <;> rfl

theorem rereadAll_cons (h : Reread atom e) (others : RereadAll atom (d :: es)) : RereadAll atom (e :: d :: es) := by
  intro n c r mark bound
  rw [List.cons.sizeOf_spec] at bound
  obtain ⟨n, rfl⟩ : ∃ k, n = k + 1 := ⟨n - 1, by omega⟩
  have rest := others (n := n) (r := r) mark (by omega)
  rw [exprTexts_toList, List.append_assoc, List.cons_append, List.cons_append]
  rw [exprs, h.closed (by omega) (.of_mem (by decide))]
  simp only [List.drop_succ_cons, List.drop_zero, rest]
  rfl

theorem reread_unit : Reread atom (.tuple [] span) := by
  have size := one_le_sizeOf (.tuple [] span)
  have text : (Expr.tuple [] span).text.toList = ['(', ')'] := by
    change ("(" ++ "" ++ ")").toList = _
    simp
  refine .of_plain Bool.false_ne_true ⟨'(', [')'], text, by decide⟩ fun {n r} bound follows => ?_
  obtain ⟨n, rfl⟩ : ∃ k, n = k + 2 := ⟨n - 2, by omega⟩
  rw [text]
  rfl

theorem reread_single (h : Reread atom e) : Reread atom (.tuple [e] span) := by
  have size : sizeOf (Expr.tuple [e] span) = 1 + sizeOf [e] + sizeOf span := Expr.tuple.sizeOf_spec ..
  rw [List.cons.sizeOf_spec] at size
  refine .of_plain Bool.false_ne_true ⟨_, _, single_toList, by decide⟩ fun {n r} bound follows => ?_
  simp only [single_toList, List.append_assoc, List.cons_append, List.nil_append]
  obtain ⟨n, rfl⟩ : ∃ k, n = k + 3 := ⟨n - 3, by omega⟩
  have first := h.closed (n := n) (r := ',' :: ')' :: r) (by omega) (.of_mem (by decide))
  refine paren_operands h (by omega) (.of_mem (by decide)) (by simp) ?_
  rw [operands, first]
  rfl

theorem reread_tuple (h : Reread atom e) (others : RereadAll atom (d :: es)) : Reread atom (.tuple (e :: d :: es) span) := by
  have size : sizeOf (Expr.tuple (e :: d :: es) span) = 1 + sizeOf (e :: d :: es) + sizeOf span := Expr.tuple.sizeOf_spec ..
  rw [List.cons.sizeOf_spec] at size
  refine .of_plain Bool.false_ne_true ⟨_, _, tuple_toList, by decide⟩ fun {n r} bound follows => ?_
  simp only [tuple_toList, List.append_assoc, List.cons_append, List.nil_append]
  obtain ⟨n, rfl⟩ : ∃ k, n = k + 3 := ⟨n - 3, by omega⟩
  have first := h.closed (n := n) (r := ',' :: ' ' :: ((exprTexts (d :: es)).toList ++ ')' :: r)) (by omega) (.of_mem (by decide))
  have rest := others (n := n) (r := r) (.inl rfl) (by omega)
  refine paren_operands h (by omega) (.of_mem (by decide)) (by simp) ?_
  rw [operands, first]
  change ((exprs atom n ((exprTexts (d :: es)).toList ++ ')' :: r)).bind fun x => some (Expr.tuple (e.bare :: x.1) {}, x.2)) = _
  rw [rest]
  rfl

theorem reread_list (h : RereadAll atom es) : Reread atom (.list es span) := by
  have size : sizeOf (Expr.list es span) = 1 + sizeOf es + sizeOf span := Expr.list.sizeOf_spec ..
  refine .of_plain Bool.false_ne_true ⟨_, _, list_toList, by decide⟩ fun {n r} bound follows => ?_
  simp only [list_toList, List.append_assoc, List.cons_append, List.nil_append]
  obtain ⟨n, rfl⟩ : ∃ k, n = k + 1 := ⟨n - 1, by omega⟩
  change ((exprs atom n _).bind fun x => some (Expr.list x.1 {}, x.2)) = _
  rw [h (.inr rfl) (by omega)]
  rfl

/-! ### Postfixes -/

theorem reread_call (h : Reread atom e) (args : RereadAll atom es) (takes : e.takes '(') : Reread atom (.call e es span) := by
  have size : sizeOf (Expr.call e es span) = 1 + sizeOf e + sizeOf es + sizeOf span := Expr.call.sizeOf_spec ..
  refine h.extend ('(' :: ((exprTexts es).toList ++ [')'])) (fun b => .call b (Expr.bares es) {})
    call_toList rfl Bool.false_ne_true rfl (by decide) takes (by omega) fun {m b r} bound _ => ?_
  obtain ⟨m, rfl⟩ : ∃ k, m = k + 1 := ⟨m - 1, by omega⟩
  rw [List.cons_append, List.append_assoc, List.singleton_append, postfixes, args (.inl rfl) (by omega)]
  rfl

theorem reread_index (h : Reread atom e) (position : Reread atom d) (takes : e.takes '[') : Reread atom (.index e d span) := by
  have size : sizeOf (Expr.index e d span) = 1 + sizeOf e + sizeOf d + sizeOf span := Expr.index.sizeOf_spec ..
  refine h.extend ('[' :: (d.text.toList ++ [']'])) (fun b => .index b d.bare {})
    index_toList rfl Bool.false_ne_true rfl (by decide) takes (by omega) fun {m b r} bound _ => ?_
  obtain ⟨m, rfl⟩ : ∃ k, m = k + 1 := ⟨m - 1, by omega⟩
  rw [List.cons_append, List.append_assoc, List.singleton_append, postfixes, position.closed (by omega) (.of_mem (by decide))]
  rfl

theorem reread_field {k : Nat} (h : Reread atom e) (takes : e.takes '.') : Reread atom (.field e k span) := by
  have size : sizeOf (Expr.field e k span) = 1 + sizeOf e + sizeOf k + sizeOf span := Expr.field.sizeOf_spec ..
  refine h.extend ('.' :: Token.digitsOf k) (fun b => .field b k {})
    field_toList rfl Bool.false_ne_true rfl (by decide) takes (by omega) fun {m b r} bound follows => ?_
  obtain ⟨m, rfl⟩ : ∃ k, m = k + 1 := ⟨m - 1, by omega⟩
  obtain ⟨digits, rest⟩ := cut_append (p := isDigit) (w := Token.digitsOf k) (r := r) Token.isDigit_digitsOf fun c hc digit =>
    follows.stops c hc (Text.continuesName_of_digit digit)
  rw [List.cons_append, postfixes, digits, rest, Token.digitsValue_digitsOf]
  rfl

/-! ### Groups -/

theorem reread_group (inner : Reread atom e) : Reread atom (.group e span) where
  whole := fun {n r} bound follows => by
    rw [Expr.group.sizeOf_spec] at bound ⊢
    obtain ⟨m, left, read⟩ := inner.whole (n := n) (by omega) follows
    exact ⟨m, by omega, read⟩
  unsigned := fun {t} ht => by
    obtain ⟨digit, read⟩ := inner.unsigned ht
    refine ⟨digit, fun {n r} bound follows => ?_⟩
    rw [Expr.group.sizeOf_spec] at bound ⊢
    obtain ⟨m, b, left, read⟩ := read (n := n) (by omega) follows
    exact ⟨m, b, by omega, read⟩
  braced := nofun

end Display

end StackScript
