import StackScript.Proofs.Contrasting
import StackScript.Proofs.Shaping

/-!
A reader of displayed trees. It knows the layout of the texts and nothing else: what a word stands for is given to it. Words,
quoted texts, types and parameters are read back as what they are the text of.
-/
namespace StackScript

/-! ### Bare trees -/

mutual

def TypeExpr.bare : TypeExpr → TypeExpr
  | .named name _ => .named name {}
  | .list elem _ => .list elem.bare {}
  | .tuple items _ => .tuple (TypeExpr.bares items) {}
  | .function params result _ => .function (TypeExpr.bares params) result.bare {}

def TypeExpr.bares : List TypeExpr → List TypeExpr
  | [] => []
  | t :: ts => t.bare :: TypeExpr.bares ts

end

def Param.bare (p : Param) : Param := ⟨p.name, p.type?.map TypeExpr.bare, {}⟩

/-- A header under the name that is given. -/
def Header.bare (h : Header) (name : String) : Header := ⟨name, h.params.map Param.bare, h.result?.map TypeExpr.bare, {}⟩

mutual

def Expr.bare : Expr → Expr
  | .literal v _ => .literal v {}
  | .variable name _ => .variable name {}
  | .group inner _ => inner.bare
  | .binary op left right _ => .binary op left.bare right.bare {}
  | .unary op operand _ => .unary op operand.bare {}
  | .call callee args _ => .call callee.bare (Expr.bares args) {}
  | .index object position _ => .index object.bare position.bare {}
  | .field object position _ => .field object.bare position {}
  | .tuple items _ => .tuple (Expr.bares items) {}
  | .list items _ => .list (Expr.bares items) {}
  | .lambda h body _ => .lambda (h.bare "") body.bare {}
  | .block statements value _ => .block (Stmt.bares statements) (Expr.bareOption value) {}
  | .cond test yes no _ => .cond test.bare yes.bare (Expr.bareOption no) {}

def Expr.bares : List Expr → List Expr
  | [] => []
  | e :: es => e.bare :: Expr.bares es

def Expr.bareOption : Option Expr → Option Expr
  | none => none
  | some e => some e.bare

def Stmt.bare : Stmt → Stmt
  | .expr e _ => .expr e.bare {}
  | .bind name type? value _ => .bind name (type?.map TypeExpr.bare) value.bare {}
  | .function h body _ => .function (h.bare h.name) body.bare {}

def Stmt.bares : List Stmt → List Stmt
  | [] => []
  | s :: ss => s.bare :: Stmt.bares ss

end

/-- The program up to spans, groups and the names of lambdas. -/
def Program.bare (p : Program) : Program := ⟨Stmt.bares p.statements, Expr.bareOption p.value⟩

/-- The text of a type that may be left out, behind its lead. -/
def TypeExpr.leading (lead : List Char) : Option TypeExpr → List Char
  | some t => lead ++ t.text.toList
  | none => []

theorem Param.text_toList (p : Param) : p.text.toList = p.name.toList ++ TypeExpr.leading [':', ' '] p.type? := by
  unfold Param.text
  cases p.type? <;> simp [TypeExpr.leading]

/-! ### The reader -/

namespace Display

open TypeExpr (leading)
open Text (continuesName inNumber isIdentifier cut_append)

/-- A word and what follows it. -/
def word (cs : List Char) : List Char × List Char := (cs.takeWhile continuesName, cs.dropWhile continuesName)

/-- A number and what follows it. -/
def number (cs : List Char) : List Char × List Char := (cs.takeWhile inNumber, cs.dropWhile inNumber)

/-- Quoted text after its opening quote, up to the closing one, and what follows it. -/
def quoted (q : Char) : List Char → List Char × List Char
  | [] => ([], [])
  | '\\' :: c :: r => ('\\' :: c :: (quoted q r).1, (quoted q r).2)
  | c :: r => if c = q then ([c], r) else (c :: (quoted q r).1, (quoted q r).2)

/-! ### Types -/

mutual

def type : Nat → List Char → Option (TypeExpr × List Char)
  | 0, _ => none
  | n + 1, cs =>
    match cs with
    | '[' :: r => do
      let (elem, r) ← type n r
      some (.list elem {}, r.drop 1)
    | '(' :: r => do
      let (items, r) ← types n r
      some (.tuple items {}, r)
    | cs =>
      let (name, r) := word cs
      if name = [] then none
      else if name = ['f', 'n'] then do
        let (params, r) ← types n (r.drop 1)
        let (result, r) ← type n (r.drop 4)
        some (.function params result {}, r)
      else some (.named (String.ofList name) {}, r)

/-- Types up to and including the closing mark. -/
def types : Nat → List Char → Option (List TypeExpr × List Char)
  | 0, _ => none
  | n + 1, cs =>
    match type n cs with
    | some (t, ',' :: r) => do
      let (ts, r) ← types n (r.drop 1)
      some (t :: ts, r)
    | some (t, r) => some ([t], r.drop 1)
    | none => some ([], cs.drop 1)

end

/-- A type behind the given text, if it is there. -/
def typeAfter (n : Nat) (lead : List Char) (cs : List Char) : Option (Option TypeExpr × List Char) :=
  if lead.isPrefixOf cs then do
    let (t, r) ← type n (cs.drop lead.length)
    some (some t, r)
  else some (none, cs)

/-- Parameters up to and including the closing mark. -/
def params : Nat → List Char → Option (List Param × List Char)
  | 0, _ => none
  | n + 1, cs =>
    let (name, r) := word cs
    if name = [] then some ([], cs.drop 1)
    else do
      let (type?, r) ← typeAfter n [':', ' '] r
      let p : Param := ⟨String.ofList name, type?, {}⟩
      match r with
      | ',' :: r => do
        let (ps, r) ← params n (r.drop 1)
        some (p :: ps, r)
      | r => some ([p], r.drop 1)

/-! ### Expressions and statements -/

def operators : List BinaryOp :=
  [.arith .add, .arith .sub, .arith .mul, .arith .div, .arith .mod, .arith .exp, .arith .bitAnd, .arith .bitOr,
    .arith .bitXor, .arith .shiftLeft, .arith .shiftRight, .compare .equal, .compare .notEqual, .compare .lessThan,
    .compare .lessEqual, .compare .greaterThan, .compare .greaterEqual, .and, .or]

def operator? (sign : List Char) : Option BinaryOp := operators.find? fun op => op.sign.toList == sign

section

variable (atom : List Char → Expr)

mutual

def expr : Nat → List Char → Option (Expr × List Char)
  | 0, _ => none
  | n + 1, cs => do
    let (e, r) ← head n cs
    postfixes n e r

/-- Calls, indexing and field selection. -/
def postfixes : Nat → Expr → List Char → Option (Expr × List Char)
  | 0, _, _ => none
  | n + 1, e, cs =>
    match cs with
    | '(' :: r => do
      let (args, r) ← exprs n r
      postfixes n (.call e args {}) r
    | '[' :: r => do
      let (position, r) ← expr n r
      postfixes n (.index e position {}) (r.drop 1)
    | '.' :: r => postfixes n (.field e (Decimal.digitsValue (r.takeWhile Text.isDigit)) {}) (r.dropWhile Text.isDigit)
    | cs => some (e, cs)

/-- An expression without postfixes. -/
def head : Nat → List Char → Option (Expr × List Char)
  | 0, _ => none
  | n + 1, cs =>
    match cs with
    | [] => none
    | '(' :: r => paren n r
    | '[' :: r => do
      let (items, r) ← exprs n r
      some (.list items {}, r)
    | '\x7b' :: r => do
      let (statements, value, r) ← sequence n (r.drop 1)
      some (.block statements value {}, r.drop 1)
    | '|' :: r => do
      let (ps, r) ← params n r
      let (result?, r) ← typeAfter n ['-', '>', ' '] (r.drop 1)
      let (body, r) ← expr n (if result?.isSome then r.drop 1 else r)
      some (.lambda ⟨"", ps, result?, {}⟩ body {}, r)
    | c :: r =>
      if c = '"' ∨ c = '\'' then some (atom (c :: (quoted c r).1), (quoted c r).2)
      else if Text.isDigit c ∨ c = '-' then some (atom (number (c :: r)).1, (number (c :: r)).2)
      else
        let (name, r) := word (c :: r)
        if name = [] ∨ name = ['l', 'e', 't'] ∨ name = ['f', 'n'] then none
        else if name = ['i', 'f'] then cond n (r.drop 1)
        else some (atom name, r)

/-- A tuple or an operation after its opening mark. A minus sign may belong to the first operand. -/
def paren : Nat → List Char → Option (Expr × List Char)
  | 0, _ => none
  | n + 1, cs =>
    match cs with
    | ')' :: r => some (.tuple [] {}, r)
    | '!' :: r => unary n .not r
    | '~' :: r => unary n .bitNot r
    | '-' :: r => (unary n .negate r).or (operands n ('-' :: r))
    | cs => operands n cs

/-- A unary operation after its sign. -/
def unary : Nat → UnaryOp → List Char → Option (Expr × List Char)
  | 0, _, _ => none
  | n + 1, op, cs =>
    match expr n cs with
    | some (e, ')' :: r) => some (.unary op e {}, r)
    | _ => none

/-- A binary operation or a tuple that is not empty. -/
def operands : Nat → List Char → Option (Expr × List Char)
  | 0, _ => none
  | n + 1, cs =>
    match expr n cs with
    | some (e, ',' :: ')' :: r) => some (.tuple [e] {}, r)
    | some (e, ',' :: r) => do
      let (es, r) ← exprs n (r.drop 1)
      some (.tuple (e :: es) {}, r)
    | some (e, ' ' :: r) => do
      let op ← operator? (r.takeWhile (· ≠ ' '))
      let (right, r) ← expr n ((r.dropWhile (· ≠ ' ')).drop 1)
      some (.binary op e right {}, r.drop 1)
    | _ => none

/-- A conditional after its keyword. -/
def cond : Nat → List Char → Option (Expr × List Char)
  | 0, _ => none
  | n + 1, cs => do
    let (test, r) ← expr n cs
    let (yes, r) ← head n (r.drop 1)
    match r with
    | ' ' :: 'e' :: r => do
      let (no, r) ← head n (r.drop 4)
      some (.cond test yes (some no) {}, r)
    | r => some (.cond test yes none {}, r)

/-- Expressions up to and including the closing mark. -/
def exprs : Nat → List Char → Option (List Expr × List Char)
  | 0, _ => none
  | n + 1, cs =>
    match expr n cs with
    | some (e, ',' :: r) => do
      let (es, r) ← exprs n (r.drop 1)
      some (e :: es, r)
    | some (e, r) => some ([e], r.drop 1)
    | none => some ([], cs.drop 1)

/-- Statements and a value, as far as they go. -/
def sequence : Nat → List Char → Option (List Stmt × Option Expr × List Char)
  | 0, _ => none
  | n + 1, cs =>
    match expr n cs with
    | some (e, ';' :: r) => do
      let (ss, value, r) ← sequence n (r.drop 1)
      some (.expr e {} :: ss, value, r)
    | some (e, r) => some ([], some e, r.drop 1)
    | none =>
      match stmt n cs with
      | some (s, r) => do
        let (ss, value, r) ← sequence n (r.drop 1)
        some (s :: ss, value, r)
      | none => some ([], none, cs)

/-- A binding or a function. -/
def stmt : Nat → List Char → Option (Stmt × List Char)
  | 0, _ => none
  | n + 1, cs =>
    let (keyword, r) := word cs
    let (name, r) := word (r.drop 1)
    if keyword = ['l', 'e', 't'] then do
      let (type?, r) ← typeAfter n [':', ' '] r
      let (value, r) ← expr n (r.drop 3)
      some (.bind (String.ofList name) type? value {}, r.drop 1)
    else if keyword = ['f', 'n'] then do
      let (ps, r) ← params n (r.drop 1)
      let (result?, r) ← typeAfter n [' ', '-', '>', ' '] r
      let (body, r) ← head n (r.drop 1)
      some (.function ⟨String.ofList name, ps, result?, {}⟩ body {}, r)
    else none

end

end

/-! ### Words are read back -/

variable {w r : List Char}

theorem word_append (all : ∀ c ∈ w, continuesName c) (stop : ∀ c ∈ r.head?, ¬ continuesName c) : word (w ++ r) = (w, r) := by
  obtain ⟨first, second⟩ := cut_append (p := continuesName) all stop
  rw [word, first, second]

theorem number_append (all : ∀ c ∈ w, inNumber c) (stop : ∀ c ∈ r.head?, ¬ inNumber c) : number (w ++ r) = (w, r) := by
  obtain ⟨first, second⟩ := cut_append (p := inNumber) all stop
  rw [number, first, second]

variable {q : Char}

theorem quoted_plain (plain : ∀ c ∈ w, c ≠ '\\' ∧ c ≠ q) : quoted q (w ++ r) = (w ++ (quoted q r).1, (quoted q r).2) := by
  induction w with
  | nil => rfl
  | cons c w ih =>
    obtain ⟨⟨slash, quote⟩, others⟩ := List.forall_mem_cons.1 plain
    rw [List.cons_append, quoted, if_neg quote, ih others]
    · rfl
    · exact fun _ _ e => absurd e slash

theorem quoted_escape (quotes : q = '"' ∨ q = '\'') (c : Char) :
    quoted q (Text.escape q c ++ r) = (Text.escape q c ++ (quoted q r).1, (quoted q r).2) := by
  rcases Text.escape_cases (c := c) quotes with ⟨d, shown, -⟩ | ⟨shown, slash, quote, -⟩ | ⟨shown, -⟩ <;> rw [shown]
  · rfl
  · exact quoted_plain fun d hd => List.mem_singleton.1 hd ▸ ⟨slash, quote⟩
  · have inside : ∀ d ∈ '\x7b' :: (Nat.toDigits 16 c.toNat ++ ['\x7d']), d ≠ '\\' ∧ d ≠ q := by
      intro d hd
      simp only [List.mem_cons, List.mem_append, List.not_mem_nil, or_false] at hd
      rcases hd with rfl | hd | rfl
      · rcases quotes with rfl | rfl <;> decide
      · obtain ⟨k, small, rfl⟩ := Text.mem_hex hd
        have plain := Text.digitChar_plain small
        exact ⟨plain.1, by rcases quotes with rfl | rfl; exacts [plain.2.1, plain.2.2.1]⟩
      · rcases quotes with rfl | rfl <;> decide
    have rest := quoted_plain (r := r) inside
    simp only [List.cons_append, List.append_assoc, List.nil_append] at rest ⊢
    rw [quoted, rest]

theorem quoted_escapes (quotes : q = '"' ∨ q = '\'') : ∀ cs : List Char,
    quoted q (cs.flatMap (Text.escape q) ++ q :: r) = (cs.flatMap (Text.escape q) ++ [q], r)
  | [] => by rcases quotes with rfl | rfl <;> simp [quoted]
  | c :: cs => by
    rw [List.flatMap_cons, List.append_assoc, quoted_escape quotes, quoted_escapes quotes cs, List.append_assoc]

/-! ### Types are read back -/

/-- The end of a type. -/
def Behind (r : List Char) : Prop := ∃ c t, r = c :: t ∧ c ∈ [' ', ')', ']', ',', '|']

theorem Behind.of_mem {c : Char} {r : List Char} (h : c ∈ [' ', ')', ']', ',', '|']) : Behind (c :: r) := ⟨c, r, rfl, h⟩

theorem Behind.stops {r : List Char} (h : Behind r) : ∀ c ∈ r.head?, ¬ continuesName c := by
  obtain ⟨c, t, rfl, mark⟩ := h
  rintro _ ⟨⟩
  have all : [' ', ')', ']', ',', '|'].all (fun c => !continuesName c) = true := by decide
  simpa using List.all_eq_true.1 all c mark

theorem type_named {n : Nat} {s : String} {r : List Char} (h : isIdentifier s) (stop : ∀ c ∈ r.head?, ¬ continuesName c) :
    type (n + 1) (s.toList ++ r) = some (.named s {}, r) := by
  obtain ⟨⟨c, cs, hs, first⟩, all, plain⟩ := Text.identifier_cases h
  have split := word_append all stop
  have fn : s.toList ≠ ['f', 'n'] := fun e => Text.identifier_ne h (w := "fn") (by decide) (by rw [← String.ofList_toList (s := s), e])
  have back : String.ofList s.toList = s := String.ofList_toList
  rw [hs] at split fn back ⊢
  rw [List.cons_append] at split ⊢
  unfold type
  split
  · next e => cases e; exact absurd first (by decide)
  · next e => cases e; exact absurd first (by decide)
  · simp only [split, back, fn, if_false, reduceCtorEq]

mutual

/-- The text of a type is read as the type. -/
theorem type_text : ∀ (t : TypeExpr), t.isFormed → ∀ {n : Nat} {r : List Char}, 4 * sizeOf t < n → Behind r →
    type n (t.text.toList ++ r) = some (t.bare, r)
  | .named name s, h, n, r, bound, behind => by
    obtain ⟨n, rfl⟩ : ∃ k, n = k + 1 := ⟨n - 1, by omega⟩
    exact type_named h behind.stops
  | .list elem s, h, n, r, bound, behind => by
    simp only [TypeExpr.list.sizeOf_spec] at bound
    obtain ⟨n, rfl⟩ : ∃ k, n = k + 1 := ⟨n - 1, by omega⟩
    have inner := type_text elem h (n := n) (r := ']' :: r) (by omega) (.of_mem (by decide))
    simp only [TypeExpr.text, String.toList_append, String.reduceToList, List.append_assoc, List.cons_append, List.nil_append,
      TypeExpr.bare]
    unfold type
    simp [inner]
  | .tuple items s, h, n, r, bound, behind => by
    simp only [TypeExpr.tuple.sizeOf_spec] at bound
    obtain ⟨n, rfl⟩ : ∃ k, n = k + 1 := ⟨n - 1, by omega⟩
    have inner := types_text items h (n := n) (r := r) (by omega)
    simp only [TypeExpr.text, String.toList_append, String.reduceToList, List.append_assoc, List.cons_append, List.nil_append,
      TypeExpr.bare]
    unfold type
    simp [inner]
  | .function params result s, h, n, r, bound, behind => by
    simp only [TypeExpr.function.sizeOf_spec] at bound
    obtain ⟨n, rfl⟩ : ∃ k, n = k + 1 := ⟨n - 1, by omega⟩
    rw [TypeExpr.isFormed, Bool.and_eq_true] at h
    have first := types_text params h.1 (n := n) (r := ' ' :: '-' :: '>' :: ' ' :: (result.text.toList ++ r)) (by omega)
    have second := type_text result h.2 (n := n) (r := r) (by omega) behind
    have split (t : List Char) : word ('f' :: 'n' :: '(' :: t) = (['f', 'n'], '(' :: t) := rfl
    simp only [TypeExpr.text, String.toList_append, String.reduceToList, List.append_assoc, List.cons_append, List.nil_append,
      TypeExpr.bare]
    unfold type
    simp [split, first, second]

theorem types_text : ∀ (ts : List TypeExpr), TypeExpr.areFormed ts → ∀ {n : Nat} {r : List Char}, 4 * sizeOf ts < n →
    types n ((TypeExpr.texts ts).toList ++ ')' :: r) = some (TypeExpr.bares ts, r)
  | [], h, n, r, bound => by
    obtain ⟨n, rfl⟩ : ∃ k, n = k + 1 := ⟨n - 1, by omega⟩
    have none : type n (')' :: r) = none := by
      cases n <;> rfl
    unfold types
    simp [TypeExpr.texts, TypeExpr.bares, none]
  | [t], h, n, r, bound => by
    simp only [List.cons.sizeOf_spec, List.nil.sizeOf_spec] at bound
    obtain ⟨n, rfl⟩ : ∃ k, n = k + 1 := ⟨n - 1, by omega⟩
    rw [TypeExpr.areFormed, Bool.and_eq_true] at h
    have inner := type_text t h.1 (n := n) (r := ')' :: r) (by omega) (.of_mem (by decide))
    unfold types
    simp [TypeExpr.texts, TypeExpr.bares, inner]
  | t :: u :: ts, h, n, r, bound => by
    rw [List.cons.sizeOf_spec] at bound
    obtain ⟨n, rfl⟩ : ∃ k, n = k + 1 := ⟨n - 1, by omega⟩
    rw [TypeExpr.areFormed, Bool.and_eq_true] at h
    have inner := type_text t h.1 (n := n) (r := ',' :: ' ' :: ((TypeExpr.texts (u :: ts)).toList ++ ')' :: r)) (by omega)
      (.of_mem (by decide))
    have others := types_text (u :: ts) h.2 (n := n) (r := r) (by omega)
    simp only [TypeExpr.texts, String.toList_append, String.reduceToList, List.append_assoc, List.cons_append, List.nil_append]
    unfold types
    rw [inner]
    simp [others, TypeExpr.bares]

end

theorem typeAfter_text (lead : List Char) (type? : Option TypeExpr) (h : type?.all TypeExpr.isFormed) {n : Nat} {r : List Char}
    (bound : 4 * sizeOf type? < n) (behind : type?.isSome → Behind r) (other : type? = none → ¬ lead <+: r) :
    typeAfter n lead (leading lead type? ++ r) = some (type?.map TypeExpr.bare, r) := by
  cases type? with
  | none =>
    have : lead.isPrefixOf r = false := Bool.eq_false_iff.2 fun e => other rfl (List.isPrefixOf_iff_prefix.1 e)
    simp [typeAfter, leading, this]
  | some t =>
    rw [Option.some.sizeOf_spec] at bound
    have read := type_text t h (n := n) (by omega) (behind rfl)
    simp [typeAfter, leading, read]

theorem params_text : ∀ (ps : List Param), ps.all Param.isFormed → ∀ {n : Nat} {c : Char} {r : List Char}, c = ')' ∨ c = '|' →
    4 * sizeOf ps < n → params n ((Param.texts ps).toList ++ c :: r) = some (ps.map Param.bare, r)
  | [], h, n, c, r, mark, bound => by
    obtain ⟨n, rfl⟩ : ∃ k, n = k + 1 := ⟨n - 1, by omega⟩
    rcases mark with rfl | rfl <;> rfl
  | p :: ps, h, n, c, r, mark, bound => by
    obtain ⟨name, type?, span⟩ := p
    simp only [List.cons.sizeOf_spec, Param.mk.sizeOf_spec] at bound
    obtain ⟨n, rfl⟩ : ∃ k, n = k + 1 := ⟨n - 1, by omega⟩
    simp only [List.all_cons, Param.isFormed, Bool.and_eq_true] at h
    obtain ⟨⟨named, written⟩, others⟩ := h
    obtain ⟨⟨a, as, ha, -⟩, all, -⟩ := Text.identifier_cases named
    have there : name.toList ≠ [] := by rw [ha]; exact List.cons_ne_nil _ _
    -- what is behind the parameter
    have one {d : Char} {t : List Char} (hd : d ∈ [')', '|', ',']) :
        word (name.toList ++ (leading [':', ' '] type? ++ d :: t)) = (name.toList, leading [':', ' '] type? ++ d :: t) ∧
        typeAfter n [':', ' '] (leading [':', ' '] type? ++ d :: t) = some (type?.map TypeExpr.bare, d :: t) := by
      simp only [List.mem_cons, List.not_mem_nil, or_false] at hd
      constructor
      · refine word_append all fun c hc => ?_
        cases type? with
        | some t => cases hc; decide
        | none => rcases hd with rfl | rfl | rfl <;> cases hc <;> decide
      · refine typeAfter_text _ _ written (by omega) (fun _ => .of_mem ?_) fun _ => ?_
        · rcases hd with rfl | rfl | rfl <;> decide
        · rcases hd with rfl | rfl | rfl <;> simp
    cases ps with
    | nil =>
      obtain ⟨split, read⟩ := one (d := c) (t := r) (by rcases mark with rfl | rfl <;> decide)
      rw [Param.texts, List.map_cons, List.map_nil, String.intercalate_singleton, Param.text_toList, List.append_assoc]
      unfold params
      rcases mark with rfl | rfl <;> simp [split, read, there, Param.bare]
    | cons q ps =>
      obtain ⟨split, read⟩ := one (d := ',') (t := ' ' :: ((Param.texts (q :: ps)).toList ++ c :: r)) (by decide)
      have rest := params_text (q :: ps) others (n := n) (r := r) mark (by omega)
      rw [Param.texts, List.map_cons, List.map_cons, String.intercalate_cons_cons, ← List.map_cons, ← Param.texts, String.toList_append,
        String.toList_append, Param.text_toList]
      simp only [String.reduceToList, List.append_assoc, List.cons_append, List.nil_append]
      unfold params
      rw [split]
      simp [read, there, Param.bare, rest]

end Display

end StackScript
