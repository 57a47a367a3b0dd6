import StackScript.Compile.Expr

/-!
Free names. The walk over the tree of a function, with a list of bound names and one of names found before, finds the
names that the tree uses and does not bind itself.
-/
namespace StackScript

open FreeNames (paramNames)

mutual

/-- The expression uses the name, and does not bind it around the use. -/
def Expr.Uses (n : String) : Expr → Prop
  | .literal _ _ => False
  | .variable name _ => n = name
  | .group e _ | .unary _ e _ | .field e _ _ => e.Uses n
  | .binary _ a b _ | .index a b _ => a.Uses n ∨ b.Uses n
  | .call f args _ => f.Uses n ∨ Expr.AnyUses n args
  | .tuple es _ | .list es _ => Expr.AnyUses n es
  | .lambda h body _ => body.Uses n ∧ n ∉ paramNames h
  | .block ss value _ => Stmt.BlockUses n (Expr.OptionUses n value) ss
  | .cond test yes no _ => test.Uses n ∨ yes.Uses n ∨ Expr.OptionUses n no

def Expr.AnyUses (n : String) : List Expr → Prop
  | [] => False
  | e :: es => e.Uses n ∨ Expr.AnyUses n es

def Expr.OptionUses (n : String) : Option Expr → Prop
  | none => False
  | some e => e.Uses n

/-- Statements use the name, or leave it free for what follows them, which uses it. -/
def Stmt.BlockUses (n : String) (last : Prop) : List Stmt → Prop
  | [] => last
  | .expr e _ :: rest => e.Uses n ∨ Stmt.BlockUses n last rest
  | .bind name _ (.lambda h body _) _ :: rest =>
    (body.Uses n ∧ n ∉ paramNames h ∨ Stmt.BlockUses n last rest) ∧ n ≠ name
  | .bind name _ e _ :: rest => e.Uses n ∨ Stmt.BlockUses n last rest ∧ n ≠ name
  | .function h body _ :: rest =>
    (body.Uses n ∧ n ∉ paramNames h ∨ Stmt.BlockUses n last rest) ∧ n ≠ h.name

end

namespace FreeNames

variable {n : String} {bound free : List String}

theorem mem_note {name : String} : n ∈ note bound name free ↔ n ∈ free ∨ n = name ∧ n ∉ bound := by
  unfold note
  split
  · next h =>
    simp only [Bool.or_eq_true, List.contains_iff_mem] at h
    refine ⟨.inl, ?_⟩
    rintro (h' | ⟨rfl, h'⟩)
    · exact h'
    · exact h.resolve_left h'
  · next h =>
    simp only [Bool.or_eq_true, List.contains_iff_mem, not_or] at h
    rw [List.mem_append, List.mem_singleton]
    refine or_congr_right ⟨?_, And.left⟩
    rintro rfl
    exact ⟨rfl, h.1⟩

mutual

theorem mem_ofExpr : ∀ (e : Expr) (bound free : List String), n ∈ ofExpr bound e free ↔ n ∈ free ∨ e.Uses n ∧ n ∉ bound
  | .literal _ _, _, _ => by simp only [ofExpr, Expr.Uses, false_and, or_false]
  | .variable name _, _, _ => by rw [ofExpr, mem_note, Expr.Uses]
  | .group e _, bound, free | .unary _ e _, bound, free | .field e _ _, bound, free => by
    rw [ofExpr, mem_ofExpr e, Expr.Uses]
  | .binary _ a b _, bound, free | .index a b _, bound, free => by
    rw [ofExpr, mem_ofExpr b, mem_ofExpr a, Expr.Uses, or_and_right, or_assoc]
  | .call f args _, bound, free => by
    rw [ofExpr, mem_ofExprs args, mem_ofExpr f, Expr.Uses, or_and_right, or_assoc]
  | .tuple es _, bound, free | .list es _, bound, free => by
    rw [ofExpr, mem_ofExprs es, Expr.Uses]
  | .lambda h body _, bound, free => by
    rw [ofExpr, mem_ofExpr body, Expr.Uses, List.mem_append, not_or, and_assoc]
  | .block ss value _, bound, free => by
    rw [ofExpr, mem_ofBlock ss _ _ _ _ fun bound free => mem_ofOption value bound free, Expr.Uses]
  | .cond test yes no _, bound, free => by
    rw [ofExpr, mem_ofOption no, mem_ofExpr yes, mem_ofExpr test, Expr.Uses, or_and_right, or_and_right, or_assoc, or_assoc]

theorem mem_ofExprs : ∀ (es : List Expr) (bound free : List String),
    n ∈ ofExprs bound es free ↔ n ∈ free ∨ Expr.AnyUses n es ∧ n ∉ bound
  | [], _, _ => by simp only [ofExprs, Expr.AnyUses, false_and, or_false]
  | e :: es, bound, free => by
    rw [ofExprs, mem_ofExprs es, mem_ofExpr e, Expr.AnyUses, or_and_right, or_assoc]

theorem mem_ofOption : ∀ (e : Option Expr) (bound free : List String),
    n ∈ ofOption bound e free ↔ n ∈ free ∨ Expr.OptionUses n e ∧ n ∉ bound
  | none, _, _ => by simp only [ofOption, Expr.OptionUses, false_and, or_false]
  | some e, bound, free => by rw [ofOption, mem_ofExpr e, Expr.OptionUses]

theorem mem_ofBlock : ∀ (ss : List Stmt) (bound : List String) (last : List String → List String → List String)
    (free : List String) (used : Prop), (∀ bound free, n ∈ last bound free ↔ n ∈ free ∨ used ∧ n ∉ bound) →
    (n ∈ ofBlock bound ss last free ↔ n ∈ free ∨ Stmt.BlockUses n used ss ∧ n ∉ bound)
  | [], _, _, _, _, h => by rw [ofBlock, h, Stmt.BlockUses]
  | .expr e _ :: rest, bound, last, free, used, h => by
    rw [ofBlock, mem_ofBlock rest _ _ _ _ h, mem_ofExpr e, Stmt.BlockUses, or_and_right, or_assoc]
  | .bind name _ (.lambda g body _) _ :: rest, bound, last, free, used, h
  | .function ⟨name, ps, r, s⟩ body _ :: rest, bound, last, free, used, h => by
    rw [ofBlock, mem_ofBlock rest _ _ _ _ h, mem_ofExpr body, Stmt.BlockUses]
    simp only [List.mem_append, List.mem_cons, not_or]
    grind
  | .bind name _ (.variable _ _) _ :: rest, bound, last, free, used, h
  | .bind name _ (.literal _ _) _ :: rest, bound, last, free, used, h
  | .bind name _ (.unary _ _ _) _ :: rest, bound, last, free, used, h
  | .bind name _ (.field _ _ _) _ :: rest, bound, last, free, used, h
  | .bind name _ (.binary _ _ _ _) _ :: rest, bound, last, free, used, h
  | .bind name _ (.index _ _ _) _ :: rest, bound, last, free, used, h
  | .bind name _ (.call _ _ _) _ :: rest, bound, last, free, used, h
  | .bind name _ (.tuple _ _) _ :: rest, bound, last, free, used, h
  | .bind name _ (.list _ _) _ :: rest, bound, last, free, used, h
  | .bind name _ (.block _ _ _) _ :: rest, bound, last, free, used, h
  | .bind name _ (.cond _ _ _ _) _ :: rest, bound, last, free, used, h
  | .bind name _ (.group _ _) _ :: rest, bound, last, free, used, h => by
    rw [ofBlock, mem_ofBlock rest _ _ _ _ h, mem_ofExpr _ bound free, Stmt.BlockUses]
    · simp only [List.mem_cons, not_or]
      grind
    all_goals nofun

end

end FreeNames

/-- The free names of a function are those that its body uses, but for its parameters and its own name. -/
theorem FunctionDecl.mem_freeNames {f : FunctionDecl} {n : String} : n ∈ f.freeNames ↔
    f.body.Uses n ∧ n ∉ paramNames f.header ∧ (f.header.name = "" ∨ n ≠ f.header.name) := by
  rw [freeNames, FreeNames.mem_ofExpr, List.mem_append, not_or]
  split <;> simp_all [String.isEmpty_iff]

end StackScript
