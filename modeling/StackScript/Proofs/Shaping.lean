import StackScript.Proofs.Complying
import StackScript.Proofs.Lexemes

/-!
The shape of trees that are read from a text. All names are identifiers, and the branches of conditionals and the bodies of
functions have their braces.
-/
namespace StackScript

open Text (isIdentifier)

mutual

/-- All expressions and all statements in a tree are as required. -/
def Expr.every (p : Expr → Bool) (q : Stmt → Bool) : Expr → Bool
  | .literal v s => p (.literal v s)
  | .variable name s => p (.variable name s)
  | .group e s => p (.group e s) && e.every p q
  | .binary op a b s => p (.binary op a b s) && a.every p q && b.every p q
  | .unary op e s => p (.unary op e s) && e.every p q
  | .call f args s => p (.call f args s) && f.every p q && Expr.allEvery p q args
  | .index a b s => p (.index a b s) && a.every p q && b.every p q
  | .field e k s => p (.field e k s) && e.every p q
  | .tuple es s => p (.tuple es s) && Expr.allEvery p q es
  | .list es s => p (.list es s) && Expr.allEvery p q es
  | .lambda h body s => p (.lambda h body s) && body.every p q
  | .block ss value s => p (.block ss value s) && Stmt.allEvery p q ss && Expr.optionEvery p q value
  | .cond test yes no s => p (.cond test yes no s) && test.every p q && yes.every p q && Expr.optionEvery p q no

def Expr.allEvery (p : Expr → Bool) (q : Stmt → Bool) : List Expr → Bool
  | [] => true
  | e :: es => e.every p q && Expr.allEvery p q es

def Expr.optionEvery (p : Expr → Bool) (q : Stmt → Bool) : Option Expr → Bool
  | none => true
  | some e => e.every p q

def Stmt.every (p : Expr → Bool) (q : Stmt → Bool) : Stmt → Bool
  | .expr e s => q (.expr e s) && e.every p q
  | .bind name type? e s => q (.bind name type? e s) && e.every p q
  | .function h body s => q (.function h body s) && body.every p q

def Stmt.allEvery (p : Expr → Bool) (q : Stmt → Bool) : List Stmt → Bool
  | [] => true
  | s :: ss => s.every p q && Stmt.allEvery p q ss

end

/-! ### Well-formed trees -/

mutual

def TypeExpr.isFormed : TypeExpr → Bool
  | .named name _ => isIdentifier name
  | .list elem _ => elem.isFormed
  | .tuple items _ => TypeExpr.areFormed items
  | .function params result _ => TypeExpr.areFormed params && result.isFormed

def TypeExpr.areFormed : List TypeExpr → Bool
  | [] => true
  | t :: ts => t.isFormed && TypeExpr.areFormed ts

end

def Param.isFormed (p : Param) : Bool := isIdentifier p.name && p.type?.all TypeExpr.isFormed

def Header.isFormed (h : Header) : Bool := h.params.all Param.isFormed && h.result?.all TypeExpr.isFormed

def Expr.isBlock : Expr → Bool
  | .block .. => true
  | _ => false

theorem Expr.isBraced_of_isBlock {e : Expr} (h : e.isBlock) : e.isBraced := by
  cases e with
  | block => rfl
  | _ => cases h

/-- What an expression has to be apart from its parts. -/
def Expr.hasForm : Expr → Bool
  | .variable name _ => isIdentifier name
  | .lambda h _ _ => h.isFormed
  | .cond _ yes no _ => yes.isBlock && no.all Expr.isBraced
  | _ => true

def Stmt.hasForm : Stmt → Bool
  | .expr .. => true
  | .bind name type? _ _ => isIdentifier name && type?.all TypeExpr.isFormed
  | .function h body _ => isIdentifier h.name && h.isFormed && body.isBlock

abbrev Expr.Formed (e : Expr) : Prop := e.every hasForm Stmt.hasForm

abbrev Expr.AllFormed (es : List Expr) : Prop := Expr.allEvery hasForm Stmt.hasForm es

abbrev Expr.OptionFormed (e : Option Expr) : Prop := Expr.optionEvery hasForm Stmt.hasForm e

abbrev Stmt.Formed (s : Stmt) : Prop := s.every Expr.hasForm hasForm

abbrev Stmt.AllFormed (ss : List Stmt) : Prop := Stmt.allEvery Expr.hasForm hasForm ss

/-! ### Functions have names -/

/-- A function that is declared has a name. -/
def Header.isNamed (h : Header) : Bool := !h.name.isEmpty

theorem Header.isNamed_of_identifier {h : Header} (named : isIdentifier h.name) : h.isNamed := by
  have : h.name ≠ "" := by
    intro e
    rw [e] at named
    cases named
  simpa [isNamed, String.isEmpty_iff] using this

mutual

theorem Expr.nests_of_formed : ∀ e : Expr, e.Formed → e.nests Header.isNamed
  | .literal _ _, _ | .variable _ _, _ => rfl
  | .group e _, h | .unary _ e _, h | .field e _ _, h | .lambda _ e _, h =>
    Expr.nests_of_formed e (Bool.and_eq_true_iff.1 h).2
  | .binary _ a b _, h | .index a b _, h => by
    simp only [Expr.Formed, Expr.every, Bool.and_eq_true] at h
    exact Bool.and_eq_true_iff.2 ⟨Expr.nests_of_formed a h.1.2, Expr.nests_of_formed b h.2⟩
  | .call f args _, h => by
    simp only [Expr.Formed, Expr.every, Bool.and_eq_true] at h
    exact Bool.and_eq_true_iff.2 ⟨Expr.nests_of_formed f h.1.2, Expr.allNest_of_formed args h.2⟩
  | .tuple es _, h | .list es _, h => Expr.allNest_of_formed es (Bool.and_eq_true_iff.1 h).2
  | .block ss value _, h => by
    simp only [Expr.Formed, Expr.every, Bool.and_eq_true] at h
    exact Bool.and_eq_true_iff.2 ⟨Stmt.allNest_of_formed ss h.1.2, Expr.optionNests_of_formed value h.2⟩
  | .cond test yes no _, h => by
    simp only [Expr.Formed, Expr.every, Bool.and_eq_true] at h
    exact Bool.and_eq_true_iff.2 ⟨Bool.and_eq_true_iff.2 ⟨Expr.nests_of_formed test h.1.1.2, Expr.nests_of_formed yes h.1.2⟩,
      Expr.optionNests_of_formed no h.2⟩

theorem Expr.allNest_of_formed : ∀ es : List Expr, Expr.AllFormed es → Expr.allNest Header.isNamed es
  | [], _ => rfl
  | e :: es, h => by
    simp only [Expr.AllFormed, Expr.allEvery, Bool.and_eq_true] at h
    exact Bool.and_eq_true_iff.2 ⟨Expr.nests_of_formed e h.1, Expr.allNest_of_formed es h.2⟩

theorem Expr.optionNests_of_formed : ∀ e : Option Expr, Expr.OptionFormed e → Expr.optionNests Header.isNamed e
  | none, _ => rfl
  | some e, h => Expr.nests_of_formed e h

theorem Stmt.nests_of_formed : ∀ s : Stmt, s.Formed → s.nests Header.isNamed
  | .expr e _, h => Expr.nests_of_formed e h
  | .bind name type? e span, h => by
    simp only [Stmt.Formed, Stmt.every, Stmt.hasForm, Bool.and_eq_true] at h
    have inner := Expr.nests_of_formed e h.2
    cases e with
    | lambda header body _ =>
      rw [Stmt.nests, Bool.and_eq_true]
      refine ⟨?_, inner⟩
      unfold Header.passes
      split
      · next header' bound =>
        refine Header.isNamed_of_identifier ?_
        rw [(Header.bindTo_spec bound).1]
        exact h.1.1
      · rfl
    | _ => exact inner
  | .function header body _, h => by
    simp only [Stmt.Formed, Stmt.every, Stmt.hasForm, Bool.and_eq_true] at h
    exact Bool.and_eq_true_iff.2 ⟨Header.isNamed_of_identifier h.1.1.1, Expr.nests_of_formed body h.2⟩

theorem Stmt.allNest_of_formed : ∀ ss : List Stmt, Stmt.AllFormed ss → Stmt.allNest Header.isNamed ss
  | [], _ => rfl
  | s :: ss, h => by
    simp only [Stmt.AllFormed, Stmt.allEvery, Bool.and_eq_true] at h
    exact Bool.and_eq_true_iff.2 ⟨Stmt.nests_of_formed s h.1, Stmt.allNest_of_formed ss h.2⟩

end

end StackScript
