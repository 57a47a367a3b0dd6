import StackScript.Compile.Expr
import StackScript.Proofs.KnownTypes

/-!
Plain programs. One native function takes lists of every element type, and the type that it has as a value leaves
that open. A program is plain if it only ever calls this function by its name and binds the name to nothing else.
-/
namespace StackScript

namespace Plain

/-- The name of the function whose parameter is not fully typed. -/
def reserved : String := Native.listLength.name

end Plain

def Header.isPlain (h : Header) : Bool :=
  h.name != Plain.reserved && h.params.all fun p => p.name != Plain.reserved

mutual

def Expr.isPlain (called : Bool) : Expr → Bool
  | .literal _ _ => true
  | .variable name _ => called || name != Plain.reserved
  | .group e _ => e.isPlain called
  | .unary _ e _ | .field e _ _ => e.isPlain false
  | .binary _ a b _ | .index a b _ => a.isPlain false && b.isPlain false
  | .call f args _ => f.isPlain true && Expr.arePlain args
  | .tuple es _ | .list es _ => Expr.arePlain es
  | .lambda h body _ => h.isPlain && body.isPlain false
  | .block ss value _ => Stmt.arePlain ss && Expr.isPlainOption value
  | .cond test yes no _ => test.isPlain false && yes.isPlain false && Expr.isPlainOption no

def Expr.arePlain : List Expr → Bool
  | [] => true
  | e :: es => e.isPlain false && Expr.arePlain es

def Expr.isPlainOption : Option Expr → Bool
  | none => true
  | some e => e.isPlain false

def Stmt.isPlain : Stmt → Bool
  | .expr e _ => e.isPlain false
  | .bind name _ e _ => name != Plain.reserved && e.isPlain false
  | .function h body _ => h.isPlain && body.isPlain false

def Stmt.arePlain : List Stmt → Bool
  | [] => true
  | s :: ss => s.isPlain && Stmt.arePlain ss

end

def FunctionDecl.isPlain (f : FunctionDecl) : Bool := f.header.isPlain && f.body.isPlain false

def Program.isPlain (p : Program) : Bool := Stmt.arePlain p.statements && Expr.isPlainOption p.value

theorem TypeExpr.known_mapM {written : Option TypeExpr} {t : Ty} (e : written.mapM resolve = .ok (some t)) :
    t.Known := by
  cases written with
  | none => cases e
  | some w =>
    change some <$> w.resolve = .ok (some t) at e
    cases hw : w.resolve with
    | error err =>
      rw [hw] at e
      cases e
    | ok u =>
      rw [hw] at e
      cases e
      exact known_resolve hw

theorem Signature.known_effectiveResult {s : Signature} :
    s.effectiveResult.Known ↔ s.result = .unknown ∨ s.result.Known := by
  unfold effectiveResult
  split
  · next h => simp [h, Ty.Known, Ty.isGeneric]
  · next h => exact (or_iff_right h).symm

namespace Header

variable {h h' : Header} {name : String} {written : Option TypeExpr}

theorem isPlain_iff : h.isPlain ↔ h.name ≠ Plain.reserved ∧ ∀ p ∈ h.params, p.name ≠ Plain.reserved := by
  simp [isPlain]

theorem names_zipWith : ∀ {ps : List Param} {ts : List TypeExpr}, ∀ p ∈ List.zipWith fillParam ps ts,
    ∃ q ∈ ps, p.name = q.name
  | [], _, p, hp => by simp at hp
  | q :: ps, [], p, hp => by simp at hp
  | q :: ps, t :: ts, p, hp => by
    rw [List.zipWith_cons_cons, List.mem_cons] at hp
    rcases hp with rfl | hp
    · exact ⟨q, .head _, rfl⟩
    · obtain ⟨q', hq', e⟩ := names_zipWith p hp
      exact ⟨q', .tail _ hq', e⟩

/-- A lambda that is bound to a name keeps the names of its parameters. -/
theorem isPlain_bindTo (hh : h.isPlain) (hn : name ≠ Plain.reserved) (e : h.bindTo name written = .ok h') :
    h'.isPlain := by
  obtain ⟨-, hps⟩ := isPlain_iff.1 hh
  rw [isPlain_iff]
  unfold bindTo at e
  split at e
  · cases e
    exact ⟨hn, hps⟩
  · split at e
    · cases e
      refine ⟨hn, fun p hp => ?_⟩
      obtain ⟨q, hq, e⟩ := names_zipWith p hp
      exact e ▸ hps q hq
    · cases e
  · cases e

/-- What a signature has before its function is declared. -/
structure Declares (s : Signature) : Prop where
  nonlocals : s.nonlocals = []
  bound : s.bound = []
  result : s.effectiveResult.Known

theorem known_resolve? {t : Ty} (e : TypeExpr.resolve? written = .ok t) : t = .unknown ∨ t.Known := by
  cases written with
  | none =>
    cases e
    exact .inl rfl
  | some w => exact .inr (TypeExpr.known_resolve e)

theorem length_of_mapM {α β : Type} {f : α → Except CompileError β} : ∀ {as : List α} {bs : List β},
    as.mapM f = .ok bs → bs.length = as.length
  | [], bs, e => by
    cases e
    rfl
  | a :: as, bs, e => by
    rw [List.mapM_cons] at e
    simp only [bind, Except.bind] at e
    cases ha : f a with
    | error err => simp [ha] at e
    | ok b =>
      cases hb : as.mapM f with
      | error err => simp [ha, hb] at e
      | ok cs =>
        simp only [ha, hb, pure, Except.pure, Except.ok.injEq] at e
        subst e
        simp [length_of_mapM hb]

theorem signature_spec {s : Signature} (e : h.signature = .ok s) :
    Declares s ∧ s.params.length = h.params.length := by
  simp only [signature, bind, Except.bind] at e
  cases hp : h.params.mapM fun p => TypeExpr.resolve? p.type? with
  | error err => simp [hp] at e
  | ok params =>
    cases hr : TypeExpr.resolve? h.result? with
    | error err => simp [hp, hr] at e
    | ok t =>
      simp only [hp, hr, pure, Except.pure, Except.ok.injEq] at e
      subst e
      exact ⟨⟨rfl, rfl, Signature.known_effectiveResult.2 (known_resolve? hr)⟩, length_of_mapM hp⟩

theorem signatureAs_spec {s : Signature} {expected : Option Ty} (e : h.signatureAs expected = .ok s) : Declares s := by
  simp only [signatureAs, bind, Except.bind] at e
  cases hs : h.signature with
  | error err => simp [hs] at e
  | ok s₀ =>
    obtain ⟨d, -⟩ := signature_spec hs
    simp only [hs] at e
    split at e
    · split at e
      · cases e
      · cases e
        refine ⟨d.nonlocals, d.bound, Signature.known_effectiveResult.2 ?_⟩
        dsimp only
        split
        · next hgen =>
          refine .inr ?_
          simp only [Bool.and_eq_true, Bool.not_eq_true'] at hgen
          exact hgen.2
        · exact Signature.known_effectiveResult.1 d.result
    · cases e
      exact d

end Header

namespace Expr

/-- A callee is plain by itself unless it is the one reserved name. -/
theorem isPlain_of_called : ∀ {e : Expr}, e.isPlain true →
    (∀ span, Compile.core e ≠ .variable Plain.reserved span) → e.isPlain false
  | .variable name span, _, h => by
    simp only [isPlain, Bool.false_or, bne_iff_ne]
    rintro rfl
    exact h span rfl
  | .group e _, h, hc => isPlain_of_called (e := e) h hc
  | .literal _ _, h, _ | .unary _ _ _, h, _ | .field _ _ _, h, _ | .binary _ _ _ _, h, _ | .index _ _ _, h, _
  | .call _ _ _, h, _ | .tuple _ _, h, _ | .list _ _, h, _ | .lambda _ _ _, h, _ | .block _ _ _, h, _
  | .cond _ _ _ _, h, _ => h

end Expr

end StackScript
