import StackScript.Proofs.Regimes

/-!
Solid types: those of values that are at hand. Nothing of them is unknown but the parameters of functions and the elements
of lists.
-/
namespace StackScript

namespace Ty

mutual

/-- The type says how many bytes a value takes, and what a call to it gives. -/
def isSolid : Ty → Bool
  | unknown => false
  | tuple items => allSolid items
  | function _ result => result.isSolid
  | _ => true

def allSolid : List Ty → Bool
  | [] => true
  | t :: ts => t.isSolid && allSolid ts

end

theorem allSolid_iff {ts : List Ty} : allSolid ts ↔ ∀ t ∈ ts, t.isSolid := by
  induction ts with
  | nil => simp [allSolid]
  | cons t ts ih => simp [allSolid, ih]

theorem isSolid_ne_unknown {t : Ty} (h : t.isSolid) : t ≠ .unknown := by
  rintro rfl
  cases h

mutual

theorem isSolid_of_known : ∀ {t : Ty}, t.isGeneric = false → t.isSolid
  | .unknown, h => by cases h
  | .tuple ts, h => by
    rw [isSolid]
    exact allSolid_of_known (by simpa [isGeneric] using h)
  | .function ps r, h => by
    rw [isGeneric, Bool.or_eq_false_iff] at h
    rw [isSolid]
    exact isSolid_of_known h.2
  | .void, _ | .bool, _ | .byte, _ | .char, _ | .int32, _ | .int64, _ | .float32, _ | .float64, _ | .string, _
  | .list _, _ | .module, _ => rfl

theorem allSolid_of_known : ∀ {ts : List Ty}, anyGeneric ts = false → allSolid ts
  | [], _ => rfl
  | t :: ts, h => by
    rw [anyGeneric, Bool.or_eq_false_iff] at h
    rw [allSolid, isSolid_of_known h.1, allSolid_of_known h.2, Bool.and_self]

end

mutual

theorem isSolid_unify : ∀ {a b t : Ty}, a.isSolid → b.isSolid → a.unify? b = some t → t.isSolid
  | .unknown, _, _, ha, _, _ => by cases ha
  | .list a, b, t, _, hb, h => by
    cases b with
    | list b =>
      rw [unify?, Option.map_eq_some_iff] at h
      obtain ⟨u, -, rfl⟩ := h
      rfl
    | unknown => cases hb
    | _ => simp [unify?, agrees] at h
  | .tuple as, b, t, ha, hb, h => by
    cases b with
    | tuple bs =>
      rw [unify?, Option.map_eq_some_iff] at h
      obtain ⟨us, hu, rfl⟩ := h
      exact allSolid_unify (show allSolid as from ha) hb hu
    | unknown => cases hb
    | _ => simp [unify?, agrees] at h
  | .function ps r, b, t, ha, hb, h => by
    cases b with
    | function qs s =>
      simp only [unify?, Option.ite_none_right_eq_some, Option.some.injEq] at h
      obtain ⟨-, rfl⟩ := h
      split
      · exact hb
      · exact ha
    | unknown => cases hb
    | _ => simp [unify?, agrees] at h
  | .void, _, _, ha, _, h | .bool, _, _, ha, _, h | .byte, _, _, ha, _, h | .char, _, _, ha, _, h
  | .int32, _, _, ha, _, h | .int64, _, _, ha, _, h | .float32, _, _, ha, _, h | .float64, _, _, ha, _, h
  | .string, _, _, ha, _, h | .module, _, _, ha, _, h => by
    obtain rfl := unify?_eq_left (by rfl) h
    exact ha

theorem allSolid_unify : ∀ {as bs ts : List Ty}, allSolid as → allSolid bs → unifyAll? as bs = some ts → allSolid ts
  | [], [], _, _, _, h => by
    cases h
    rfl
  | [], _ :: _, _, _, _, h => by simp [unifyAll?] at h
  | _ :: _, [], _, _, _, h => by simp [unifyAll?] at h
  | a :: as, b :: bs, ts, ha, hb, h => by
    rw [allSolid, Bool.and_eq_true] at ha hb
    simp only [unifyAll?, Option.bind_eq_bind, Option.bind_eq_some_iff, Option.pure_def, Option.some.injEq] at h
    obtain ⟨t, ht, us, hus, rfl⟩ := h
    rw [allSolid, isSolid_unify ha.1 hb.1 ht, allSolid_unify ha.2 hb.2 hus, Bool.and_self]

end

end Ty

/-- A result type that is not known yet, or one that a value has. -/
def Ty.IsResult (t : Ty) : Prop := t = .unknown ∨ t.isSolid

namespace Signature

variable {s s' : Signature} {t : Ty}

theorem isSolid_effectiveResult (h : s.result.IsResult) : s.effectiveResult.isSolid := by
  unfold effectiveResult
  split
  · rfl
  · next known => exact h.resolve_left known

/-- The result of a function that is finished is solid, and only the result is found by then. -/
theorem resolve_solid (h : s.result.IsResult) (ht : t.isSolid) (e : s.resolve t = .ok s') :
    ∃ r, s' = { s with result := r } ∧ r.isSolid := by
  unfold resolve at e
  split at e
  · next u hu =>
    cases e
    refine ⟨u, rfl, ?_⟩
    rcases h with unknown | solid
    · rw [unknown] at hu
      obtain rfl : t = u := by simpa [Ty.unify?] using hu
      exact ht
    · exact Ty.isSolid_unify solid ht hu
  · cases e

end Signature

namespace Regime

theorem types_solid : Types fun t => t.isSolid where
  known _ h := Ty.isSolid_of_known h
  list _ := rfl
  tuple ts := by
    rw [Ty.isSolid]
    exact Ty.allSolid_iff
  function ps r := by rw [Ty.isSolid]
  unify _ _ _ ha hb h := Ty.isSolid_unify ha hb h

end Regime

end StackScript
