import Mathlib.Tactic.SplitIfs
import StackScript.Compile.Names

/-!
Types without unknown parts. On them matching is equality, and unification with one of them gives it back.
-/
namespace StackScript

namespace Ty

def Known (t : Ty) : Prop := t.isGeneric = false

def AllKnown (ts : List Ty) : Prop := ∀ t ∈ ts, t.Known

theorem anyGeneric_eq_false {ts : List Ty} : anyGeneric ts = false ↔ AllKnown ts := by
  induction ts with
  | nil => simp [anyGeneric, AllKnown]
  | cons t ts ih => simp [anyGeneric, ih, AllKnown, Known]

@[simp] theorem known_list {t : Ty} : (list t).Known ↔ t.Known := by
  simp [Known, isGeneric]

@[simp] theorem known_tuple {ts : List Ty} : (tuple ts).Known ↔ AllKnown ts := by
  rw [Known, isGeneric, anyGeneric_eq_false]

@[simp] theorem known_function {ps : List Ty} {r : Ty} : (function ps r).Known ↔ AllKnown ps ∧ r.Known := by
  simp [Known, isGeneric, anyGeneric_eq_false]

@[simp] theorem not_known_unknown : ¬ unknown.Known := by
  simp [Known, isGeneric]

@[simp] theorem allKnown_nil : AllKnown [] := by
  simp [AllKnown]

@[simp] theorem allKnown_cons {t : Ty} {ts : List Ty} : AllKnown (t :: ts) ↔ t.Known ∧ AllKnown ts := by
  simp [AllKnown]

@[simp] theorem allKnown_append {ts us : List Ty} : AllKnown (ts ++ us) ↔ AllKnown ts ∧ AllKnown us := by
  simp only [AllKnown, List.mem_append, or_imp, forall_and]

/-! ### Matching -/

mutual

theorem eq_of_agrees : ∀ {a b : Ty}, a.Known → b.Known → a.agrees b → a = b
  | .unknown, _, ha, _, _ => absurd ha not_known_unknown
  | .list a, b, ha, hb, h => by
    cases b with
    | list b => rw [eq_of_agrees (known_list.1 ha) (known_list.1 hb) (by simpa [agrees] using h)]
    | unknown => exact absurd hb not_known_unknown
    | _ => simp [agrees] at h
  | .tuple as, b, ha, hb, h => by
    cases b with
    | tuple bs => rw [eq_of_agreeAll (known_tuple.1 ha) (known_tuple.1 hb) (by simpa [agrees] using h)]
    | unknown => exact absurd hb not_known_unknown
    | _ => simp [agrees] at h
  | .function ps r, b, ha, hb, h => by
    cases b with
    | function qs s =>
      rw [known_function] at ha hb
      rw [agrees, Bool.and_eq_true] at h
      rw [eq_of_agreeAll ha.1 hb.1 h.1, eq_of_agrees ha.2 hb.2 h.2]
    | unknown => exact absurd hb not_known_unknown
    | _ => simp [agrees] at h
  | .void, b, _, hb, h | .bool, b, _, hb, h | .byte, b, _, hb, h | .char, b, _, hb, h
  | .int32, b, _, hb, h | .int64, b, _, hb, h | .float32, b, _, hb, h | .float64, b, _, hb, h
  | .string, b, _, hb, h | .module, b, _, hb, h => by
    cases b <;> first | exact absurd hb not_known_unknown | rfl | simp [agrees] at h

theorem eq_of_agreeAll : ∀ {as bs : List Ty}, AllKnown as → AllKnown bs → agreeAll as bs → as = bs
  | [], [], _, _, _ => rfl
  | [], _ :: _, _, _, h => by simp [agreeAll] at h
  | _ :: _, [], _, _, h => by simp [agreeAll] at h
  | a :: as, b :: bs, ha, hb, h => by
    rw [allKnown_cons] at ha hb
    rw [agreeAll, Bool.and_eq_true] at h
    rw [eq_of_agrees ha.1 hb.1 h.1, eq_of_agreeAll ha.2 hb.2 h.2]

end

/-- A list type matches a known type only if that is a list type. -/
theorem eq_list_of_agrees {a b : Ty} (hb : b.Known) (h : (list a).agrees b) : ∃ c, b = list c := by
  cases b <;> first | exact absurd hb not_known_unknown | exact ⟨_, rfl⟩ | simp [agrees] at h

/-! ### Unification -/

mutual

theorem unify?_eq_right : ∀ {a b t : Ty}, b.Known → a.unify? b = some t → t = b
  | .unknown, b, t, _, h => by simpa [unify?] using h.symm
  | .list a, b, t, hb, h => by
    cases b with
    | list b =>
      rw [unify?, Option.map_eq_some_iff] at h
      obtain ⟨u, hu, rfl⟩ := h
      rw [unify?_eq_right (known_list.1 hb) hu]
    | unknown => exact absurd hb not_known_unknown
    | _ => simp [unify?, agrees] at h
  | .tuple as, b, t, hb, h => by
    cases b with
    | tuple bs =>
      rw [unify?, Option.map_eq_some_iff] at h
      obtain ⟨us, hu, rfl⟩ := h
      rw [unifyAll?_eq_right (known_tuple.1 hb) hu]
    | unknown => exact absurd hb not_known_unknown
    | _ => simp [unify?, agrees] at h
  | .function ps r, b, t, hb, h => by
    cases b with
    | function qs s =>
      simp only [unify?, Option.ite_none_right_eq_some, Option.some.injEq] at h
      obtain ⟨hag, rfl⟩ := h
      split
      · rfl
      · next hg => exact eq_of_agrees (by simpa [Known] using hg) hb hag
    | unknown => exact absurd hb not_known_unknown
    | _ => simp [unify?, agrees] at h
  | .void, b, t, hb, h | .bool, b, t, hb, h | .byte, b, t, hb, h | .char, b, t, hb, h
  | .int32, b, t, hb, h | .int64, b, t, hb, h | .float32, b, t, hb, h | .float64, b, t, hb, h
  | .string, b, t, hb, h | .module, b, t, hb, h => by
    cases b <;> first
      | exact absurd hb not_known_unknown
      | simpa [unify?, agrees, isGeneric] using h.symm

theorem unifyAll?_eq_right : ∀ {as bs ts : List Ty}, AllKnown bs → unifyAll? as bs = some ts → ts = bs
  | [], [], _, _, h => by simpa [unifyAll?] using h.symm
  | [], _ :: _, _, _, h => by simp [unifyAll?] at h
  | _ :: _, [], _, _, h => by simp [unifyAll?] at h
  | a :: as, b :: bs, ts, hb, h => by
    rw [allKnown_cons] at hb
    simp only [unifyAll?, Option.bind_eq_bind, Option.bind_eq_some_iff, Option.pure_def,
      Option.some.injEq] at h
    obtain ⟨t, ht, us, hus, rfl⟩ := h
    rw [unify?_eq_right hb.1 ht, unifyAll?_eq_right hb.2 hus]

end

mutual

theorem unify?_eq_left : ∀ {a b t : Ty}, a.Known → a.unify? b = some t → t = a
  | .unknown, _, _, ha, _ => absurd ha not_known_unknown
  | .list a, b, t, ha, h => by
    cases b with
    | list b =>
      rw [unify?, Option.map_eq_some_iff] at h
      obtain ⟨u, hu, rfl⟩ := h
      rw [unify?_eq_left (known_list.1 ha) hu]
    | unknown => simpa [unify?] using h.symm
    | _ => simp [unify?, agrees] at h
  | .tuple as, b, t, ha, h => by
    cases b with
    | tuple bs =>
      rw [unify?, Option.map_eq_some_iff] at h
      obtain ⟨us, hu, rfl⟩ := h
      rw [unifyAll?_eq_left (known_tuple.1 ha) hu]
    | unknown => simpa [unify?] using h.symm
    | _ => simp [unify?, agrees] at h
  | .function ps r, b, t, ha, h => by
    cases b with
    | function qs s =>
      have hg : (function ps r).isGeneric = false := ha
      simp only [unify?, hg, Option.ite_none_right_eq_some, Option.some.injEq] at h
      exact h.2.symm
    | unknown => simpa [unify?] using h.symm
    | _ => simp [unify?, agrees] at h
  | .void, b, t, _, h | .bool, b, t, _, h | .byte, b, t, _, h | .char, b, t, _, h
  | .int32, b, t, _, h | .int64, b, t, _, h | .float32, b, t, _, h | .float64, b, t, _, h
  | .string, b, t, _, h | .module, b, t, _, h => by
    cases b <;> simpa [unify?, agrees, isGeneric] using h.symm

theorem unifyAll?_eq_left : ∀ {as bs ts : List Ty}, AllKnown as → unifyAll? as bs = some ts → ts = as
  | [], [], _, _, h => by simpa [unifyAll?] using h.symm
  | [], _ :: _, _, _, h => by simp [unifyAll?] at h
  | _ :: _, [], _, _, h => by simp [unifyAll?] at h
  | a :: as, b :: bs, ts, ha, h => by
    rw [allKnown_cons] at ha
    simp only [unifyAll?, Option.bind_eq_bind, Option.bind_eq_some_iff, Option.pure_def,
      Option.some.injEq] at h
    obtain ⟨t, ht, us, hus, rfl⟩ := h
    rw [unify?_eq_left ha.1 ht, unifyAll?_eq_left ha.2 hus]

end

theorem unify?_getD {a b : Ty} (ha : a.Known) : (a.unify? b).getD a = a := by
  cases h : a.unify? b with
  | none => rfl
  | some t => exact unify?_eq_left ha h

end Ty

/-! ### Written types -/

theorem Ty.known_ofName? {name : String} {t : Ty} (h : ofName? name = some t) : t.Known := by
  unfold ofName? at h
  split_ifs at h <;> cases h <;> rfl

mutual

theorem TypeExpr.known_resolve : ∀ {e : TypeExpr} {t : Ty}, e.resolve = .ok t → t.Known
  | .named name span, t, h => by
    simp only [resolve] at h
    split at h
    · next u hu =>
      cases h
      exact Ty.known_ofName? hu
    · cases h
  | .list e _, t, h => by
    simp only [resolve] at h
    cases he : e.resolve with
    | error err => simp [he, Except.map] at h
    | ok u =>
      simp only [he, Except.map, Except.ok.injEq] at h
      subst h
      exact Ty.known_list.2 (known_resolve he)
  | .tuple es _, t, h => by
    simp only [resolve] at h
    cases he : TypeExpr.resolveAll es with
    | error err => simp [he, Except.map] at h
    | ok us =>
      simp only [he, Except.map, Except.ok.injEq] at h
      subst h
      exact Ty.known_tuple.2 (known_resolveAll he)
  | .function ps r _, t, h => by
    simp only [resolve, bind, Except.bind] at h
    cases hp : TypeExpr.resolveAll ps with
    | error err => simp [hp] at h
    | ok us =>
      cases hr : r.resolve with
      | error err => simp [hp, hr] at h
      | ok u =>
        simp only [hp, hr, pure, Except.pure, Except.ok.injEq] at h
        subst h
        exact Ty.known_function.2 ⟨known_resolveAll hp, known_resolve hr⟩

theorem TypeExpr.known_resolveAll :
    ∀ {es : List TypeExpr} {ts : List Ty}, TypeExpr.resolveAll es = .ok ts → Ty.AllKnown ts
  | [], ts, h => by
    simp only [resolveAll, Except.ok.injEq] at h
    subst h
    exact Ty.allKnown_nil
  | e :: es, ts, h => by
    simp only [resolveAll, bind, Except.bind] at h
    cases he : e.resolve with
    | error err => simp [he] at h
    | ok u =>
      cases hr : TypeExpr.resolveAll es with
      | error err => simp [he, hr] at h
      | ok us =>
        simp only [he, hr, pure, Except.pure, Except.ok.injEq] at h
        subst h
        exact Ty.allKnown_cons.2 ⟨known_resolve he, known_resolveAll hr⟩

end

end StackScript
