import StackScript.Proofs.KnownTypes

/-!
Unification of types. Two types unify exactly if they match, and the result matches both. It is their join, the least type
that is as known as either of them, in whichever order they are given, unless two function types meet that are both known
in part: of those the one taken whole may forget what the other one knows.
-/
namespace StackScript

namespace Ty

/-! ### Matching -/

mutual

theorem agrees_refl : ∀ a : Ty, a.agrees a
  | .list a => agrees_refl a
  | .tuple as => agreeAll_refl as
  | .function ps r => by rw [agrees, agreeAll_refl ps, agrees_refl r, Bool.and_self]
  | .unknown | .void | .bool | .byte | .char | .int32 | .int64 | .float32 | .float64 | .string | .module => rfl

theorem agreeAll_refl : ∀ as : List Ty, agreeAll as as
  | [] => rfl
  | a :: as => by rw [agreeAll, agrees_refl a, agreeAll_refl as, Bool.and_self]

end

mutual

theorem agrees_comm : ∀ a b : Ty, a.agrees b = b.agrees a
  | .list a, b => by
    cases b with
    | list b => exact agrees_comm a b
    | _ => rfl
  | .tuple as, b => by
    cases b with
    | tuple bs => exact agreeAll_comm as bs
    | _ => rfl
  | .function ps r, b => by
    cases b with
    | function qs s => rw [agrees, agrees, agreeAll_comm ps qs, agrees_comm r s]
    | _ => rfl
  | .unknown, b | .void, b | .bool, b | .byte, b | .char, b | .int32, b | .int64, b | .float32, b | .float64, b
  | .string, b | .module, b => by cases b <;> rfl

theorem agreeAll_comm : ∀ as bs : List Ty, agreeAll as bs = agreeAll bs as
  | [], [] | [], _ :: _ | _ :: _, [] => rfl
  | a :: as, b :: bs => by rw [agreeAll, agreeAll, agrees_comm a b, agreeAll_comm as bs]

end

/-! ### Precision -/

mutual

/-- Whether a type is known wherever another one is, and the same there. -/
def refines : Ty → Ty → Bool
  | _, unknown => true
  | list a, list b => a.refines b
  | tuple as, tuple bs => refineAll as bs
  | function ps r, function qs s => refineAll ps qs && r.refines s
  | a, b => a = b

def refineAll : List Ty → List Ty → Bool
  | [], [] => true
  | a :: as, b :: bs => a.refines b && refineAll as bs
  | _, _ => false

end

@[simp] theorem refines_unknown (a : Ty) : a.refines unknown := by
  cases a <;> rfl

mutual

theorem refines_refl : ∀ a : Ty, a.refines a
  | .list a => refines_refl a
  | .tuple as => refineAll_refl as
  | .function ps r => by rw [refines, refineAll_refl ps, refines_refl r, Bool.and_self]
  | .unknown | .void | .bool | .byte | .char | .int32 | .int64 | .float32 | .float64 | .string | .module => rfl

theorem refineAll_refl : ∀ as : List Ty, refineAll as as
  | [] => rfl
  | a :: as => by rw [refineAll, refines_refl a, refineAll_refl as, Bool.and_self]

end

mutual

/-- A known type refines all that it matches. -/
theorem Known.refines : ∀ {a b : Ty}, a.Known → a.agrees b → a.refines b
  | .unknown, _, ha, _ => absurd ha not_known_unknown
  | .list a, b, ha, h => by
    cases b with
    | list b => exact (known_list.1 ha).refines (show a.agrees b from h)
    | _ => exact h
  | .tuple as, b, ha, h => by
    cases b with
    | tuple bs => exact (known_tuple.1 ha).refineAll (show agreeAll as bs from h)
    | _ => exact h
  | .function ps r, b, ha, h => by
    cases b with
    | function qs s =>
      rw [agrees, Bool.and_eq_true] at h
      rw [known_function] at ha
      rw [Ty.refines, ha.1.refineAll h.1, ha.2.refines h.2, Bool.and_self]
    | _ => exact h
  | .void, b, _, h | .bool, b, _, h | .byte, b, _, h | .char, b, _, h | .int32, b, _, h | .int64, b, _, h
  | .float32, b, _, h | .float64, b, _, h | .string, b, _, h | .module, b, _, h => by cases b <;> exact h

theorem AllKnown.refineAll : ∀ {as bs : List Ty}, AllKnown as → agreeAll as bs → refineAll as bs
  | [], [], _, _ => rfl
  | [], _ :: _, _, h | _ :: _, [], _, h => h
  | a :: as, b :: bs, ha, h => by
    rw [agreeAll, Bool.and_eq_true] at h
    rw [allKnown_cons] at ha
    rw [Ty.refineAll, ha.1.refines h.1, ha.2.refineAll h.2, Bool.and_self]

end

/-! ### Unifying -/

/-- Whether a type is known and has no other types in it. -/
def isLeaf : Ty → Bool
  | unknown | list _ | tuple _ | function _ _ => false
  | _ => true

mutual

/-- What two types unify to, by where they are known. -/
inductive Unifies : Ty → Ty → Ty → Prop
  | left (b : Ty) : Unifies .unknown b b
  | right (a : Ty) : Unifies a .unknown a
  | leaf {a : Ty} (h : a.isLeaf) : Unifies a a a
  | list {a b r : Ty} (h : Unifies a b r) : Unifies (.list a) (.list b) (.list r)
  | tuple {as bs rs : List Ty} (h : UnifyAll as bs rs) : Unifies (.tuple as) (.tuple bs) (.tuple rs)
  | function {ps qs : List Ty} {r s : Ty} (h : (function ps r).agrees (function qs s)) :
    Unifies (.function ps r) (.function qs s) (if (function ps r).isGeneric then function qs s else function ps r)

inductive UnifyAll : List Ty → List Ty → List Ty → Prop
  | nil : UnifyAll [] [] []
  | cons {a b r : Ty} {as bs rs : List Ty} (head : Unifies a b r) (tail : UnifyAll as bs rs) :
    UnifyAll (a :: as) (b :: bs) (r :: rs)

end

/-- Of two function types that match the first one is taken, unless it is known only in part. -/
theorem unify?_function (ps qs : List Ty) (r s : Ty) : (function ps r).unify? (function qs s) =
    if (function ps r).agrees (function qs s) then
      some (if (function ps r).isGeneric then function qs s else function ps r) else none := rfl

theorem unifyAll?_cons (a b : Ty) (as bs ts : List Ty) : unifyAll? (a :: as) (b :: bs) = some ts ↔
    ∃ r rs, a.unify? b = some r ∧ unifyAll? as bs = some rs ∧ r :: rs = ts := by
  simp only [unifyAll?, Option.bind_eq_bind, Option.bind_eq_some_iff, Option.pure_def, Option.some.injEq]
  constructor
  · rintro ⟨r, first, rs, rest, whole⟩
    exact ⟨r, rs, first, rest, whole⟩
  · rintro ⟨r, rs, first, rest, whole⟩
    exact ⟨r, first, rs, rest, whole⟩

mutual

theorem unify?_self : ∀ a : Ty, a.unify? a = some a
  | .list a => congrArg (Option.map Ty.list) (unify?_self a)
  | .tuple as => congrArg (Option.map Ty.tuple) (unifyAll?_self as)
  | .function ps r => by rw [unify?_function, if_pos (agrees_refl _), ite_self]
  | .unknown | .void | .bool | .byte | .char | .int32 | .int64 | .float32 | .float64 | .string | .module => rfl

theorem unifyAll?_self : ∀ as : List Ty, unifyAll? as as = some as
  | [] => rfl
  | a :: as => (unifyAll?_cons ..).2 ⟨a, as, unify?_self a, unifyAll?_self as, rfl⟩

end

mutual

theorem unifies_of_eq : ∀ {a b r : Ty}, a.unify? b = some r → Unifies a b r
  | .unknown, b, r, h => by
    obtain rfl : b = r := by cases b <;> exact Option.some.inj h
    exact .left b
  | .list a, b, r, h => by
    cases b with
    | unknown => exact Option.some.inj h ▸ .right _
    | list b =>
      obtain ⟨u, hu, rfl⟩ := Option.map_eq_some_iff.1 h
      exact .list (unifies_of_eq hu)
    | _ => cases h
  | .tuple as, b, r, h => by
    cases b with
    | unknown => exact Option.some.inj h ▸ .right _
    | tuple bs =>
      obtain ⟨us, hu, rfl⟩ := Option.map_eq_some_iff.1 h
      exact .tuple (unifyAll_of_eq hu)
    | _ => cases h
  | .function ps s, b, r, h => by
    cases b with
    | unknown => exact Option.some.inj h ▸ .right _
    | function qs t =>
      rw [unify?_function, Option.ite_none_right_eq_some, Option.some.injEq] at h
      exact h.2 ▸ .function h.1
    | _ => cases h
  | .void, b, r, h | .bool, b, r, h | .byte, b, r, h | .char, b, r, h | .int32, b, r, h | .int64, b, r, h
  | .float32, b, r, h | .float64, b, r, h | .string, b, r, h | .module, b, r, h => by
    cases b <;> cases h <;> first | exact .right _ | exact .leaf rfl

theorem unifyAll_of_eq : ∀ {as bs rs : List Ty}, unifyAll? as bs = some rs → UnifyAll as bs rs
  | [], [], rs, h => Option.some.inj h ▸ .nil
  | [], _ :: _, rs, h | _ :: _, [], rs, h => by cases h
  | a :: as, b :: bs, rs, h => by
    obtain ⟨u, us, hu, hus, rfl⟩ := (unifyAll?_cons ..).1 h
    exact .cons (unifies_of_eq hu) (unifyAll_of_eq hus)

end

mutual

theorem Unifies.eq : ∀ {a b r : Ty}, Unifies a b r → a.unify? b = some r
  | _, b, _, .left _ => by cases b <;> rfl
  | a, _, _, .right _ => by cases a <;> rfl
  | a, _, _, .leaf h => by cases a <;> first | rfl | cases h
  | _, _, _, .list h => congrArg (Option.map Ty.list) h.eq
  | _, _, _, .tuple h => congrArg (Option.map Ty.tuple) h.eq
  | _, _, _, .function h => by rw [unify?_function, if_pos h]

theorem UnifyAll.eq : ∀ {as bs rs : List Ty}, UnifyAll as bs rs → unifyAll? as bs = some rs
  | _, _, _, .nil => rfl
  | _, _, _, .cons head tail => (unifyAll?_cons ..).2 ⟨_, _, head.eq, tail.eq, rfl⟩

end

theorem unify?_eq_some {a b r : Ty} : a.unify? b = some r ↔ Unifies a b r := ⟨unifies_of_eq, Unifies.eq⟩

mutual

theorem exists_unifies : ∀ {a b : Ty}, a.agrees b → ∃ r, Unifies a b r
  | .unknown, b, _ => ⟨b, .left b⟩
  | .list a, b, h => by
    cases b with
    | unknown => exact ⟨_, .right _⟩
    | list b =>
      obtain ⟨r, hr⟩ := exists_unifies (show a.agrees b from h)
      exact ⟨_, .list hr⟩
    | _ => cases h
  | .tuple as, b, h => by
    cases b with
    | unknown => exact ⟨_, .right _⟩
    | tuple bs =>
      obtain ⟨rs, hr⟩ := exists_unifyAll (show agreeAll as bs from h)
      exact ⟨_, .tuple hr⟩
    | _ => cases h
  | .function ps r, b, h => by
    cases b with
    | unknown => exact ⟨_, .right _⟩
    | function qs s => exact ⟨_, .function h⟩
    | _ => cases h
  | .void, b, h | .bool, b, h | .byte, b, h | .char, b, h | .int32, b, h | .int64, b, h | .float32, b, h
  | .float64, b, h | .string, b, h | .module, b, h => by
    cases b <;> first | exact ⟨_, .right _⟩ | exact ⟨_, .leaf rfl⟩ | cases h

theorem exists_unifyAll : ∀ {as bs : List Ty}, agreeAll as bs → ∃ rs, UnifyAll as bs rs
  | [], [], _ => ⟨[], .nil⟩
  | [], _ :: _, h | _ :: _, [], h => by cases h
  | a :: as, b :: bs, h => by
    rw [agreeAll, Bool.and_eq_true] at h
    obtain ⟨r, hr⟩ := exists_unifies h.1
    obtain ⟨rs, hrs⟩ := exists_unifyAll h.2
    exact ⟨r :: rs, .cons hr hrs⟩

end

mutual

theorem Unifies.agrees : ∀ {a b r : Ty}, Unifies a b r → a.agrees b ∧ r.agrees a ∧ r.agrees b
  | _, b, _, .left _ => ⟨by cases b <;> rfl, by cases b <;> rfl, agrees_refl b⟩
  | a, _, _, .right _ => ⟨by cases a <;> rfl, agrees_refl a, by cases a <;> rfl⟩
  | a, _, _, .leaf _ => ⟨agrees_refl a, agrees_refl a, agrees_refl a⟩
  | _, _, _, .list h => h.agrees
  | _, _, _, .tuple h => h.agreeAll
  | .function ps r, .function qs s, _, .function h => by
    refine ⟨h, ?_⟩
    split
    · exact ⟨(agrees_comm _ _).trans h, agrees_refl _⟩
    · exact ⟨agrees_refl _, h⟩

theorem UnifyAll.agreeAll : ∀ {as bs rs : List Ty}, UnifyAll as bs rs →
    Ty.agreeAll as bs ∧ Ty.agreeAll rs as ∧ Ty.agreeAll rs bs
  | _, _, _, .nil => ⟨rfl, rfl, rfl⟩
  | _, _, _, .cons head tail => by
    obtain ⟨hab, hra, hrb⟩ := head.agrees
    obtain ⟨tab, tra, trb⟩ := tail.agreeAll
    simp only [Ty.agreeAll, hab, hra, hrb, tab, tra, trb, Bool.and_self, and_self]

end

/-! ### The join -/

mutual

/-- Whatever is as known as both types is as known as what they unify to. -/
theorem Unifies.least : ∀ {a b r c : Ty}, Unifies a b r → c.refines a → c.refines b → c.refines r
  | _, _, _, _, .left _, _, hb => hb
  | _, _, _, _, .right _, ha, _ => ha
  | _, _, _, _, .leaf _, ha, _ => ha
  | _, _, _, c, .list h, ha, hb => by
    cases c with
    | list c => exact h.least (show c.refines _ from ha) hb
    | _ => exact ha
  | _, _, _, c, .tuple h, ha, hb => by
    cases c with
    | tuple cs => exact h.least (show refineAll cs _ from ha) hb
    | _ => exact ha
  | _, _, _, _, .function _, ha, hb => by
    split
    · exact hb
    · exact ha

theorem UnifyAll.least : ∀ {as bs rs cs : List Ty}, UnifyAll as bs rs → refineAll cs as → refineAll cs bs →
    refineAll cs rs
  | _, _, _, _, .nil, ha, _ => ha
  | _, _, _, [], .cons _ _, ha, _ => ha
  | _, _, _, c :: cs, .cons head tail, ha, hb => by
    rw [refineAll, Bool.and_eq_true] at ha hb
    rw [refineAll, head.least ha.1 hb.1, tail.least ha.2 hb.2, Bool.and_self]

end

mutual

/-- Whether it is clear, wherever two function types stand in the same place, which one to take: one of them is known
throughout, or they are the same. -/
def clear : Ty → Ty → Bool
  | list a, list b => a.clear b
  | tuple as, tuple bs => clearAll as bs
  | function ps r, function qs s =>
    !(function ps r).isGeneric || !(function qs s).isGeneric || function ps r = function qs s
  | _, _ => true

def clearAll : List Ty → List Ty → Bool
  | a :: as, b :: bs => a.clear b && clearAll as bs
  | _, _ => true

end

theorem clear_function {ps qs : List Ty} {r s : Ty} : (function ps r).clear (function qs s) ↔
    (function ps r).Known ∨ (function qs s).Known ∨ function ps r = function qs s := by
  simp only [clear, Known, Bool.or_eq_true, Bool.not_eq_true', decide_eq_true_eq, or_assoc]

/-- Of two types that match, the first unless it is known only in part is their join, and the same in either order, exactly
if one of them is known or they are the same. -/
theorem clear_taken {f g : Ty} (h : f.agrees g) : f.Known ∨ g.Known ∨ f = g ↔
    (if g.isGeneric then f else g) = (if f.isGeneric then g else f) ∧
      (if f.isGeneric then g else f).refines f ∧ (if f.isGeneric then g else f).refines g := by
  have h' : g.agrees f := (agrees_comm g f).trans h
  by_cases known : f.Known
  · have generic : ¬ f.isGeneric := Bool.eq_false_iff.1 known
    rw [if_neg generic]
    refine iff_of_true (.inl known) ⟨?_, refines_refl f, known.refines h⟩
    split
    · rfl
    · next generic' => exact eq_of_agrees (Bool.eq_false_iff.2 generic') known h'
  · have generic : f.isGeneric := eq_true_of_ne_false known
    rw [if_pos generic]
    by_cases known' : g.Known
    · have generic' : ¬ g.isGeneric := Bool.eq_false_iff.1 known'
      rw [if_neg generic']
      exact iff_of_true (.inr (.inl known')) ⟨rfl, known'.refines h', refines_refl g⟩
    · have generic' : g.isGeneric := eq_true_of_ne_false known'
      rw [if_pos generic', or_iff_right known, or_iff_right known']
      refine ⟨?_, And.left⟩
      rintro rfl
      exact ⟨rfl, refines_refl f, refines_refl f⟩

mutual

theorem Unifies.clear_iff : ∀ {a b r : Ty}, Unifies a b r → (a.clear b ↔ Unifies b a r ∧ r.refines a ∧ r.refines b)
  | _, b, _, .left _ => iff_of_true (by cases b <;> rfl) ⟨.right b, refines_unknown b, refines_refl b⟩
  | a, _, _, .right _ => iff_of_true (by cases a <;> rfl) ⟨.left a, refines_refl a, refines_unknown a⟩
  | a, _, _, .leaf h => iff_of_true (by cases a <;> first | rfl | cases h) ⟨.leaf h, refines_refl a, refines_refl a⟩
  | .list a, .list b, .list r, .list h => by
    have swap : Unifies (.list b) (.list a) (.list r) ↔ Unifies b a r :=
      ⟨fun | .list h => h, .list⟩
    rw [swap]
    exact h.clear_iff
  | .tuple as, .tuple bs, .tuple rs, .tuple h => by
    have swap : Unifies (.tuple bs) (.tuple as) (.tuple rs) ↔ UnifyAll bs as rs :=
      ⟨fun | .tuple h => h, .tuple⟩
    rw [swap]
    exact h.clear_iff
  | .function ps r, .function qs s, _, .function h => by
    have h' : (function qs s).agrees (function ps r) := (agrees_comm _ _).trans h
    rw [clear_function, clear_taken h, ← unify?_eq_some, unify?_function, if_pos h', Option.some.injEq]

theorem UnifyAll.clear_iff : ∀ {as bs rs : List Ty}, UnifyAll as bs rs →
    (clearAll as bs ↔ UnifyAll bs as rs ∧ refineAll rs as ∧ refineAll rs bs)
  | _, _, _, .nil => iff_of_true rfl ⟨.nil, rfl, rfl⟩
  | a :: as, b :: bs, r :: rs, .cons head tail => by
    have swap : UnifyAll (b :: bs) (a :: as) (r :: rs) ↔ Unifies b a r ∧ UnifyAll bs as rs :=
      ⟨fun | .cons head tail => ⟨head, tail⟩, fun h => .cons h.1 h.2⟩
    rw [clearAll, refineAll, refineAll, swap, Bool.and_eq_true, Bool.and_eq_true, Bool.and_eq_true, head.clear_iff,
      tail.clear_iff]
    exact ⟨fun ⟨⟨u, ra, rb⟩, us, ras, rbs⟩ => ⟨⟨u, us⟩, ⟨ra, ras⟩, rb, rbs⟩,
      fun ⟨⟨u, us⟩, ⟨ra, ras⟩, rb, rbs⟩ => ⟨⟨u, ra, rb⟩, us, ras, rbs⟩⟩

end

theorem unify?_isSome (a b : Ty) : (a.unify? b).isSome = a.agrees b := by
  rw [Bool.eq_iff_iff, Option.isSome_iff_exists]
  constructor
  · rintro ⟨r, h⟩
    exact (unifies_of_eq h).agrees.1
  · intro h
    obtain ⟨r, hr⟩ := exists_unifies h
    exact ⟨r, hr.eq⟩

/-- Types unify exactly if they match. The result matches both, and all that refines both refines it; it refines both
itself, in either order, exactly where it is clear which function types to take. -/
theorem unification_exact (a b : Ty) : (a.unify? b).isSome = a.agrees b ∧ a.unify? a = some a ∧
    ∀ r, a.unify? b = some r → r.agrees a ∧ r.agrees b ∧ (∀ c : Ty, c.refines a → c.refines b → c.refines r) ∧
      (a.clear b ↔ b.unify? a = some r ∧ r.refines a ∧ r.refines b) := by
  refine ⟨unify?_isSome a b, unify?_self a, fun r h => ?_⟩
  rw [unify?_eq_some] at h
  rw [unify?_eq_some]
  exact ⟨h.agrees.2.1, h.agrees.2.2, fun c => h.least, h.clear_iff⟩

/-- Two tuples that are known in complementary places, with a function type that is known throughout in one of them. -/
theorem unification_exact_complementary :
    (tuple [unknown, list bool, function [int32] unknown]).unify? (tuple [int32, list unknown, function [int32] bool]) =
        some (tuple [int32, list bool, function [int32] bool]) ∧
      (tuple [int32, list unknown, function [int32] bool]).unify? (tuple [unknown, list bool, function [int32] unknown]) =
        some (tuple [int32, list bool, function [int32] bool]) ∧
      (tuple [int32, list bool, function [int32] bool]).refines (tuple [unknown, list bool, function [int32] unknown]) ∧
      (tuple [int32, list bool, function [int32] bool]).refines (tuple [int32, list unknown, function [int32] bool]) :=
  ⟨rfl, ((unification_exact _ _).2.2 _ rfl).2.2.2.1 rfl⟩

/-- Of two function types that are known in part, the one that is less known may be taken. -/
theorem unification_forgets :
    (function [int32] unknown).unify? (function [unknown] unknown) = some (function [unknown] unknown) ∧
      (function [unknown] unknown).unify? (function [int32] unknown) = some (function [int32] unknown) ∧
      (function [int32] unknown).refines (function [unknown] unknown) ∧
      ¬ (function [unknown] unknown).refines (function [int32] unknown) := by
  decide

end Ty

end StackScript
