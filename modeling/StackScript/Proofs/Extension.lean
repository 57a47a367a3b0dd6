import StackScript.Proofs.HeapTyping

/-!
What stays true when a library is extended: calls that were possible, bodies that keep to their signatures, and
sound heaps.
-/
namespace StackScript

/-! ### Order -/

namespace Function

theorem Extends.refl (f : Function) : f.Extends f := .inl rfl

theorem Extends.trans {f g h : Function} (a : f.Extends g) (b : g.Extends h) : f.Extends h := by
  rcases a with rfl | ⟨hu, ⟨bytes, hb⟩, a⟩
  · exact b
  · rcases b with rfl | ⟨hu', -⟩
    · exact .inr ⟨hu, ⟨bytes, hb⟩, a⟩
    · rw [hb] at hu'
      cases hu'

theorem Extends.eq {f g : Function} (h : f.Extends g) (hb : f.body ≠ .undefined) : g = f :=
  h.resolve_right fun h' => hb h'.1

variable {f g : Function} (h : f.Extends g)
include h

theorem Extends.captures : g.captures = f.captures := by
  rcases h with rfl | ⟨-, -, h, -⟩
  · rfl
  · exact h

theorem Extends.params : g.signature.params = f.signature.params := by
  rcases h with rfl | ⟨-, -, -, h, -⟩
  · rfl
  · exact h

theorem Extends.nonlocals : g.signature.nonlocals = f.signature.nonlocals := by
  rcases h with rfl | ⟨-, -, -, -, h, -⟩
  · rfl
  · exact h

theorem Extends.bound : g.signature.bound = f.signature.bound := by
  rcases h with rfl | ⟨-, -, -, -, -, h, -⟩
  · rfl
  · exact h

theorem Extends.frameTypes : Draft.frameTypes g.signature = Draft.frameTypes f.signature := by
  rw [Draft.frameTypes, Draft.frameTypes, h.nonlocals, h.bound, h.params]

theorem Extends.closureTypes : g.signature.closureTypes = f.signature.closureTypes := by
  rw [Signature.closureTypes, Signature.closureTypes, h.nonlocals, h.bound]

theorem Extends.native (n : Native) : g.body = .native n ↔ f.body = .native n := by
  rcases h with rfl | ⟨hu, ⟨bytes, hb⟩, -⟩
  · rfl
  · simp [hu, hb]

theorem Extends.isGeneric : g.body.isGeneric = f.body.isGeneric := by
  rcases h with rfl | ⟨hu, ⟨bytes, hb⟩, -⟩
  · rfl
  · rw [hu, hb]
    rfl

theorem Extends.of_undefined (hg : g.body = .undefined) : g = f := by
  rcases h with rfl | ⟨-, ⟨bytes, hb⟩, -⟩
  · rfl
  · rw [hb] at hg
    cases hg

/-- A result that is known stays. -/
theorem Extends.result (hf : f.body.isUndefined → f.signature.result.Known) :
    g.signature.result = f.signature.result := by
  rcases h with rfl | ⟨hu, -, -, -, -, -, hr⟩
  · rfl
  · refine hr.resolve_right fun e => ?_
    have := hf (by rw [hu]; rfl)
    rw [e] at this
    exact Ty.not_known_unknown this

end Function

namespace Module

variable {m n p : Module}

theorem Extends.refl (m : Module) : m.Extends m :=
  ⟨fun _ f hf => ⟨f, hf, .refl f⟩, fun _ _ h => h, fun _ _ h => h, fun _ _ h => h, fun h => h⟩

theorem Extends.trans (a : m.Extends n) (b : n.Extends p) : m.Extends p := by
  refine ⟨fun i f hf => ?_, fun i x h => b.imports i x (a.imports i x h), fun i x h => b.values i x (a.values i x h),
    fun i x h => b.types i x (a.types i x h), fun h => b.alive (a.alive h)⟩
  obtain ⟨g, hg, hfg⟩ := a.functions i f hf
  obtain ⟨h, hh, hgh⟩ := b.functions i g hg
  exact ⟨h, hh, hfg.trans hgh⟩

end Module

namespace View

variable {u v w : View} {k j n : Nat} {f : FunctionRef} {g : Function} {ts : List Ty} {r : Ty}

theorem Extends.refl (k : Nat) (v : View) : v.Extends k v :=
  ⟨fun _ _ => .refl _, fun _ _ h => ⟨h, rfl⟩⟩

theorem Extends.trans (a : u.Extends k v) (b : v.Extends k w) : u.Extends k w := by
  refine ⟨fun id hid => (a.modules id hid).trans (b.modules id hid), fun f hf hd => ?_⟩
  obtain ⟨hd', e⟩ := a.dead f hf hd
  obtain ⟨hd'', e'⟩ := b.dead f hf hd'
  exact ⟨hd'', e'.trans e⟩

theorem Extends.function (h : v.Extends k w) (hk : f.module ≤ k) (hf : v.library.function? f = some g) :
    ∃ g', w.library.function? f = some g' ∧ g.Extends g' := by
  rw [Library.function?_eq] at hf ⊢
  exact (h.modules f.module hk).functions f.index g hf

/-! ### Calls -/

theorem Callee.extends (h : v.Callee n f ts r) (e : v.Extends k w) (hn : n ≤ k) : w.Callee n f ts r := by
  obtain ⟨below, alive, g, hg, cases⟩ := h
  have hk : f.module ≤ k := Nat.le_trans below hn
  obtain ⟨g', hg', hgg⟩ := e.function hk hg
  refine ⟨below, (e.modules f.module hk).alive alive, g', hg', ?_⟩
  rcases cases with ⟨hd, hu⟩ | ⟨hl, hts, hr⟩ | ⟨hgen, hlen, hts, hr, hknown, hres⟩
  · obtain ⟨hd', e'⟩ := e.dead f hk hd
    rw [hg, hg'] at e'
    exact .inl ⟨hd', Option.some.inj e' ▸ hu⟩
  · exact .inr (.inl ⟨(hgg.native _).2 hl, hts, hr⟩)
  · have hres' := hgg.result hres
    refine .inr (.inr ⟨hgg.isGeneric.trans hgen, fun h => hlen ((hgg.native _).1 h), hts.trans hgg.frameTypes.symm,
      ?_, hknown, fun hu => ?_⟩)
    · rw [Signature.effectiveResult, hres']
      exact hr
    · cases hb : g'.body with
      | undefined => exact hres' ▸ hres (by rw [← hgg.of_undefined hb, hb]; rfl)
      | _ => simp [hb, Body.isUndefined] at hu

theorem BodyFits.extends (h : v.BodyFits f g) (e : v.Extends f.module w) : w.BodyFits f g :=
  ⟨fun bytes hb u hu => h.code bytes hb u (e.trans hu), h.native⟩

/-! ### Heaps -/

variable {Ψ : Typing} {h : Heap} {roots : List Handle} {t : Ty} {x : Content}

theorem Contains.extends (hx : v.Contains Ψ n t x) (e : v.Extends n w) : w.Contains Ψ n t x := by
  cases hx with
  | string s => exact .string s
  | list lays => exact .list lays
  | closure callee types lays => exact .closure (callee.extends e (Nat.le_refl n)) types lays

/-- The static values of living modules were there before. -/
theorem Sound.extends (hs : v.Sound Ψ h roots) (e : ∀ k, v.Extends k w) (statics : w.library.statics = v.library.statics)
    (values : ∀ id, (w.library.get id).values = (v.library.get id).values)
    (alive : ∀ id, (w.library.get id).alive → (v.library.get id).alive) : w.Sound Ψ h roots :=
  ⟨statics ▸ hs.balanced, fun r x t n hx ht => (hs.contents r x t n hx ht).extends (e n),
    fun id x ha hx => hs.statics id x (alive id ha) (values id ▸ hx)⟩

end View

end StackScript
