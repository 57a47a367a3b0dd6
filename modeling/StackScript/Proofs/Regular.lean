import Mathlib.Data.List.Pairwise
import StackScript.Proofs.Foundation
import StackScript.Proofs.Lookups
import StackScript.Proofs.Solid

/-!
Modules while programs are compiled. Instances of generic functions are filed under the types of their parameters. The
types of variables and values are solid. Where functions inside others have no open parameters, a name for one of them
stands only where all that it captures can be seen.
-/
namespace StackScript

/-- No parameter is left without a type. -/
def Header.isSpecific (h : Header) : Bool :=
  match h.signature with
  | .ok s => !s.isGeneric
  | .error _ => true

/-- A function inside another one. If we are strict about them, it has a name and no open parameters. -/
def Header.isAdmitted (strict : Bool) (h : Header) : Bool := !strict || h.isSpecific && !h.name.isEmpty

/-- The type of a variable. -/
def Symbol.ty? : Symbol → Option Ty
  | parameter _ _ t | slot _ t | nonlocal _ _ t => some t
  | _ => none

/-- A function may be finished, but its callers find it unchanged. -/
structure Function.Retains (f g : Function) : Prop where
  params : g.signature.params = f.signature.params
  nonlocals : g.signature.nonlocals = f.signature.nonlocals
  captures : g.captures = f.captures

theorem Function.Retains.refl (f : Function) : f.Retains f := ⟨rfl, rfl, rfl⟩

theorem Function.Retains.trans {f g h : Function} (a : f.Retains g) (b : g.Retains h) : f.Retains h :=
  ⟨b.params.trans a.params, b.nonlocals.trans a.nonlocals, b.captures.trans a.captures⟩

/-- A symbol in a scope. The module itself has no variables, and other scopes have nothing but variables and functions. -/
def Symbol.Fits (m : Module) (a : Nat) : Symbol → Prop
  | .function j => ∃ g, m.functions[j]? = some g ∧ (a = ScopeTable.root → g.captures = []) ∧
      g.captures.length ≤ g.signature.nonlocals.length ∧ ∀ k ∈ g.captures, m.scopes.Holds a k
  | .computed _ | .value _ => a = ScopeTable.root
  | _ => a ≠ ScopeTable.root

namespace Module

variable {m n p : Module} {own : Option Nat} {strict : Bool} {g g' : Function} {i j a : Nat} {symbol : Symbol}

/-! ### Going on -/

/-- Functions, instances and scopes are added, and names are bound in one scope that was there. -/
structure Prolongs (own : Option Nat) (m n : Module) : Prop where
  functions : ∀ (i : Nat) (g : Function), m.functions[i]? = some g → ∃ g', n.functions[i]? = some g' ∧ g.Retains g'
  instances : ∀ i ∈ m.instances, i ∈ n.instances
  scopes : ScopeTable.Prolongs own m.scopes n.scopes

theorem Prolongs.refl (own : Option Nat) (m : Module) : m.Prolongs own m :=
  ⟨fun _ g hg => ⟨g, hg, .refl g⟩, fun _ h => h, .refl _ _⟩

theorem Prolongs.trans (h : m.Prolongs own n) (k : n.Prolongs own p) : m.Prolongs own p := by
  refine ⟨fun i g hg => ?_, fun i hi => k.instances i (h.instances i hi), h.scopes.trans k.scopes⟩
  obtain ⟨g', hg', retains⟩ := h.functions i g hg
  obtain ⟨g'', hg'', retains'⟩ := k.functions i g' hg'
  exact ⟨g'', hg'', retains.trans retains'⟩

theorem Prolongs.open (h : m.Prolongs none n) (own : Option Nat) : m.Prolongs own n :=
  ⟨h.functions, h.instances, h.scopes.open own⟩

theorem Prolongs.close (h : m.Prolongs (some a) n) (later : m.scopes.size ≤ a) : m.Prolongs none n :=
  ⟨h.functions, h.instances, h.scopes.close later⟩

theorem Prolongs.of_eq (functions : n.functions = m.functions) (instances : n.instances = m.instances)
    (scopes : n.scopes = m.scopes) : m.Prolongs none n :=
  ⟨fun _ g hg => ⟨g, functions ▸ hg, .refl g⟩, fun _ hi => instances ▸ hi, scopes ▸ .refl _ _⟩

theorem prolongs_rescope {u : ScopeTable} (h : ScopeTable.Prolongs own m.scopes u) :
    m.Prolongs own { m with scopes := u } := ⟨fun _ g hg => ⟨g, hg, .refl g⟩, fun _ hi => hi, h⟩

theorem prolongs_addFunction (m : Module) (g : Function) : m.Prolongs none (m.addFunction g).1 :=
  ⟨fun _ g' hg' => ⟨g', getElem?_push hg' g, .refl g'⟩, fun _ hi => hi, .refl _ _⟩

theorem prolongs_setFunction (hg : m.functions[i]? = some g) (retains : g.Retains g') :
    m.Prolongs none (m.setFunction i g') := by
  refine ⟨fun j f hf => ?_, fun _ hi => hi, .refl _ _⟩
  by_cases e : i = j
  · subst e
    obtain rfl := Option.some.inj (hg.symm.trans hf)
    exact ⟨g', Array.getElem?_setIfInBounds_self_of_lt (Array.getElem?_eq_some_iff.1 hf).1, retains⟩
  · exact ⟨f, (Array.getElem?_setIfInBounds_ne e).trans hf, .refl f⟩

theorem prolongs_addInstance (m : Module) (i : Instance) : m.Prolongs none (m.addInstance i) :=
  ⟨fun _ g hg => ⟨g, hg, .refl g⟩, fun _ hi => List.mem_append_left _ hi, .refl _ _⟩

end Module

section

variable {m n : Module} {own : Option Nat} {a : Nat} {symbol : Symbol}

theorem Symbol.Fits.prolong (h : symbol.Fits m a) (on : m.Prolongs own n) : symbol.Fits n a := by
  cases symbol with
  | function j =>
    obtain ⟨g, hg, global, length, holds⟩ := h
    obtain ⟨g', hg', retains⟩ := on.functions j g hg
    refine ⟨g', hg', fun e => retains.captures.trans (global e), ?_, fun k hk => ?_⟩
    · rw [retains.captures, retains.nonlocals]
      exact length
    · rw [retains.captures] at hk
      exact (holds k hk).prolong on.scopes
  | _ => exact h

end

namespace Module

variable {m n : Module} {own : Option Nat} {strict : Bool} {g g' : Function} {i j : Nat} {e : Instance} {u : ScopeTable}

/-! ### Instances -/

/-- Instances are filed under their generic functions and the types of their parameters, which are all known. One that is
written gives a value. -/
structure Keyed (m : Module) : Prop where
  distinct : m.instances.Pairwise fun i j => ¬(i.generic = j.generic ∧ i.args = j.args)
  separate : m.instances.Pairwise fun i j => i.function ≠ j.function
  entries : ∀ i ∈ m.instances, ∃ g, m.functions[i.function]? = some g ∧ g.signature.params = i.args ∧
    Ty.anyGeneric i.args = false ∧ ∀ bytes, g.body = .code bytes → g.signature.result ≠ .unknown

theorem Keyed.of_eq (h : m.Keyed) (functions : n.functions = m.functions) (instances : n.instances = m.instances) :
    n.Keyed := by
  obtain ⟨distinct, separate, entries⟩ := h
  refine ⟨instances ▸ distinct, instances ▸ separate, ?_⟩
  rw [instances, functions]
  exact entries

theorem Keyed.addFunction (h : m.Keyed) (g : Function) : (m.addFunction g).1.Keyed := by
  refine ⟨h.distinct, h.separate, fun i hi => ?_⟩
  obtain ⟨f, hf, entry⟩ := h.entries i hi
  exact ⟨f, getElem?_push hf g, entry⟩

theorem Keyed.setFunction (h : m.Keyed) (hg : m.functions[i]? = some g) (params : g'.signature.params = g.signature.params)
    (result : g'.signature.result ≠ .unknown) : (m.setFunction i g').Keyed := by
  refine ⟨h.distinct, h.separate, fun k hk => ?_⟩
  obtain ⟨f, hf, same, known, finished⟩ := h.entries k hk
  by_cases here : i = k.function
  · subst here
    obtain rfl := Option.some.inj (hg.symm.trans hf)
    exact ⟨g', Array.getElem?_setIfInBounds_self_of_lt (Array.getElem?_eq_some_iff.1 hf).1, params.trans same, known,
      fun _ _ => result⟩
  · exact ⟨f, (Array.getElem?_setIfInBounds_ne here).trans hf, same, known, finished⟩

/-- An instance is only added if there is none for these types. -/
theorem findInstance?_eq_none {generic : Nat} {args : List Ty} :
    m.findInstance? generic args = none ↔ ∀ i ∈ m.instances, ¬(i.generic = generic ∧ i.args = args) := by
  simp [findInstance?]

theorem findInstance?_eq_some {generic : Nat} {args : List Ty} (h : m.findInstance? generic args = some i) :
    ⟨generic, args, i⟩ ∈ m.instances := by
  obtain ⟨k, hk, rfl⟩ := Option.map_eq_some_iff.1 h
  have among := List.mem_of_find?_eq_some hk
  obtain ⟨rfl, rfl⟩ : k.generic = generic ∧ k.args = args := by simpa using List.find?_some hk
  exact among

theorem Keyed.addInstance (h : m.Keyed) (fresh : m.findInstance? e.generic e.args = none)
    (unshared : ∀ i ∈ m.instances, i.function ≠ e.function) (hg : m.functions[e.function]? = some g)
    (params : g.signature.params = e.args) (known : Ty.anyGeneric e.args = false) (unwritten : g.body.code? = none) :
    (m.addInstance e).Keyed := by
  refine ⟨List.pairwise_append.2 ⟨h.distinct, List.pairwise_singleton _ _, fun i hi k hk => ?_⟩,
    List.pairwise_append.2 ⟨h.separate, List.pairwise_singleton _ _, fun i hi k hk => ?_⟩, fun i hi => ?_⟩
  · rw [List.mem_singleton.1 hk]
    exact findInstance?_eq_none.1 fresh i hi
  · rw [List.mem_singleton.1 hk]
    exact unshared i hi
  · rcases List.mem_append.1 hi with hi | hi
    · exact h.entries i hi
    · rw [List.mem_singleton.1 hi]
      refine ⟨g, hg, params, known, fun bytes written => ?_⟩
      rw [written] at unwritten
      cases unwritten

theorem Keyed.removeInstance (h : m.Keyed) (i : Nat) : (m.removeInstance i).Keyed :=
  ⟨h.distinct.filter _, h.separate.filter _, fun k hk => h.entries k (List.mem_filter.1 hk).1⟩

/-- Two instances of a generic function are one if and only if they are for the same types. -/
theorem Keyed.function_eq_iff (h : m.Keyed) {generic : Nat} {ts us : List Ty} (hi : ⟨generic, ts, i⟩ ∈ m.instances)
    (hj : ⟨generic, us, j⟩ ∈ m.instances) : i = j ↔ ts = us := by
  constructor
  · rintro rfl
    obtain ⟨g, hg, params, -⟩ := h.entries _ hi
    obtain ⟨g', hg', params', -⟩ := h.entries _ hj
    obtain rfl := Option.some.inj (hg.symm.trans hg')
    exact params.symm.trans params'
  · rintro rfl
    refine Decidable.byContradiction fun other => ?_
    have differ : (⟨generic, ts, i⟩ : Instance) ≠ ⟨generic, ts, j⟩ := fun e => other (Instance.mk.inj e).2.2
    have symm : Std.Symm fun i j : Instance => ¬(i.generic = j.generic ∧ i.args = j.args) :=
      ⟨fun _ _ h k => h ⟨k.1.symm, k.2.symm⟩⟩
    exact h.distinct.forall hi hj differ ⟨rfl, rfl⟩

/-! ### Regular modules -/

/-- A generic function waits in a scope that is there. If we are strict, it is one of the module itself. -/
def Awaits (strict : Bool) (m : Module) (g : Function) : Prop :=
  ∀ (decl : FunctionDecl) (scope : Nat), g.body = .generic decl scope → scope < m.scopes.size ∧
    decl.body.nests (Header.isAdmitted strict) ∧ (strict → scope = ScopeTable.root ∧ g.captures = [])

structure Regular (strict : Bool) (m : Module) : Prop where
  keyed : m.Keyed
  ordered : m.scopes.Ordered
  root : 0 < m.scopes.size
  results : ∀ g ∈ m.functions, g.signature.result.IsResult
  nonlocals : ∀ g ∈ m.functions, Ty.allSolid g.signature.nonlocals
  values : ∀ v ∈ m.values, v.ty.isSolid
  bindings : ∀ a name symbol t, m.scopes.get? a name = some symbol → symbol.ty? = some t → t.isSolid
  generics : ∀ g ∈ m.functions, m.Awaits strict g
  fits : strict → ∀ a name symbol, m.scopes.get? a name = some symbol → symbol.Fits m a
  bare : strict → ∀ i ∈ m.instances, ∃ g, m.functions[i.function]? = some g ∧ g.captures = []

theorem Awaits.prolong (h : m.Awaits strict g) (on : m.Prolongs own n) : n.Awaits strict g := fun decl scope body => by
  obtain ⟨inside, rest⟩ := h decl scope body
  exact ⟨Nat.lt_of_lt_of_le inside on.scopes.size, rest⟩

theorem awaits_of_body {body : Body} (h : body.isGeneric = false) (hb : g.body = body) : m.Awaits strict g := by
  rintro decl scope e
  rw [← hb, e] at h
  cases h

namespace Regular

variable (h : m.Regular strict)
include h

theorem bare_prolong (on : m.Prolongs own n) (instances : n.instances = m.instances) (hs : strict) :
    ∀ i ∈ n.instances, ∃ g, n.functions[i.function]? = some g ∧ g.captures = [] := by
  rw [instances]
  intro i hi
  obtain ⟨g, hg, none⟩ := h.bare hs i hi
  obtain ⟨g', hg', retains⟩ := on.functions _ g hg
  exact ⟨g', hg', retains.captures.trans none⟩

/-- Static values are added, and what is neither a function nor a name changes. -/
theorem store (functions : n.functions = m.functions) (instances : n.instances = m.instances)
    (scopes : n.scopes = m.scopes) (values : ∀ v ∈ n.values, v ∈ m.values ∨ v.ty.isSolid) : n.Regular strict := by
  have on := Prolongs.of_eq functions instances scopes
  refine ⟨h.keyed.of_eq functions instances, scopes ▸ h.ordered, scopes ▸ h.root, functions ▸ h.results,
    functions ▸ h.nonlocals, fun v hv => (values v hv).elim (h.values v) id, scopes ▸ h.bindings, ?_, ?_,
    h.bare_prolong on instances⟩
  · rw [functions]
    exact fun g hg => (h.generics g hg).prolong on
  · rw [scopes]
    exact fun hs a name symbol hget => (h.fits hs a name symbol hget).prolong on

theorem addFunction (result : g.signature.result.IsResult) (nonlocals : Ty.allSolid g.signature.nonlocals)
    (awaits : m.Awaits strict g) : (m.addFunction g).1.Regular strict := by
  have on := m.prolongs_addFunction g
  have among {f : Function} (hf : f ∈ (m.addFunction g).1.functions) : f ∈ m.functions ∨ f = g := Array.mem_push.1 hf
  refine ⟨h.keyed.addFunction g, h.ordered, h.root, fun f hf => ?_, fun f hf => ?_, h.values, h.bindings, fun f hf => ?_,
    fun hs a name symbol hget => (h.fits hs a name symbol hget).prolong on, h.bare_prolong on rfl⟩
  · exact (among hf).elim (h.results f) fun e => e ▸ result
  · exact (among hf).elim (h.nonlocals f) fun e => e ▸ nonlocals
  · exact (among hf).elim (fun hf => (h.generics f hf).prolong on) fun e => e ▸ awaits.prolong on

/-- A function is finished. -/
theorem setFunction (hg : m.functions[i]? = some g) (retains : g.Retains g') (result : g'.signature.result.isSolid)
    (body : g'.body.isGeneric = false) : (m.setFunction i g').Regular strict := by
  have on := prolongs_setFunction hg retains
  have among {f : Function} (hf : f ∈ (m.setFunction i g').functions) : f ∈ m.functions ∨ f = g' :=
    Array.mem_or_eq_of_mem_setIfInBounds hf
  refine ⟨h.keyed.setFunction hg retains.params (Ty.isSolid_ne_unknown result), h.ordered, h.root, fun f hf => ?_,
    fun f hf => ?_, h.values, h.bindings, fun f hf => ?_,
    fun hs a name symbol hget => (h.fits hs a name symbol hget).prolong on, h.bare_prolong on rfl⟩
  · exact (among hf).elim (h.results f) fun e => e ▸ .inr result
  · refine (among hf).elim (h.nonlocals f) fun e => ?_
    rw [e, retains.nonlocals]
    exact h.nonlocals g (Array.mem_of_getElem? hg)
  · exact (among hf).elim (fun hf => (h.generics f hf).prolong on) fun e => awaits_of_body body (congrArg Function.body e)

/-- Scopes are added, and names are bound. -/
theorem rescope (on : ScopeTable.Prolongs own m.scopes u) (ordered : u.Ordered)
    (bound : ∀ a name symbol, u.get? a name = some symbol → m.scopes.get? a name = some symbol ∨
      (∀ t, symbol.ty? = some t → t.isSolid) ∧ (strict → symbol.Fits { m with scopes := u } a)) :
    ({ m with scopes := u } : Module).Regular strict := by
  have on := prolongs_rescope on
  refine ⟨h.keyed.of_eq rfl rfl, ordered, Nat.lt_of_lt_of_le h.root on.scopes.size, h.results, h.nonlocals, h.values,
    fun a name symbol t hget ht => ?_, fun g hg => (h.generics g hg).prolong on, fun hs a name symbol hget => ?_,
    h.bare_prolong on rfl⟩
  · exact (bound a name symbol hget).elim (fun old => h.bindings a name symbol t old ht) fun new => new.1 t ht
  · exact (bound a name symbol hget).elim (fun old => (h.fits hs a name symbol old).prolong on) fun new => new.2 hs

theorem bind (a : Nat) (name : String) {symbol : Symbol} (solid : ∀ t, symbol.ty? = some t → t.isSolid)
    (fits : strict → symbol.Fits { m with scopes := m.scopes.bind a name symbol } a) :
    ({ m with scopes := m.scopes.bind a name symbol } : Module).Regular strict := by
  refine h.rescope (ScopeTable.prolongs_bind m.scopes a name symbol) (h.ordered.bind a name symbol) fun b n s hget => ?_
  rcases ScopeTable.get?_bind hget with ⟨rfl, rfl, rfl⟩ | old
  · exact .inr ⟨solid, fits⟩
  · exact .inl old

theorem addScope {parent : Nat} (inside : parent < m.scopes.size) (kind : ScopeKind) (label : String) :
    ({ m with scopes := (m.scopes.add parent kind label).1 } : Module).Regular strict :=
  h.rescope (ScopeTable.prolongs_add m.scopes parent kind label) (h.ordered.add inside kind label) fun b n s hget => by
    rw [ScopeTable.get?_add] at hget
    exact .inl hget

theorem addInstance (fresh : m.findInstance? e.generic e.args = none) (unshared : ∀ i ∈ m.instances, i.function ≠ e.function)
    (hg : m.functions[e.function]? = some g) (params : g.signature.params = e.args) (known : Ty.anyGeneric e.args = false)
    (unwritten : g.body.code? = none) (bare : strict → g.captures = []) : (m.addInstance e).Regular strict := by
  have on := m.prolongs_addInstance e
  refine ⟨h.keyed.addInstance fresh unshared hg params known unwritten, h.ordered, h.root, h.results, h.nonlocals, h.values,
    h.bindings, fun g hg => (h.generics g hg).prolong on, fun hs a name symbol hget =>
    (h.fits hs a name symbol hget).prolong on, fun hs i hi => ?_⟩
  rcases List.mem_append.1 hi with hi | hi
  · exact h.bare hs i hi
  · rw [List.mem_singleton.1 hi]
    exact ⟨g, hg, bare hs⟩

theorem removeInstance (i : Nat) : (m.removeInstance i).Regular strict :=
  ⟨h.keyed.removeInstance i, h.ordered, h.root, h.results, h.nonlocals, h.values, h.bindings, h.generics,
    h.fits, fun hs k hk => h.bare hs k (List.mem_filter.1 hk).1⟩

end Regular

end Module

end StackScript
