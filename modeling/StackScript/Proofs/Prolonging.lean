import StackScript.Proofs.Compiling
import StackScript.Proofs.Regular
import StackScript.Proofs.Registering

/-!
The regime of regular modules. All modules of the library are regular at any time, and a name is seen where the draft is
written if what it stands for can be called there.
-/
namespace StackScript

open FreeNames (paramNames)

/-! ### Libraries -/

namespace Library

variable {l l' l'' : Library} {own : Nat → Option Nat} {strict : Bool} {id : Nat} {m m' : Module} {f : FunctionRef} {g : Function}

def Regular (strict : Bool) (l : Library) : Prop :=
  ∀ (id : Nat) (m : Module), l.modules[id]? = some m → m.Regular strict

/-- All modules are prolonged, each with names in one of its scopes. -/
def Prolongs (own : Nat → Option Nat) (l l' : Library) : Prop :=
  ∀ (id : Nat) (m : Module), l.modules[id]? = some m → ∃ n, l'.modules[id]? = some n ∧ m.Prolongs (own id) n

theorem Prolongs.refl (own : Nat → Option Nat) (l : Library) : l.Prolongs own l := fun _ m hm => ⟨m, hm, .refl _ m⟩

theorem Prolongs.trans (h : l.Prolongs own l') (k : l'.Prolongs own l'') : l.Prolongs own l'' := fun id m hm => by
  obtain ⟨n, hn, on⟩ := h id m hm
  obtain ⟨p, hp, on'⟩ := k id n hn
  exact ⟨p, hp, on.trans on'⟩

theorem Prolongs.open (h : l.Prolongs (fun _ => none) l') (own : Nat → Option Nat) : l.Prolongs own l' := fun id m hm => by
  obtain ⟨n, hn, on⟩ := h id m hm
  exact ⟨n, hn, on.open _⟩

theorem Prolongs.put (h : l.Prolongs own l') (hm : l'.modules[id]? = some m) (on : m.Prolongs (own id) m') :
    l.Prolongs own (l'.put id m') := fun j n hn => by
  obtain ⟨p, hp, on'⟩ := h j n hn
  by_cases e : id = j
  · subst e
    obtain rfl := Option.some.inj (hm.symm.trans hp)
    exact ⟨m', modules_put_self hm, on'.trans on⟩
  · exact ⟨p, (modules_put_ne e).trans hp, on'⟩

theorem prolongs_put (hm : l.modules[id]? = some m) (on : m.Prolongs (own id) m') : l.Prolongs own (l.put id m') :=
  (Prolongs.refl own l).put hm on

theorem Prolongs.function (h : l.Prolongs own l') (hg : l.function? f = some g) :
    ∃ g', l'.function? f = some g' ∧ g.Retains g' := by
  obtain ⟨m, hm, hf⟩ := exists_module hg
  obtain ⟨n, hn, on⟩ := h _ m hm
  obtain ⟨g', hg', retains⟩ := on.functions _ g hf
  exact ⟨g', (function?_of_module hn).trans hg', retains⟩

/-- There is an instance of a generic function for types. -/
def Files (l : Library) (f : FunctionRef) (ts : List Ty) (i : Nat) : Prop :=
  ∃ m, l.modules[f.module]? = some m ∧ ⟨f.index, ts, i⟩ ∈ m.instances

theorem Prolongs.files {ts : List Ty} {i : Nat} (h : l.Prolongs own l') (hf : l.Files f ts i) : l'.Files f ts i := by
  obtain ⟨m, hm, among⟩ := hf
  obtain ⟨n, hn, on⟩ := h _ m hm
  exact ⟨n, hn, on.instances _ among⟩

theorem Regular.put (h : l.Regular strict) (id : Nat) (hm' : m'.Regular strict) : (l.put id m').Regular strict := fun j n hn => by
  cases hm : l.modules[id]? with
  | none =>
    have same : l.put id m' = l := by
      rw [Library.put, Array.setIfInBounds, dif_neg fun hlt => by simp [hlt] at hm]
    exact h j n (same ▸ hn)
  | some m =>
    rcases modules_put hm hn with ⟨-, rfl⟩ | ⟨-, hn⟩
    · exact hm'
    · exact h j n hn

theorem Regular.function (h : l.Regular strict) (hg : l.function? f = some g) :
    ∃ m, l.modules[f.module]? = some m ∧ m.functions[f.index]? = some g ∧ m.Regular strict ∧ g ∈ m.functions := by
  obtain ⟨m, hm, hf⟩ := exists_module hg
  exact ⟨m, hm, hf, h _ m hm, Array.mem_of_getElem? hf⟩

end Library

/-! ### What is seen -/

namespace Module

variable {m n : Module} {strict : Bool} {a j : Nat} {name : String} {r : Lookup}

/-- If a function of an enclosing function is meant by a name, then what it captures is bound where the name is used. -/
def Serves (m : Module) (a : Nat) (name : String) : Prop :=
  ∀ r, m.scopes.Finds name a r → r.crossed → r.scope ≠ ScopeTable.root →
    ∃ j g, r.symbol = .function j ∧ m.functions[j]? = some g ∧ ∀ k ∈ g.captures, m.scopes.Holds a k

theorem serves_of_holds (h : m.scopes.Holds a name) : m.Serves a name := fun r found crossed _ => by
  obtain ⟨r', found', uncrossed⟩ := h
  rw [found.unique found', uncrossed] at crossed
  cases crossed

/-- What a function captures is bound wherever its name is served. -/
theorem Regular.holds_captures (h : m.Regular strict) (hs : strict) (served : m.Serves a name)
    (found : m.scopes.Finds name a r) (symbol : r.symbol = .function j) :
    ∃ g, m.functions[j]? = some g ∧ g.captures.length ≤ g.signature.nonlocals.length ∧
      ∀ k ∈ g.captures, m.scopes.Holds a k := by
  have fits := h.fits hs _ _ _ found.get?
  rw [symbol] at fits
  obtain ⟨g, hg, global, length, holds⟩ := fits
  refine ⟨g, hg, length, fun k hk => ?_⟩
  by_cases outer : r.scope = ScopeTable.root
  · rw [global outer] at hk
    cases hk
  · cases crossed : r.crossed with
    | false => exact (holds k hk).inner (found.inside crossed)
    | true =>
      obtain ⟨j', g', symbol', hg', holds'⟩ := served r found crossed outer
      obtain rfl : j = j' := Symbol.function.inj (symbol.symm.trans symbol')
      obtain rfl := Option.some.inj (hg.symm.trans hg')
      exact holds' k hk

theorem Serves.prolong (h : m.Serves a name) (ordered : m.scopes.Ordered) (inside : a < m.scopes.size)
    (on : m.Prolongs (some a) n) : n.Serves a name := fun r found crossed outer => by
  cases found with
  | here => cases crossed
  | @outer _ p sc r scope free parent found =>
    obtain ⟨sc₀, hsc₀⟩ : ∃ sc₀, m.scopes.scopes[a]? = some sc₀ := ⟨_, Array.getElem?_eq_getElem inside⟩
    obtain ⟨sc', hs', kind, parent', free', -⟩ := on.scopes.scopes a sc₀ hsc₀
    obtain rfl := Option.some.inj (scope.symm.trans hs')
    have parent := parent'.symm.trans parent
    have below := ordered a sc₀ p hsc₀ parent
    -- only names in the scope at hand are new, and this one is not bound there
    have before := found.before ordered on.scopes (Nat.lt_trans below inside) fun i e => Option.some.inj e ▸ below
    obtain ⟨j, g, symbol, hg, holds⟩ := h _ (.outer hsc₀ (free' name free) parent before) (by rw [← kind]; exact crossed) outer
    obtain ⟨g', hg', retains⟩ := on.functions j g hg
    refine ⟨j, g', symbol, hg', fun k hk => ?_⟩
    rw [retains.captures] at hk
    exact (holds k hk).prolong on.scopes

end Module

/-! ### Compilations -/

namespace Compilation

variable {c d e : Compilation} {strict : Bool}

/-- The scope of the draft is the one in which names are bound. -/
def own (c : Compilation) (id : Nat) : Option Nat := if id = c.draft.target.module then some c.draft.scope else none

/-- The draft lies in a module and a scope that are there. Functions that wait can be written. -/
structure Regular (strict : Bool) (c : Compilation) : Prop where
  library : c.library.Regular strict
  here : ∃ m, c.library.modules[c.draft.target.module]? = some m ∧ c.draft.scope < m.scopes.size
  home : ∃ m, c.library.modules[c.module]? = some m
  pending : ∀ p ∈ c.pending, p.2.body.nests (Header.isAdmitted strict) ∧
    ∃ g, c.library.function? ⟨c.module, p.1⟩ = some g ∧ Ty.allSolid g.signature.params

/-- The same function is written on. -/
structure Prolongs (c d : Compilation) : Prop where
  draft : d.draft = { c.draft with code := d.draft.code, depth := d.draft.depth }
  module : d.module = c.module
  library : c.library.Prolongs c.own d.library

theorem Prolongs.target (h : c.Prolongs d) : d.draft.target = c.draft.target := by rw [h.draft]

theorem Prolongs.scope (h : c.Prolongs d) : d.draft.scope = c.draft.scope := by rw [h.draft]

theorem Prolongs.own (h : c.Prolongs d) : d.own = c.own := by
  unfold Compilation.own
  rw [h.target, h.scope]

theorem Prolongs.refl (c : Compilation) : c.Prolongs c := ⟨rfl, rfl, .refl _ _⟩

theorem Prolongs.trans (h : c.Prolongs d) (k : d.Prolongs e) : c.Prolongs e := by
  refine ⟨?_, k.module.trans h.module, h.library.trans (h.own ▸ k.library)⟩
  rw [k.draft, h.draft]

/-- The module of the draft goes on with names in the scope of the draft. -/
theorem Prolongs.here (h : c.Prolongs d) {m : Module} (hm : c.library.modules[c.draft.target.module]? = some m) :
    ∃ n, d.library.modules[d.draft.target.module]? = some n ∧ m.Prolongs (some c.draft.scope) n := by
  obtain ⟨n, hn, on⟩ := h.library _ m hm
  rw [Compilation.own, if_pos rfl] at on
  exact ⟨n, h.target.symm ▸ hn, on⟩

/-- A draft goes on in a prolonged library. -/
theorem Regular.relibrary (h : c.Regular strict) {l : Library} (regular : l.Regular strict)
    (on : c.library.Prolongs c.own l) : ({ c with library := l } : Compilation).Regular strict := by
  refine ⟨regular, ?_, ?_, fun p hp => ?_⟩
  · obtain ⟨m, hm, inside⟩ := h.here
    obtain ⟨n, hn, on⟩ := on _ m hm
    exact ⟨n, hn, Nat.lt_of_lt_of_le inside on.scopes.size⟩
  · obtain ⟨m, hm⟩ := h.home
    obtain ⟨n, hn, -⟩ := on _ m hm
    exact ⟨n, hn⟩
  · obtain ⟨nests, g, hg, solid⟩ := h.pending p hp
    obtain ⟨g', hg', retains⟩ := on.function hg
    exact ⟨nests, g', hg', retains.params ▸ solid⟩

end Compilation

/-! ### The regime -/

/-- A failure that does not come from a name that was not captured. -/
inductive CompileError.Honest : CompileError → Prop
  | plain {e : CompileError} (h : e.isPlain) : Honest e
  /-- An instance is asked for with too few or too many arguments. -/
  | count (name : String) (span : Span) (n k : Nat) :
    Honest ⟨.instantiation name ("expected " ++ toString n ++ " arguments, got " ++ toString k), span⟩
  /-- The body of an instance fails. -/
  | body {e : CompileError} (name : String) (span : Span) (h : Honest e) : Honest ⟨.instantiation name e.message, span⟩

namespace Regime.Regular

variable {strict : Bool} {c d : Compilation} {f : FunctionRef} {m : Module} {name : String} {span : Span}

structure Spoils (strict : Bool) (e : CompileError) (c : Compilation) : Prop where
  library : c.library.Regular strict
  honest : strict → e.Honest

def Sees (strict : Bool) (c : Compilation) (name : String) : Prop :=
  strict → ∀ m, c.library.modules[c.draft.target.module]? = some m → m.Serves c.draft.scope name

def Callable (strict : Bool) (c : Compilation) (f : FunctionRef) : Prop :=
  strict → ∃ g, c.library.function? f = some g ∧ ∀ k ∈ g.captures, Sees strict c k

/-- The names of the variables in the frame of a function. -/
def frameNames (g : Function) (params : List String) : List String :=
  (Draft.frameSymbols g.signature g.captures params).map (·.1)

/-- A name can be used in a function that lies in a scope if it is one of those in its frame, or if it is found around the
function and no variable, and what it captures is in the frame. -/
def Supplied (m : Module) (scope : Nat) (frame : List String) (name : String) : Prop :=
  name ∈ frame ∨ ∀ r, m.scopes.Finds name scope r → r.scope ≠ ScopeTable.root →
    ∃ j g, r.symbol = .function j ∧ m.functions[j]? = some g ∧ ∀ k ∈ g.captures, k ∈ frame

structure Ready (strict : Bool) (c : Compilation) (f : FunctionRef) (params : List String) (scope : Nat)
    (names : String → Prop) : Prop where
  function : ∃ m g, c.library.modules[f.module]? = some m ∧ m.functions[f.index]? = some g ∧ scope < m.scopes.size ∧
    Ty.allSolid g.signature.params ∧ (strict → ∀ n, names n → Supplied m scope (frameNames g params) n)

end Regime.Regular

/-- Modules are regular, and if we are strict, no name is found that was not captured. -/
def Regime.regular (strict : Bool) : Regime where
  Holds := Compilation.Regular strict
  Onward c d := c.Regular strict ∧ c.Prolongs d
  Spoils := Regular.Spoils strict
  Typed t := t.isSolid
  Inside c := c.draft.scope ≠ ScopeTable.root
  Sees := Regular.Sees strict
  Callable := Regular.Callable strict
  Ready := Regular.Ready strict
  nested := Header.isAdmitted strict
  Declares _ := True

namespace Regime.Regular

variable {strict : Bool} {c d : Compilation} {f : FunctionRef} {m : Module} {name : String} {span : Span}

theorem sees_of_holds (hm : c.library.modules[c.draft.target.module]? = some m) (h : m.scopes.Holds c.draft.scope name) :
    Sees strict c name := fun _ n hn => by
  obtain rfl := Option.some.inj (hm.symm.trans hn)
  exact Module.serves_of_holds h

theorem Sees.prolong (h : Sees strict c name) (hc : c.Regular strict) (on : c.Prolongs d) : Sees strict d name :=
    fun hs n hn => by
  obtain ⟨m, hm, inside⟩ := hc.here
  obtain ⟨p, hp, grown⟩ := on.here hm
  obtain rfl := Option.some.inj (hn.symm.trans hp)
  rw [on.scope]
  exact (h hs m hm).prolong (hc.library _ m hm).ordered inside grown

theorem Callable.prolong (h : Callable strict c f) (hc : c.Regular strict) (on : c.Prolongs d) : Callable strict d f :=
    fun hs => by
  obtain ⟨g, hg, sees⟩ := h hs
  obtain ⟨g', hg', retains⟩ := on.library.function hg
  refine ⟨g', hg', fun k hk => ?_⟩
  rw [retains.captures] at hk
  exact (sees k hk).prolong hc on

/-- A function of the module itself captures nothing. -/
theorem callable_global {id j : Nat} (h : c.library.Regular strict) (hm : c.library.modules[id]? = some m)
    (hget : m.lookup? name = some (.function j)) : Callable strict c ⟨id, j⟩ := fun hs => by
  obtain ⟨g, hg, global, -⟩ := (h id m hm).fits hs _ name _ hget
  refine ⟨g, (Library.function?_of_module (f := ⟨id, j⟩) hm).trans hg, fun k hk => ?_⟩
  rw [global rfl] at hk
  cases hk

/-- A name that is found in the scopes of the module stands for something that may be used. -/
theorem resolved_lookup (hc : c.Regular strict) (hs : Sees strict c name) {r : Lookup}
    (hm : c.library.modules[c.draft.target.module]? = some m) (found : m.scopes.Finds name c.draft.scope r) :
    (Regime.regular strict).Resolved c (Meaning.ofLookup c.draft.target.module name span r) := by
  have regular := hc.library _ m hm
  have variable_ (t : Ty) (ht : r.symbol.ty? = some t) : t.isSolid := regular.bindings _ _ _ t found.get? ht
  have captured (ht : r.symbol.ty?.isSome) (crossed : r.crossed) : Spoils strict ⟨.notCaptured name, span⟩ c := by
    refine ⟨hc.library, fun strictly => ?_⟩
    by_cases outer : r.scope = ScopeTable.root
    · have fits := regular.fits strictly _ _ _ found.get?
      cases hsym : r.symbol with
      | parameter | slot | nonlocal =>
        rw [hsym, outer] at fits
        exact absurd rfl fits
      | function | computed | value =>
        rw [hsym] at ht
        cases ht
    · obtain ⟨j, g, symbol, -⟩ := hs strictly m hm r found crossed outer
      rw [symbol] at ht
      cases ht
  unfold Meaning.ofLookup
  cases hsym : r.symbol with
  | function j =>
    intro strictly
    obtain ⟨g, hg, -, holds⟩ := regular.holds_captures strictly (hs strictly m hm) found hsym
    exact ⟨g, (Library.function?_of_module (f := ⟨c.draft.target.module, j⟩) hm).trans hg,
      fun k hk => sees_of_holds hm (holds k hk)⟩
  | computed | value => trivial
  | parameter _ _ t | slot _ t | nonlocal _ _ t =>
    rw [hsym] at variable_ captured
    cases crossed : r.crossed with
    | true => exact captured rfl crossed
    | false => exact ⟨rfl, variable_ t rfl⟩

theorem resolved (hc : c.Regular strict) (hs : Sees strict c name) :
    (Regime.regular strict).Resolved c (c.draft.resolve c.library name span) := by
  obtain ⟨m, hm, -⟩ := hc.here
  have regular := hc.library _ m hm
  unfold Draft.resolve
  rw [Library.get_eq hm]
  dsimp only
  split
  · next r hr => exact resolved_lookup hc hs hm ((ScopeTable.resolve?_eq_some regular.ordered).1 hr)
  · split
    · next meaning hmeaning =>
      obtain ⟨id, -, hid⟩ := List.exists_of_findSome?_eq_some hmeaning
      obtain ⟨symbol, hget, hglobal⟩ := Option.bind_eq_some_iff.1 hid
      cases hn : c.library.modules[id]? with
      | none =>
        rw [Library.get, Array.getD_eq_getD_getElem?, hn] at hget
        cases hget
      | some n =>
        rw [Library.get_eq hn] at hget
        cases symbol with
        | function j =>
          cases hglobal
          exact callable_global hc.library hn hget
        | computed | value =>
          cases hglobal
          trivial
        | _ => cases hglobal
    · exact ⟨hc.library, fun _ => .plain rfl⟩

/-- The draft changes, but not the function and the scope it belongs to. -/
theorem redraft (hc : c.Regular strict) (code : Code) (depth : Nat) (heap : Heap) :
    ({ c with draft := { c.draft with code := code, depth := depth }, heap := heap } : Compilation).Regular strict ∧
      c.Prolongs { c with draft := { c.draft with code := code, depth := depth }, heap := heap } :=
  ⟨⟨hc.library, hc.here, hc.home, hc.pending⟩, rfl, rfl, .refl _ _⟩

/-- A module changes as its kind allows. -/
theorem put (hc : c.Regular strict) {id : Nat} {m' : Module} (hm : c.library.modules[id]? = some m) (hm' : m'.Regular strict)
    (on : m.Prolongs (c.own id) m') : ({ c with library := c.library.put id m' } : Compilation).Regular strict ∧
      c.Prolongs { c with library := c.library.put id m' } := by
  have on : c.library.Prolongs c.own (c.library.put id m') := Library.prolongs_put hm on
  exact ⟨hc.relibrary (hc.library.put id hm') on, rfl, rfl, on⟩

theorem fragment (c : Compilation) (op : Opcode) : (Regime.regular strict).Keeps c (Compile.emit op) Any := fun hc => by
  obtain ⟨holds, on⟩ := redraft hc (c.draft.code.opcode op) c.draft.depth c.heap
  exact ⟨holds, ⟨hc, on⟩, trivial⟩

theorem spoiled (c : Compilation) (e : CompileError) (hc : (Regime.regular strict).Holds c) (plain : e.isPlain) :
    (Regime.regular strict).Spoils e c := ⟨hc.library, fun _ => .plain plain⟩

theorem basic (strict : Bool) : (Regime.regular strict).Basic where
  types := types_solid
  refl c hc := ⟨hc, .refl c⟩
  trans _ _ _ h k := ⟨h.1, h.2.trans k.2⟩
  target _ _ h := h.2.target
  rests c d h rests := ⟨by rw [h.2.target, h.2.module, rests.target], by rw [h.2.scope, rests.scope]⟩
  inside c d h inside := by
    rw [show (Regime.regular strict).Inside d ↔ d.draft.scope ≠ ScopeTable.root from Iff.rfl, h.2.scope]
    exact inside
  sees _ _ _ h hs := hs.prolong h.1 h.2
  callable _ _ _ h hf := hf.prolong h.1 h.2
  fails c e hc common := spoiled c e hc (CompileError.isCommon_iff.1 common).1
  miscounts c name span n k hc := ⟨hc.library, fun _ => .count name span n k⟩
  releases _ _ _ hc common _ := ⟨hc.library, fun _ => .plain (CompileError.isCommon_iff.1 common).1⟩
  resolve _ _ _ hc hs := resolved hc hs
  captured c f g n hc callable hg hn := fun strictly => by
    obtain ⟨g', hg', sees⟩ := callable strictly
    obtain rfl := Option.some.inj (hg.symm.trans hg')
    exact sees n hn strictly
  result c f g hc hg := by
    obtain ⟨m, -, -, regular, among⟩ := hc.library.function hg
    exact Signature.isSolid_effectiveResult (regular.results g among)
  value c id i v hc hv := by
    cases hm : c.library.modules[id]? with
    | none =>
      rw [Library.get, Array.getD_eq_getD_getElem?, hm] at hv
      cases hv
    | some m =>
      rw [Library.get_eq hm] at hv
      exact (hc.library id m hm).values v (Array.mem_of_getElem? hv)
  write c code depth hc _ := ⟨(redraft hc code depth c.heap).1, hc, (redraft hc code depth c.heap).2⟩
  heap c h hc _ := ⟨(redraft hc c.draft.code c.draft.depth h).1, hc, (redraft hc c.draft.code c.draft.depth h).2⟩
  store c id m types values hc hm typed := by
    have regular := (hc.library id m hm).store (n := { m with types := types, values := values }) rfl rfl rfl typed
    have grown : m.Prolongs none { m with types := types, values := values } := .of_eq rfl rfl rfl
    obtain ⟨hd, on⟩ := put hc hm regular (grown.open _)
    exact ⟨hd, hc, on⟩

end Regime.Regular

end StackScript
