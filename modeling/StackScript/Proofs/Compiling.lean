import StackScript.Compile.Program
import StackScript.Proofs.CodeLayout
import StackScript.Proofs.Consistent
import StackScript.Proofs.Meets

/-!
The state of a compilation. The library stays consistent and the heap sound while code is written; the code of the
draft leads from a stack of one shape to a stack of another, in every library that the finished one extends to.
-/
namespace StackScript

/-- What a compilation finds and leaves as it is. -/
structure Surroundings where
  dead : FunctionRef → Prop
  /-- The references to the heap that are not in the library. -/
  roots : List Handle
  /-- The number of modules. -/
  count : Nat
  living : Nat → Bool

namespace Draft

/-- The bytes below the frame base. -/
def frame (d : Draft) : Nat := Ty.sizes (frameTypes d.signature)

/-- The same function is written further. -/
structure Writes (d e : Draft) : Prop where
  target : e.target = d.target
  name : e.name = d.name
  signature : e.signature = d.signature
  captures : e.captures = d.captures
  scope : e.scope = d.scope
  code : d.code.Extends e.code

theorem Writes.refl (d : Draft) : d.Writes d := ⟨rfl, rfl, rfl, rfl, rfl, .refl _⟩

theorem Writes.trans {d e f : Draft} (h : d.Writes e) (k : e.Writes f) : d.Writes f :=
  ⟨k.target.trans h.target, k.name.trans h.name, k.signature.trans h.signature, k.captures.trans h.captures,
    k.scope.trans h.scope, h.code.trans k.code⟩

theorem Writes.frame {d e : Draft} (h : d.Writes e) : e.frame = d.frame := by
  rw [Draft.frame, h.signature, Draft.frame]

end Draft

namespace Compilation

variable (o : Surroundings)

def view (c : Compilation) : View := ⟨c.library, o.dead⟩

/-- Functions that are not written yet. -/
def Waits (c : Compilation) (f : FunctionRef) : Prop :=
  (f.module = c.module ∧ ∃ p ∈ c.pending, p.1 = f.index) ∨ f ∈ c.unfinished

/-- A pending function can be begun. -/
structure Pends (c : Compilation) (p : Nat × FunctionDecl) : Prop where
  plain : p.2.isPlain
  unbegun : ⟨c.module, p.1⟩ ∉ c.unfinished
  living : ¬ o.dead ⟨c.module, p.1⟩
  undefined : ∃ g, c.library.function? ⟨c.module, p.1⟩ = some g ∧ g.body = .undefined
  sole : ∀ i ∈ (c.library.get c.module).instances, i.function ≠ p.1

structure Good (waits : FunctionRef → Prop) (c : Compilation) : Prop where
  consistent : (c.view o).Consistent waits
  heap : c.heap.cells.size ≤ Heap.capacity → ∃ Ψ, (c.view o).Sound Ψ c.heap o.roots
  count : c.library.modules.size = o.count
  living : ∀ id, (c.library.get id).alive = o.living id
  pending : ∀ p ∈ c.pending, c.Pends o p
  begun : ∀ f ∈ c.unfinished, ∃ g, c.library.function? f = some g
  alive : (c.library.get c.module).alive
  user : c.module ≠ 0

/-- What a compilation leaves that fails. -/
structure Failed (c : Compilation) : Prop where
  consistent : ∃ waits, (c.view o).Consistent waits
  heap : c.heap.cells.size ≤ Heap.capacity → ∃ Ψ, (c.view o).Sound Ψ c.heap o.roots
  count : c.library.modules.size = o.count
  living : ∀ id, (c.library.get id).alive = o.living id

/-- How a compilation goes on while the functions that are being written wait. In at most one scope of each module
variables may be bound. -/
structure Evolves (x : Nat → Option Nat) (c d : Compilation) : Prop where
  library : ∀ k, (c.view o).Extends k (d.view o)
  scopes : ∀ id, ScopeTable.Grows (x id) (c.library.get id).scopes (d.library.get id).scopes
  waiting : ∀ f ∈ c.unfinished, d.library.function? f = c.library.function? f
  unfinished : d.unfinished = c.unfinished
  module : d.module = c.module
  pending : ∀ p ∈ d.pending, p ∈ c.pending

/-- The module and the scope of the draft are there. -/
structure Ready (c : Compilation) : Prop where
  good : c.Good o c.Waits
  here : ∃ m, c.library.modules[c.draft.target.module]? = some m ∧ m.alive
  user : c.draft.target.module ≠ 0
  scope : c.draft.scope < (c.library.get c.draft.target.module).scopes.size
  code : c.draft.code.Valid

/-- The stack has a shape in which the variables lie that can be seen. -/
structure Sees (c : Compilation) (s : Shape) : Prop where
  placed : (c.library.get c.draft.target.module).scopes.Placed c.draft.scope c.draft.frame s
  settled : s.Settled

/-- The draft counts the bytes above the frame base. -/
def Level (c : Compilation) (s : Shape) : Prop := c.draft.frame + c.draft.depth = s.size

/-- The draft is written further, by code that leads from one shape to another. -/
structure Reaches (x : Nat → Option Nat) (c d : Compilation) (s u : Shape) : Prop where
  ready : d.Ready o
  evolves : c.Evolves o x d
  writes : c.draft.Writes d.draft
  flow : ∀ w code final, (d.view o).Extends c.draft.target.module w → d.draft.code.Fits code →
    w.Flow c.draft.target.module c.draft.frame code final d.draft.code.size u →
    w.Flow c.draft.target.module c.draft.frame code final c.draft.code.size s

variable {o} {x : Nat → Option Nat} {c d e : Compilation} {s u t : Shape} {waits : FunctionRef → Prop}
  {f : FunctionRef} {g : Function}

/-! ### Going on -/

theorem Evolves.refl (x : Nat → Option Nat) (c : Compilation) : c.Evolves o x c :=
  ⟨fun k => .refl k _, fun _ => .refl _ _, fun _ _ => rfl, rfl, rfl, fun _ h => h⟩

theorem Evolves.trans (h : c.Evolves o x d) (k : d.Evolves o x e) : c.Evolves o x e :=
  ⟨fun id => (h.library id).trans (k.library id), fun id => (h.scopes id).trans (k.scopes id),
    fun f hf => (k.waiting f (h.unfinished.symm ▸ hf)).trans (h.waiting f hf), k.unfinished.trans h.unfinished,
    k.module.trans h.module, fun p hp => h.pending p (k.pending p hp)⟩

theorem Evolves.open (h : c.Evolves o (fun _ => none) d) (x : Nat → Option Nat) : c.Evolves o x d :=
  { h with scopes := fun id => (h.scopes id).open (x id) }

theorem Evolves.function (h : c.Evolves o x d) (hf : c.library.function? f = some g) :
    ∃ g', d.library.function? f = some g' ∧ g.Extends g' :=
  (h.library f.module).function (Nat.le_refl _) hf

theorem Evolves.alive {id : Nat} (h : c.Evolves o x d) (ha : (c.library.get id).alive) : (d.library.get id).alive :=
  ((h.library id).modules id (Nat.le_refl id)).alive ha

theorem Reaches.refl (hc : c.Ready o) (x : Nat → Option Nat) (s : Shape) : c.Reaches o x c s s :=
  ⟨hc, .refl x c, .refl _, fun _ _ _ _ _ h => h⟩

theorem Reaches.trans (h : c.Reaches o x d s u) (k : d.Reaches o x e u t) : c.Reaches o x e s t := by
  refine ⟨k.ready, h.evolves.trans k.evolves, h.writes.trans k.writes, fun w code final hw hfit hflow => ?_⟩
  refine h.flow w code final ((k.evolves.library _).trans hw) (hfit.of_extends k.writes.code) ?_
  have := k.flow w code final
  rw [h.writes.target, h.writes.frame] at this
  exact this hw hfit hflow

theorem Reaches.open (h : c.Reaches o (fun _ => none) d s u) (x : Nat → Option Nat) : c.Reaches o x d s u :=
  { h with evolves := h.evolves.open x }

/-- The variables keep their places under what is pushed. -/
theorem Sees.carry (hs : c.Sees s) (hc : c.Ready o) (he : c.Evolves o (fun _ => none) d)
    (target : d.draft.target = c.draft.target) (scope : d.draft.scope = c.draft.scope)
    (frame : d.draft.frame = c.draft.frame) (hu : u.Settled) : d.Sees (u ++ s) := by
  obtain ⟨m, hm, ha⟩ := hc.here
  have ordered := (hc.good.consistent.modules _ m hm ha).sane.ordered
  have hscope := hc.scope
  have hgrows := he.scopes c.draft.target.module
  refine ⟨?_, Shape.settled_append.2 ⟨hu, hs.settled⟩⟩
  rw [target, scope, frame]
  rw [← Library.get_eq hm] at ordered
  exact (hs.placed.push u).grows ordered hscope hgrows nofun

theorem Sees.push (hs : c.Sees s) (hc : c.Ready o) (h : c.Reaches o (fun _ => none) d s (u ++ s)) (hu : u.Settled) :
    d.Sees (u ++ s) :=
  hs.carry hc h.evolves h.writes.target h.writes.scope h.writes.frame hu

theorem Good.failed (h : c.Good o waits) : c.Failed o := ⟨⟨waits, h.consistent⟩, h.heap, h.count, h.living⟩

theorem Ready.failed (h : c.Ready o) : c.Failed o := h.good.failed

theorem Reaches.failed (h : c.Reaches o x d s u) : d.Failed o := h.ready.failed

theorem Ready.alive (h : c.Ready o) : (c.library.get c.draft.target.module).alive := by
  obtain ⟨m, hm, ha⟩ := h.here
  rwa [Library.get_eq hm]

/-! ### The library -/

section

variable {id : Nat} {m m' : Module}

theorem alive_put {j : Nat} (hm : c.library.modules[id]? = some m) (ha : m'.alive = m.alive) :
    ((c.library.put id m').get j).alive = (c.library.get j).alive := by
  by_cases h : id = j
  · subst h
    rw [Library.get_put_self hm, Library.get_eq hm, ha]
  · rw [Library.get_put_ne h]

/-- The functions of a module that nothing may change. -/
def Untouched (o : Surroundings) (c : Compilation) (id : Nat) (m m' : Module) : Prop :=
  ∀ i, o.dead ⟨id, i⟩ ∨ ⟨id, i⟩ ∈ c.unfinished → m'.functions[i]? = m.functions[i]?

theorem Untouched.function? (h : c.Untouched o id m m') (hm : c.library.modules[id]? = some m)
    (hf : o.dead f ∨ f ∈ c.unfinished) : (c.library.put id m').function? f = c.library.function? f := by
  by_cases hid : id = f.module
  · subst hid
    rw [Library.function?_of_module hm, ← h f.index hf]
    exact Library.function?_put_self hm
  · exact Library.function?_put_ne hid

/-- A module is replaced by one that extends it. -/
theorem Good.put {h : Heap} {waits' : FunctionRef → Prop} (hc : c.Good o waits)
    (hm : c.library.modules[id]? = some m) (alive : m'.alive = m.alive) (untouched : c.Untouched o id m m')
    (pending : ∀ p ∈ c.pending, c.module = id → m'.functions[p.1]? = m.functions[p.1]? ∧
      ∀ i ∈ m'.instances, i ∈ m.instances ∨ i.function ≠ p.1)
    (consistent : View.Consistent ⟨c.library.put id m', o.dead⟩ waits')
    (heap : h.cells.size ≤ Heap.capacity → ∃ Ψ, View.Sound ⟨c.library.put id m', o.dead⟩ Ψ h o.roots) :
    ({ c with library := c.library.put id m', heap := h } : Compilation).Good o waits' := by
  refine ⟨consistent, heap, Library.size_put.trans hc.count, fun j => (alive_put hm alive).trans (hc.living j),
    fun p hp => ?_, fun f hf => ?_, (alive_put hm alive).trans hc.alive, hc.user⟩
  · have old := hc.pending p hp
    obtain ⟨g, hg, hu⟩ := old.undefined
    have sole := old.sole
    refine ⟨old.plain, old.unbegun, old.living, ⟨g, ?_, hu⟩, ?_⟩
    · by_cases hid : id = c.module
      · subst hid
        rw [Library.function?_of_module hm, ← (pending p hp rfl).1] at hg
        exact (Library.function?_put_self hm).trans hg
      · exact (Library.function?_put_ne hid).trans hg
    · change ∀ i ∈ ((c.library.put id m').get c.module).instances, _
      by_cases hid : id = c.module
      · subst hid
        rw [Library.get_put_self hm]
        rw [Library.get_eq hm] at sole
        exact fun i hi => ((pending p hp rfl).2 i hi).elim (sole i) fun h => h
      · rwa [Library.get_put_ne hid]
  · obtain ⟨g, hg⟩ := hc.begun f hf
    exact ⟨g, (untouched.function? hm (.inr hf)).trans hg⟩

theorem Evolves.put (hm : c.library.modules[id]? = some m) (growth : m.Extends m')
    (untouched : c.Untouched o id m m') (grows : ScopeTable.Grows (x id) m.scopes m'.scopes) (h : Heap) :
    c.Evolves o x { c with library := c.library.put id m', heap := h } := by
  refine ⟨View.extends_put (v := c.view o) hm growth fun i hi => untouched i (.inl hi), fun j => ?_,
    fun f hf => untouched.function? hm (.inr hf), rfl, rfl, fun _ hp => hp⟩
  by_cases hj : id = j
  · subst hj
    change ScopeTable.Grows _ _ ((c.library.put id m').get id).scopes
    rwa [Library.get_put_self hm, Library.get_eq hm]
  · change ScopeTable.Grows _ _ ((c.library.put id m').get j).scopes
    rw [Library.get_put_ne hj]
    exact .refl _ _

/-- A change of a module that adds no functions and no static values. -/
structure Tunes (m m' : Module) : Prop where
  growth : m.Extends m'
  functions : m'.functions = m.functions
  values : m'.values = m.values
  alive : m'.alive = m.alive
  instances : m'.instances = m.instances
  sane : m'.Sane
  references : ∀ r ∈ Library.references m', r ∈ Library.references m
  scopes : m.scopes.size ≤ m'.scopes.size

theorem untouched_of_eq (e : m'.functions = m.functions) : c.Untouched o id m m' := fun i _ => by rw [e]

theorem Good.tune (h : c.Good o waits) (hm : c.library.modules[id]? = some m) (ha : m.alive) (hid : id ≠ 0)
    (e : Tunes m m') : ({ c with library := c.library.put id m' } : Compilation).Good o waits := by
  refine h.put hm e.alive (untouched_of_eq e.functions)
    (fun p _ _ => ⟨by rw [e.functions], fun i hi => .inl (e.instances ▸ hi)⟩)
    (h.consistent.put_same hm ha hid e.growth e.functions e.sane e.references e.scopes) fun hcap => ?_
  obtain ⟨Ψ, hs⟩ := h.heap hcap
  exact ⟨Ψ, hs.put hm e.growth (fun i _ => by rw [e.functions]) e.values e.alive⟩

end

end Compilation

end StackScript
