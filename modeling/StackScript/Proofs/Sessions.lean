import StackScript.Proofs.Foundation
import StackScript.Proofs.RunSound
import StackScript.Session

/-!
Sessions over plain programs. Between two requests the library is consistent, the heap sound and the machine idle,
and the modules that live are those that the session holds. A request that fails leaves functions that can never be
called, or references that are never given up, and nothing else.
-/
namespace StackScript

/-! ### Compiling -/

namespace View

/-- Functions that are still undefined will never be written. -/
def buried (v : View) : View :=
  ⟨v.library, fun f => v.dead f ∨ ∃ g, v.library.function? f = some g ∧ g.body = .undefined⟩

variable {v : View} {waits : FunctionRef → Prop} {Ψ : Typing} {h : Heap} {roots : List Handle}

theorem extends_buried (v : View) (k : Nat) : v.Extends k v.buried :=
  ⟨fun _ _ => .refl _, fun _ _ hf => ⟨.inl hf, rfl⟩⟩

theorem Consistent.bury (hc : v.Consistent waits) : v.buried.Consistent fun _ => False := by
  refine ⟨hc.builtin, fun id m hm ha => ?_, hc.retired, fun f hf => ?_⟩
  · refine (hc.modules id m hm ha).extends (extends_buried v id) (Nat.le_refl _) fun i g hg hu _ => ?_
    exact .inr (.inr ⟨g, (Library.function?_of_module hm).trans hg, hu⟩)
  · rcases hf with hf | ⟨g, hg, -⟩
    · exact hc.dead f hf
    · exact ⟨g, hg⟩

theorem Sound.bury (hs : v.Sound Ψ h roots) : v.buried.Sound Ψ h roots :=
  hs.extends (extends_buried v) rfl (fun _ => rfl) fun _ ha => ha

end View

namespace Compilation

/-- Where the compilation of a program into a module starts. -/
def start (w : World) (id : Nat) : Compilation where
  library := w.library
  heap := w.machine.heap
  module := id
  draft := { target := ⟨id, 0⟩, name := w.library.nameOf id }

/-- What a compilation finds in a world. -/
def found (w : World) (dead : FunctionRef → Prop) (roots : List Handle) : Surroundings :=
  ⟨dead, roots, w.library.modules.size, fun id => (w.library.get id).alive⟩

theorem outside_start {w : World} {dead : FunctionRef → Prop} {id : Nat} {m : Module} (roots : List Handle)
    (consistent : View.Consistent ⟨w.library, dead⟩ fun _ => False)
    (heap : w.machine.heap.cells.size ≤ Heap.capacity → ∃ Ψ, View.Sound ⟨w.library, dead⟩ Ψ w.machine.heap roots)
    (hm : w.library.modules[id]? = some m) (ha : m.alive) (user : id ≠ 0) :
    (start w id).Outside (found w dead roots) id := by
  have alive : (w.library.get id).alive := by rwa [Library.get_eq hm]
  exact ⟨⟨consistent.waiting fun _ _ _ _ h => h.elim, heap, rfl, fun _ => rfl, nofun, nofun, alive, user⟩, rfl, rfl,
    (Array.getElem?_eq_some_iff.1 hm).1⟩

theorem not_balanced_twice {h : Heap} {r : Handle} {roots : List Handle} (hr : r.isNull = false) (hb : h.Balanced roots) :
    ¬ h.Balanced (r :: roots) := fun hb' => by
  have := hb.counts r hr
  have := hb'.counts r hr
  rw [List.count_cons_self] at this
  omega

/-- An arena that has outgrown its handles does not shrink while a program is compiled: it would be sound over any
roots then. -/
theorem outgrown {w : World} {dead : FunctionRef → Prop} {id : Nat} {m : Module} {invoke : Bool} {p : Program}
    (consistent : View.Consistent ⟨w.library, dead⟩ fun _ => False) (hm : w.library.modules[id]? = some m)
    (ha : m.alive) (user : id ≠ 0) (hp : p.isPlain) (beyond : ¬ w.machine.heap.cells.size ≤ Heap.capacity) :
    Meets (Compile.program invoke p) (start w id) (fun _ c => ¬ c.heap.cells.size ≤ Heap.capacity)
      fun _ c => ¬ c.heap.cells.size ≤ Heap.capacity := by
  have any (roots : List Handle) := (outside_start roots consistent (fun h => absurd h beyond) hm ha user).program invoke hp
  have twice {c : Compilation} (h : c.heap.cells.size ≤ Heap.capacity → ∃ Ψ, View.Sound ⟨c.library, dead⟩ Ψ c.heap [])
      (h' : c.heap.cells.size ≤ Heap.capacity → ∃ Ψ, View.Sound ⟨c.library, dead⟩ Ψ c.heap [⟨0, 1⟩]) :
      ¬ c.heap.cells.size ≤ Heap.capacity := fun hcap => by
    obtain ⟨_, hs⟩ := h hcap
    obtain ⟨_, hs'⟩ := h' hcap
    exact not_balanced_twice rfl hs.balanced hs'.balanced
  exact ((any []).and (any [⟨0, 1⟩])).imp (fun _ _ h => twice h.1.good.heap h.2.good.heap)
    fun _ _ h => twice h.1.heap h.2.heap

end Compilation

/-- The world with what a compilation made of its library and heap. -/
def World.compiled (w : World) (c : Compilation) : World :=
  { library := c.library, machine := { w.machine with heap := c.heap } }

theorem World.compile_eq (w : World) (id : Nat) (invoke : Bool) (p : Program) :
    w.compile id invoke p = match Compile.program invoke p (Compilation.start w id) with
      | .ok main c => (w.compiled c, .ok main)
      | .error e c => (w.compiled c, .error e) := rfl

theorem World.drop_idle {w : World} (hf : w.machine.frames = []) (held dropped : List Nat) :
    w.drop held dropped =
      { library := (w.library.drop w.machine.heap held dropped).1
        machine := { w.machine with heap := (w.library.drop w.machine.heap held dropped).2 } } := by
  have framed : w.framed = [] := by rw [World.framed, hf]; rfl
  unfold World.drop
  simp only [framed, List.append_nil]

theorem World.size_drop (w : World) (held dropped : List Nat) :
    (w.drop held dropped).machine.heap.cells.size = w.machine.heap.cells.size :=
  Library.size_drop w.library w.machine.heap (held ++ w.framed) dropped

namespace Session

/-! ### The invariant -/

/-- The dead functions were left by inputs that did not compile, the roots by runs that were broken off, and the
loaded modules are compiled but not kept. -/
structure Sound (dead : FunctionRef → Prop) (roots : List Handle) (loaded : List Nat) (s : Session) : Prop where
  consistent : View.Consistent ⟨s.world.library, dead⟩ fun _ => False
  heap : s.heap.cells.size ≤ Heap.capacity → s.world.machine.stack.bytes = [] ∧
    ∃ Ψ, View.Sound ⟨s.world.library, dead⟩ Ψ s.heap roots
  frames : s.world.machine.frames = []
  held : ∀ id ∈ loaded ++ s.held, ∃ m, s.world.library.modules[id]? = some m ∧ m.alive
  living : ∀ (id : Nat) (m : Module), s.world.library.modules[id]? = some m → m.alive → id ∈ loaded ++ s.held

/-- The newest module, which the session does not keep yet. -/
structure Newest (s : Session) (id : Nat) : Prop where
  last : id + 1 = s.world.library.modules.size
  user : id ≠ 0
  unheld : id ∉ s.held

variable {dead : FunctionRef → Prop} {roots : List Handle} {loaded : List Nat} {s : Session} {m : Module} {id : Nat}
  {p : Program}

/-- A module that was given up is retired. -/
theorem Sound.discard (h : s.Sound dead roots [id]) (new : s.Newest id) : (s.discard id).Sound dead roots [] := by
  obtain ⟨m, hm, ha⟩ := h.held id (.head _)
  have houses := h.consistent.modules id m hm ha
  have unused : id ∉ s.world.library.allReferences := fun hr => by
    obtain ⟨n, hn, hr⟩ := List.mem_flatMap.1 hr
    obtain ⟨j, hj⟩ := List.mem_iff_getElem?.1 hn
    rw [Array.getElem?_toList] at hj
    have := h.consistent.linked.smaller j n hj id hr
    have := (Array.getElem?_eq_some_iff.1 hj).1
    have := new.last
    omega
  have references : ∀ r ∈ Library.references m, r ∈ s.held := fun r hr => by
    obtain ⟨hlt, hra⟩ := houses.references r hr
    have hsize : r < s.world.library.modules.size := Nat.lt_trans hlt (Array.getElem?_eq_some_iff.1 hm).1
    rw [Library.get_eq (Array.getElem?_eq_getElem hsize)] at hra
    rcases List.mem_append.1 (h.living r _ (Array.getElem?_eq_getElem hsize) hra) with e | hr
    · exact absurd (List.mem_singleton.1 e) (Nat.ne_of_lt hlt)
    · exact hr
  have world : (s.discard id).world =
      { library := s.world.library.put id m.retired
        machine := { s.world.machine with heap := Library.releaseValues m.values.toList s.heap } } := by
    have e := Library.drop_unused s.heap hm ha unused new.unheld references
    change s.world.drop s.held [id] = _
    rw [World.drop_idle h.frames]
    rw [Session.heap] at e ⊢
    rw [e]
  refine ⟨?_, fun hcap => ?_, ?_, fun j hj => ?_, fun j n hn hna => ?_⟩
  · rw [world]
    exact h.consistent.retire hm new.last new.user
  · rw [Session.heap, world] at hcap ⊢
    obtain ⟨stack, Ψ, hs⟩ := h.heap (Library.size_releaseValues m.values.toList s.heap ▸ hcap)
    exact ⟨stack, _, hs.retire hm new.last⟩
  · rw [world]
    exact h.frames
  · obtain ⟨n, hn, hna⟩ := h.held j (List.mem_append_right _ hj)
    have hne : id ≠ j := fun e => new.unheld (e ▸ hj)
    rw [world]
    exact ⟨n, (Library.modules_put_ne hne).trans hn, hna⟩
  · rw [world] at hn
    rcases Library.modules_put hm hn with ⟨rfl, rfl⟩ | ⟨hne, hn⟩
    · cases hna
    · rcases List.mem_cons.1 (h.living j n hn hna) with e | hj
      · exact absurd e.symm hne
      · exact hj

/-! ### Requests that compile -/

/-- A function that runs a program. -/
structure Main (s : Session) (main : FunctionRef) : Prop where
  new : s.Newest main.module
  function : ∃ g bytes, s.world.library.function? main = some g ∧ g.body = .code bytes ∧
    Draft.frameTypes g.signature = []

/-- The module that is added for a program. -/
theorem Sound.addModule (h : s.Sound dead roots []) (hm : m.Blank) (references : ∀ r ∈ Library.references m, r ∈ s.held)
    (first : m.imports[0]? = some 0) :
    Sound dead roots [s.world.library.modules.size] { s with world := (s.world.addModule m).1 } := by
  have old : ∀ r ∈ Library.references m, r < s.world.library.modules.size ∧ (s.world.library.get r).alive := by
    intro r hr
    obtain ⟨n, hn, ha⟩ := h.held r (references r hr)
    exact ⟨(Array.getElem?_eq_some_iff.1 hn).1, by rwa [Library.get_eq hn]⟩
  refine ⟨h.consistent.add hm old first, fun hcap => ?_, h.frames, fun id hid => ?_, fun id n hn ha => ?_⟩
  · obtain ⟨stack, Ψ, hs⟩ := h.heap hcap
    exact ⟨stack, Ψ, hs.add hm h.consistent.dead⟩
  · rcases List.mem_cons.1 hid with rfl | hid
    · exact ⟨m, Library.modules_add_self, hm.alive⟩
    · obtain ⟨n, hn, ha⟩ := h.held id hid
      exact ⟨n, (Library.modules_add_lt (Array.getElem?_eq_some_iff.1 hn).1).trans hn, ha⟩
  · rcases Library.modules_add hn with ⟨rfl, -⟩ | ⟨-, hn⟩
    · exact .head _
    · exact .tail _ (h.living id n hn ha)

/-- What a compilation leaves. -/
theorem Sound.compiled {dead' : FunctionRef → Prop} {c : Compilation} (h : s.Sound dead roots loaded)
    (consistent : View.Consistent ⟨c.library, dead'⟩ fun _ => False)
    (heap : c.heap.cells.size ≤ Heap.capacity → s.world.machine.stack.bytes = [] ∧
      ∃ Ψ, View.Sound ⟨c.library, dead'⟩ Ψ c.heap roots)
    (count : c.library.modules.size = s.world.library.modules.size)
    (living : ∀ id, (c.library.get id).alive = (s.world.library.get id).alive) :
    Sound dead' roots loaded { s with world := s.world.compiled c } := by
  refine ⟨consistent, heap, h.frames, fun id hid => ?_, fun id n hn ha => ?_⟩
  · obtain ⟨n, hn, ha⟩ := h.held id hid
    have hlt : id < c.library.modules.size := count ▸ (Array.getElem?_eq_some_iff.1 hn).1
    have e := living id
    rw [Library.get_eq (Array.getElem?_eq_getElem hlt), Library.get_eq hn, ha] at e
    exact ⟨_, Array.getElem?_eq_getElem hlt, e⟩
  · have hlt : id < s.world.library.modules.size := count ▸ (Array.getElem?_eq_some_iff.1 hn).1
    have hn' : c.library.modules[id]? = some n := hn
    have e := living id
    rw [Library.get_eq hn', ha, Library.get_eq (Array.getElem?_eq_getElem hlt)] at e
    exact h.living id _ (Array.getElem?_eq_getElem hlt) e.symm

theorem compileInto_eq (s : Session) (m : Module) (p : Program) : s.compileInto m p =
    match (s.world.addModule m).1.compile s.world.library.modules.size s.invoke p with
    | (w, .ok main) => ({ s with world := w }, .ok ⟨s.world.library.modules.size, main⟩)
    | (w, .error e) => (Session.discard { s with world := w } s.world.library.modules.size, .error (.compile e)) :=
  rfl

/-- A program is compiled into a module of its own, which is given up if that fails. -/
theorem Sound.compileInto (h : s.Sound dead roots []) (hm : m.Blank) (references : ∀ r ∈ Library.references m, r ∈ s.held)
    (first : m.imports[0]? = some 0) (hp : p.isPlain) :
    (∃ w main, s.compileInto m p = ({ s with world := w }, .ok main) ∧
      Sound dead roots [main.module] { s with world := w } ∧ Main { s with world := w } main) ∨
    ∃ w e dead', s.compileInto m p = ({ s with world := w }, .error (.compile e)) ∧
      Sound dead' roots [] { s with world := w } := by
  have added := h.addModule hm references first
  have size : (s.world.addModule m).1.library.modules.size = s.world.library.modules.size + 1 := Array.size_push m
  have user : s.world.library.modules.size ≠ 0 := by
    have := (Array.getElem?_eq_some_iff.1 h.consistent.builtin).1
    exact Nat.ne_of_gt this
  have unheld : s.world.library.modules.size ∉ s.held := fun hid => by
    obtain ⟨n, hn, -⟩ := h.held _ hid
    exact Nat.lt_irrefl _ (Array.getElem?_eq_some_iff.1 hn).1
  have hm' : (s.world.addModule m).1.library.modules[s.world.library.modules.size]? = some m := Library.modules_add_self
  rw [compileInto_eq, World.compile_eq]
  generalize (s.world.addModule m).1 = w at *
  generalize s.world.library.modules.size = id at *
  have compile := (Compilation.outside_start roots added.consistent (fun hcap => (added.heap hcap).2) hm' hm.alive
    user).program s.invoke hp
  have idle {c : Compilation} (grown : ¬ w.machine.heap.cells.size ≤ Heap.capacity → ¬ c.heap.cells.size ≤ Heap.capacity)
      (hcap : c.heap.cells.size ≤ Heap.capacity) : w.machine.stack.bytes = [] :=
    (added.heap (Decidable.byContradiction fun h => grown h hcap)).1
  have outgrown (h : ¬ w.machine.heap.cells.size ≤ Heap.capacity) :
      Meets (Compile.program s.invoke p) (Compilation.start w id) (fun _ c => ¬ c.heap.cells.size ≤ Heap.capacity)
        fun _ c => ¬ c.heap.cells.size ≤ Heap.capacity := Compilation.outgrown added.consistent hm' hm.alive user hp h
  have new {c : Compilation} (count : c.library.modules.size = w.library.modules.size) :
      Newest { s with world := w.compiled c } id := ⟨(count.trans size).symm, user, unheld⟩
  cases hr : Compile.program s.invoke p (Compilation.start w id) with
  | ok main c =>
    obtain ⟨good, -, g, bytes, hg, hb, hframe⟩ := compile.of_ok hr
    refine .inl ⟨w.compiled c, ⟨id, main⟩, rfl, ?_, new good.count, g, bytes, hg, hb, hframe⟩
    exact added.compiled good.consistent (fun hcap => ⟨idle (fun h => (outgrown h).of_ok hr) hcap, good.heap hcap⟩)
      good.count good.living
  | error e c =>
    obtain ⟨⟨waits, consistent⟩, heap, count, living⟩ := compile.of_error hr
    have failed := added.compiled consistent.bury (fun hcap => ⟨idle (fun h => (outgrown h).of_error hr) hcap,
      (heap hcap).imp fun _ hs => hs.bury⟩) count living
    exact .inr ⟨_, e, _, rfl, failed.discard (new count)⟩

end Session

end StackScript
