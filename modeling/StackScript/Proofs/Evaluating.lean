import StackScript.Proofs.Sessions

/-!
Running compiled inputs. The value of an input that succeeds is bound in its module; what a run that is broken off
leaves behind is forgotten with the module.
-/
namespace StackScript

/-! ### Calls from outside -/

namespace Run

variable {l : Library}

/-- Calls a function without arguments and takes its result. -/
def evaluate (l : Library) (f : FunctionRef) : Run Value := do
  call l f
  let g ← lift (l.findFunction f)
  pullValue g.signature.effectiveResult

theorem Widens.evaluate (l : Library) (f : FunctionRef) : Widens (Run.evaluate l f) :=
  (Widens.call l f).bind fun _ => (Basic.lift _).stays.widens.bind fun _ => (Basic.pullValue _).stays.widens

/-- The value is read from the top of the stack. -/
theorem meets_pullValue_decode (t : Ty) (m : Machine) :
    Meets (pullValue t) m (fun y n => (∃ bs, Value.decode t bs = .ok y) ∧ n.frames = m.frames) fun _ _ => True := by
  refine .mk (fun y n e => ⟨?_, (((Basic.pullValue t).stays m).of_ok e).frames⟩) fun _ _ _ => trivial
  unfold pullValue onStack Stack.pullValue at e
  cases htop : m.stack.top t.size with
  | error f => simp [htop, bind, Except.bind] at e
  | ok bs =>
    cases hv : Value.decode t bs with
    | error f => simp [htop, hv, bind, Except.bind] at e
    | ok x =>
      simp only [htop, hv, bind, Except.bind, pure, Except.pure, EStateM.Result.ok.injEq] at e
      exact ⟨bs, e.1 ▸ hv⟩

/-- The result of a function is read as its signature says. -/
theorem evaluate_decode (l : Library) (f : FunctionRef) (m : Machine) :
    Meets (evaluate l f) m (fun y n => (∃ g bs, l.function? f = some g ∧ Value.decode g.signature.effectiveResult bs = .ok y) ∧
      n.frames = m.frames) fun _ _ => True := by
  refine (frames_call l f m).seq fun _ n hn => meets_bind.2 ?_
  cases hg : l.function? f with
  | some g =>
    refine meets_lift (Library.findFunction_eq hg) ((meets_pullValue_decode _ n).imp (fun y p h => ?_) fun _ _ h => h)
    obtain ⟨⟨bs, read⟩, frames⟩ := h
    exact ⟨⟨g, bs, rfl, read⟩, frames.trans hn⟩
  | none =>
    rw [Library.findFunction, hg]
    exact trivial

/-- It has a known type if its signature says so. -/
theorem evaluate_known {f : FunctionRef} {g : Function} (hg : l.function? f = some g)
    (known : g.signature.effectiveResult.Known) (m : Machine) :
    Meets (evaluate l f) m (fun y n => y.ty.Known ∧ n.frames = m.frames) fun _ _ => True := by
  refine (evaluate_decode l f m).imp (fun y n h => ⟨?_, h.2⟩) fun _ _ h => h
  obtain ⟨⟨g', bs, hg', read⟩, -⟩ := h
  obtain rfl := Option.some.inj (hg.symm.trans hg')
  exact Value.known_decode read known

end Run

namespace View

variable {v : View} {Ψ : Typing} {b : Nat} {ext : List Handle} {m : Machine} {f : FunctionRef} {g : Function}

/-- A function without arguments leaves nothing but its value, with the references in it. -/
theorem Holding.evaluate (hv : v.Fits) (callee : v.Callee b f [] g.signature.effectiveResult)
    (hg : v.library.function? f = some g) (h : v.Holding Ψ b [] ext [] [] m) :
    Meets (Run.evaluate v.library f) m
      (fun y n => n.heap.cells.size ≤ Heap.capacity → n.stack.bytes = [] ∧
        ∃ Ψ, v.Sound Ψ n.heap (y.handles ++ ext) ∧ Ψ.Describes b y) v.Broken := by
  refine (Holding.call hv callee h).seq fun _ n hn => ?_
  refine meets_bind.2 (meets_lift (Library.findFunction_eq hg) ?_)
  by_cases hcap : n.heap.cells.size ≤ Heap.capacity
  · obtain ⟨Ψ', xs, rs, ls, hm, lays, sound, -⟩ := hn hcap
    obtain rfl := lays.lent_eq_nil (Shape.settled_ofTy _)
    have hl : xs.length = g.signature.effectiveResult.size := by simpa using lays.length
    rw [← List.reverse_reverse xs] at lays
    obtain ⟨y, hy, hh, describes, -⟩ := lays.decode
    refine meets_pullValue hm hl hy fun p hp _ => ⟨hp.bytes, Ψ', ?_, describes⟩
    rw [hp.heap, hh]
    exact sound.perm ((List.reverse_perm rs).symm.append_right _)
  · exact ((Run.Basic.pullValue _).stays n).imp (fun _ p hp h => absurd (Nat.le_trans hp.size h) hcap)
      fun _ p hp h => absurd (Nat.le_trans hp.size h) hcap

end View

namespace Session

variable {dead : FunctionRef → Prop} {roots : List Handle} {s : Session} {main : FunctionRef} {m : Module} {w : World}
  {id : Nat} {y : Value}

theorem resultName_ne (n : Nat) : resultName n ≠ Plain.reserved := by
  intro e
  have := congrArg (fun s => s.toList.head?) e
  simp [resultName, Plain.reserved, Native.name] at this

/-! ### Keeping a value -/

/-- A module with a value that is bound to a name. -/
def bound (m : Module) (name : String) (y : Value) : Module := (m.addValue y).1.define name (.value m.values.size)

theorem keep_world (hm : s.world.library.modules[id]? = some m) (y : Value) :
    (s.keep id y).world =
      if y.isVoid then s.world
      else { s.world with library := s.world.library.put id (bound m (resultName s.counter) y) } := by
  unfold keep
  cases y.isVoid with
  | true => rfl
  | false => exact congrArg (fun l => (⟨l, s.world.machine⟩ : World)) (Library.modify_eq hm _)

theorem mem_held_keep {j : Nat} : j ∈ (s.keep id y).held ↔ j ∈ [id] ++ s.held := by
  simp only [held, known, keep, List.mem_append, List.mem_cons, List.not_mem_nil, or_false]
  grind

theorem handles_of_isVoid (h : y.isVoid) : y.handles = [] := by
  cases y <;> first | rfl | cases h

theorem sane_bound {name : String} (hm : m.Sane) (hn : name ≠ Plain.reserved) (known : y.ty.Known) :
    (bound m name y).Sane := (hm.addValue known).bind ScopeTable.root hn

theorem extends_bound (m : Module) (name : String) (y : Value) : m.Extends (bound m name y) :=
  (m.extends_addValue y).trans (Module.extends_scopes _ _)

/-- What becomes of a module that is kept. -/
structure Keeps (v : View) (roots : List Handle) (id : Nat) (m : Module) (y : Value) (m' : Module) : Prop where
  growth : m.Extends m'
  functions : m'.functions = m.functions
  sane : m'.Sane
  references : Library.references m' = Library.references m
  scopes : m.scopes.size ≤ m'.scopes.size
  sound : ∀ {Ψ h}, v.Sound Ψ h (y.handles ++ roots) → Ψ.Describes id y →
    View.Sound ⟨v.library.put id m', v.dead⟩ Ψ h roots

theorem keeps_void {v : View} (hm : v.library.modules[id]? = some m) (sane : m.Sane) (hy : y.isVoid) :
    Keeps v roots id m y m := by
  refine ⟨.refl m, rfl, sane, rfl, Nat.le_refl _, fun hs _ => ?_⟩
  rw [handles_of_isVoid hy] at hs
  exact hs.put hm (.refl m) (fun _ _ => rfl) rfl rfl

theorem keeps_bound {v : View} {name : String} (hm : v.library.modules[id]? = some m) (sane : m.Sane)
    (hn : name ≠ Plain.reserved) (known : y.ty.Known) : Keeps v roots id m y (bound m name y) := by
  refine ⟨extends_bound m name y, rfl, sane_bound sane hn known, rfl, ?_, fun hs hd => ?_⟩
  · exact Nat.le_of_eq (ScopeTable.size_bind ..).symm
  · have named := (hs.addValue hm hd).put (Library.modules_put_self hm)
      (Module.extends_scopes _ ((m.addValue y).1.scopes.bind ScopeTable.root name (.value m.values.size)))
      (fun _ _ => rfl) rfl rfl
    rwa [Library.put_put] at named

/-- A module that was loaded is kept with the value of its program, which shares its references with the binding. -/
theorem Sound.keep {roots' : List Handle} (h : s.Sound dead roots' [id]) (user : id ≠ 0) (known : y.ty.Known)
    (value : s.heap.cells.size ≤ Heap.capacity →
      ∃ Ψ, View.Sound ⟨s.world.library, dead⟩ Ψ s.heap (y.handles ++ roots) ∧ Ψ.Describes id y) :
    (s.keep id y).Sound dead roots [] := by
  obtain ⟨m, hm, ha⟩ := h.held id (.head _)
  have sane := (h.consistent.modules id m hm ha).sane
  obtain ⟨m', kept, world⟩ : ∃ m', Keeps ⟨s.world.library, dead⟩ roots id m y m' ∧
      (s.keep id y).world = { s.world with library := s.world.library.put id m' } := by
    rw [keep_world hm y]
    cases hv : y.isVoid with
    | true => exact ⟨m, keeps_void hm sane hv, by rw [if_pos rfl, Library.put_self hm]⟩
    | false => exact ⟨_, keeps_bound hm sane (resultName_ne s.counter) known, if_neg nofun⟩
  refine ⟨?_, fun hcap => ?_, ?_, fun j hj => ?_, fun j n hn hna => ?_⟩
  · rw [world]
    exact h.consistent.put_same hm ha user kept.growth kept.functions kept.sane (fun r hr => kept.references ▸ hr)
      kept.scopes
  · rw [Session.heap, world] at hcap ⊢
    obtain ⟨Ψ, hs, hd⟩ := value hcap
    exact ⟨(h.heap hcap).1, Ψ, kept.sound hs hd⟩
  · rw [world]
    exact h.frames
  · rw [world]
    obtain ⟨n, hn, hna⟩ := h.held j (mem_held_keep.1 hj)
    by_cases e : id = j
    · subst e
      exact ⟨m', Library.modules_put_self hm, kept.growth.alive ha⟩
    · exact ⟨n, (Library.modules_put_ne e).trans hn, hna⟩
  · rw [world] at hn
    refine mem_held_keep.2 ?_
    rcases Library.modules_put hm hn with ⟨rfl, -⟩ | ⟨-, hn⟩
    · exact .head _
    · exact h.living j n hn hna

/-! ### Running -/

theorem run_eq (s : Session) (main : FunctionRef) :
    s.run main = match Run.evaluate s.world.library main s.world.machine with
      | .ok y n => (keep { s with world := ⟨s.world.library, n⟩ } main.module y, .ok y)
      | .error fault n => (discard { s with world := (⟨s.world.library, n⟩ : World).clear (main.module :: s.held) }
          main.module, .error (.run fault)) := by
  have apply : s.world.apply main [] = s.world.run fun l => Run.evaluate l main := rfl
  rw [run, apply, World.run]
  cases Run.evaluate s.world.library main s.world.machine <;> rfl

/-- The function that runs a program can be called, and has a result of a known type. -/
theorem Main.callee (h : s.Sound dead roots loaded) (hm : s.Main main) (ha : main.module ∈ loaded) :
    ∃ g, s.world.library.function? main = some g ∧ g.signature.effectiveResult.Known ∧
      View.Callee ⟨s.world.library, dead⟩ main.module main [] g.signature.effectiveResult := by
  obtain ⟨g, bytes, hg, hb, hframe⟩ := hm.function
  obtain ⟨m, hmod, halive⟩ := h.held main.module (List.mem_append_left _ ha)
  have lawful := (h.consistent.modules _ m hmod halive).functions main.index g
    ((Library.function?_of_module hmod).symm.trans hg)
  have callee := lawful.callee (b := main.module) hg (by rwa [Library.get_eq hmod]) (by rw [hb]; rfl) (Nat.le_refl _)
  rw [hframe] at callee
  exact ⟨g, hg, lawful.result, callee⟩

/-- What a run that was broken off leaves is forgotten. -/
theorem Sound.brokenOff {roots' : List Handle} {n : Machine} (h : s.Sound dead roots [id]) (new : s.Newest id)
    (heap : n.heap.cells.size ≤ Heap.capacity → ∃ Ψ, View.Sound ⟨s.world.library, dead⟩ Ψ n.heap roots') :
    Sound dead roots' []
      (Session.discard { s with world := (⟨s.world.library, n⟩ : World).clear (id :: s.held) } id) := by
  have held : s.world.library.drop n.heap (id :: s.held) (World.framed ⟨s.world.library, n⟩) = (s.world.library, n.heap) :=
    Library.drop_held s.world.library n.heap fun j _ m hm ha => h.living j m hm ha
  have clear : (⟨s.world.library, n⟩ : World).clear (id :: s.held) = ⟨s.world.library, n.clear⟩ := by
    unfold World.clear
    rw [World.drop_idle rfl]
    exact congrArg (fun x : Library × Heap => (⟨x.1, { n.clear with heap := x.2 }⟩ : World)) held
  rw [clear]
  have cleared : Sound dead roots' [id] { s with world := ⟨s.world.library, n.clear⟩ } :=
    ⟨h.consistent, fun hcap => ⟨rfl, heap hcap⟩, rfl, h.held, h.living⟩
  exact cleared.discard ⟨new.last, new.user, new.unheld⟩

/-- No cells go with the module of a run that was broken off. -/
theorem size_brokenOff (s : Session) (w : World) (held : List Nat) (id : Nat) :
    (Session.discard { s with world := w.clear held } id).heap.cells.size = w.machine.heap.cells.size :=
  (World.size_drop ..).trans (World.size_drop ..)

/-- The faults that a typed program may end with, in a library where the given functions stay undefined. -/
def Faults (dead : FunctionRef → Prop) : Fault → Prop
  | .indexOutOfBounds _ _ | .divisionByZero | .stackOverflow _ | .aborted _ | .exponentOutOfRange _ => True
  | .notCallable _ _ => ∃ f, dead f
  | _ => False

theorem faults_of_allows {l : Library} {e : Fault} (h : View.Consistent ⟨l, dead⟩ fun _ => False)
    (he : View.Allows ⟨l, dead⟩ e) : Faults dead e := by
  cases e
  case notCallable =>
    obtain ⟨f, g, ha, hg, hu⟩ := he
    exact ⟨f, ((h.lawful hg ha).undefined hu).resolve_left id⟩
  all_goals exact he

/-- The function of a program gives a value, or breaks off. -/
theorem Sound.evaluate (h : s.Sound dead roots [main.module]) (hm : s.Main main) (hcap : s.heap.cells.size ≤ Heap.capacity) :
    Meets (Run.evaluate s.world.library main) s.world.machine
      (fun y n => n.heap.cells.size ≤ Heap.capacity → n.stack.bytes = [] ∧
        ∃ Ψ, View.Sound ⟨s.world.library, dead⟩ Ψ n.heap (y.handles ++ roots) ∧ Ψ.Describes main.module y)
      (View.Broken ⟨s.world.library, dead⟩) := by
  obtain ⟨g, hg, -, callee⟩ := hm.callee h (.head _)
  obtain ⟨empty, Ψ, hs⟩ := h.heap hcap
  exact View.Holding.evaluate (v := ⟨s.world.library, dead⟩) h.consistent.fits callee hg
    ⟨[], [], [], ⟨empty, h.frames, rfl⟩, .nil, hs, nofun⟩

/-- A program that was compiled is run. Its value is kept; if the run is broken off, what it held stays behind. -/
theorem Sound.run (h : s.Sound dead roots [main.module]) (hm : s.Main main) :
    (∃ y, (s.run main).2 = .ok y ∧ (s.run main).1.Sound dead roots []) ∨
    ∃ e roots', (s.run main).2 = .error (.run e) ∧ (s.run main).1.Sound dead roots' [] ∧
      ((s.run main).1.heap.cells.size ≤ Heap.capacity → Faults dead e) := by
  obtain ⟨g, hg, known, -⟩ := hm.callee h (.head _)
  have widens := Run.Widens.evaluate s.world.library main s.world.machine
  have result := Run.evaluate_known hg known s.world.machine
  have evaluate := h.evaluate hm
  rw [run_eq]
  cases hr : Run.evaluate s.world.library main s.world.machine with
  | ok y n =>
    have size := widens.of_ok hr
    obtain ⟨hy, hframes⟩ := result.of_ok hr
    have value (hcap : n.heap.cells.size ≤ Heap.capacity) :=
      (evaluate (Nat.le_trans size hcap)).of_ok hr hcap
    refine .inl ⟨y, rfl, ?_⟩
    have ran : Sound dead (y.handles ++ roots) [main.module] { s with world := ⟨s.world.library, n⟩ } :=
      ⟨h.consistent, fun hcap => ⟨(value hcap).1, (value hcap).2.imp fun _ hs => hs.1⟩, hframes.trans h.frames, h.held,
        h.living⟩
    exact ran.keep hm.new.user hy fun hcap => (value hcap).2
  | error e n =>
    have size := widens.of_error hr
    have broken (hcap : n.heap.cells.size ≤ Heap.capacity) :=
      (evaluate (Nat.le_trans size hcap)).of_error hr hcap
    have left : ∃ roots', n.heap.cells.size ≤ Heap.capacity →
        ∃ Ψ, View.Sound ⟨s.world.library, dead⟩ Ψ n.heap roots' := by
      by_cases hcap : n.heap.cells.size ≤ Heap.capacity
      · obtain ⟨-, Ψ, roots', hs⟩ := broken hcap
        exact ⟨roots', fun _ => ⟨Ψ, hs⟩⟩
      · exact ⟨[], fun h => absurd h hcap⟩
    obtain ⟨roots', heap⟩ := left
    refine .inr ⟨e, roots', rfl, h.brokenOff hm.new heap, fun hcap => faults_of_allows h.consistent (broken ?_).1⟩
    refine Nat.le_trans (Nat.le_of_eq ?_) hcap
    exact (size_brokenOff s ⟨s.world.library, n⟩ (main.module :: s.held) main.module).symm

end Session

end StackScript
