import StackScript.Proofs.Finishing
import StackScript.Proofs.Histories
import StackScript.Proofs.WellFormed

/-!
Numbers keep their meaning. Whatever is asked of a session, and whether it succeeds or fails, all that its modules have
given a number stays what it was: functions, static values, types, imports, scopes and instances are only added.
-/
namespace StackScript

namespace Library

/-- All modules are kept. -/
def Upholds (l l' : Library) : Prop :=
  ∀ (id : Nat) (m : Module), l.modules[id]? = some m → ∃ n, l'.modules[id]? = some n ∧ m.Keeps n

variable {l l' l'' : Library} {m m' : Module} {id : Nat}

theorem Upholds.refl (l : Library) : l.Upholds l := fun _ m hm => ⟨m, hm, .refl m⟩

theorem Upholds.trans (h : l.Upholds l') (k : l'.Upholds l'') : l.Upholds l'' := fun id m hm => by
  obtain ⟨n, hn, keeps⟩ := h id m hm
  obtain ⟨p, hp, keeps'⟩ := k id n hn
  exact ⟨p, hp, keeps.trans keeps'⟩

theorem Upholds.size_le (h : l.Upholds l') : l.modules.size ≤ l'.modules.size := by
  refine Nat.le_of_not_lt fun fewer => ?_
  obtain ⟨n, hn, -⟩ := h l'.modules.size _ (Array.getElem?_eq_getElem fewer)
  exact Nat.lt_irrefl _ (Array.getElem?_eq_some_iff.1 hn).1

theorem upholds_add (l : Library) (m : Module) : l.Upholds (l.add m).1 := fun _ n hn =>
  ⟨n, (modules_add_lt (Array.getElem?_eq_some_iff.1 hn).1).trans hn, .refl n⟩

/-- A module that came later may change. -/
theorem Upholds.put (h : l.Upholds l') (later : l.modules.size ≤ id) (m : Module) : l.Upholds (l'.put id m) := fun j n hn => by
  have other : id ≠ j := fun e => Nat.not_lt.2 later (e ▸ (Array.getElem?_eq_some_iff.1 hn).1)
  rw [modules_put_ne other]
  exact h j n hn

theorem Upholds.grow (h : l.Upholds l') (g : l'.Grows l'' id) (later : l.modules.size ≤ id) : l.Upholds l'' := fun j m hm => by
  obtain ⟨n, hn, keeps⟩ := h j m hm
  obtain ⟨p, hp, -, -, grown⟩ := g.modules j n hn
  exact ⟨p, hp, keeps.trans (grown fun e => Nat.not_lt.2 later (e ▸ (Array.getElem?_eq_some_iff.1 hm).1))⟩

end Library

namespace Session

variable {s : Session} {l : Library} {id : Nat} {m : Module} {loaded : List Nat}

/-! ### What holds between requests -/

/-- The living modules are those that the session keeps, and those that are loaded. All modules refer to kept ones that
are older. -/
structure Orderly (loaded : List Nat) (s : Session) : Prop where
  idle : s.world.machine.frames = []
  instantiates : s.world.library.Instantiates
  held : ∀ id ∈ loaded ++ s.held, ∃ m, s.world.library.modules[id]? = some m ∧ m.alive
  living : ∀ (id : Nat) (m : Module), s.world.library.modules[id]? = some m → m.alive → id ∈ loaded ++ s.held
  smaller : ∀ (id : Nat) (m : Module), s.world.library.modules[id]? = some m → ∀ r ∈ Library.references m, r < id
  references : ∀ (id : Nat) (m : Module), s.world.library.modules[id]? = some m →
    ∀ r ∈ Library.references m, r ∈ s.held

/-- A module that is loaded and not kept is the last one. -/
structure Loaded (s : Session) (id : Nat) : Prop where
  last : id + 1 = s.world.library.modules.size
  unheld : id ∉ s.held

/-- The session between two requests, compared with a library that it started from. -/
structure Keeping (l : Library) (s : Session) : Prop where
  orderly : s.Orderly []
  upholds : l.Upholds s.world.library

/-- The same while a module is loaded. -/
structure Loading (l : Library) (s : Session) (id : Nat) : Prop where
  orderly : s.Orderly [id]
  loaded : s.Loaded id
  upholds : l.Upholds s.world.library
  later : l.modules.size ≤ id

theorem Orderly.relist {s' : Session} {loaded' : List Nat} (h : s.Orderly loaded) (world : s'.world = s.world)
    (same : ∀ id, id ∈ loaded' ++ s'.held ↔ id ∈ loaded ++ s.held) (kept : ∀ id ∈ s.held, id ∈ s'.held) :
    s'.Orderly loaded' := by
  refine ⟨world ▸ h.idle, world ▸ h.instantiates, fun id hid => ?_, fun id m hm ha => ?_, world ▸ h.smaller,
    fun id m hm r hr => ?_⟩
  · rw [world]
    exact h.held id ((same id).1 hid)
  · rw [world] at hm
    exact (same id).2 (h.living id m hm ha)
  · rw [world] at hm
    exact kept r (h.references id m hm r hr)

/-- Nothing refers to a module that is loaded, so it is retired as it is given up. -/
theorem Loading.retired (h : s.Loading l id) : ∃ m, s.world.library.modules[id]? = some m ∧
    (s.discard id).world = { library := s.world.library.put id m.retired
                             machine := { s.world.machine with
                               heap := Library.releaseValues m.values.toList s.world.machine.heap } } := by
  obtain ⟨m, hm, ha⟩ := h.orderly.held id (.head _)
  have unused : id ∉ s.world.library.allReferences := fun among => by
    obtain ⟨n, hn, hr⟩ := List.mem_flatMap.1 among
    obtain ⟨j, hj⟩ := List.mem_iff_getElem?.1 hn
    rw [Array.getElem?_toList] at hj
    have := h.orderly.smaller j n hj id hr
    have := (Array.getElem?_eq_some_iff.1 hj).1
    have := h.loaded.last
    omega
  refine ⟨m, hm, ?_⟩
  rw [Session.discard, World.drop_idle h.orderly.idle,
    Library.drop_unused _ hm ha unused h.loaded.unheld (h.orderly.references id m hm)]

/-- A module that was loaded is given up again. -/
theorem Loading.discard (h : s.Loading l id) : (s.discard id).Keeping l := by
  obtain ⟨m, hm, world⟩ := h.retired
  refine ⟨⟨?_, ?_, fun j hj => ?_, fun j n hn hna => ?_, fun j n hn => ?_, fun j n hn => ?_⟩, ?_⟩
  · rw [world]
    exact h.orderly.idle
  · rw [world]
    exact h.orderly.instantiates.put hm fun i hi => h.orderly.instantiates id m hm i hi
  · obtain ⟨n, hn, hna⟩ := h.orderly.held j (List.mem_append_right _ hj)
    refine ⟨n, ?_, hna⟩
    rw [world]
    exact (Library.modules_put_ne fun e : id = j => h.loaded.unheld (e ▸ hj)).trans hn
  · rw [world] at hn
    rcases Library.modules_put hm hn with ⟨rfl, rfl⟩ | ⟨other, hn⟩
    · cases hna
    · exact (List.mem_append.1 (h.orderly.living j n hn hna)).resolve_left fun among =>
        other (List.mem_singleton.1 among).symm
  · rw [world] at hn
    rcases Library.modules_put hm hn with ⟨rfl, rfl⟩ | ⟨-, hn⟩
    · exact nofun
    · exact h.orderly.smaller j n hn
  · rw [world] at hn
    rcases Library.modules_put hm hn with ⟨rfl, rfl⟩ | ⟨-, hn⟩
    · exact nofun
    · exact h.orderly.references j n hn
  · rw [world]
    exact h.upholds.put h.later _

/-! ### Compiling -/

theorem Keeping.addModule (h : s.Keeping l) (hm : m.Blank) (references : ∀ r ∈ Library.references m, r ∈ s.held) :
    Loading l { s with world := (s.world.addModule m).1 } s.world.library.modules.size := by
  have size : (s.world.library.add m).1.modules.size = s.world.library.modules.size + 1 := Array.size_push ..
  refine ⟨⟨h.orderly.idle, fun j n hn => ?_, fun j hj => ?_, fun j n hn ha => ?_, fun j n hn r hr => ?_, fun j n hn r hr => ?_⟩,
    ⟨size.symm, fun among => ?_⟩, h.upholds.trans (Library.upholds_add _ m), h.upholds.size_le⟩
  · rcases Library.modules_add hn with ⟨-, rfl⟩ | ⟨-, hn⟩
    · intro i hi
      rw [hm.instances] at hi
      cases hi
    · exact h.orderly.instantiates j n hn
  · rcases List.mem_append.1 hj with hj | hj
    · rw [List.mem_singleton.1 hj]
      exact ⟨m, Library.modules_add_self, hm.alive⟩
    · obtain ⟨n, hn, ha⟩ := h.orderly.held j hj
      exact ⟨n, (Library.modules_add_lt (Array.getElem?_eq_some_iff.1 hn).1).trans hn, ha⟩
  · rcases Library.modules_add hn with ⟨rfl, -⟩ | ⟨-, hn⟩
    · exact .head _
    · exact List.mem_append_right _ (h.orderly.living j n hn ha)
  · rcases Library.modules_add hn with ⟨rfl, rfl⟩ | ⟨-, hn⟩
    · obtain ⟨n, hn, -⟩ := h.orderly.held r (references r hr)
      exact (Array.getElem?_eq_some_iff.1 hn).1
    · exact h.orderly.smaller j n hn r hr
  · rcases Library.modules_add hn with ⟨-, rfl⟩ | ⟨-, hn⟩
    · exact references r hr
    · exact h.orderly.references j n hn r hr
  · obtain ⟨n, hn, -⟩ := h.orderly.held _ among
    exact Nat.lt_irrefl _ (Array.getElem?_eq_some_iff.1 hn).1

/-- All modules but the one that is compiled stay, whatever becomes of it. -/
theorem Loading.compiled (h : s.Loading l id) {c : Compilation} (hc : Compilation.Conserves s.world.library id c) :
    Loading l { s with world := s.world.compiled c } id := by
  have back (j : Nat) (n : Module) (hn : c.library.modules[j]? = some n) : ∃ m, s.world.library.modules[j]? = some m ∧
      n.alive = m.alive ∧ ∀ r ∈ Library.references n, r ∈ Library.references m := by
    have inside : j < s.world.library.modules.size := hc.grows.size ▸ (Array.getElem?_eq_some_iff.1 hn).1
    obtain ⟨p, hp, alive, references, -⟩ := hc.grows.modules j _ (Array.getElem?_eq_getElem inside)
    obtain rfl : n = p := Option.some.inj (hn.symm.trans hp)
    exact ⟨_, Array.getElem?_eq_getElem inside, alive, references⟩
  refine ⟨⟨h.orderly.idle, hc.instantiates, fun j hj => ?_, fun j n hn ha => ?_, fun j n hn r hr => ?_, fun j n hn r hr => ?_⟩,
    ⟨h.loaded.last.trans hc.grows.size.symm, h.loaded.unheld⟩, h.upholds.grow hc.grows h.later, h.later⟩
  · obtain ⟨m, hm, ha⟩ := h.orderly.held j hj
    obtain ⟨n, hn, alive, -, -⟩ := hc.grows.modules j m hm
    exact ⟨n, hn, alive.trans ha⟩
  · obtain ⟨m, hm, alive, -⟩ := back j n hn
    exact h.orderly.living j m hm (alive ▸ ha)
  · obtain ⟨m, hm, -, references⟩ := back j n hn
    exact h.orderly.smaller j m hm r (references r hr)
  · obtain ⟨m, hm, -, references⟩ := back j n hn
    exact h.orderly.references j m hm r (references r hr)

theorem finishes_program {w : World} (hi : w.library.Instantiates) (id : Nat) (invoke : Bool) (p : Program) :
    Meets (Compile.program invoke p) (Compilation.start w id) (fun _ d => Compilation.Finished w.library id d)
      fun e d => Compilation.Abandons w.library id e d :=
  Compilation.Idle.program (c := Compilation.start w id) hi
    ⟨⟨.refl _ _, hi, fun _ hf => .inr (.inr hf), fun _ _ other => absurd rfl other⟩, rfl, rfl, rfl⟩ invoke p

/-- A program is compiled into a module that stays loaded, or that is given up. -/
theorem Keeping.compileInto (h : s.Keeping l) (hm : m.Blank) (references : ∀ r ∈ Library.references m, r ∈ s.held)
    (p : Program) :
    (∃ w main, s.compileInto m p = ({ s with world := w }, .ok main) ∧ Loading l { s with world := w } main.module) ∨
      ∃ s' e, s.compileInto m p = (s', .error e) ∧ s'.Keeping l := by
  have added := h.addModule hm references
  have met := finishes_program added.orderly.instantiates s.world.library.modules.size s.invoke p
  rw [compileInto_eq, World.compile_eq]
  cases hr : Compile.program s.invoke p (Compilation.start (s.world.addModule m).1 s.world.library.modules.size) with
  | ok main c => exact .inl ⟨_, _, rfl, added.compiled (met.of_ok hr).toConserves⟩
  | error e c => exact .inr ⟨_, _, rfl, (added.compiled (met.of_error hr).toConserves).discard⟩

theorem Keeping.compile (h : s.Keeping l) (source : String) :
    (∃ w main, s.compile source = ({ s with world := w }, .ok main) ∧ Loading l { s with world := w } main.module) ∨
      ∃ s' e, s.compile source = (s', .error e) ∧ s'.Keeping l := by
  unfold Session.compile
  cases Program.read source with
  | error e => exact .inr ⟨s, e, rfl, h⟩
  | ok p => exact h.compileInto (inputModule_spec s).1 (inputModule_spec s).2.1 p

theorem mem_held_built {j : Nat} : j ∈ ({ s with built := s.built ++ [id] } : Session).held ↔ j ∈ [id] ++ s.held := by
  simp only [held, known, List.mem_append, List.mem_cons, List.not_mem_nil, or_false]
  grind

theorem Keeping.build (h : s.Keeping l) (name source : String) :
    (∃ w id, s.build name source = ({ s with world := w, built := s.built ++ [id] }, .ok id) ∧
      Keeping l { s with world := w, built := s.built ++ [id] }) ∨
      ∃ s' e, s.build name source = (s', .error e) ∧ s'.Keeping l := by
  unfold Session.build
  cases Program.read source with
  | error e => exact .inr ⟨s, e, rfl, h⟩
  | ok p =>
    rcases h.compileInto (builtModule_spec s name).1 (builtModule_spec s name).2.1 p with ⟨w, main, e, loading⟩ | ⟨s', f, e, hs⟩
    · simp only [e]
      refine .inl ⟨w, main.module, rfl, loading.orderly.relist rfl (fun j => ?_) fun j hj => ?_, loading.upholds⟩
      · exact mem_held_built
      · exact mem_held_built.2 (List.mem_append_right _ hj)
    · simp only [e]
      exact .inr ⟨s', f, rfl, hs⟩

/-! ### Running -/

theorem frames_evaluate (l : Library) (f : FunctionRef) (m : Machine) :
    Meets (Run.evaluate l f) m (fun _ n => n.frames = m.frames) fun _ _ => True := by
  refine meets_bind.2 ((Run.frames_call l f m).imp (fun _ n hn => ?_) fun _ _ _ => trivial)
  refine meets_bind.2 (((Run.Basic.lift _).stays n).imp (fun g p hp => ?_) fun _ _ _ => trivial)
  exact ((Run.Basic.pullValue _).stays p).imp (fun _ q hq => hq.frames.trans (hp.frames.trans hn)) fun _ _ _ => trivial

/-- Another machine, with no frames either. -/
theorem Loading.rerun (h : s.Loading l id) {n : Machine} (idle : n.frames = []) :
    Loading l { s with world := ⟨s.world.library, n⟩ } id :=
  ⟨⟨idle, h.orderly.instantiates, h.orderly.held, h.orderly.living, h.orderly.smaller, h.orderly.references⟩,
    ⟨h.loaded.last, h.loaded.unheld⟩, h.upholds, h.later⟩

/-- The module of an input is kept, with a name for its value. -/
theorem Loading.keep (h : s.Loading l id) (y : Value) : (s.keep id y).Keeping l := by
  obtain ⟨m, hm, ha⟩ := h.orderly.held id (.head _)
  have kept : ∀ j ∈ s.held, j ∈ (s.keep id y).held := fun j hj => mem_held_keep.2 (List.mem_append_right _ hj)
  have same : ∀ j, j ∈ [] ++ (s.keep id y).held ↔ j ∈ [id] ++ s.held := fun _ => mem_held_keep
  by_cases hy : y.isVoid
  · have world : (s.keep id y).world = s.world := by rw [keep_world hm, if_pos hy]
    exact ⟨h.orderly.relist world same kept, world ▸ h.upholds⟩
  · have world : (s.keep id y).world =
        { s.world with library := s.world.library.put id (bound m (resultName s.counter) y) } := by
      rw [keep_world hm, if_neg hy]
    have put : Orderly [id] { s with
        world := { s.world with library := s.world.library.put id (bound m (resultName s.counter) y) } } := by
      refine ⟨h.orderly.idle, h.orderly.instantiates.put hm fun i hi => h.orderly.instantiates id m hm i hi,
        fun j hj => ?_, fun j n hn hna => ?_, fun j n hn => ?_, fun j n hn => ?_⟩
      · obtain ⟨n, hn, hna⟩ := h.orderly.held j hj
        by_cases e : id = j
        · subst e
          exact ⟨_, Library.modules_put_self hm, ha⟩
        · exact ⟨n, (Library.modules_put_ne e).trans hn, hna⟩
      · rcases Library.modules_put hm hn with ⟨rfl, -⟩ | ⟨-, hn⟩
        · exact .head _
        · exact h.orderly.living j n hn hna
      · rcases Library.modules_put hm hn with ⟨rfl, rfl⟩ | ⟨-, hn⟩
        · exact h.orderly.smaller _ m hm
        · exact h.orderly.smaller j n hn
      · rcases Library.modules_put hm hn with ⟨rfl, rfl⟩ | ⟨-, hn⟩
        · exact h.orderly.references _ m hm
        · exact h.orderly.references j n hn
    exact ⟨put.relist world same kept, world ▸ h.upholds.put h.later _⟩

/-- The frames that a broken run leaves are dropped. What they refer to is kept or loaded. -/
theorem Loading.clear (h : s.Loading l id) (n : Machine) :
    (⟨s.world.library, n⟩ : World).clear (id :: s.held) = ⟨s.world.library, n.clear⟩ := by
  rw [World.clear, World.drop_idle (w := ⟨s.world.library, n.clear⟩) rfl, Library.drop_held]
  exact fun j _ m hm ha => h.orderly.living j m hm ha

theorem Loading.run {main : FunctionRef} (h : s.Loading l main.module) : (s.run main).1.Keeping l := by
  have frames := frames_evaluate s.world.library main s.world.machine
  rw [run_eq]
  cases hr : Run.evaluate s.world.library main s.world.machine with
  | ok y n => exact (h.rerun ((frames.of_ok hr).trans h.orderly.idle)).keep y
  | error fault n =>
    dsimp only
    rw [h.clear n]
    exact (h.rerun rfl).discard

/-! ### Histories -/

theorem Keeping.eval (h : s.Keeping l) (source : String) : (s.eval source).1.Keeping l := by
  unfold Session.eval
  rcases h.compile source with ⟨w, main, e, loading⟩ | ⟨s', f, e, hs⟩
  · rw [e]
    exact loading.run
  · rw [e]
    exact hs

theorem Keeping.addImport (h : s.Keeping l) (hid : id ∈ s.held) : (s.addImport id).Keeping l := by
  have held : ∀ j, j ∈ (s.addImport id).held ↔ j ∈ s.held := fun j => by
    rw [mem_held] at hid
    simp only [Session.addImport, mem_held, List.mem_append, List.mem_singleton]
    grind
  exact ⟨h.orderly.relist rfl held fun j hj => (held j).2 hj, h.upholds⟩

theorem Keeping.serve (h : s.Keeping l) (r : Request) : (s.serve r).1.Keeping l := by
  cases r with
  | eval source =>
    have evaluated := h.eval source
    simp only [Session.serve]
    generalize s.eval source = r at evaluated ⊢
    obtain ⟨s', e | v⟩ := r <;> exact evaluated
  | compile source =>
    unfold Session.serve
    rcases h.compile source with ⟨w, main, e, loading⟩ | ⟨s', f, e, hs⟩
    · simp only [e]
      exact loading.discard
    · simp only [e]
      exact hs
  | build name source imported =>
    unfold Session.serve
    rcases h.build name source with ⟨w, id, e, hs⟩ | ⟨s', f, e, hs⟩
    · simp only [e]
      cases imported with
      | false => exact hs
      | true => exact hs.addImport (mem_held.2 (by simp))
    · simp only [e]
      exact hs

theorem Keeping.serveAll (rs : List Request) : ∀ {s : Session}, s.Keeping l → (s.serveAll rs).1.Keeping l := by
  induction rs with
  | nil => exact fun h => h
  | cons r rs ih => exact fun h => ih (h.serve r)

/-- What was kept is kept. -/
theorem Keeping.kept {s' : Session} (h : s.Orderly []) (k : s'.Keeping s.world.library) (hid : id ∈ s.held) : id ∈ s'.held := by
  obtain ⟨m, hm, ha⟩ := h.held id hid
  obtain ⟨n, hn, keeps⟩ := k.upholds id m hm
  exact k.orderly.living id n hn (keeps.alive.trans ha)

variable {c : Config} {s₀ : Session} {source : String}

theorem start_none (first : start { c with std := none } = .ok s₀) (hstd : c.std = none) : start c = .ok s₀ := by
  cases c
  cases hstd
  exact first

/-- The standard library is built in a session without one. -/
theorem start_std (first : start { c with std := none } = .ok s₀) (hstd : c.std = some source) :
    start c = (s₀.build Prelude.name source).2.map fun id =>
      { (s₀.build Prelude.name source).1 with std := some id, built := [] } := by
  cases c
  cases hstd
  cases first
  unfold start
  dsimp only
  generalize build _ _ _ = r
  obtain ⟨t, f | id⟩ := r <;> rfl

/-- A session begins with the builtin module, and the standard library compiled after it. -/
theorem orderly_start (hs : start c = .ok s) : s.Orderly [] := by
  have first : Orderly [] { world := (({ machine := { stack := c.stack, limit := c.limit } } : World).addModule
                              Builtin.module).1
                            invoke := c.invoke } := by
    refine ⟨rfl, fun j m hm => ?_, fun j hj => ?_, fun j m hm _ => ?_, fun j m hm => ?_, fun j m hm => ?_⟩
    · rw [(View.modules_founded hm).2]
      exact fun _ h => by cases h
    · obtain rfl : j = 0 := by simpa [mem_held, builtin] using hj
      exact ⟨Builtin.module, rfl, Builtin.alive_module⟩
    · rw [(View.modules_founded hm).1]
      exact .head _
    · rw [(View.modules_founded hm).2, Builtin.references_module]
      exact fun _ h => by cases h
    · rw [(View.modules_founded hm).2, Builtin.references_module]
      exact fun _ h => by cases h
  unfold start at hs
  cases hstd : c.std with
  | none =>
    rw [hstd] at hs
    cases hs
    exact first
  | some source =>
    rw [hstd] at hs
    rcases Keeping.build ⟨first, .refl _⟩ Prelude.name source with ⟨w, id, e, built⟩ | ⟨s', f, e, -⟩
    · simp only [e] at hs
      cases hs
      refine built.orderly.relist rfl (fun j => ?_) fun j hj => ?_
      · simp only [List.nil_append, mem_held, List.mem_singleton, List.not_mem_nil]
        grind
      · simp only [mem_held, List.nil_append, List.mem_singleton, List.not_mem_nil] at hj ⊢
        grind
    · simp only [e] at hs
      cases hs

end Session

end StackScript
