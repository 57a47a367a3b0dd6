import StackScript.Proofs.Entering
import StackScript.Proofs.Persistence

/-!
Whether everything is written that can be called. A request leaves a function without code only in a module that is given up
with it, or if the body of an instance does not compile.
-/
namespace StackScript

/-- The failure may be one of the body of an instance. -/
def Failure.ofInstance : Failure → Bool
  | .compile e => e.isInstantiation
  | _ => false

namespace Library

variable {l l' : Library} {m m' : Module} {id k : Nat} {f : FunctionRef}

theorem undefined_put (hm : l.modules[id]? = some m) (functions : m'.functions = m.functions) (h : (l.put id m').Undefined f) :
    l.Undefined f := by
  rcases Undefined.of_put hm h with h | ⟨rfl, g, hg, hb⟩
  · exact h
  · rw [functions] at hg
    exact ⟨g, (function?_of_module hm).trans hg, hb⟩

theorem Grows.lives_iff (h : l.Grows l' k) : l'.Lives f ↔ l.Lives f := by
  unfold Lives
  cases hm : l.modules[f.module]? with
  | none =>
    have hm' : l'.modules[f.module]? = none := by
      rw [Array.getElem?_eq_none_iff] at hm ⊢
      rwa [h.size]
    rw [get_none hm, get_none hm']
  | some m =>
    obtain ⟨n, hn, alive, -⟩ := h.modules f.module m hm
    rw [get_eq hm, get_eq hn, alive]

theorem Written.add (h : l.Written) (hm : m.functions = #[]) : (l.add m).1.Written := fun f hf lives => by
  obtain ⟨g, hg, hb⟩ := hf
  obtain ⟨n, hn, hi⟩ := exists_module hg
  rcases modules_add hn with ⟨-, rfl⟩ | ⟨-, hn⟩
  · rw [hm] at hi
    cases hi
  · refine h f ⟨g, (function?_of_module hn).trans hi, hb⟩ ?_
    unfold Lives at lives ⊢
    rwa [get_add_lt (Array.getElem?_eq_some_iff.1 hn).1] at lives

/-- A change that leaves the functions of a module that goes on living. -/
theorem Written.put (h : l.Written) (hm : l.modules[id]? = some m) (functions : m'.functions = m.functions)
    (alive : m'.alive = m.alive) : (l.put id m').Written := fun f hf lives => by
  refine h f (undefined_put hm functions hf) ?_
  unfold Lives at lives ⊢
  by_cases e : id = f.module
  · subst e
    rw [get_put_self hm, alive] at lives
    rwa [get_eq hm]
  · rwa [get_put_ne e] at lives

/-- What is left unwritten in a module is given up with it. -/
theorem written_retire (h : ∀ f, l.Undefined f → l.Lives f → f.module = id) (hm : l.modules[id]? = some m) :
    (l.put id m.retired).Written := fun f hf lives => by
  have same : m.retired.functions = m.functions := rfl
  unfold Lives at lives
  by_cases e : id = f.module
  · subst e
    rw [get_put_self hm] at lives
    cases lives
  · rw [get_put_ne e] at lives
    exact e (h f (undefined_put hm same hf) lives).symm

end Library

namespace Session

variable {s : Session} {l : Library} {m : Module} {p : Program} {main : FunctionRef} {id : Nat}

/-- All functions of the living modules are written. -/
def Written (s : Session) : Prop := s.world.library.Written

theorem Written.discard (h : s.Loading l id) (left : ∀ f, s.world.library.Undefined f → s.world.library.Lives f → f.module = id) :
    (s.discard id).Written := by
  obtain ⟨m, hm, world⟩ := h.retired
  rw [Written, world]
  exact Library.written_retire left hm

theorem Written.compileInto (written : s.Written) (h : s.Keeping l) (hm : m.Blank)
    (references : ∀ r ∈ Library.references m, r ∈ s.held)
    (whole : ∀ e, (s.compileInto m p).2 = .error e → e.ofInstance = false) : (s.compileInto m p).1.Written := by
  have added := h.addModule hm references
  have before : (s.world.addModule m).1.library.Written := Library.Written.add written hm.functions
  have met := finishes_program added.orderly.instantiates s.world.library.modules.size s.invoke p
  rw [compileInto_eq, World.compile_eq] at whole ⊢
  cases hr : Compile.program s.invoke p (Compilation.start (s.world.addModule m).1 s.world.library.modules.size) with
  | ok main c =>
    have done := met.of_ok hr
    exact fun f hf lives => before f (done.undefined f hf) (done.grows.lives_iff.1 lives)
  | error e c =>
    rw [hr] at whole
    have left := met.of_error hr
    refine Written.discard (added.compiled left.toConserves) fun f hf lives => ?_
    have undefined := left.undefined.resolve_left (Bool.eq_false_iff.1 (whole _ rfl))
    exact (undefined f hf).resolve_left fun old => before f old (left.grows.lives_iff.1 lives)

theorem Written.compile (written : s.Written) (h : s.Keeping l) (source : String)
    (whole : ∀ e, (s.compile source).2 = .error e → e.ofInstance = false) : (s.compile source).1.Written := by
  unfold Session.compile at whole ⊢
  cases hp : Program.read source with
  | error e => exact written
  | ok p =>
    rw [hp] at whole
    exact written.compileInto h (inputModule_spec s).1 (inputModule_spec s).2.1 whole

theorem Written.build (written : s.Written) (h : s.Keeping l) (name source : String)
    (whole : ∀ e, (s.build name source).2 = .error e → e.ofInstance = false) : (s.build name source).1.Written := by
  unfold Session.build at whole ⊢
  cases hp : Program.read source with
  | error e => exact written
  | ok p =>
    rw [hp] at whole
    have compiled := written.compileInto (p := p) h (builtModule_spec s name).1 (builtModule_spec s name).2.1
    dsimp only at whole ⊢
    generalize s.compileInto _ p = r at whole compiled ⊢
    obtain ⟨s', e | main⟩ := r
    · exact compiled fun f hf => whole f (congrArg Except.error (Except.error.inj hf))
    · exact compiled nofun

theorem Written.keep (written : s.Written) (h : s.Loading l id) (y : Value) : (s.keep id y).Written := by
  obtain ⟨m, hm, -⟩ := h.orderly.held id (.head _)
  rw [Written, keep_world hm]
  split
  · exact written
  · exact Library.Written.put written hm rfl rfl

theorem Written.run (written : s.Written) (h : s.Loading l main.module) : (s.run main).1.Written := by
  have frames := frames_evaluate s.world.library main s.world.machine
  rw [run_eq]
  cases hr : Run.evaluate s.world.library main s.world.machine with
  | ok y n =>
    have kept := h.rerun ((frames.of_ok hr).trans h.orderly.idle)
    exact Written.keep (s := { s with world := ⟨s.world.library, n⟩ }) written kept y
  | error fault n =>
    dsimp only
    rw [h.clear n]
    exact Written.discard (h.rerun rfl) fun f hf lives => absurd lives (written f hf)

theorem Written.eval (written : s.Written) (h : s.Keeping l) (source : String)
    (whole : ∀ e, (s.eval source).2 = .error e → e.ofInstance = false) : (s.eval source).1.Written := by
  have compiled := written.compile h source
  unfold Session.eval at whole ⊢
  rcases h.compile source with ⟨w, main, e, loading⟩ | ⟨s', f, e, -⟩
  · rw [e] at compiled ⊢
    exact (compiled nofun).run loading
  · rw [e] at compiled whole ⊢
    exact compiled fun f' hf => whole f' (congrArg Except.error (Except.error.inj hf))

/-- A request that no instance fails in leaves nothing unwritten in what lives. -/
theorem Written.serve (written : s.Written) (h : s.Keeping l) (r : Request)
    (whole : ∀ e ∈ (s.serve r).2, e.ofInstance = false) : (s.serve r).1.Written := by
  cases r with
  | eval source =>
    have evaluated := written.eval h source
    unfold Session.serve at whole ⊢
    dsimp only at whole ⊢
    generalize s.eval source = r at evaluated whole ⊢
    obtain ⟨s', e | v⟩ := r
    · exact evaluated fun f hf => whole f (by rw [Except.error.inj hf]; rfl)
    · exact evaluated nofun
  | compile source =>
    have compiled := written.compile h source
    unfold Session.serve at whole ⊢
    rcases h.compile source with ⟨w, main, e, loading⟩ | ⟨s', f, e, -⟩
    · simp only [e] at compiled ⊢
      exact Written.discard loading fun f hf lives => absurd lives (compiled nofun f hf)
    · simp only [e] at compiled whole ⊢
      exact compiled fun f' hf => whole f' (by rw [Except.error.inj hf]; rfl)
  | build name source imported =>
    have built := written.build h name source
    unfold Session.serve at whole ⊢
    dsimp only at whole ⊢
    generalize s.build name source = r at built whole ⊢
    obtain ⟨s', e | id⟩ := r
    · exact built fun f hf => whole f (by rw [Except.error.inj hf]; rfl)
    · cases imported <;> exact built nofun

theorem Written.serveAll (rs : List Request) : ∀ {s : Session}, s.Written → s.Keeping l →
    (∀ e ∈ (s.serveAll rs).2, e.ofInstance = false) → (s.serveAll rs).1.Written := by
  induction rs with
  | nil => exact fun written _ _ => written
  | cons r rs ih =>
    intro s written h whole
    have among : ∀ e ∈ (s.serve r).2.toList ++ ((s.serve r).1.serveAll rs).2, e.ofInstance = false := whole
    obtain ⟨first, rest⟩ := List.forall_mem_append.1 among
    exact ih (written.serve h r fun e he => first e (Option.mem_toList.2 he)) (h.serve r) rest

/-- The builtin module has no function to be written, and the standard library was compiled. -/
theorem written_start {c : Config} (hs : start c = .ok s) : s.Written := by
  obtain ⟨s₀, first⟩ : ∃ s₀, start { c with std := none } = .ok s₀ := ⟨_, rfl⟩
  have founded : s₀.Written := by
    cases first
    rintro f ⟨g, hg, hb⟩ -
    obtain ⟨m, hm, hi⟩ := Library.exists_module hg
    obtain ⟨-, rfl⟩ := View.modules_founded hm
    rcases Builtin.mem_functions (Builtin.mem_module hi) with ⟨op, -, rfl⟩ | ⟨n, rfl⟩ <;> cases hb
  cases hstd : c.std with
  | none =>
    rw [start_none first hstd] at hs
    cases hs
    exact founded
  | some source =>
    have built : (∀ e, (s₀.build Prelude.name source).2 = .error e → e.ofInstance = false) →
        (s₀.build Prelude.name source).1.Written := founded.build ⟨orderly_start first, .refl _⟩ Prelude.name source
    rw [start_std first hstd] at hs
    generalize s₀.build Prelude.name source = r at built hs
    obtain ⟨t, e | id⟩ := r
    · cases hs
    · cases hs
      exact built nofun

/-! ### What can be called -/

/-- Living modules import modules that are kept. -/
theorem Written.complete {loaded : List Nat} (written : s.Written) (h : s.Orderly loaded) : s.world.library.Complete := by
  refine ⟨written, fun id _ r hr => ?_⟩
  cases hm : s.world.library.modules[id]? with
  | none =>
    rw [Library.get_none hm] at hr
    simp [default, instInhabitedModule.default] at hr
  | some m =>
    rw [Library.get_eq hm] at hr
    have among : r ∈ Library.references m := List.mem_append_left _ (Array.mem_toList_iff.2 hr)
    obtain ⟨n, hn, alive⟩ := h.held r (List.mem_append_right _ (h.references id m hm r among))
    rwa [Library.get_eq hn]

/-- In a history in which the body of no instance fails to compile, whatever else fails, all instances are written and lead to
written functions only. So no input that compiles calls one that is not. -/
theorem instances_complete {c : Config} {s t : Session} {rs : List Request} {es : List Failure} (started : start c = .ok s)
    (served : s.serveAll rs = (t, es)) (whole : ∀ e ∈ es, e.ofInstance = false) :
    (∀ id ∈ t.held, ∀ generic args i, (t.getModule id).findInstance? generic args = some i →
      (∃ g bytes, t.world.library.function? ⟨id, i⟩ = some g ∧ g.body = .code bytes) ∧
      ∀ f, t.world.library.Leads ⟨id, i⟩ f → ¬ t.world.library.Undefined f) ∧
    ∀ source name, (t.eval source).2 ≠ .error (.run (.notCallable Body.undefined.kind name)) := by
  have keeping : s.Keeping s.world.library := ⟨orderly_start started, .refl _⟩
  have written : (s.serveAll rs).1.Written := (written_start started).serveAll rs keeping (by rwa [served])
  have kept := keeping.serveAll rs
  rw [served] at written kept
  have complete := written.complete kept.orderly
  refine ⟨fun id hid generic args i found => ?_, fun source name failed => ?_⟩
  · obtain ⟨m, hm, alive⟩ := kept.orderly.held id hid
    have lives : t.world.library.Lives ⟨id, i⟩ := by rwa [Library.Lives, Library.get_eq hm]
    rw [getModule, Library.get_eq hm] at found
    obtain ⟨j, hj, rfl⟩ := Option.map_eq_some_iff.1 found
    obtain ⟨g, hg, body⟩ := kept.orderly.instantiates id m hm j (List.mem_of_find?_eq_some hj)
    have function : t.world.library.function? ⟨id, j.function⟩ = some g := (Library.function?_of_module hm).trans hg
    refine ⟨⟨g, ?_⟩, fun f leads undefined => written f undefined (complete.leads lives leads)⟩
    obtain ⟨bytes, code⟩ := body.resolve_left (complete.body lives function)
    exact ⟨bytes, function, code⟩
  · have compiled : (∀ e, (t.compile source).2 = .error e → e.ofInstance = false) → (t.compile source).1.Written :=
      written.compile kept source
    unfold Session.eval at failed
    rcases kept.compile source with ⟨w, main, e, loading⟩ | ⟨t', f, e, -⟩
    · rw [e] at failed compiled
      obtain ⟨m, hm, alive⟩ := loading.orderly.held main.module (.head _)
      have complete : w.library.Complete := Written.complete (compiled nofun) loading.orderly
      have lives : w.library.Lives main := by rwa [Library.Lives, Library.get_eq hm]
      have idle : w.machine.Returns w.library := by
        intro frame hf
        rw [show w.machine.frames = [] from loading.orderly.idle] at hf
        cases hf
      have survives := Run.Survives.evaluate complete lives w.machine idle
      dsimp only at failed
      rw [run_eq] at failed
      dsimp only at failed
      cases hr : Run.evaluate w.library main w.machine with
      | ok y n =>
        rw [hr] at failed
        cases failed
      | error fault n =>
        rw [hr] at failed
        cases failed
        cases survives.of_error hr
    · rw [e] at failed
      exact compile_not_run e _ (Except.error.inj failed)

/-- Two generic functions that call each other: `g` takes all types, `f` takes numbers only. -/
def circling : Request :=
  .eval ("fn f(x, n: Int) -> Int \x7b g(x, n); x + 1 \x7d " ++
    "fn g(x, n: Int) -> Int \x7b if n == 0 \x7b 0 \x7d else \x7b f(x, n - 1) \x7d \x7d")

/-- Instances that compile, an input that does not and a run that is broken off. -/
theorem instances_complete_circling :
    ∃ t es, bare.serveAll [circling, .eval "f(3, 1)", .eval "1 + true", .eval "1 / 0"] = (t, es) ∧ es.length = 2 ∧
      (∀ f, t.world.library.Leads ⟨1, 3⟩ f → ¬ t.world.library.Undefined f) ∧
      ∀ source name, (t.eval source).2 ≠ .error (.run (.notCallable Body.undefined.kind name)) := by
  have facts : let r := bare.serveAll [circling, .eval "f(3, 1)", .eval "1 + true", .eval "1 / 0"]
      r.2.length = 2 ∧ r.2.all (fun e => !e.ofInstance) = true ∧ 1 ∈ r.1.held ∧
        (r.1.getModule 1).findInstance? 0 [.int32, .int32] = some 3 := by decide +kernel
  generalize hr : bare.serveAll [circling, .eval "f(3, 1)", .eval "1 + true", .eval "1 / 0"] = r at facts
  obtain ⟨t, es⟩ := r
  obtain ⟨failures, whole, held, found⟩ := facts
  have complete := instances_complete start_bare hr fun e he => by simpa using List.all_eq_true.1 whole e he
  exact ⟨t, es, rfl, failures, (complete.1 1 held 0 _ 3 found).2, complete.2⟩

/-- An instance that compiled against one that then fails stays where later inputs find it, and calls what was given up. -/
theorem instance_outlives_failed_one :
    let t := (bare.serveAll [circling, .eval "f(\"a\", 1)"]).1
    (t.getModule 1).findInstance? 1 [.string, .int32] = some 4 ∧
      faultOf (t.eval "g(\"a\", 1)").2 = some (.notCallable Body.undefined.kind "f<String, Int32>") := by
  decide +kernel

end Session

end StackScript
