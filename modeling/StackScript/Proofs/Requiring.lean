import StackScript.Proofs.Completing
import StackScript.Proofs.Staffing

/-!
What inputs import. The module of an input imports the builtin module, and each other one because its code calls a function
there. A failure leaves an import without a call only with a module that is given up, or if the body of an instance does not
compile.
-/
namespace StackScript

/-- A module imports the builtin module, and others, each once. What else it imports its code calls into, if that is sure. -/
structure Module.Thrifty (sure : Prop) (m : Module) : Prop where
  first : m.imports[0]? = some Session.builtin
  distinct : m.imports.toList.Nodup
  called : sure → ∀ i, i ≠ 0 → i < m.imports.size → m.Employs i

theorem Module.Thrifty.recruits {sure : Prop} {m n : Module} {owed : Nat → Prop} (h : m.Thrifty sure) (on : m.Recruits n owed)
    (paid : sure → ∀ i, ¬ owed i) : n.Thrifty sure := by
  refine ⟨on.imports 0 _ h.first, on.distinct h.distinct, fun hs i hi new => ?_⟩
  by_cases old : i < m.imports.size
  · exact on.employs i (h.called hs i hi old)
  · exact (on.recruits i hi (Nat.not_lt.1 old) new).resolve_right (paid hs i)

namespace Library

/-- No module imports another one twice, and some are thrifty. -/
structure Thrifty (sure : Prop) (l : Library) (ids : List Nat) : Prop where
  distinct : ∀ id, (l.get id).imports.toList.Nodup
  inputs : ∀ id ∈ ids, (l.get id).Thrifty sure

variable {sure : Prop} {l l' : Library} {ids : List Nat} {id : Nat} {m n : Module} {owed : Nat → Nat → Prop}

/-- Where no module is, nothing is imported. -/
theorem distinct_get (h : ∀ m, l.modules[id]? = some m → m.imports.toList.Nodup) : (l.get id).imports.toList.Nodup := by
  cases hm : l.modules[id]? with
  | none =>
    rw [get_none hm]
    exact List.nodup_nil
  | some m =>
    rw [get_eq hm]
    exact h m hm

theorem Formed.inlines (h : l.Formed) : l.Inlines := fun id g hg op hop => by
  cases hm : l.modules[id]? with
  | none =>
    rw [get_none hm] at hg
    cases Array.not_mem_empty g hg
  | some m =>
    rw [get_eq hm] at hg
    have admits := h id m hm g hg
    rwa [hop] at admits

theorem Thrifty.recruits (h : l.Thrifty sure ids) (on : ∀ id, (l.get id).Recruits (l'.get id) (owed id))
    (paid : sure → ∀ id ∈ ids, ∀ i, ¬ owed id i) : l'.Thrifty sure ids :=
  ⟨fun id => (on id).distinct (h.distinct id), fun id hid => (h.inputs id hid).recruits (on id) fun hs => paid hs id hid⟩

/-- A module is changed, but for its imports and its code. -/
theorem Thrifty.put (h : l.Thrifty sure ids) (hm : l.modules[id]? = some m) (imports : n.imports = m.imports)
    (functions : n.functions = m.functions) : (l.put id n).Thrifty sure ids :=
  have on : m.Recruits n fun _ => False := Module.recruits_of_eq imports functions
  h.recruits (fun j => recruits_put hm on j fun _ _ _ => False.elim) fun _ _ _ _ => not_false

theorem Thrifty.add (h : l.Thrifty sure ids) (inside : ∀ id ∈ ids, id < l.modules.size) (distinct : m.imports.toList.Nodup) :
    (l.add m).1.Thrifty sure ids := by
  refine ⟨fun id => distinct_get fun n hn => ?_, fun id hid => ?_⟩
  · rcases modules_add hn with ⟨-, rfl⟩ | ⟨-, hn⟩
    · exact distinct
    · exact get_eq hn ▸ h.distinct id
  · rw [get_add_lt (inside id hid)]
    exact h.inputs id hid

theorem Thrifty.retire (h : l.Thrifty sure ids) (hm : l.modules[id]? = some m) (other : id ∉ ids) :
    (l.put id m.retired).Thrifty sure ids := by
  refine ⟨fun j => ?_, fun j hj => ?_⟩
  · rw [get_put hm]
    split
    · exact List.nodup_nil
    · exact h.distinct j
  · rw [get_put_ne fun e : id = j => other (e ▸ hj)]
    exact h.inputs j hj

end Library

namespace Session

variable {sure : Prop} {s : Session} {l : Library} {m : Module} {p : Program} {main : FunctionRef} {id : Nat}

/-- The modules of the inputs are thrifty. -/
structure Thrifty (sure : Prop) (s : Session) : Prop where
  library : s.world.library.Thrifty sure s.inputs
  std : s.std ≠ some builtin

/-- What a session rests on in which it may be sure that no instance has failed. -/
structure Tended (sure : Prop) (l : Library) (s : Session) : Prop where
  keeping : s.Keeping l
  written : sure → s.Written
  formed : s.Formed
  thrifty : s.Thrifty sure

theorem Keeping.input (h : s.Keeping l) (hid : id ∈ s.inputs) : ∃ m, s.world.library.modules[id]? = some m ∧ m.alive :=
  h.orderly.held id (mem_held.2 (.inr (.inr (.inr (.inl hid)))))

theorem Keeping.input_lt (h : s.Keeping l) (hid : id ∈ s.inputs) : id < s.world.library.modules.size := by
  obtain ⟨m, hm, -⟩ := h.input hid
  exact (Array.getElem?_eq_some_iff.1 hm).1

/-- A module that is given up is not that of an input. -/
theorem Loading.discard_thrifty (h : s.Loading l id) (thrifty : s.world.library.Thrifty sure s.inputs) :
    (s.discard id).world.library.Thrifty sure s.inputs := by
  obtain ⟨m, hm, world⟩ := h.retired
  rw [world]
  exact thrifty.retire hm fun hid => h.loaded.unheld (mem_held.2 (.inr (.inr (.inr (.inl hid)))))

/-- A program is compiled into a module that is added. -/
theorem Tended.compiles (h : s.Tended sure l) (hm : m.Blank) (distinct : m.imports.toList.Nodup) (p : Program) :
    (s.world.addModule m).1.library.Thrifty sure s.inputs ∧
      Meets (Compile.program s.invoke p) (Compilation.start (s.world.addModule m).1 s.world.library.modules.size)
        (fun _ c => ∀ j, ((s.world.addModule m).1.library.get j).Recruits (c.library.get j) fun _ => False)
        fun e c => c.Lost (s.world.addModule m).1.library s.world.library.modules.size e := by
  have inlines : (s.world.addModule m).1.library.Inlines := (Library.Formed.add h.formed hm.functions).inlines
  refine ⟨h.thrifty.library.add (fun id hid => h.keeping.input_lt hid) distinct, Compilation.imports_program inlines ?_ _ p⟩
  rw [show (s.world.addModule m).1.library.modules.size = s.world.library.modules.size + 1 from Array.size_push ..]
  exact Nat.lt_succ_self _

theorem Tended.compileInto (h : s.Tended sure l) (hm : m.Blank) (references : ∀ r ∈ Library.references m, r ∈ s.held)
    (distinct : m.imports.toList.Nodup) (whole : sure → ∀ e, (s.compileInto m p).2 = .error e → e.ofInstance = false) :
    (∃ w main, s.compileInto m p = ({ s with world := w }, .ok main) ∧ main.module = s.world.library.modules.size ∧
      w.library.Thrifty sure s.inputs ∧ (m.Thrifty sure → (w.library.get main.module).Thrifty sure)) ∨
      ∃ w e, s.compileInto m p = ({ s with world := w }, .error e) ∧ w.library.Thrifty sure s.inputs := by
  have added := h.keeping.addModule hm references
  obtain ⟨before, recruited⟩ := h.compiles hm distinct p
  have met := recruited.and (finishes_program added.orderly.instantiates s.world.library.modules.size s.invoke p)
  rw [compileInto_eq, World.compile_eq] at whole ⊢
  cases hr : Compile.program s.invoke p (Compilation.start (s.world.addModule m).1 s.world.library.modules.size) with
  | ok main c =>
    obtain ⟨recruits, -⟩ := met.of_ok hr
    refine .inl ⟨_, _, rfl, rfl, before.recruits recruits fun _ _ _ _ => not_false, fun thrifty => ?_⟩
    refine Module.Thrifty.recruits ?_ (recruits s.world.library.modules.size) fun _ _ => not_false
    have last : (s.world.addModule m).1.library.modules[s.world.library.modules.size]? = some m := Library.modules_add_self
    rwa [Library.get_eq last]
  | error e c =>
    rw [hr] at whole
    obtain ⟨lost, left⟩ := met.of_error hr
    refine .inr ⟨_, _, rfl, (added.compiled left.toConserves).discard_thrifty ?_⟩
    -- the module that was compiled into is given up, and elsewhere only an instance can be left unwritten
    have other (id : Nat) (hid : id ∈ s.inputs) : id ≠ s.world.library.modules.size := Nat.ne_of_lt (h.keeping.input_lt hid)
    refine before.recruits lost.deserted ?_
    rintro hs id hid - (receives | ⟨f, rfl, unwritten⟩)
    · exact other id hid receives
    · obtain ⟨n, hn, alive⟩ := h.keeping.input hid
      have undefined := left.undefined.resolve_left (Bool.eq_false_iff.1 (whole hs _ rfl))
      refine Library.Written.add (h.written hs) hm.functions f ((undefined f unwritten).resolve_right (other _ hid)) ?_
      rwa [Library.Lives, Library.get_add_lt (h.keeping.input_lt hid), Library.get_eq hn]

theorem imports_inputModule (s : Session) : s.inputModule.imports = #[builtin] := by
  obtain ⟨-, imports⟩ := references_foldl_addVisible (s.std.toList ++ s.imports ++ s.inputs)
    ((Module.named ("input_" ++ toString s.counter)).addImport builtin).1
  rw [inputModule, imports]
  rfl

theorem thrifty_inputModule (sure : Prop) (s : Session) : s.inputModule.Thrifty sure := by
  refine ⟨(inputModule_spec s).2.2, ?_, fun _ i hi inside => ?_⟩
  · rw [imports_inputModule]
    exact List.nodup_cons.2 ⟨List.not_mem_nil, List.nodup_nil⟩
  · rw [imports_inputModule] at inside
    exact absurd (Nat.lt_one_iff.1 inside) hi

theorem Tended.compile (h : s.Tended sure l) (source : String)
    (whole : sure → ∀ e, (s.compile source).2 = .error e → e.ofInstance = false) :
    (∃ w main, s.compile source = ({ s with world := w }, .ok main) ∧ w.library.Thrifty sure (main.module :: s.inputs)) ∨
      ∃ w e, s.compile source = ({ s with world := w }, .error e) ∧ w.library.Thrifty sure s.inputs := by
  unfold Session.compile at whole ⊢
  cases hp : Program.read source with
  | error e => exact .inr ⟨s.world, e, rfl, h.thrifty.library⟩
  | ok p =>
    rw [hp] at whole
    obtain ⟨blank, references, -⟩ := inputModule_spec s
    refine (h.compileInto blank references (thrifty_inputModule sure s).distinct whole).imp_left ?_
    rintro ⟨w, main, e, -, kept, thrifty⟩
    exact ⟨w, main, e, kept.distinct, List.forall_mem_cons.2 ⟨thrifty (thrifty_inputModule sure s), kept.inputs⟩⟩

theorem Tended.build (h : s.Tended sure l) (name source : String)
    (whole : sure → ∀ e, (s.build name source).2 = .error e → e.ofInstance = false) :
    (∃ w, s.build name source = ({ s with world := w, built := s.built ++ [s.world.library.modules.size] },
      .ok s.world.library.modules.size) ∧ w.library.Thrifty sure s.inputs) ∨
      ∃ w e, s.build name source = ({ s with world := w }, .error e) ∧ w.library.Thrifty sure s.inputs := by
  unfold Session.build at whole ⊢
  cases hp : Program.read source with
  | error e => exact .inr ⟨s.world, e, rfl, h.thrifty.library⟩
  | ok p =>
    rw [hp] at whole
    have distinct : ((builtin :: s.std.toList).foldl (fun m id => (m.addImport id).1)
        (Module.named name)).imports.toList.Nodup := by
      have other := h.thrifty.std
      cases hstd : s.std with
      | none => exact List.nodup_cons.2 ⟨List.not_mem_nil, List.nodup_nil⟩
      | some id =>
        rw [hstd] at other
        change [builtin, id].Nodup
        simpa using fun e : builtin = id => other (e ▸ rfl)
    obtain ⟨blank, references, -⟩ := builtModule_spec s name
    have compiled := h.compileInto (p := p) blank references distinct
    dsimp only at whole ⊢
    generalize s.compileInto _ p = r at whole compiled ⊢
    obtain ⟨s', e | main⟩ := r
    · rcases compiled fun hs f hf => whole hs f (congrArg Except.error (Except.error.inj hf)) with
        ⟨_, _, e, -⟩ | ⟨w, f, e, kept⟩
      · cases e
      · cases e
        exact .inr ⟨w, _, rfl, kept⟩
    · rcases compiled (fun _ => nofun) with ⟨w, _, e, size, kept, -⟩ | ⟨_, _, e, -⟩
      · cases e
        exact .inl ⟨w, by rw [← size], kept⟩
      · cases e

/-- The input that is run is kept with its value, or given up. -/
theorem Thrifty.run (h : s.world.library.Thrifty sure (main.module :: s.inputs)) (std : s.std ≠ some builtin)
    (loading : s.Loading l main.module) : (s.run main).1.Thrifty sure := by
  have frames := frames_evaluate s.world.library main s.world.machine
  rw [run_eq]
  cases hr : Run.evaluate s.world.library main s.world.machine with
  | ok y n =>
    obtain ⟨m, hm, -⟩ := loading.orderly.held main.module (.head _)
    have listed : s.world.library.Thrifty sure (s.inputs ++ [main.module]) :=
      ⟨h.distinct, fun id hid => h.inputs id (List.mem_cons.2 ((List.mem_append.1 hid).symm.imp_left List.mem_singleton.1))⟩
    refine ⟨?_, std⟩
    change (keep _ _ _).world.library.Thrifty sure (s.inputs ++ [main.module])
    rw [keep_world (s := { s with world := ⟨s.world.library, n⟩ }) hm]
    split
    · exact listed
    · exact listed.put hm rfl rfl
  | error fault n =>
    dsimp only
    rw [loading.clear n]
    exact ⟨(loading.rerun (n := n.clear) rfl).discard_thrifty ⟨h.distinct, fun id hid => h.inputs id (.tail _ hid)⟩, std⟩

theorem Tended.eval (h : s.Tended sure l) (source : String)
    (whole : sure → ∀ e, (s.eval source).2 = .error e → e.ofInstance = false) :
    (s.eval source).1.Thrifty sure := by
  have compiled := h.compile source
  unfold Session.eval at whole ⊢
  rcases h.keeping.compile source with ⟨w, main, e, loading⟩ | ⟨s', f, e, -⟩
  · rw [e] at compiled ⊢
    rcases compiled (fun _ => nofun) with ⟨_, _, e, kept⟩ | ⟨_, _, e, -⟩
    · cases e
      exact Thrifty.run kept h.thrifty.std loading
    · cases e
  · rw [e] at compiled whole ⊢
    rcases compiled (fun hs f' hf => whole hs f' (congrArg Except.error (Except.error.inj hf))) with
      ⟨_, _, e, -⟩ | ⟨w, _, e, kept⟩
    · cases e
    · cases e
      exact ⟨kept, h.thrifty.std⟩

/-- A request that no instance fails in leaves the modules of the inputs thrifty. -/
theorem Tended.serve (h : s.Tended sure l) (r : Request) (whole : sure → ∀ e ∈ (s.serve r).2, e.ofInstance = false) :
    (s.serve r).1.Thrifty sure := by
  cases r with
  | eval source =>
    have evaluated := h.eval source
    unfold Session.serve at whole ⊢
    dsimp only at whole ⊢
    generalize s.eval source = r at evaluated whole ⊢
    obtain ⟨s', e | v⟩ := r
    · exact evaluated fun hs f hf => whole hs f (by rw [Except.error.inj hf]; rfl)
    · exact evaluated fun _ => nofun
  | compile source =>
    have compiled := h.compile source
    unfold Session.serve at whole ⊢
    rcases h.keeping.compile source with ⟨w, main, e, loading⟩ | ⟨s', f, e, -⟩
    · simp only [e] at compiled ⊢
      rcases compiled (fun _ => nofun) with ⟨_, _, e, kept⟩ | ⟨_, _, e, -⟩
      · cases e
        exact ⟨loading.discard_thrifty ⟨kept.distinct, fun id hid => kept.inputs id (.tail _ hid)⟩, h.thrifty.std⟩
      · cases e
    · simp only [e] at compiled whole ⊢
      rcases compiled (fun hs f' hf => whole hs f' (by rw [Except.error.inj hf]; rfl)) with ⟨_, _, e, -⟩ | ⟨w, _, e, kept⟩
      · cases e
      · cases e
        exact ⟨kept, h.thrifty.std⟩
  | build name source imported =>
    have built := h.build name source
    unfold Session.serve at whole ⊢
    dsimp only at whole ⊢
    generalize s.build name source = r at built whole ⊢
    obtain ⟨s', e | id⟩ := r
    · rcases built (fun hs f hf => whole hs f (by rw [Except.error.inj hf]; rfl)) with ⟨_, e, -⟩ | ⟨w, _, e, kept⟩
      · cases e
      · cases e
        exact ⟨kept, h.thrifty.std⟩
    · rcases built (fun _ => nofun) with ⟨w, e, kept⟩ | ⟨_, _, e, -⟩
      · cases e
        cases imported <;> exact ⟨kept, h.thrifty.std⟩
      · cases e

theorem Tended.serveAll (rs : List Request) : ∀ {s : Session}, s.Tended sure l →
    (sure → ∀ e ∈ (s.serveAll rs).2, e.ofInstance = false) → (s.serveAll rs).1.Tended sure l := by
  induction rs with
  | nil => exact fun h _ => h
  | cons r rs ih =>
    intro s h whole
    have among : sure → ∀ e ∈ (s.serve r).2.toList ++ ((s.serve r).1.serveAll rs).2, e.ofInstance = false := whole
    have here (hs : sure) : ∀ e ∈ (s.serve r).2, e.ofInstance = false := fun e he =>
      among hs e (List.mem_append_left _ (Option.mem_toList.2 he))
    exact ih ⟨h.keeping.serve r, fun hs => (h.written hs).serve h.keeping r (here hs), h.formed.serve r, h.serve r here⟩
      fun hs e he => among hs e (List.mem_append_right _ he)

/-- The builtin module imports nothing, and the standard library is no input. -/
theorem tended_start (sure : Prop) {c : Config} (hs : start c = .ok s) : s.Tended sure s.world.library := by
  refine ⟨⟨orderly_start hs, .refl _⟩, fun _ => written_start hs, formed_start hs, ?_⟩
  obtain ⟨s₀, first⟩ : ∃ s₀, start { c with std := none } = .ok s₀ := ⟨_, rfl⟩
  have alone : s₀.world.library = ⟨#[Builtin.module]⟩ ∧ s₀.inputs = [] ∧ s₀.std = none := by
    cases first
    exact ⟨rfl, rfl, rfl⟩
  obtain ⟨library, inputs, std⟩ := alone
  have founded : s₀.Thrifty sure := by
    refine ⟨⟨fun id => Library.distinct_get fun m hm => ?_, by rw [inputs]; nofun⟩, by rw [std]; nofun⟩
    rw [library] at hm
    obtain ⟨-, rfl⟩ := View.modules_founded hm
    rw [(List.append_eq_nil_iff.1 Builtin.references_module).1]
    exact List.nodup_nil
  cases hstd : c.std with
  | none =>
    rw [start_none first hstd] at hs
    cases hs
    exact founded
  | some source =>
    have built := Tended.build ⟨⟨orderly_start first, .refl _⟩, fun _ => written_start first, formed_start first, founded⟩
      Prelude.name source
    rw [start_std first hstd] at hs
    generalize s₀.build Prelude.name source = r at built hs
    obtain ⟨t, e | id⟩ := r
    · cases hs
    · rcases built (fun _ => nofun) with ⟨w, e, kept⟩ | ⟨_, _, e, -⟩
      · cases e
        cases hs
        refine ⟨kept, ?_⟩
        rw [library]
        nofun
      · cases e

/-! ### What is imported -/

/-- Names that an input does not declare mean what the latest input, import or library means by them that has them. -/
theorem surroundings_of_inputModule (s : Session) :
    s.inputModule.surroundings = s.inputs.reverse ++ s.imports.reverse ++ s.std.toList ++ [builtin] := by
  obtain ⟨references, -⟩ := references_foldl_addVisible (s.std.toList ++ s.imports ++ s.inputs)
    ((Module.named ("input_" ++ toString s.counter)).addImport builtin).1
  have visible : s.inputModule.visible.toList = s.std.toList ++ s.imports ++ s.inputs := by
    change Library.references s.inputModule = [builtin] ++ _ at references
    rw [Library.references, imports_inputModule] at references
    exact List.append_cancel_left references
  have alone : s.std.toList.reverse = s.std.toList := by cases s.std <;> rfl
  rw [Module.surroundings, visible, imports_inputModule]
  simp [alone]

/-- A generic function that calls into the module of an earlier input and takes numbers only, used as is told. -/
def recruiting (used : String) : List Request :=
  [.eval "fn h() -> Int \x7b 1 \x7d", .eval "fn g(x) -> Int \x7b h(); x + 1 \x7d", .eval used, .eval "1 + true"]

end Session

end StackScript
