import StackScript.Proofs.Enduring
import StackScript.Proofs.Recalling

/-!
Names of results. The name that the value of an input is bound to is bound in the module of that input, and in no other
module that a session knows, as long as no program declares such a name itself.
-/
namespace StackScript

/-- The names that a program declares in its module. -/
def Program.names (source : String) : List String :=
  match read source with
  | .ok p => p.statements.filterMap Stmt.name?
  | .error _ => []

theorem Program.declares_iff {source name : String} {p : Program} (hp : read source = .ok p) :
    p.Declares name ↔ name ∈ names source := by
  unfold names Declares
  rw [hp]
  exact List.mem_filterMap.symm

/-- A program does not declare the name of a result. -/
def Program.Unnumbered (source : String) : Prop := ∀ k, Session.resultName k ∉ names source

/-- No builtin function is named like a result. -/
theorem Builtin.name_head : ∀ g ∈ functions, g.name.toList.head? ≠ some '_' := by
  decide +kernel

/-! ### Modules -/

namespace Module

variable {m n : Module}

/-- Names in a module itself keep their meaning. -/
theorem Keeps.lookup? (h : m.Keeps n) (root : 0 < m.scopes.size) (name : String) : n.lookup? name = m.lookup? name := by
  have own : m.scopes.scopes[ScopeTable.root]? = some m.scopes.scopes[ScopeTable.root] := Array.getElem?_eq_getElem root
  unfold Module.lookup? ScopeTable.get?
  rw [own, h.scopes _ _ own]

theorem Blank.lookup? (h : m.Blank) (name : String) : m.lookup? name = none := h.get?_eq_none _ _

theorem lookup?_bound_ne {y : Value} {name other : String} (unnamed : other ≠ name) :
    (Session.bound m name y).lookup? other = m.lookup? other :=
  ScopeTable.get?_bind_ne (t := (m.addValue y).1.scopes) (.inr unnamed) _

theorem lookup?_bound_self (root : 0 < m.scopes.size) (name : String) (y : Value) :
    (Session.bound m name y).lookup? name = some (.value m.values.size) :=
  ScopeTable.get?_bind_self (t := (m.addValue y).1.scopes) (Array.getElem?_eq_getElem root) name _

end Module

theorem Builtin.lookup?_foldl_define {name : String} (fs : List Function) : ∀ m : Module, (∀ g ∈ fs, name ≠ g.name) →
    (fs.foldl define m).lookup? name = m.lookup? name := by
  induction fs with
  | nil => exact fun _ _ => rfl
  | cons g fs ih =>
    intro m other
    have bound : (define m g).lookup? name = m.lookup? name :=
      ScopeTable.get?_bind_ne (t := (m.addFunction g).1.scopes) (.inr (other g (.head _))) _
    exact (ih _ fun f hf => other f (.tail _ hf)).trans bound

namespace Session

variable {dead : FunctionRef → Prop} {roots : List Handle} {s s' : Session} {m : Module} {p : Program} {main : FunctionRef}
  {source name : String} {id k n : Nat} {y : Value} {l : Library}

theorem toList_resultName (n : Nat) : (resultName n).toList = '_' :: Nat.toDigits 10 n := by
  rw [resultName, Nat.toString_eq_ofList_toDigits, String.toList_append, String.toList_ofList, String.toList_ofList]
  rfl

theorem resultName_inj (h : resultName n = resultName k) : n = k := by
  have same := congrArg String.toList h
  rw [toList_resultName, toList_resultName] at same
  have value (n : Nat) : Nat.ofDigitChars 10 (Nat.toDigits 10 n) 0 = n := Nat.ofDigitChars_ten_toDigits
  rw [← value n, (List.cons.inj same).2, value]

theorem lookup?_builtin (k : Nat) : Builtin.module.lookup? (resultName k) = none := by
  refine (Builtin.lookup?_foldl_define _ _ fun g hg same => Builtin.name_head g hg ?_).trans
    ((Module.blank_named Builtin.name).lookup? _)
  rw [← same, toList_resultName]
  rfl

/-- Names that begin with another character are not those of results. -/
theorem unnumbered_of_heads (heads : ∀ n ∈ Program.names source, n.toList.head? ≠ some '_') : Program.Unnumbered source :=
  fun k among => heads _ among (by rw [toList_resultName]; rfl)

/-! ### Compiling -/

/-- A module that is compiled has no other names than those that its program declares. -/
theorem compileInto_unnamed (h : s.Regular false) (hm : m.Blank) (e : s.compileInto m p = (s', .ok main))
    (undeclared : ¬ p.Declares name) : (s'.getModule main.module).lookup? name = none := by
  have added : (s.world.addModule m).1.library.Regular false := Library.Regular.add h (hm.regular false)
  have spared := Compilation.spared_program (s.world.addModule m).1 s.invoke p
    Library.modules_add_self fun id n hn => (added id n hn).root
  rw [compileInto_eq, World.compile_eq] at e
  cases hr : Compile.program s.invoke p (Compilation.start (s.world.addModule m).1 s.world.library.modules.size) with
  | ok i c =>
    rw [hr] at e
    cases e
    refine ((spared.of_ok hr).names _ name undeclared).trans ?_
    have new : (s.world.addModule m).1.library.get s.world.library.modules.size = m := Library.get_eq Library.modules_add_self
    rw [new]
    exact hm.lookup? name
  | error f c =>
    rw [hr] at e
    cases e

theorem compile_unnamed (h : s.Regular false) (e : s.compile source = (s', .ok main)) (undeclared : name ∉ Program.names source) :
    (s'.getModule main.module).lookup? name = none := by
  unfold Session.compile at e
  cases hp : Program.read source with
  | error f =>
    rw [hp] at e
    cases e
  | ok p =>
    rw [hp] at e
    exact compileInto_unnamed h (inputModule_spec s).1 e fun declares => undeclared ((Program.declares_iff hp).1 declares)

theorem build_unnamed {label : String} (h : s.Regular false) (e : s.build label source = (s', .ok id))
    (undeclared : name ∉ Program.names source) : (s'.getModule id).lookup? name = none := by
  unfold Session.build at e
  cases hp : Program.read source with
  | error f =>
    rw [hp] at e
    cases e
  | ok p =>
    rw [hp] at e
    dsimp only at e
    generalize hr : s.compileInto _ p = r at e
    obtain ⟨s'', f | main⟩ := r
    · cases e
    · cases e
      have unnamed := compileInto_unnamed h (builtModule_spec s label).1 hr fun declares =>
        undeclared ((Program.declares_iff hp).1 declares)
      exact unnamed

/-! ### Sessions -/

/-- Names of results are those of the inputs, in order. -/
structure Numbered (s : Session) : Prop where
  counter : s.inputs.length = s.counter
  names : ∀ id ∈ s.known, ∀ k, (s.getModule id).lookup? (resultName k) ≠ none → s.inputs[k]? = some id

/-- The next input has the number of the counter. -/
theorem Numbered.newest (h : s.Numbered) (inputs : s'.inputs = s.inputs ++ [id]) : s'.inputs[s.counter]? = some id := by
  rw [inputs, ← h.counter]
  exact List.getElem?_concat_length

/-- Names of a module that is kept keep their meaning. -/
theorem lookup?_kept (orderly : s.Orderly []) (regular : s.Regular false) (upholds : s.world.library.Upholds s'.world.library)
    (kept : id ∈ s.held) (name : String) : (s'.getModule id).lookup? name = (s.getModule id).lookup? name := by
  obtain ⟨m, hm, -⟩ := orderly.held id kept
  have before : s.getModule id = m := Library.get_eq hm
  rw [before]
  exact (upholds.get hm).lookup? (regular.rooted id m hm) name

/-- A session goes on with more inputs, whose modules have no names of other results. -/
theorem Numbered.onward {new : List Nat} (h : s.Numbered) (orderly : s.Orderly []) (regular : s.Regular false)
    (upholds : s.world.library.Upholds s'.world.library) (inputs : s'.inputs = s.inputs ++ new)
    (counter : s'.counter = s.counter + new.length)
    (known : ∀ id ∈ s'.known, id ∈ s.known ∨ ∀ k, (s'.getModule id).lookup? (resultName k) ≠ none → s'.inputs[k]? = some id) :
    s'.Numbered := by
  refine ⟨by rw [inputs, List.length_append, h.counter, counter], fun id hid k named => ?_⟩
  rcases known id hid with old | new
  · rw [lookup?_kept orderly regular upholds (List.mem_append_left _ old)] at named
    have input := h.names id old k named
    rw [inputs, List.getElem?_append_left (List.getElem?_eq_some_iff.1 input).1]
    exact input
  · exact new k named

/-- The value of an input is bound to the name of its result, and nothing else is bound. -/
theorem run_named (loading : s.Loading l main.module) (regular : s.Regular false) (e : s.run main = (s', .ok y)) :
    s'.inputs = s.inputs ++ [main.module] ∧ s'.counter = s.counter + 1 ∧ (∀ id, id ∈ s'.known ↔ id ∈ s.known ∨ id = main.module) ∧
      (∀ name ≠ resultName s.counter, (s'.getModule main.module).lookup? name = (s.getModule main.module).lookup? name) ∧
      (y.isVoid = false → ∃ i, (s'.getModule main.module).lookup? (resultName s.counter) = some (.value i) ∧
        (s'.getModule main.module).values[i]? = some y) := by
  obtain ⟨m, hm, -⟩ := loading.orderly.held main.module (.head _)
  have root := regular.rooted _ m hm
  have before : s.getModule main.module = m := Library.get_eq hm
  rw [run_eq] at e
  cases hr : Run.evaluate s.world.library main s.world.machine with
  | error f n =>
    rw [hr] at e
    cases e
  | ok z n =>
    rw [hr] at e
    cases e
    have world := keep_world (s := { s with world := ⟨s.world.library, n⟩ }) hm y
    refine ⟨rfl, rfl, fun id => ?_, fun name other => ?_, fun value => ⟨m.values.size, ?_⟩⟩
    · simp [known, keep, or_assoc]
    · rw [before, getModule, world]
      cases y.isVoid with
      | true => exact congrArg (Module.lookup? · name) before
      | false =>
        refine (congrArg (Module.lookup? · name) (Library.get_put_self hm)).trans ?_
        exact Module.lookup?_bound_ne other
    · have after : getModule (keep { s with world := ⟨s.world.library, n⟩ } main.module y) main.module =
          bound m (resultName s.counter) y := by
        rw [getModule, world, if_neg (by simp [value])]
        exact Library.get_put_self hm
      rw [after]
      exact ⟨Module.lookup?_bound_self root _ y, Array.getElem?_push_size⟩

/-! ### What a request changes -/

theorem compile_fields (s : Session) (source : String) : ∃ w, (s.compile source).1 = { s with world := w } := by
  unfold Session.compile
  split
  · exact ⟨s.world, rfl⟩
  · rw [compileProgram, compileInto_eq]
    split <;> exact ⟨_, rfl⟩

theorem build_fields (s : Session) (label source : String) :
    (∃ w f, s.build label source = ({ s with world := w }, .error f)) ∨
      ∃ w id, s.build label source = ({ s with world := w, built := s.built ++ [id] }, .ok id) := by
  unfold Session.build
  split
  · exact .inl ⟨s.world, _, rfl⟩
  · next p _ =>
    dsimp only
    rw [compileInto_eq]
    cases World.compile .. with
    | mk w result =>
      cases result with
      | ok main => exact .inr ⟨_, _, rfl⟩
      | error e => exact .inl ⟨_, _, rfl⟩

theorem run_fields (s : Session) (main : FunctionRef) :
    (∃ w f, s.run main = ({ s with world := w }, .error f)) ∨ ∃ s' y, s.run main = (s', .ok y) := by
  rw [run_eq]
  split
  · exact .inr ⟨_, _, rfl⟩
  · exact .inl ⟨_, _, rfl⟩

/-- An input has a value if it is compiled and run. -/
theorem eval_fields (s : Session) (source : String) :
    (∃ w f, s.eval source = ({ s with world := w }, .error f)) ∨
      ∃ w main s' y, s.compile source = ({ s with world := w }, .ok main) ∧ ({ s with world := w } : Session).run main = (s', .ok y) ∧
        s.eval source = (s', .ok y) := by
  unfold Session.eval
  obtain ⟨w, fields⟩ := compile_fields s source
  generalize s.compile source = r at fields ⊢
  obtain ⟨s', f | main⟩ := r <;> obtain rfl : s' = { s with world := w } := fields
  · exact .inl ⟨w, f, rfl⟩
  · obtain ⟨w', f, ran⟩ | ⟨s', y, ran⟩ := run_fields { s with world := w } main
    · exact .inl ⟨w', f, ran⟩
    · exact .inr ⟨w, main, s', y, rfl, ran, ran⟩

/-- The module of an accepted input is loaded. -/
theorem Orderly.of_accepted (orderly : s.Orderly []) (accepted : s.compile source = (s', .ok main)) :
    s'.Loading s.world.library main.module := by
  obtain ⟨w, main', e, loading⟩ | ⟨_, _, e, -⟩ := Keeping.compile ⟨orderly, .refl s.world.library⟩ source
  · rw [accepted] at e
    cases e
    exact loading
  · rw [accepted] at e
    cases e

theorem Regular.of_accepted (regular : s.Regular false) (accepted : s.compile source = (s', .ok main)) : s'.Regular false := by
  have compiled : (s.compile source).1.Regular false := (regular.compile nofun).regular
  rwa [accepted] at compiled

/-- A request that adds no input, and no names of results. -/
theorem Numbered.idle (h : s.Numbered) (orderly : s.Orderly []) (regular : s.Regular false)
    (upholds : s.world.library.Upholds s'.world.library) (inputs : s'.inputs = s.inputs) (counter : s'.counter = s.counter)
    (known : ∀ id ∈ s'.known, id ∈ s.known ∨ ∀ k, (s'.getModule id).lookup? (resultName k) = none) :
    s'.Numbered ∧ s.inputs <+: s'.inputs :=
  ⟨h.onward orderly regular upholds (inputs.trans (List.append_nil _).symm) counter fun id hid =>
    (known id hid).imp_right fun none k named => absurd (none k) named, inputs ▸ List.prefix_rfl⟩

theorem Numbered.eval (h : s.Numbered) (orderly : s.Orderly []) (regular : s.Regular false)
    (unnumbered : Program.Unnumbered source) : (s.eval source).1.Numbered ∧ s.inputs <+: (s.eval source).1.inputs := by
  have upholds := (Keeping.eval ⟨orderly, .refl s.world.library⟩ source).upholds
  obtain ⟨w, f, e⟩ | ⟨w, main, s', y, compiled, ran, e⟩ := eval_fields s source
  · rw [e] at upholds ⊢
    exact h.idle orderly regular upholds rfl rfl fun _ hid => .inl hid
  · rw [e] at upholds ⊢
    obtain ⟨inputs, counter, known, names, -⟩ := run_named (orderly.of_accepted compiled) (regular.of_accepted compiled) ran
    refine ⟨h.onward orderly regular upholds inputs counter fun j hj => ((known j).1 hj).imp_right ?_, ⟨_, inputs.symm⟩⟩
    rintro rfl k named
    by_cases same : resultName k = resultName s.counter
    · obtain rfl := resultName_inj same
      exact h.newest inputs
    · exact absurd ((names _ same).trans (compile_unnamed regular compiled (unnumbered k))) named

/-- A request whose program does not declare such names leaves the names of results in order. -/
theorem Numbered.serve (h : s.Numbered) (orderly : s.Orderly []) (regular : s.Regular false) {r : Request}
    (unnumbered : Program.Unnumbered r.source) : (s.serve r).1.Numbered ∧ s.inputs <+: (s.serve r).1.inputs := by
  have upholds := (Keeping.serve ⟨orderly, .refl s.world.library⟩ r).upholds
  cases r with
  | eval source =>
    have evaluated : (s.eval source).1.Numbered ∧ s.inputs <+: (s.eval source).1.inputs := h.eval orderly regular unnumbered
    unfold Session.serve
    dsimp only
    generalize s.eval source = r at evaluated ⊢
    obtain ⟨s', f | y⟩ := r <;> exact evaluated
  | compile source =>
    obtain ⟨w, fields⟩ := compile_fields s source
    unfold Session.serve at upholds ⊢
    dsimp only at upholds ⊢
    generalize s.compile source = r at upholds fields ⊢
    obtain ⟨s', f | main⟩ := r <;> obtain rfl : s' = { s with world := w } := fields <;>
      exact h.idle orderly regular upholds rfl rfl fun _ hid => .inl hid
  | build label source imported =>
    unfold Session.serve at upholds ⊢
    dsimp only at upholds ⊢
    obtain ⟨w, f, e⟩ | ⟨w, id, e⟩ := build_fields s label source
    · rw [e] at upholds ⊢
      exact h.idle orderly regular upholds rfl rfl fun _ hid => .inl hid
    · have unnamed (k : Nat) := build_unnamed regular e (unnumbered k)
      rw [e] at upholds ⊢
      cases imported with
      | false => exact h.idle orderly regular upholds rfl rfl fun _ hid => .inl hid
      | true =>
        refine h.idle orderly regular upholds rfl rfl fun j hj => ?_
        have parts : j ∈ s.known ∨ j = id := by
          simp only [known, Session.addImport, List.mem_append, List.mem_cons, List.not_mem_nil, or_false, if_true] at hj ⊢
          grind
        refine parts.imp_right ?_
        rintro rfl k
        exact unnamed k

/-- The names of results stay in order, whatever is asked of a session. -/
theorem Numbered.serveAll {rs : List Request} : ∀ {s : Session}, s.Numbered → s.Orderly [] → s.Regular false →
    (∀ r ∈ rs, Program.Unnumbered r.source) → (s.serveAll rs).1.Numbered ∧ s.inputs <+: (s.serveAll rs).1.inputs := by
  induction rs with
  | nil => exact fun h _ _ _ => ⟨h, List.prefix_rfl⟩
  | cons r rs ih =>
    intro s h orderly regular unnumbered
    obtain ⟨h', longer⟩ := h.serve orderly regular (unnumbered r (.head _))
    have orderly' := (Keeping.serve ⟨orderly, .refl s.world.library⟩ r).orderly
    obtain ⟨h'', longer'⟩ := ih h' orderly' (regular.serve nofun).1 fun r hr => unnumbered r (.tail _ hr)
    exact ⟨h'', longer.trans longer'⟩

/-- A session starts with no results. -/
theorem numbered_start {c : Config} (hs : start c = .ok s) (unnumbered : ∀ source, c.std = some source → Program.Unnumbered source) :
    s.Numbered := by
  obtain ⟨s₀, first⟩ : ∃ s₀, start { c with std := none } = .ok s₀ := ⟨_, rfl⟩
  have orderly := orderly_start first
  have regular : s₀.Regular false := (start_regular fun no : false => nomatch no).1 s₀ first
  have numbered : s₀.Numbered := by
    cases first
    refine ⟨rfl, fun id hid k named => ?_⟩
    obtain rfl : id = 0 := by simpa [known, builtin] using hid
    exact absurd (lookup?_builtin k) named
  cases hstd : c.std with
  | none =>
    rw [start_none first hstd] at hs
    cases hs
    exact numbered
  | some source =>
    have built := start_std first hstd
    obtain ⟨w, f, e⟩ | ⟨w, id, e⟩ := build_fields s₀ Prelude.name source
    · rw [built, e] at hs
      cases hs
    · have unnamed (k : Nat) := build_unnamed regular e (unnumbered source hstd k)
      have upholds : s₀.world.library.Upholds w.library := by
        obtain ⟨w', id', e', kept⟩ | ⟨_, _, e', -⟩ := Keeping.build ⟨orderly, .refl s₀.world.library⟩ Prelude.name source
        · obtain rfl : w = w' := congrArg (fun r => r.1.world) (e.symm.trans e')
          exact kept.upholds
        · rw [e] at e'
          cases e'
      rw [built, e] at hs
      cases hs
      let t : Session := { s₀ with world := w, std := some id, built := [] }
      have known (j : Nat) (hj : j ∈ t.known) : j ∈ s₀.known ∨ ∀ k, (t.getModule j).lookup? (resultName k) = none := by
        have parts : j ∈ s₀.known ∨ j = id := by
          simp only [t, Session.known, List.mem_append, List.mem_cons, Option.mem_toList] at hj ⊢
          grind
        refine parts.imp_right ?_
        rintro rfl
        exact unnamed
      have after : t.Numbered ∧ s₀.inputs <+: t.inputs := numbered.idle orderly regular upholds rfl rfl known
      exact after.1

end Session

end StackScript
