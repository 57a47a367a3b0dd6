import StackScript.Proofs.Echoing
import StackScript.Proofs.Numbering
import StackScript.Proofs.Showing
import StackScript.Proofs.Soundness

/-!
Results that are asked for again. Whatever happens after an input, the name of its result is accepted, gives the value of
the input, and is displayed as it was.
-/
namespace StackScript

/-! ### Reading a name -/

namespace Token

/-- The name of a result is one token. -/
theorem scans_resultName (k : Nat) : Scans (Session.resultName k).toList [.name (Session.resultName k)] := by
  have continues : ∀ c ∈ '_' :: digitsOf k, Text.continuesName c := by
    refine List.forall_mem_cons.2 ⟨by decide, fun c hc => ?_⟩
    exact Text.of_digit (p := Text.continuesName) (by decide) (isDigit_digitsOf c hc)
  have spelled : (Session.resultName k).toList = '_' :: digitsOf k := Session.toList_resultName k
  have word : ('_' :: digitsOf k).takeWhile Text.continuesName = '_' :: digitsOf k := List.takeWhile_eq_self_iff.2 continues
  have kind : Kind.ofWord (Session.resultName k) = .name (Session.resultName k) := by
    have other {s : String} (head : s.toList.head? ≠ some '_') : Session.resultName k ≠ s := by
      rintro rfl
      rw [spelled] at head
      exact head rfl
    unfold Kind.ofWord
    rw [if_neg (other (by decide)), if_neg (other (by decide)), if_neg (other (by decide)), if_neg (other (by decide)),
      if_neg (other (by decide)), if_neg (other (by decide))]
  rw [spelled]
  refine scans_lexeme ⟨by decide, fun _ _ => nofun⟩ ?_ nofun
  have lexed : lexeme false '_' (digitsOf k) = lexWord ('_' :: digitsOf k) := rfl
  rw [lexed, lexWord]
  simp only [word]
  rw [← spelled, String.ofList_toList, kind]

end Token

namespace Program

variable {t e : Token} {name source : String}

theorem ofTokens_name (ht : t.kind = .name name) (he : e.kind = .endOfInput) :
    ofTokens [t, e] = .ok ⟨[], some (.variable name t.span)⟩ := by
  have other {k : Token.Kind} (hk : k ≠ .name name) : t.kind ≠ k := ht ▸ Ne.symm hk
  have operand : Parser.operand 22 ⟨[t, e], {}⟩ = .ok (.variable name t.span, ⟨[e], t.span⟩) := by
    have none : Parser.literal? (.name name) t.span = none := rfl
    unfold Parser.operand
    simp [ht, none, bind, StateT.bind, Except.bind, Parser.peek, get, getThe, MonadStateOf.get, StateT.get, pure, Except.pure,
      StateT.pure, Parser.advance, modify, modifyGet, MonadStateOf.modifyGet, StateT.modifyGet]
  have read : Parser.sequence 24 .endOfInput ⟨[t, e], {}⟩ = _ :=
    Parser.sequence_end (Parser.level_end operand he) he (other (by simp)) (other (by simp)) (other (by simp)) (other (by simp))
  simp [ofTokens, nesting, StateT.run, read, bind, Except.bind, pure, Except.pure]

/-- The name of a result is read as a variable. -/
theorem read_resultName (k : Nat) :
    ∃ span, read (Session.resultName k) = .ok ⟨[], some (.variable (Session.resultName k) span)⟩ :=
  read_of_scans (Token.scans_resultName k) fun _ _ => ofTokens_name

end Program

/-! ### Finding the result -/

/-- What is found for one element only is found first. -/
theorem List.findSome?_of_alone {α β : Type} {f : α → Option β} {xs : List α} {a : α} {b : β} (among : a ∈ xs)
    (found : f a = some b) (alone : ∀ x ∈ xs, f x ≠ none → x = a) : xs.findSome? f = some b := by
  cases first : xs.findSome? f with
  | none => exact absurd (List.findSome?_eq_none_iff.1 first a among) (by rw [found]; exact nofun)
  | some c =>
    obtain ⟨x, hx, hc⟩ := List.exists_of_findSome?_eq_some first
    obtain rfl := alone x hx (by rw [hc]; exact nofun)
    exact hc.symm.trans found

namespace Compilation

variable {c : Compilation} {m : Module} {y : Value} {h : Heap} {id i : Nat} {name : String} {span : Span} {deferred : Deferred}

/-- A value of another module is shared by the module of the draft. -/
theorem meets_pushStatic (hm : c.library.modules[c.draft.target.module]? = some m) (empty : m.values = #[])
    (other : id ≠ c.draft.target.module) (value : (c.library.get id).values[i]? = some y)
    (shared : y.incref c.heap = (h, .ok ())) :
    Meets (Compile.pushStatic name id i span) c (fun t d => t = y.ty ∧ d = c.loaded m y h) fun _ _ => False := by
  have index : (m.addValue y).2 = 0 := congrArg Array.size empty
  refine meets_bind.2 (meets_bind.2 (meets_get.2 (meets_pure.2 ?_)))
  rw [value]
  refine meets_bind.2 (meets_here.2 ?_)
  rw [if_neg other]
  refine meets_bind.2 (meets_onHeap.2 ?_)
  rw [shared]
  refine meets_bind.2 ((meets_onModule (c := { c with heap := h }) hm).2 ?_)
  rw [index]
  exact ⟨rfl, rfl⟩

theorem meets_pushVariable (resolved : c.draft.resolve c.library name span = .ok (.value id i))
    (hm : c.library.modules[c.draft.target.module]? = some m) (empty : m.values = #[])
    (other : id ≠ c.draft.target.module) (value : (c.library.get id).values[i]? = some y)
    (shared : y.incref c.heap = (h, .ok ())) :
    Meets (Compile.pushVariable deferred name none span) c (fun t d => t = y.ty ∧ d = c.loaded m y h) fun _ _ => False := by
  refine meets_bind.2 (meets_bind.2 (meets_get.2 ?_))
  rw [resolved]
  exact meets_pushStatic hm empty other value shared

end Compilation

namespace Session

variable {dead : FunctionRef → Prop} {roots : List Handle} {s : Session} {source : String} {id i k : Nat} {span : Span} {y : Value}

theorem mem_surroundings {m : Module} {j : Nat} : j ∈ m.surroundings ↔ j ∈ Library.references m := by
  simp [Module.surroundings, Library.references, or_comm]

/-- The modules whose names an input sees. -/
theorem surroundings_inputModule {j : Nat} : j ∈ s.inputModule.surroundings ↔ j ∈ s.known := by
  obtain ⟨references, -⟩ := references_foldl_addVisible (s.std.toList ++ s.imports ++ s.inputs)
    ((Module.named ("input_" ++ toString s.counter)).addImport builtin).1
  rw [mem_surroundings, inputModule, references]
  simp [known, Library.references, Module.addImport, Module.named]

/-- The module of an input, and what is begun in it. -/
theorem modules_compiling (s : Session) : s.compiling.library.modules[s.compiling.module]? = some s.inputModule :=
  Library.modules_add_self

/-- Modules that are kept are there while an input is compiled. -/
theorem get_begun_kept (orderly : s.Orderly []) (kept : id ∈ s.held) : id < s.compiling.module ∧
    (s.compiling.begun s.inputModule).library.get id = s.getModule id := by
  obtain ⟨n, hn, -⟩ := orderly.held id kept
  have inside : id < s.compiling.module := (Array.getElem?_eq_some_iff.1 hn).1
  have found : s.compiling.library.modules[id]? = some n := (Library.modules_add_lt inside).trans hn
  exact ⟨inside, (Library.get_put_ne (Nat.ne_of_gt inside)).trans ((Library.get_eq found).trans (Library.get_eq hn).symm)⟩

theorem known_of_input (input : s.inputs[k]? = some id) : id ∈ s.known :=
  List.mem_append_right _ (List.mem_of_getElem? input)

theorem held_of_known (known : id ∈ s.known) : id ∈ s.held := List.mem_append_left _ known

/-- In the function `main` of an input the name of a result stands for the result. -/
theorem resolve_result (orderly : s.Orderly []) (numbered : s.Numbered) (input : s.inputs[k]? = some id)
    (bound : (s.getModule id).lookup? (resultName k) = some (.value i)) (span : Span) :
    (s.compiling.begun s.inputModule).draft.resolve (s.compiling.begun s.inputModule).library (resultName k) span =
      .ok (.value id i) := by
  have unbound : (s.inputModule.scopes.add ScopeTable.root .function "main").1.resolve?
      (s.compiling.begun s.inputModule).draft.scope (resultName k) = none := by
    refine Option.eq_none_iff_forall_ne_some.2 fun found hf => ?_
    have here := ScopeTable.resolve?_get hf
    rw [ScopeTable.get?_add, (inputModule_spec s).1.get?_eq_none] at here
    cases here
  have first : s.inputModule.surroundings.findSome? (fun j => (((s.compiling.begun s.inputModule).library.get j).lookup?
      (resultName k)).bind (Meaning.ofGlobal? j)) = some (.value id i) := by
    have known := known_of_input input
    refine List.findSome?_of_alone (surroundings_inputModule.2 known) ?_ fun j hj named => ?_
    · rw [(get_begun_kept orderly (held_of_known known)).2, bound]
      rfl
    · have visible := surroundings_inputModule.1 hj
      rw [(get_begun_kept orderly (held_of_known visible)).2] at named
      have input' := numbered.names j visible k fun none => named (by rw [none]; rfl)
      exact Option.some.inj (input'.symm.trans input)
  have surroundings : Module.surroundings { s.inputModule with
      functions := s.inputModule.functions.push { name := "main", signature := {} }
      scopes := (s.inputModule.scopes.add ScopeTable.root .function "main").1 } = s.inputModule.surroundings := rfl
  have target : (s.compiling.begun s.inputModule).draft.target.module = s.compiling.module := rfl
  unfold Draft.resolve
  rw [target, Compilation.get_begun (modules_compiling s)]
  dsimp only
  rw [unbound]
  dsimp only
  rw [surroundings, first]

/-- The name of a result gives the result, and leaves what the heap contains. -/
theorem Sound.evaluates_result (h : s.Sound dead roots []) (room : s.heap.cells.size ≤ Heap.capacity) (orderly : s.Orderly [])
    (numbered : s.Numbered) (input : s.inputs[k]? = some id) (bound : (s.getModule id).lookup? (resultName k) = some (.value i))
    (value : (s.getModule id).values[i]? = some y) (read : Program.read source = .ok ⟨[], some (.variable (resultName k) span)⟩)
    (space : y.ty.size ≤ s.world.machine.stack.limit) (limit : ∀ n ∈ s.world.machine.limit, 0 < n)
    (unwatched : s.world.machine.watch.bind Watch.breakAt = none) :
    (s.eval source).2 = .ok y ∧ ∀ r, (s.eval source).1.heap.filled? r = s.heap.filled? r := by
  obtain ⟨empty, Ψ, hs⟩ := h.heap room
  have kept := held_of_known (known_of_input input)
  obtain ⟨m, hm, ha⟩ := orderly.held id kept
  have among : y ∈ (s.getModule id).values := Array.mem_of_getElem? value
  have typed : y.ty.Known := (h.consistent.modules id m hm ha).sane.values y (by rwa [getModule, Library.get_eq hm] at among)
  -- The module of the input shares the value, and running it shares the value once more.
  have held : ∀ r ∈ y.handles, r.isNull = false → s.heap.Holds r := fun r hr => hs.holds_static (View.mem_statics among hr)
  obtain ⟨h₁, shared, hs₁, -, filled⟩ := hs.increfs held
  obtain ⟨h₂, pushed, -, -, filled'⟩ := hs₁.increfs fun r hr => hs₁.holds (List.mem_append_left _ hr)
  obtain ⟨older, get⟩ := get_begun_kept orderly kept
  have written := Compilation.meets_main_load (e := .variable (resultName k) span)
    (x := Compile.pushVariable (Compile.writeDeferred Compile.nestingLimit) (resultName k) none span) (modules_compiling s)
    (inputModule_spec s).1.values typed s.invoke rfl fun n hn none =>
      Compilation.meets_pushVariable (resolve_result orderly numbered input bound span) hn none (Nat.ne_of_lt older)
        (by rwa [get]) shared
  have idle : s.world.machine.stack.size = 0 := by rw [Stack.size_eq, empty]; rfl
  obtain ⟨result, heap⟩ := evaluates_load read written pushed (by rwa [idle, Nat.zero_add]) (by
    rw [h.frames]
    exact ⟨limit, unwatched⟩)
  exact ⟨result, fun r => by rw [heap, filled', filled]⟩

/-! ### Histories -/

theorem serveAll_append (s : Session) (before later : List Request) :
    (s.serveAll (before ++ later)).1 = ((s.serveAll before).1.serveAll later).1 := by
  induction before generalizing s with
  | nil => rfl
  | cons r before ih => exact ih (s.serve r).1

theorem serve_eval (s : Session) (source : String) : (s.serve (.eval source)).1 = (s.eval source).1 := by
  unfold serve
  dsimp only
  generalize s.eval source = r
  obtain ⟨s', f | y⟩ := r <;> rfl

/-- What a session knows of itself between requests. -/
structure Sustained (s : Session) : Prop where
  sound : ∃ dead roots, s.Sound dead roots []
  orderly : s.Orderly []
  regular : s.Regular false
  numbered : s.Numbered

theorem Sustained.serveAll {rs : List Request} (h : s.Sustained) (plain : ∀ r ∈ rs, r.isPlain)
    (unnumbered : ∀ r ∈ rs, Program.Unnumbered r.source) : (s.serveAll rs).1.Sustained := by
  obtain ⟨dead, roots, sound⟩ := h.sound
  obtain ⟨dead', roots', sound', -⟩ := sound.serveAll plain
  exact ⟨⟨dead', roots', sound'⟩, (Keeping.serveAll rs ⟨h.orderly, .refl s.world.library⟩).orderly,
    (h.regular.serveAll rs nofun).1, (h.numbered.serveAll h.orderly h.regular unnumbered).1⟩

theorem Sustained.eval (h : s.Sustained) (plain : Program.textIsPlain source) (unnumbered : Program.Unnumbered source) :
    (s.eval source).1.Sustained := by
  have served : (s.serveAll [.eval source]).1.Sustained :=
    h.serveAll (List.forall_mem_singleton.2 plain) (List.forall_mem_singleton.2 unnumbered)
  rwa [← serve_eval]

/-- The value of an input stays bound to the name of its result. -/
theorem Sustained.eval_bound {u : Session} (h : s.Sustained) (e : s.eval source = (u, .ok y)) (value : y.isVoid = false) :
    ∃ id i, u.inputs[s.counter]? = some id ∧ (u.getModule id).lookup? (resultName s.counter) = some (.value i) ∧
      (u.getModule id).values[i]? = some y := by
  obtain ⟨w, f, e'⟩ | ⟨w, main, s', z, compiled, ran, e'⟩ := eval_fields s source
  · rw [e] at e'
    cases e'
  · rw [e] at e'
    cases e'
    obtain ⟨inputs, -, -, -, result⟩ := run_named (h.orderly.of_accepted compiled) (h.regular.of_accepted compiled) ran
    obtain ⟨i, bound, found⟩ := result value
    exact ⟨main.module, i, h.numbered.newest inputs, bound, found⟩

/-- After an input that gave a value its name gives the value again, which is displayed as it was. -/
theorem Sustained.revisits {u : Session} {later : List Request} {text : String} (h : s.Sustained)
    (e : s.eval source = (u, .ok y)) (value : y.isVoid = false) (hu : u.Sustained) (plain : ∀ r ∈ later, r.isPlain)
    (unnumbered : ∀ r ∈ later, Program.Unnumbered r.source) {t : Session} (served : (u.serveAll later).1 = t)
    (room : t.heap.cells.size ≤ Heap.capacity) (read : Program.read text = .ok ⟨[], some (.variable (resultName s.counter) span)⟩)
    (space : y.ty.size ≤ t.world.machine.stack.limit) (limit : ∀ n ∈ t.world.machine.limit, 0 < n)
    (unwatched : t.world.machine.watch.bind Watch.breakAt = none) :
    (t.eval text).2 = .ok y ∧ y.text (t.eval text).1.heap = y.text u.heap := by
  subst served
  obtain ⟨id, i, input, bound, found⟩ := h.eval_bound e value
  have ht := hu.serveAll plain unnumbered
  obtain ⟨dead, roots, sound⟩ := hu.sound
  obtain ⟨dead', roots', sound'⟩ := ht.sound
  -- What is said of the result stays.
  have kept := held_of_known (known_of_input input)
  have upholds := (Keeping.serveAll later ⟨hu.orderly, .refl u.world.library⟩).upholds
  obtain ⟨m, hm, ha⟩ := hu.orderly.held id kept
  have get : u.getModule id = m := Library.get_eq hm
  have input' : (u.serveAll later).1.inputs[s.counter]? = some id := by
    obtain ⟨new, longer⟩ := (hu.numbered.serveAll hu.orderly hu.regular unnumbered).2
    rw [← longer, List.getElem?_append_left (List.getElem?_eq_some_iff.1 input).1]
    exact input
  have bound' := (lookup?_kept hu.orderly hu.regular upholds kept (resultName s.counter)).trans bound
  have found' : ((u.serveAll later).1.getModule id).values[i]? = some y :=
    (upholds.get hm).values i y (by rwa [get] at found)
  obtain ⟨result, filled⟩ := sound'.evaluates_result room ht.orderly ht.numbered input' bound' found' read space limit unwatched
  refine ⟨result, ?_⟩
  -- So do the cells that it leads to.
  have spares := sound.serveAll_spares ⟨hu.orderly, .refl u.world.library⟩ hu.regular plain
  obtain ⟨-, Ψ, hs⟩ := sound.heap (Nat.le_trans spares.size room)
  have among : y ∈ (u.getModule id).values := Array.mem_of_getElem? found
  have living : (u.world.library.get id).alive := by rwa [Library.get_eq hm]
  refine (hs.text (fun r hr => hs.holds_static hr) (fun r x reached hx => ?_) (hs.statics id y living among)
    fun r hr => .root (View.mem_statics among hr)).symm
  rw [filled]
  exact spares.shares room r x reached hx

theorem build_not_run {s' : Session} {label : String} {e : Failure} (failed : s.build label source = (s', .error e)) (f : Fault) :
    e ≠ .run f := by
  unfold Session.build at failed
  cases hp : Program.read source with
  | error e' =>
    rw [hp] at failed
    cases failed
    exact (Program.read_error hp).2 f
  | ok p =>
    rw [hp] at failed
    dsimp only at failed
    cases hr : s.compileInto .. with
    | mk s₁ result =>
      rw [hr] at failed
      cases result with
      | ok main => cases failed
      | error c =>
        cases failed
        obtain ⟨e', rfl⟩ := compileInto_error hr
        exact nofun

/-- A run that is broken off is so by what a typed program may do. -/
theorem Sound.serve_fault (h : s.Sound dead roots []) {r : Request} (plain : r.isPlain) {f : Fault}
    (failed : (s.serve r).2 = some (.run f)) (room : (s.serve r).1.heap.cells.size ≤ Heap.capacity) : Faults dead f := by
  cases r with
  | eval source =>
    have plain : Program.textIsPlain source := plain
    unfold Session.serve Session.eval at failed room
    rcases h.compile plain with ⟨w, main, e, hs, hm⟩ | ⟨s', f', e, -, other⟩
    · simp only [e] at failed room
      have ran := hs.run hm
      generalize Session.run _ main = o at ran failed room
      obtain ⟨s', result⟩ := o
      rcases ran with ⟨y, rfl, -⟩ | ⟨f', roots', rfl, -, allowed⟩
      · cases failed
      · cases failed
        exact allowed room
    · simp only [e] at failed
      exact absurd (Option.some.inj failed) (other f)
  | compile source =>
    have plain : Program.textIsPlain source := plain
    unfold Session.serve at failed
    rcases h.compile plain with ⟨w, main, e, -⟩ | ⟨s', f', e, -, other⟩
    · simp only [e] at failed
      cases failed
    · simp only [e] at failed
      exact absurd (Option.some.inj failed) (other f)
  | build label source imported =>
    unfold Session.serve at failed
    obtain ⟨w, f', e⟩ | ⟨w, id, e⟩ := build_fields s label source
    · simp only [e] at failed
      exact absurd (Option.some.inj failed) (build_not_run e f)
    · simp only [e] at failed
      cases failed

theorem Sound.serveAll_faults {rs : List Request} : ∀ {dead : FunctionRef → Prop} {roots : List Handle} {s : Session},
    s.Sound dead roots [] → s.Orderly [] → s.Regular false → (∀ r ∈ rs, r.isPlain) →
      (s.serveAll rs).1.heap.cells.size ≤ Heap.capacity → ∀ f, .run f ∈ (s.serveAll rs).2 → ∃ dead, Faults dead f := by
  induction rs with
  | nil => exact fun _ _ _ _ _ _ among => absurd among List.not_mem_nil
  | cons r rs ih =>
    intro dead roots s h orderly regular plain room f among
    obtain ⟨dead', roots', h', -⟩ := h.serve (plain r (.head _))
    have orderly' := (Keeping.serve ⟨orderly, .refl s.world.library⟩ r).orderly
    have regular' := (regular.serve (r := r) nofun).1
    have rest : ∀ r ∈ rs, r.isPlain := fun r hr => plain r (.tail _ hr)
    rcases List.mem_append.1 among with first | later
    · have size := (h'.serveAll_spares ⟨orderly', .refl _⟩ regular' rest).size
      exact ⟨dead, h.serve_fault (plain r (.head _)) (Option.mem_toList.1 first) (Nat.le_trans size room)⟩
    · exact ih h' orderly' regular' rest room f later

theorem sustained_start {c : Config} (started : start c = .ok s) (hc : c.Plain)
    (unnumbered : ∀ source, c.std = some source → Program.Unnumbered source) : s.Sustained :=
  ⟨⟨_, _, sound_start started hc⟩, orderly_start started, (start_regular fun no : false => nomatch no).1 s started,
    numbered_start started unnumbered⟩

/-- Results persist, also where programs do not compile and runs are broken off. The references of the static values and of
the cells are counted, no handle dangles, and the name of a result gives it again. -/
theorem results_persist {c : Config} {s t : Session} {rs : List Request} {es : List Failure} (started : start c = .ok s)
    (hc : c.Plain) (plain : ∀ r ∈ rs, r.isPlain)
    (unnumbered : ∀ source, c.std = some source ∨ source ∈ rs.map Request.source → Program.Unnumbered source)
    (served : s.serveAll rs = (t, es)) (room : t.heap.cells.size ≤ Heap.capacity) :
    (∀ r : Handle, r.isNull = false →
      t.world.library.livingStatics.count r + t.heap.inner.count r ≤ t.heap.countOf r) ∧
    (∀ raw, .run (.danglingHandle raw) ∉ es) ∧
    ∀ before source later u y, rs = before ++ .eval source :: later → (s.serveAll before).1.eval source = (u, .ok y) →
      y.isVoid = false → y.ty.size ≤ t.world.machine.stack.limit → (∀ n ∈ t.world.machine.limit, 0 < n) →
      t.world.machine.watch.bind Watch.breakAt = none → ∀ text span,
        Program.read text = .ok ⟨[], some (.variable (resultName (s.serveAll before).1.counter) span)⟩ →
        (t.eval text).2 = .ok y ∧ y.text (t.eval text).1.heap = y.text u.heap := by
  have sustained := sustained_start started hc fun source hstd => unnumbered source (.inl hstd)
  have names : ∀ r ∈ rs, Program.Unnumbered r.source := fun r hr => unnumbered _ (.inr (List.mem_map_of_mem hr))
  refine ⟨fun r real => ?_, fun raw among => ?_, ?_⟩
  · have left := (sound_start started hc).serveAll plain
    rw [served] at left
    obtain ⟨dead, roots, sound, -⟩ := left
    obtain ⟨-, Ψ, hs⟩ := sound.heap room
    have livingStatics := sound.consistent.livingStatics_eq
    rw [livingStatics, hs.balanced.counts r real, List.count_append]
    exact Nat.add_le_add_right (Nat.le_add_left ..) _
  · have faults := (sound_start started hc).serveAll_faults sustained.orderly sustained.regular plain (by rwa [served])
    rw [served] at faults
    obtain ⟨dead, impossible⟩ := faults _ among
    exact impossible
  · rintro before source later u y rfl e value space limit unwatched text span read
    obtain ⟨source_plain, later_plain⟩ := List.forall_mem_cons.1 (List.forall_mem_append.1 plain).2
    obtain ⟨source_names, later_names⟩ := List.forall_mem_cons.1 (List.forall_mem_append.1 names).2
    have hs := sustained.serveAll (List.forall_mem_append.1 plain).1 (List.forall_mem_append.1 names).1
    have hu : ((s.serveAll before).1.eval source).1.Sustained := hs.eval source_plain source_names
    rw [e] at hu
    refine hs.revisits e value hu later_plain later_names ?_ room read space limit unwatched
    have split := serveAll_append s before (.eval source :: later)
    have first := serve_eval (s.serveAll before).1 source
    rw [e] at first
    rw [served] at split
    exact (congrArg (fun x : Session => (x.serveAll later).1) first).symm.trans split.symm

/-- A session without the standard library that runs few instructions at a time. -/
def hurried : Session := { world := (({ machine := { limit := some 60 } } : World).addModule Builtin.module).1 }

/-- Inputs of which one breaks off at the limit, in the middle of a call, another with a fault, and a third does not compile. -/
def mixedInputs : List Request :=
  [.eval "\"a\" + \"b\"", .eval "fn f(n: Int) -> Int \x7b f(n) \x7d", .eval "f(1)", .eval "[_0][1]", .eval "_0 + \"c\"",
    .eval "x"]

theorem results_persist_mixed : ∃ t es u y, hurried.serveAll mixedInputs = (t, es) ∧ es.length = 3 ∧
    hurried.eval "\"a\" + \"b\"" = (u, .ok y) ∧ y.text u.heap = "\"ab\"" ∧
    (∀ r : Handle, r.isNull = false →
      t.world.library.livingStatics.count r + t.heap.inner.count r ≤ t.heap.countOf r) ∧
    (∀ raw, .run (.danglingHandle raw) ∉ es) ∧
    (t.eval (resultName 0)).2 = .ok y ∧ y.text (t.eval (resultName 0)).1.heap = "\"ab\"" := by
  have started : start { std := none, limit := some 60 } = .ok hurried := rfl
  have plain : ∀ r ∈ mixedInputs, r.isPlain := by decide +kernel
  have heads : ∀ source ∈ mixedInputs.map Request.source, ∀ n ∈ Program.names source, n.toList.head? ≠ some '_' := by
    decide +kernel
  have facts : (hurried.serveAll mixedInputs).2.length = 3 ∧
      (hurried.serveAll mixedInputs).1.heap.cells.size ≤ Heap.capacity ∧
      (hurried.serveAll mixedInputs).1.world.machine.limit = some 60 ∧
      8 ≤ (hurried.serveAll mixedInputs).1.world.machine.stack.limit ∧
      (hurried.serveAll mixedInputs).1.world.machine.watch.isNone := by
    decide +kernel
  have first : (hurried.eval "\"a\" + \"b\"").2.toOption.map (fun y => (y.text (hurried.eval "\"a\" + \"b\"").1.heap, y.ty)) =
      some ("\"ab\"", .string) := by
    decide +kernel
  generalize hr : hurried.serveAll mixedInputs = r at facts
  obtain ⟨t, es⟩ := r
  obtain ⟨failed, room, limit, stack, watch⟩ := facts
  cases he : hurried.eval "\"a\" + \"b\"" with
  | mk u result =>
    rw [he] at first
    obtain ⟨y, hy, shown⟩ := Option.map_eq_some_iff.1 first
    obtain rfl := ok_of_toOption hy
    obtain ⟨text, ty⟩ := Prod.mk.inj shown
    obtain ⟨counts, dangling, revisits⟩ := results_persist started ⟨nofun, rfl⟩ plain (fun source among =>
      unnumbered_of_heads (heads source (among.resolve_left nofun))) hr room
    have value : y.isVoid = false := by
      cases y <;> first | rfl | cases ty
    obtain ⟨span, read⟩ := Program.read_resultName 0
    obtain ⟨again, same⟩ := revisits [] _ _ u y rfl he value (by rw [ty]; exact stack) (by rw [limit]; rintro _ ⟨⟩; decide)
      (by rw [Option.isNone_iff_eq_none.1 watch]; rfl) _ span read
    exact ⟨t, es, u, y, rfl, failed, rfl, text, counts, dangling, again, same.trans text⟩

/-- The input after the first result takes a number for the handle of a text. -/
def overwriting : List Request :=
  [.eval "\"a\" + \"b\"", .eval ("let g: [fn([fn() -> Int64]) -> Int] = " ++
    "([list_length, |s: [fn() -> String]| string_length(s[0]())], 0).0; g[1]([|| 4294967298L])")]

/-- The fault for which a static value could not be shared. -/
def deadValueOf {α : Type} : Except Failure α → Option Fault
  | .error (.compile ⟨.deadValue f, _⟩) => some f
  | _ => none

/-- Without plainness a result is lost: it is released where a number is read as its handle. -/
theorem result_overwritten : ∃ t es, bare.serveAll overwriting = (t, es) ∧ es.isEmpty ∧
    t.heap.countOf ⟨2, 1⟩ < t.world.library.livingStatics.count ⟨2, 1⟩ ∧
    deadValueOf (t.eval (resultName 0)).2 = some (.danglingHandle 0x100000002) := by
  have facts : (bare.serveAll overwriting).2.isEmpty ∧ (bare.serveAll overwriting).1.heap.countOf ⟨2, 1⟩ <
      (bare.serveAll overwriting).1.world.library.livingStatics.count ⟨2, 1⟩ ∧
      deadValueOf ((bare.serveAll overwriting).1.eval (resultName 0)).2 = some (.danglingHandle 0x100000002) := by
    decide +kernel
  generalize hr : bare.serveAll overwriting = r at facts
  obtain ⟨t, es⟩ := r
  exact ⟨t, es, rfl, facts⟩

end Session

end StackScript
