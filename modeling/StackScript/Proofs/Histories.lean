import StackScript.Proofs.Evaluating

/-!
Histories of sessions. Whatever is asked of a session, over plain programs, it stays sound: functions that can never be
called come from inputs that did not compile, and references that are never given up from runs that were broken off.
-/
namespace StackScript

namespace Program

/-- A text is plain if the program in it is. -/
def textIsPlain (source : String) : Bool :=
  match read source with
  | .ok p => p.isPlain
  | .error _ => true

theorem read_error {source : String} {e : Failure} (h : read source = .error e) :
    (∀ e', e ≠ .compile e') ∧ ∀ e', e ≠ .run e' := by
  unfold read at h
  split at h
  · cases h
    exact ⟨nofun, nofun⟩
  · split at h
    · cases h
      exact ⟨nofun, nofun⟩
    · cases h

end Program

/-- What is asked of a session. -/
inductive Request
  | eval (source : String)
  /-- The program is compiled and given up. -/
  | compile (source : String)
  /-- A module is built, and imported by all later inputs or not. -/
  | build (name source : String) (imported : Bool)
deriving DecidableEq, Repr

def Request.source : Request → String
  | eval source | compile source | build _ source _ => source

def Request.isPlain (r : Request) : Bool := Program.textIsPlain r.source

namespace Session

/-- Serves a request, and says why it failed if it did. -/
def serve (s : Session) : Request → Session × Option Failure
  | .eval source =>
    match s.eval source with
    | (s, .ok _) => (s, none)
    | (s, .error e) => (s, some e)
  | .compile source =>
    match s.compile source with
    | (s, .ok main) => (s.discard main.module, none)
    | (s, .error e) => (s, some e)
  | .build name source imported =>
    match s.build name source with
    | (s, .ok id) => (if imported then s.addImport id else s, none)
    | (s, .error e) => (s, some e)

/-- Serves requests in turn, and collects the failures. -/
def serveAll (s : Session) : List Request → Session × List Failure
  | [] => (s, [])
  | r :: rs =>
    let (s, e) := s.serve r
    let (s, es) := s.serveAll rs
    (s, e.toList ++ es)

variable {dead : FunctionRef → Prop} {roots : List Handle} {loaded loaded' : List Nat} {s s' : Session} {p : Program}
  {source : String}

/-! ### What a session holds -/

theorem mem_held {id : Nat} :
    id ∈ s.held ↔ id = builtin ∨ s.std = some id ∨ id ∈ s.imports ∨ id ∈ s.inputs ∨ id ∈ s.built := by
  simp [held, known]

/-- A session that keeps the same modules of the same world. -/
theorem Sound.relist (h : s.Sound dead roots loaded) (world : s'.world = s.world)
    (same : ∀ id, id ∈ loaded' ++ s'.held ↔ id ∈ loaded ++ s.held) : s'.Sound dead roots loaded' := by
  refine ⟨world ▸ h.consistent, ?_, world ▸ h.frames, fun id hid => ?_, fun id m hm ha => ?_⟩
  · rw [Session.heap, world]
    exact h.heap
  · rw [world]
    exact h.held id ((same id).1 hid)
  · rw [world] at hm
    exact (same id).2 (h.living id m hm ha)

theorem Sound.addImport {id : Nat} (h : s.Sound dead roots []) (hid : id ∈ s.held) :
    (s.addImport id).Sound dead roots [] := by
  refine h.relist rfl fun j => ?_
  rw [mem_held] at hid
  simp only [List.nil_append, Session.addImport, mem_held, List.mem_append, List.mem_singleton]
  grind

theorem references_foldl_addVisible (ids : List Nat) (m : Module) :
    Library.references (ids.foldl Module.addVisible m) = Library.references m ++ ids ∧
      (ids.foldl Module.addVisible m).imports = m.imports := by
  induction ids generalizing m with
  | nil => exact ⟨(List.append_nil _).symm, rfl⟩
  | cons id ids ih =>
    obtain ⟨h, e⟩ := ih (m.addVisible id)
    refine ⟨?_, e⟩
    rw [List.foldl_cons, h]
    simp [Library.references, Module.addVisible]

theorem blank_foldl {f : Module → Nat → Module} (hf : ∀ m : Module, ∀ id, m.Blank → (f m id).Blank) (ids : List Nat) :
    ∀ {m : Module}, m.Blank → (ids.foldl f m).Blank := by
  induction ids with
  | nil => exact fun h => h
  | cons id ids ih => exact fun h => ih (hf _ id h)

/-- The module of an input. -/
theorem inputModule_spec (s : Session) :
    s.inputModule.Blank ∧ (∀ r ∈ Library.references s.inputModule, r ∈ s.held) ∧ s.inputModule.imports[0]? = some 0 := by
  have blank := (Module.blank_named ("input_" ++ toString s.counter)).addImport builtin
  obtain ⟨references, imports⟩ := references_foldl_addVisible (s.std.toList ++ s.imports ++ s.inputs)
    ((Module.named ("input_" ++ toString s.counter)).addImport builtin).1
  refine ⟨blank_foldl (fun m id h => h.addVisible id) _ blank, fun r hr => ?_, ?_⟩
  · rw [inputModule, references] at hr
    exact List.mem_append_left _ hr
  · rw [inputModule, imports]
    rfl

/-- The module that is built for the host. -/
theorem builtModule_spec (s : Session) (name : String) :
    let m := (builtin :: s.std.toList).foldl (fun m id => (m.addImport id).1) (Module.named name)
    m.Blank ∧ (∀ r ∈ Library.references m, r ∈ s.held) ∧ m.imports[0]? = some 0 := by
  refine ⟨blank_foldl (fun m id h => h.addImport id) _ (Module.blank_named name), fun r hr => ?_, ?_⟩
  · rw [mem_held]
    cases hstd : s.std <;> simp_all [Library.references, Module.addImport, Module.named]
    exact hr.imp_right fun h => .inl h.symm
  · cases hstd : s.std <;> rfl

/-! ### Requests -/

/-- What a session is left with after failures. -/
def Left (dead : FunctionRef → Prop) (roots : List Handle) (es : List Failure) (s : Session) : Prop :=
  ∃ dead' roots', s.Sound dead' roots' [] ∧ ((∀ e, .compile e ∉ es) → dead' = dead) ∧ ((∀ e, .run e ∉ es) → roots' = roots)

theorem Sound.left (h : s.Sound dead roots []) (es : List Failure) : s.Left dead roots es :=
  ⟨dead, roots, h, fun _ => rfl, fun _ => rfl⟩

/-- A program that was read fails because it does not compile. -/
theorem compileInto_error {m : Module} {p : Program} {e : Failure} (failed : s.compileInto m p = (s', .error e)) :
    ∃ e', e = .compile e' := by
  rw [compileInto_eq] at failed
  generalize (s.world.addModule m).1.compile s.world.library.modules.size s.invoke p = r at failed
  obtain ⟨w, e' | main⟩ := r
  · cases failed
    exact ⟨e', rfl⟩
  · cases failed

theorem compile_not_run {e : Failure} (failed : s.compile source = (s', .error e)) (f : Fault) : e ≠ .run f := by
  unfold Session.compile at failed
  cases hr : Program.read source with
  | error e' =>
    rw [hr] at failed
    cases failed
    exact (Program.read_error hr).2 f
  | ok p =>
    rw [hr] at failed
    obtain ⟨e', rfl⟩ := compileInto_error failed
    exact nofun

/-- An input is compiled, or leaves the session sound. -/
theorem Sound.compile (h : s.Sound dead roots []) (hp : Program.textIsPlain source) :
    (∃ w main, s.compile source = ({ s with world := w }, .ok main) ∧
      Sound dead roots [main.module] { s with world := w } ∧ Main { s with world := w } main) ∨
    ∃ s' e, s.compile source = (s', .error e) ∧ s'.Left dead roots [e] ∧ ∀ f, e ≠ .run f := by
  unfold Program.textIsPlain at hp
  unfold Session.compile
  cases hr : Program.read source with
  | error e => exact .inr ⟨s, e, rfl, h.left _, (Program.read_error hr).2⟩
  | ok p =>
    rw [hr] at hp
    obtain ⟨blank, references, first⟩ := inputModule_spec s
    rcases h.compileInto blank references first hp with compiled | ⟨w, e, dead', he, hs⟩
    · exact .inl compiled
    · exact .inr ⟨_, _, he, ⟨dead', roots, hs, fun hn => absurd (.head _) (hn e), fun _ => rfl⟩, nofun⟩

theorem Sound.of_accepted {main : FunctionRef} (h : s.Sound dead roots []) (hp : Program.textIsPlain source)
    (accepted : s.compile source = (s', .ok main)) : s'.Sound dead roots [main.module] ∧ s'.Main main := by
  rcases h.compile hp with ⟨w, main', e, hs, hm⟩ | ⟨s'', e, he, -⟩
  · rw [e] at accepted
    cases accepted
    exact ⟨hs, hm⟩
  · rw [he] at accepted
    cases accepted

/-- A module is built, or the session stays sound. -/
theorem Sound.build (h : s.Sound dead roots []) (name : String) (hp : Program.textIsPlain source) :
    (∃ w id, s.build name source = ({ s with world := w, built := s.built ++ [id] }, .ok id) ∧
      Sound dead roots [] { s with world := w, built := s.built ++ [id] }) ∨
    ∃ s' e, s.build name source = (s', .error e) ∧ s'.Left dead roots [e] := by
  unfold Program.textIsPlain at hp
  unfold Session.build
  cases hr : Program.read source with
  | error e => exact .inr ⟨s, e, rfl, h.left _⟩
  | ok p =>
    rw [hr] at hp
    obtain ⟨blank, references, first⟩ := builtModule_spec s name
    rcases h.compileInto blank references first hp with ⟨w, main, he, hs, -⟩ | ⟨w, e, dead', he, hs⟩
    · simp only [he]
      exact .inl ⟨w, main.module, rfl, hs.relist rfl fun id => by
        simp only [List.mem_append, List.mem_singleton, mem_held]
        grind⟩
    · simp only [he]
      exact .inr ⟨_, _, rfl, dead', roots, hs, fun hn => absurd (.head _) (hn e), fun _ => rfl⟩

theorem Sound.serve (h : s.Sound dead roots []) {r : Request} (hp : r.isPlain) :
    (s.serve r).1.Left dead roots (s.serve r).2.toList := by
  cases r with
  | eval source =>
    have hp : Program.textIsPlain source := hp
    unfold Session.serve Session.eval
    rcases h.compile hp with ⟨w, main, he, hs, hm⟩ | ⟨s', e, he, left, -⟩
    · simp only [he]
      have ran := hs.run hm
      generalize Session.run _ main = o at ran ⊢
      obtain ⟨s', result⟩ := o
      rcases ran with ⟨y, rfl, hs⟩ | ⟨f, roots', rfl, hs, -⟩
      · exact hs.left _
      · exact ⟨dead, roots', hs, fun _ => rfl, fun hn => absurd (.head _) (hn f)⟩
    · simp only [he]
      exact left
  | compile source =>
    have hp : Program.textIsPlain source := hp
    unfold Session.serve
    rcases h.compile hp with ⟨w, main, he, hs, hm⟩ | ⟨s', e, he, left, -⟩
    · simp only [he]
      exact (hs.discard hm.new).left _
    · simp only [he]
      exact left
  | build name source imported =>
    have hp : Program.textIsPlain source := hp
    unfold Session.serve
    rcases h.build name hp with ⟨w, id, he, hs⟩ | ⟨s', e, he, left⟩
    · simp only [he]
      cases imported with
      | false => exact hs.left _
      | true =>
        exact (hs.addImport (mem_held.2 (by simp))).left _
    · simp only [he]
      exact left

/-- A history of requests. -/
theorem Sound.serveAll {rs : List Request} : ∀ {dead : FunctionRef → Prop} {roots : List Handle} {s : Session},
    s.Sound dead roots [] → (∀ r ∈ rs, r.isPlain) → (s.serveAll rs).1.Left dead roots (s.serveAll rs).2 := by
  induction rs with
  | nil => exact fun h _ => h.left []
  | cons r rs ih =>
    intro dead roots s h hp
    obtain ⟨dead', roots', h', compiled, ran⟩ := h.serve (hp r (.head _))
    obtain ⟨dead'', roots'', h'', compiled', ran'⟩ := ih h' fun r hr => hp r (.tail _ hr)
    refine ⟨dead'', roots'', h'', fun hn => ?_, fun hn => ?_⟩
    · exact (compiled' fun e he => hn e (List.mem_append_right _ he)).trans
        (compiled fun e he => hn e (List.mem_append_left _ he))
    · exact (ran' fun e he => hn e (List.mem_append_right _ he)).trans
        (ran fun e he => hn e (List.mem_append_left _ he))

/-! ### First and last -/

/-- The stack is empty, and the standard library plain. -/
structure Config.Plain (c : Config) : Prop where
  std : ∀ source, c.std = some source → Program.textIsPlain source
  stack : c.stack.bytes = []

/-- A session starts with an empty heap, and with the standard library compiled. -/
theorem sound_start {c : Config} (hs : start c = .ok s) (hc : c.Plain) : s.Sound (fun _ => False) [] [] := by
  have first : Session.Sound (fun _ => False) [] []
      { world := (({ machine := { stack := c.stack, limit := c.limit } } : World).addModule Builtin.module).1,
        invoke := c.invoke } := by
    refine ⟨View.consistent_founded, fun _ => ⟨hc.stack, _, View.sound_founded fun _ => none⟩, rfl, fun id hid => ?_,
      fun id m hm _ => ?_⟩
    · obtain rfl : id = 0 := by simpa [mem_held, builtin] using hid
      exact ⟨Builtin.module, rfl, Builtin.alive_module⟩
    · rw [(View.modules_founded hm).1]
      exact .head _
  unfold start at hs
  cases hstd : c.std with
  | none =>
    rw [hstd] at hs
    cases hs
    exact first
  | some source =>
    rw [hstd] at hs
    rcases first.build Prelude.name (hc.std source hstd) with ⟨w, id, he, hb⟩ | ⟨s', e, he, -⟩
    · simp only [he] at hs
      cases hs
      refine hb.relist rfl fun id => ?_
      simp only [List.nil_append, mem_held, List.mem_singleton, List.not_mem_nil]
      grind
    · simp only [he] at hs
      cases hs

theorem ok_of_toOption {ε α : Type} {x : Except ε α} {a : α} (h : x.toOption = some a) : x = .ok a := by
  cases x with
  | ok b => exact congrArg Except.ok (Option.some.inj h)
  | error e => cases h

/-- The fault that an evaluation broke off with. -/
def faultOf {α : Type} : Except Failure α → Option Fault
  | .error (.run f) => some f
  | _ => none

/-- A session without the standard library. -/
def bare : Session := { world := (({} : World).addModule Builtin.module).1 }

theorem start_bare : start { std := none } = .ok bare := rfl

theorem plain_bare : Config.Plain { std := none } := ⟨nofun, rfl⟩

/-- When all modules are given up, what stays is what broken runs have left. -/
theorem Sound.finish (h : s.Sound dead roots []) (hcap : s.heap.cells.size ≤ Heap.capacity) :
    s.finish.machine.heap.Balanced roots := by
  obtain ⟨-, Ψ, hs⟩ := h.heap hcap
  unfold Session.finish
  rw [World.drop_idle rfl]
  exact Library.drop_all h.consistent.linked hs.balanced fun id m hm ha =>
    List.mem_append_right _ (h.living id m hm ha)

end Session

end StackScript
