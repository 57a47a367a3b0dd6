import StackScript.Proofs.Enclosing
import StackScript.Proofs.WellFormed
import StackScript.Proofs.Wording

/-!
All modules of a session are regular, from its start on and whatever is compiled, run or given up. Where no function inside
another one has open parameters, they are so strictly, and a program that cannot be compiled fails honestly.
-/
namespace StackScript

/-- If the text is that of a program, its functions inside others have no open parameters. -/
def Program.textIsSpecific (source : String) : Bool :=
  match read source with
  | .error _ => true
  | .ok p => p.nests Header.isSpecific

theorem Program.admitted_of_text {source : String} {p : Program} {strict : Bool} (specific : strict → textIsSpecific source)
    (hp : read source = .ok p) : p.nests (Header.isAdmitted strict) :=
  nests_admitted hp fun strictly => by simpa only [textIsSpecific, hp] using specific strictly

/-! ### Modules -/

namespace Module

variable {m : Module} {strict : Bool}

theorem Blank.get?_eq_none (h : m.Blank) (a : Nat) (name : String) : m.scopes.get? a name = none := by
  obtain ⟨label, hs⟩ := h.scopes
  rw [hs]
  rcases a with - | a <;> rfl

theorem Blank.regular (h : m.Blank) (strict : Bool) : m.Regular strict := by
  have unbound {a : Nat} {name : String} {symbol : Symbol} (hget : m.scopes.get? a name = some symbol) : False := by
    rw [h.get?_eq_none] at hget
    cases hget
  have keyed : m.Keyed := by
    refine ⟨?_, ?_, ?_⟩ <;> rw [h.instances]
    · exact .nil
    · exact .nil
    · exact nofun
  refine ⟨keyed, h.sane.ordered, h.sane.root, ?_, ?_, ?_, fun _ _ _ _ hget => (unbound hget).elim, ?_,
    fun _ _ _ _ hget => (unbound hget).elim, ?_⟩
  · rw [h.functions]
    exact nofun
  · rw [h.functions]
    exact nofun
  · rw [h.values]
    exact nofun
  · rw [h.functions]
    exact nofun
  · rw [h.instances]
    exact nofun

theorem Regular.retire (h : m.Regular strict) : m.retired.Regular strict := h.store rfl rfl rfl nofun

/-- A value is bound to a name in the module itself. -/
theorem Regular.bound (h : m.Regular strict) (name : String) {y : Value} (hy : y.ty.isSolid) :
    (Session.bound m name y).Regular strict := by
  have added : (m.addValue y).1.Regular strict := h.store rfl rfl rfl fun v hv =>
    (Array.mem_push.1 hv).imp_right (by rintro rfl; exact hy)
  exact added.bind ScopeTable.root name nofun fun _ => rfl

end Module

namespace Builtin

variable {m : Module} {g : Function} {strict : Bool}

/-- The functions of the builtin module capture nothing, and their results are known. -/
theorem plain_function (hg : g ∈ functions) :
    g.captures = [] ∧ g.signature.nonlocals = [] ∧ g.signature.result.IsResult ∧ g.body.isGeneric = false := by
  rcases mem_functions hg with ⟨op, hop, rfl⟩ | ⟨n, rfl⟩
  · refine ⟨rfl, by cases op <;> rfl, ?_, rfl⟩
    have known := (opcode_params hop).2
    unfold Signature.effectiveResult at known
    split at known
    · next unknown => exact .inl unknown
    · exact .inr (Ty.isSolid_of_known known)
  · exact ⟨rfl, (native_frame n).1, .inr (Ty.isSolid_of_known (native_result n).2), rfl⟩

theorem regular_define (h : m.Regular strict) (hg : g ∈ functions) : (define m g).Regular strict := by
  obtain ⟨captures, nonlocals, result, specific⟩ := plain_function hg
  have added := h.addFunction result (by rw [nonlocals]; rfl) (Module.awaits_of_body specific rfl)
  refine added.bind ScopeTable.root g.name nofun fun _ => ⟨g, Array.getElem?_push_size, fun _ => captures, ?_, ?_⟩
  · rw [captures]
    exact Nat.zero_le _
  · rw [captures]
    exact nofun

theorem regular_foldl_define {fs : List Function} : ∀ {m : Module}, (∀ g ∈ fs, g ∈ functions) → m.Regular strict →
    (fs.foldl define m).Regular strict := by
  induction fs with
  | nil => exact fun _ h => h
  | cons g fs ih => exact fun hfs h => ih (fun g hg => hfs g (.tail _ hg)) (regular_define h (hfs g (.head _)))

theorem regular (strict : Bool) : module.Regular strict :=
  regular_foldl_define (fun _ h => h) ((Module.blank_named name).regular strict)

end Builtin

/-! ### Libraries -/

namespace Library

variable {l : Library} {m : Module} {strict : Bool}

theorem Regular.modify (h : l.Regular strict) (id : Nat) {f : Module → Module}
    (hf : ∀ m, m.Regular strict → (f m).Regular strict) : (l.modify id f).Regular strict := by
  cases hm : l.modules[id]? with
  | none => rwa [modify_none hm]
  | some m =>
    rw [modify_eq hm]
    exact h.put id (hf m (h id m hm))

theorem Regular.dropFrom (h : l.Regular strict) (fuel : Nat) (dropped : List Nat) (counts : Array Nat) (heap : Heap) :
    (dropFrom fuel dropped counts l heap).1.Regular strict := by
  induction fuel generalizing dropped counts l heap with
  | zero => exact h
  | succ fuel ih =>
    cases dropped with
    | nil => exact h
    | cons id rest =>
      rw [Library.dropFrom]
      split
      · exact ih h _ _ _
      · exact ih (h.modify id fun _ hm => hm.retire) _ _ _

theorem Regular.add (h : l.Regular strict) (hm : m.Regular strict) : (l.add m).1.Regular strict := fun id n hn => by
  rcases modules_add hn with ⟨-, rfl⟩ | ⟨-, hn⟩
  · exact hm
  · exact h id n hn

theorem regular_founded (strict : Bool) : Regular strict ⟨#[Builtin.module]⟩ := fun id m hm => by
  obtain ⟨-, rfl⟩ := View.modules_founded hm
  exact Builtin.regular strict

end Library

/-! ### Compiling -/

namespace Compilation

variable {w : World} {id : Nat} {m : Module} {strict : Bool} {p : Program}

theorem regular_start (h : w.library.Regular strict) (hm : w.library.modules[id]? = some m) : (start w id).Regular strict :=
  ⟨h, ⟨m, hm, (h id m hm).root⟩, ⟨m, hm⟩, nofun⟩

/-- A program is compiled into a module: the library stays regular, and goes on unless that fails. -/
theorem regular_program (h : w.library.Regular strict) (hm : w.library.modules[id]? = some m) (invoke : Bool)
    (hp : p.nests (Header.isAdmitted strict)) : Meets (Compile.program invoke p) (start w id)
      (fun _ d => d.Regular strict ∧ (start w id).Prolongs d) (Regime.Regular.Spoils strict) :=
  (Regime.Keeps.program (Regime.Regular.lawful strict) (c := start w id) ⟨rfl, rfl⟩ invoke hp (fun _ _ _ _ => trivial) (regular_start h hm)).imp
    (fun _ _ hd => ⟨hd.1, hd.2.1.2⟩) fun _ _ h => h

end Compilation

/-- A failure other than that of a compilation, or an honest one. -/
def Failure.Honest (strict : Bool) (f : Failure) : Prop := strict → ∀ e, f = .compile e → e.Honest

namespace World

variable {w : World} {strict : Bool}

theorem regular_drop (h : w.library.Regular strict) (held dropped : List Nat) : (w.drop held dropped).library.Regular strict :=
  h.dropFrom _ _ _ _

theorem regular_clear (h : w.library.Regular strict) (held : List Nat) : (w.clear held).library.Regular strict :=
  regular_drop (w := ⟨w.library, w.machine.clear⟩) h held w.framed

end World

namespace Session

/-- All modules are regular. -/
def Regular (strict : Bool) (s : Session) : Prop := s.world.library.Regular strict

/-- The session that a request leads to is regular, and a failure honest. -/
structure Sustains (strict : Bool) {α : Type} (r : Session × Except Failure α) : Prop where
  regular : r.1.Regular strict
  honest : ∀ f, r.2 = .error f → f.Honest strict

variable {s : Session} {strict : Bool} {m : Module} {source : String}

/-- A failure is passed on. -/
theorem Sustains.error {α β : Type} {f : Failure} (h : Sustains strict (s, (.error f : Except Failure α))) :
    Sustains strict (s, (.error f : Except Failure β)) :=
  ⟨h.regular, fun f hf => by cases hf; exact h.honest _ rfl⟩

theorem Sustains.failed {α : Type} {f : Failure} (h : Sustains strict (s, (.error f : Except Failure α))) :
    s.Regular strict ∧ ∀ g, some f = some g → g.Honest strict :=
  ⟨h.regular, fun g hg => by cases hg; exact h.honest _ rfl⟩

theorem Regular.answered (h : s.Regular strict) : s.Regular strict ∧ ∀ g : Failure, none = some g → g.Honest strict :=
  ⟨h, fun _ hg => absurd hg.symm (Option.some_ne_none _)⟩

/-- A text that is not one of a program is not compiled. -/
theorem Regular.unread (h : s.Regular strict) {α : Type} {f : Failure} (hp : Program.read source = .error f) :
    Sustains strict (s, (.error f : Except Failure α)) := by
  refine ⟨h, ?_⟩
  rintro _ ⟨⟩ - e rfl
  unfold Program.read at hp
  split at hp
  · cases hp
  · split at hp <;> cases hp

theorem Regular.discard (h : s.Regular strict) (id : Nat) : (s.discard id).Regular strict := World.regular_drop h _ _

theorem Regular.compileInto (h : s.Regular strict) (hm : m.Regular strict) {p : Program}
    (hp : p.nests (Header.isAdmitted strict)) : Sustains strict (s.compileInto m p) := by
  have added : (s.world.addModule m).1.library.Regular strict := Library.Regular.add h hm
  have met := Compilation.regular_program added Library.modules_add_self s.invoke hp
  rw [compileInto_eq, World.compile_eq]
  cases hr : Compile.program s.invoke p (Compilation.start (s.world.addModule m).1 s.world.library.modules.size) with
  | ok main d => exact ⟨(met.of_ok hr).1.library, nofun⟩
  | error e d =>
    obtain ⟨regular, honest⟩ := met.of_error hr
    refine ⟨World.regular_drop (w := (s.world.addModule m).1.compiled d) regular _ _, ?_⟩
    rintro _ ⟨⟩ strictly e ⟨⟩
    exact honest strictly

theorem Regular.compile (h : s.Regular strict) (specific : strict → Program.textIsSpecific source) :
    Sustains strict (s.compile source) := by
  unfold Session.compile
  cases hp : Program.read source with
  | error e => exact h.unread hp
  | ok p =>
    exact h.compileInto ((inputModule_spec s).1.regular strict) (Program.admitted_of_text specific hp)

theorem Regular.build (h : s.Regular strict) (name : String) (specific : strict → Program.textIsSpecific source) :
    Sustains strict (s.build name source) := by
  unfold Session.build
  cases hp : Program.read source with
  | error e => exact h.unread hp
  | ok p =>
    have compiled := h.compileInto ((builtModule_spec s name).1.regular strict) (Program.admitted_of_text specific hp)
    dsimp only
    generalize s.compileInto _ p = r at compiled ⊢
    obtain ⟨s', e | main⟩ := r
    · exact compiled.error
    · exact ⟨compiled.regular, nofun⟩

/-! ### Running -/

theorem Regular.keep (h : s.Regular strict) (id : Nat) {y : Value} (hy : y.ty.isSolid) : (s.keep id y).Regular strict := by
  unfold Session.keep Session.Regular
  dsimp only
  split
  · exact h
  · exact Library.Regular.modify h id fun _ hm => hm.bound _ hy

/-- The value of an input has a type that tells what it is. -/
theorem Regular.run (h : s.Regular strict) (main : FunctionRef) : Sustains strict (s.run main) := by
  have read := Run.evaluate_decode s.world.library main s.world.machine
  rw [run_eq]
  cases hr : Run.evaluate s.world.library main s.world.machine with
  | ok y n =>
    obtain ⟨⟨g, bs, hg, hy⟩, -⟩ := read.of_ok hr
    obtain ⟨m, -, -, regular, among⟩ := Library.Regular.function h hg
    have solid : y.ty.isSolid := Value.typed_decode (P := fun t => t.isSolid) rfl Regime.types_solid.tuple hy
      (Signature.isSolid_effectiveResult (regular.results g among))
    exact ⟨Regular.keep (s := { s with world := ⟨s.world.library, n⟩ }) h _ solid, nofun⟩
  | error fault n =>
    refine ⟨World.regular_drop (World.regular_clear (w := ⟨s.world.library, n⟩) h _) _ _, ?_⟩
    rintro _ ⟨⟩ - e ⟨⟩

theorem Regular.eval (h : s.Regular strict) (specific : strict → Program.textIsSpecific source) :
    Sustains strict (s.eval source) := by
  have compiled := h.compile specific
  unfold Session.eval
  generalize s.compile source = r at compiled ⊢
  obtain ⟨s', e | main⟩ := r
  · exact compiled.error
  · exact Regular.run compiled.regular main

/-! ### Histories -/

theorem Regular.serve (h : s.Regular strict) {r : Request} (specific : strict → Program.textIsSpecific r.source) :
    (s.serve r).1.Regular strict ∧ ∀ f, (s.serve r).2 = some f → f.Honest strict := by
  cases r with
  | eval source =>
    have evaluated := h.eval specific
    simp only [Session.serve, Request.source] at evaluated ⊢
    generalize s.eval source = r at evaluated ⊢
    obtain ⟨s', e | v⟩ := r
    · exact evaluated.failed
    · exact Regular.answered evaluated.regular
  | compile source =>
    have compiled := h.compile specific
    simp only [Session.serve, Request.source] at compiled ⊢
    generalize s.compile source = r at compiled ⊢
    obtain ⟨s', e | main⟩ := r
    · exact compiled.failed
    · exact Regular.answered (Regular.discard compiled.regular _)
  | build name source imported =>
    have built := h.build name specific
    simp only [Session.serve, Request.source] at built ⊢
    generalize s.build name source = r at built ⊢
    obtain ⟨s', e | id⟩ := r
    · exact built.failed
    · cases imported <;> exact Regular.answered built.regular

theorem Regular.serveAll (rs : List Request) : ∀ {s : Session}, s.Regular strict →
    (strict → ∀ r ∈ rs, Program.textIsSpecific r.source) →
    (s.serveAll rs).1.Regular strict ∧ ∀ f ∈ (s.serveAll rs).2, f.Honest strict := by
  induction rs with
  | nil => exact fun h _ => ⟨h, nofun⟩
  | cons r rs ih =>
    intro s h specific
    obtain ⟨regular, honest⟩ := h.serve (r := r) fun strictly => specific strictly r (.head _)
    obtain ⟨regular', honest'⟩ := ih regular fun strictly r' hr => specific strictly r' (.tail _ hr)
    refine ⟨regular', fun f hf => ?_⟩
    rcases List.mem_append.1 hf with hf | hf
    · exact honest f (Option.mem_toList.1 hf)
    · exact honest' f hf

/-- The standard library is built first. -/
theorem start_regular {c : Config} (specific : strict → ∀ source, c.std = some source → Program.textIsSpecific source) :
    (∀ s, start c = .ok s → s.Regular strict) ∧ ∀ f, start c = .error f → f.Honest strict := by
  have first : Regular strict { world := (({ machine := { stack := c.stack, limit := c.limit } } : World).addModule
                                  Builtin.module).1
                                invoke := c.invoke } := Library.regular_founded strict
  unfold start
  cases hstd : c.std with
  | none =>
    refine ⟨?_, nofun⟩
    rintro _ ⟨⟩
    exact first
  | some source =>
    have built := first.build Prelude.name fun strictly => specific strictly source hstd
    dsimp only
    split
    · next r =>
      rw [r] at built
      refine ⟨?_, nofun⟩
      rintro _ ⟨⟩
      exact built.regular
    · next r =>
      rw [r] at built
      refine ⟨nofun, ?_⟩
      rintro _ ⟨⟩
      exact built.honest _ rfl

end Session

end StackScript
