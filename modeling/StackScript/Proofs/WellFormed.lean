import StackScript.Proofs.Emission
import StackScript.Proofs.Histories

/-!
All code that a session installs is well formed, from its start on and whatever is compiled, run or given up: it consists
of whole instructions that name what is there, and its jumps lead to instructions.
-/
namespace StackScript

namespace Library

variable {l : Library} {m : Module} {id : Nat}

/-- A change that leaves the functions of all modules as they are. -/
theorem functions_put (hm : l.modules[id]? = some m) (m' : Module) (functions : m'.functions = m.functions) (j : Nat) :
    ((l.put id m').get j).functions = (l.get j).functions := by
  by_cases e : id = j
  · subst e
    rw [get_put_self hm, get_eq hm, functions]
  · rw [get_put_ne e]

theorem Formed.retire (h : l.Formed) (hm : l.modules[id]? = some m) : (l.put id m.retired).Formed := by
  intro j n hn g hg
  rcases modules_put hm hn with ⟨rfl, rfl⟩ | ⟨-, hn⟩
  · have admitted := h id m hm g hg
    revert admitted
    cases g.body with
    | code bytes => exact fun _ => nofun
    | fragment op => exact fun h => h
    | _ => exact fun _ => trivial
  · exact (h j n hn g hg).mono (.refl n) fun id =>
      Nat.le_of_eq (congrArg Array.size (functions_put hm m.retired rfl id).symm)

theorem Formed.dropFrom (h : l.Formed) (fuel : Nat) (dropped : List Nat) (counts : Array Nat) (heap : Heap) :
    (dropFrom fuel dropped counts l heap).1.Formed := by
  induction fuel generalizing dropped counts l heap with
  | zero => exact h
  | succ fuel ih =>
    cases dropped with
    | nil => exact h
    | cons id rest =>
      rw [Library.dropFrom]
      split
      · exact ih h _ _ _
      · refine ih ?_ _ _ _
        cases hm : l.modules[id]? with
        | none => rwa [modify_none hm]
        | some m =>
          rw [modify_eq hm]
          exact h.retire hm

theorem Formed.add (h : l.Formed) (hm : m.functions = #[]) : (l.add m).1.Formed := by
  intro j n hn g hg
  rcases modules_add hn with ⟨-, rfl⟩ | ⟨-, hn⟩
  · rw [hm] at hg
    exact absurd hg (by simp)
  · refine (h j n hn g hg).mono (.refl n) fun id => ?_
    by_cases hid : id < l.modules.size
    · exact Nat.le_of_eq (congrArg (fun m : Module => m.functions.size) (get_add_lt hid).symm)
    · rw [get_none (Array.getElem?_eq_none (Nat.le_of_not_lt hid))]
      exact Nat.zero_le _

theorem formed_founded : Formed ⟨#[Builtin.module]⟩ := by
  intro id m hm g hg
  obtain ⟨-, rfl⟩ := View.modules_founded hm
  obtain ⟨i, hi⟩ := Array.mem_iff_getElem?.1 hg
  rcases Builtin.mem_functions (Builtin.mem_module hi) with ⟨op, hop, rfl⟩ | ⟨n, rfl⟩
  · exact Builtin.arity_of_mem hop
  · trivial

end Library

namespace World

variable {w : World}

theorem library_run {α : Type} (w : World) (x : Library → Run α) : (w.run x).1.library = w.library := by
  unfold World.run
  obtain ⟨library, machine⟩ := w
  dsimp only
  cases x library machine <;> rfl

theorem library_apply (w : World) (f : FunctionRef) (args : List Value) : (w.apply f args).1.library = w.library :=
  library_run w _

theorem formed_drop (h : w.library.Formed) (held dropped : List Nat) : (w.drop held dropped).library.Formed :=
  h.dropFrom _ _ _ _

theorem formed_clear (h : w.library.Formed) (held : List Nat) : (w.clear held).library.Formed :=
  formed_drop (w := ⟨w.library, w.machine.clear⟩) h held w.framed

/-- What is compiled into a module is well formed, also if the compilation fails. -/
theorem formed_compile (h : w.library.Formed) (id : Nat) (invoke : Bool) (p : Program) :
    (w.compile id invoke p).1.library.Formed := by
  have shaped : (Compilation.start w id).Shaped := ⟨h, Code.valid_empty, fun _ _ _ => Code.drafted_empty⟩
  have met := Compile.Forms.program invoke p (l := w.library) (k := id) _ shaped (.refl _) rfl
  rw [World.compile_eq]
  cases hr : Compile.program invoke p (Compilation.start w id) with
  | ok main c => exact (met.of_ok hr).1.formed
  | error e c => exact (met.of_error hr).1

end World

namespace Session

/-- All code that is installed is well formed. -/
def Formed (s : Session) : Prop := s.world.library.Formed

variable {s : Session}

theorem Formed.discard (h : s.Formed) (id : Nat) : (s.discard id).Formed := World.formed_drop h _ _

theorem Formed.compileInto (h : s.Formed) {m : Module} (hm : m.functions = #[]) (p : Program) : (s.compileInto m p).1.Formed := by
  have added : (s.world.addModule m).1.library.Formed := Library.Formed.add h hm
  have compiled := World.formed_compile added s.world.library.modules.size s.invoke p
  rw [compileInto_eq]
  generalize (s.world.addModule m).1.compile s.world.library.modules.size s.invoke p = r at compiled ⊢
  obtain ⟨w, main | e⟩ := r
  · exact World.formed_drop compiled _ _
  · exact compiled

theorem Formed.compile (h : s.Formed) (source : String) : (s.compile source).1.Formed := by
  unfold Session.compile
  split
  · exact h
  · exact h.compileInto (inputModule_spec s).1.functions _

theorem Formed.build (h : s.Formed) (name source : String) : (s.build name source).1.Formed := by
  unfold Session.build
  split
  · exact h
  · next p _ =>
    have compiled := h.compileInto (builtModule_spec s name).1.functions p
    dsimp only
    generalize s.compileInto _ p = r at compiled ⊢
    obtain ⟨s', main | e⟩ := r
    · exact compiled
    · exact compiled

theorem formed_start {c : Config} (hs : start c = .ok s) : s.Formed := by
  have first : Formed { world := (({ machine := { stack := c.stack, limit := c.limit } } : World).addModule Builtin.module).1
                        invoke := c.invoke } := Library.formed_founded
  unfold start at hs
  cases hstd : c.std with
  | none =>
    rw [hstd] at hs
    cases hs
    exact first
  | some source =>
    rw [hstd] at hs
    have built := first.build Prelude.name source
    dsimp only at hs
    split at hs
    · next r =>
      cases hs
      rw [r] at built
      exact built
    · cases hs

theorem Formed.keep (h : s.Formed) (id : Nat) (v : Value) : (s.keep id v).Formed := by
  unfold Session.keep Formed
  dsimp only
  split
  · exact h
  · change (s.world.library.modify id _).Formed
    cases hm : s.world.library.modules[id]? with
    | none => rwa [Library.modify_none hm]
    | some m =>
      rw [Library.modify_eq hm]
      refine Library.Formed.put h hm ?_ fun g hg => .inl hg
      exact (m.widens_addValue v).trans (Module.widens_of_eq rfl rfl rfl rfl rfl)

theorem Formed.run (h : s.Formed) (main : FunctionRef) : (s.run main).1.Formed := by
  have same := World.library_apply s.world main []
  unfold Session.run
  generalize s.world.apply main [] = r at same ⊢
  obtain ⟨w, v | v⟩ := r
  · refine World.formed_drop (World.formed_clear ?_ _) _ _
    exact same ▸ h
  · exact Formed.keep (s := { s with world := w }) (same ▸ h : w.library.Formed) _ _

theorem Formed.eval (h : s.Formed) (source : String) : (s.eval source).1.Formed := by
  have compiled := h.compile source
  unfold Session.eval
  generalize s.compile source = r at compiled ⊢
  obtain ⟨s', e | main⟩ := r
  · exact compiled
  · exact Formed.run compiled main

theorem Formed.serve (h : s.Formed) (r : Request) : (s.serve r).1.Formed := by
  cases r with
  | eval source =>
    have evaluated := h.eval source
    simp only [Session.serve]
    generalize s.eval source = r at evaluated ⊢
    obtain ⟨s', e | v⟩ := r <;> exact evaluated
  | compile source =>
    have compiled := h.compile source
    simp only [Session.serve]
    generalize s.compile source = r at compiled ⊢
    obtain ⟨s', e | main⟩ := r
    · exact compiled
    · exact Formed.discard compiled _
  | build name source imported =>
    have built := h.build name source
    simp only [Session.serve]
    generalize s.build name source = r at built ⊢
    obtain ⟨s', e | id⟩ := r
    · exact built
    · cases imported <;> exact built

/-- A history of requests. -/
theorem Formed.serveAll (rs : List Request) : ∀ {s : Session}, s.Formed → (s.serveAll rs).1.Formed := by
  induction rs with
  | nil => exact fun h => h
  | cons r rs ih => exact fun h => ih (h.serve r)

/-- Whatever a session is asked, all code of the modules that it keeps is well formed, and so is what it compiles next. All of
it was written exactly. -/
theorem installs_well_formed {c : Config} (hs : start c = .ok s) (rs : List Request) :
    (s.serveAll rs).1.Formed ∧ (∀ source, ((s.serveAll rs).1.compile source).1.Formed) ∧ Compile.Exact := by
  have formed := (formed_start hs).serveAll rs
  exact ⟨formed, formed.compile, Compile.emission_exact⟩

/-- A function with a jump is compiled, installed and called. -/
theorem installs_well_formed_choice :
    (bare.serveAll [.eval "fn f(x: Int32) -> Int32 \x7b if x < 2 \x7b 3 \x7d else \x7b 4 \x7d \x7d", .eval "f(1) + f(5)"]).2 = [] ∧
      (bare.serveAll [.eval "fn f(x: Int32) -> Int32 \x7b if x < 2 \x7b 3 \x7d else \x7b 4 \x7d \x7d",
        .eval "f(1) + f(5)"]).1.Formed :=
  ⟨by decide +kernel, (installs_well_formed start_bare _).1⟩

end Session

end StackScript
