import StackScript.Proofs.Persistence
import StackScript.Proofs.Sustaining

/-!
Instances of generic functions, by the types of their parameters. In every module, whatever was compiled, successfully or
not, there is at most one instance of a function for the same types, and it takes just these. What a use was given is not
forgotten unless the compilation fails, so two uses share an instance if and only if their types are the same.
-/
namespace StackScript

namespace Library

/-- Instances are filed under the types of their parameters, in all modules. -/
def Keyed (l : Library) : Prop := ∀ (id : Nat) (m : Module), l.modules[id]? = some m → m.Keyed

/-- No instance is forgotten. -/
def Remembers (l l' : Library) : Prop :=
  ∀ (f : FunctionRef) (ts : List Ty) (i : Nat), l.Files f ts i → l'.Files f ts i

variable {l l' l'' : Library} {own : Nat → Option Nat} {strict : Bool} {f : FunctionRef} {ts us : List Ty} {i j : Nat}

theorem Regular.keyed (h : l.Regular strict) : l.Keyed := fun id m hm => (h id m hm).keyed

/-- Instances of a function are the same if and only if they are for the same types. -/
theorem Keyed.eq_iff (h : l.Keyed) (hi : l.Files f ts i) (hj : l.Files f us j) : i = j ↔ ts = us := by
  obtain ⟨m, hm, hi⟩ := hi
  obtain ⟨n, hn, hj⟩ := hj
  obtain rfl := Option.some.inj (hm.symm.trans hn)
  exact (h _ m hm).function_eq_iff hi hj

theorem Remembers.refl (l : Library) : l.Remembers l := fun _ _ _ h => h

theorem Remembers.trans (h : l.Remembers l') (k : l'.Remembers l'') : l.Remembers l'' := fun f ts i hf => k f ts i (h f ts i hf)

theorem Prolongs.remembers (h : l.Prolongs own l') : l.Remembers l' := fun _ _ _ => h.files

theorem Upholds.remembers (h : l.Upholds l') : l.Remembers l' := fun f _ _ hf => by
  obtain ⟨m, hm, among⟩ := hf
  obtain ⟨n, hn, keeps⟩ := h _ m hm
  obtain ⟨new, e⟩ := keeps.instances
  exact ⟨n, hn, e ▸ List.mem_append_left new among⟩

theorem remembers_modify (l : Library) (id : Nat) {g : Module → Module} (same : ∀ m, (g m).instances = m.instances) :
    l.Remembers (l.modify id g) := fun f _ _ hf => by
  obtain ⟨m, hm, among⟩ := hf
  refine ⟨if id = f.module then g m else m, ?_, ?_⟩
  · rw [modify, Array.getElem?_modify, hm]
    split <;> rfl
  · split
    · exact same m ▸ among
    · exact among

/-- A module that is given up keeps its instances. -/
theorem remembers_dropFrom (fuel : Nat) (dropped : List Nat) (counts : Array Nat) (l : Library) (heap : Heap) :
    l.Remembers (dropFrom fuel dropped counts l heap).1 := by
  induction fuel generalizing dropped counts l heap with
  | zero => exact .refl l
  | succ fuel ih =>
    cases dropped with
    | nil => exact .refl l
    | cons id rest =>
      rw [dropFrom]
      split
      · exact ih _ _ _ _
      · exact (remembers_modify l id (g := fun m => { m with values := #[], imports := #[], visible := #[], alive := false })
          fun _ => rfl).trans (ih _ _ _ _)

end Library

namespace Compile

variable {α : Type} {f : FunctionRef} {ts us : List Ty} {i j n : Nat} {c d d' : Compilation}

theorem lawful : (Regime.regular false).Lawful := Regime.Regular.lawful false

theorem installs (n : Nat) : (Regime.regular false).Installs (writeDeferred n) := Regime.Keeps.installs_deferred lawful n

/-- A generic function is used for types of arguments, all known, and the use is given an instance. -/
def Uses (f : FunctionRef) (ts : List Ty) (i : Nat) (d : Compilation) : Prop :=
  ∃ (c : Compilation) (n : Nat) (span : Span), c.Regular false ∧ Ty.anyGeneric ts = false ∧
    instantiate (writeDeferred n) f ts span c = .ok i d

/-- What a use was given is filed. -/
theorem Uses.files (h : Uses f ts i d) : d.library.Files f ts i := by
  obtain ⟨c, n, span, hc, known, e⟩ := h
  exact ((Regime.Regular.instantiate (installs n) known hc).of_ok e).2.2.2

/-- Modules stay keyed, and unless the action fails, they stay regular and no instance is forgotten. -/
def Recalls (c : Compilation) (x : Compile α) : Prop :=
  c.Regular false → Meets x c (fun _ d => d.Regular false ∧ c.library.Remembers d.library) fun _ d => d.library.Keyed

theorem recalls_of_keeps {x : Compile α} {post : α → Compilation → Prop} (h : (Regime.regular false).Keeps c x post) :
    Recalls c x := fun hc =>
  (h hc).imp (fun _ _ hd => ⟨hd.1, hd.2.1.2.library.remembers⟩) fun _ _ hd => hd.library.keyed

/-- What programs are compiled by recalls the instances: the parts of functions and their ends, whole functions, uses of
generic ones, and whole programs. -/
structure Recalling : Prop where
  expr : ∀ (c : Compilation) (n : Nat) (e : Expr) (t : Option Ty), c.draft.scope ≠ ScopeTable.root →
    Recalls c (Compile.expr (writeDeferred n) e t)
  statements : ∀ (c : Compilation) (n : Nat) (ss : List Stmt), c.draft.scope ≠ ScopeTable.root →
    Recalls c (Compile.statements (writeDeferred n) ss)
  ending : ∀ (c : Compilation) (t : Ty) (span : Span), Regime.Regular.Drafts c → t.isSolid → Recalls c (endFunction t span)
  function : ∀ (c : Compilation) (f : FunctionRef) (params : List String) (scope : Nat) (names : String → Prop)
    (span bodySpan : Span) (body : Option Ty → Compile Ty), Regime.Regular.Ready false c f params scope names →
      (Regime.regular false).Embodies names body → Recalls c (writeFunction f params scope span bodySpan body)
  written : ∀ (c : Compilation) (n : Nat) (f : FunctionRef), Recalls c (ensureWritten (writeDeferred n) f)
  instantiate : ∀ (c : Compilation) (n : Nat) (f : FunctionRef) (ts : List Ty) (span : Span), Ty.anyGeneric ts = false →
    Recalls c (Compile.instantiate (writeDeferred n) f ts span)
  program : ∀ (c : Compilation) (invoke : Bool) (p : Program), c.Resting → Recalls c (Compile.program invoke p)

theorem recalling : Recalling where
  expr _ n e t inside := recalls_of_keeps
    (Regime.Keeps.expr lawful (installs n) e.nests_lenient _ t ⟨inside, fun _ _ => nofun⟩)
  statements _ n ss inside := recalls_of_keeps
    (Regime.Keeps.statements lawful (installs n) (Stmt.allNest_lenient ss) (q := fun _ => False) ⟨inside, fun _ _ => nofun⟩)
  ending _ _ span drafts solid := recalls_of_keeps (Regime.Regular.endFunction drafts solid span)
  function _ _ _ _ _ _ _ _ ready embodies := recalls_of_keeps (Regime.Regular.writeFunction ready embodies)
  written _ n f := recalls_of_keeps (Regime.Keeps.ensureWritten lawful (installs n) f)
  instantiate _ n _ _ _ known := recalls_of_keeps (Regime.Regular.instantiate (installs n) known)
  program _ invoke p rests := recalls_of_keeps (Regime.Keeps.program lawful rests invoke p.nests_lenient fun _ _ _ _ => trivial)

def succeeds (x : Compile α) (c : Compilation) : Bool :=
  match x c with
  | .ok _ _ => true
  | .error _ _ => false

theorem exists_of_succeeds {x : Compile α} (h : succeeds x c) : ∃ a d, x c = .ok a d := by
  unfold succeeds at h
  split at h
  · next a d e => exact ⟨a, d, e⟩
  · cases h

theorem bind_eq_ok {β : Type} {x : Compile α} {k : α → Compile β} {b : β} (h : (x >>= k) c = .ok b d) :
    ∃ a c', x c = .ok a c' ∧ k a c' = .ok b d := by
  cases hx : x c with
  | ok a c' => exact ⟨a, c', rfl, by simpa only [bind, EStateM.bind, hx] using h⟩
  | error e c' => simp only [bind, EStateM.bind, hx, reduceCtorEq] at h

end Compile

namespace Session

/-! ### Sessions -/

variable {s : Session}

theorem remembers_drop (w : World) (held dropped : List Nat) : w.library.Remembers (w.drop held dropped).library :=
  Library.remembers_dropFrom _ _ _ w.library _

theorem remembers_discard (s : Session) (id : Nat) : s.world.library.Remembers (s.discard id).world.library :=
  remembers_drop s.world s.held [id]

theorem remembers_keep (s : Session) (id : Nat) (y : Value) : s.world.library.Remembers (s.keep id y).world.library := by
  unfold Session.keep
  dsimp only
  split
  · exact .refl _
  · exact Library.remembers_modify _ id fun _ => rfl

/-- Nothing is forgotten while an input is run, whether it succeeds or not. -/
theorem remembers_run (s : Session) (main : FunctionRef) : s.world.library.Remembers (s.run main).1.world.library := by
  rw [run_eq]
  cases Run.evaluate s.world.library main s.world.machine with
  | ok y n => exact remembers_keep { s with world := ⟨s.world.library, n⟩ } main.module y
  | error fault n =>
    let w : World := ⟨s.world.library, n⟩
    have cleared : w.library.Remembers (w.clear (main.module :: s.held)).library :=
      remembers_drop ⟨w.library, w.machine.clear⟩ (main.module :: s.held) w.framed
    exact cleared.trans (remembers_discard { s with world := w.clear (main.module :: s.held) } main.module)

/-- A compilation that succeeds has forgotten nothing. -/
theorem Regular.remembers_compile (h : s.Regular false) {source : String} {t : Session} {main : FunctionRef}
    (ht : s.compile source = (t, .ok main)) : s.world.library.Remembers t.world.library := by
  unfold Session.compile at ht
  cases hp : Program.read source with
  | error e =>
    rw [hp] at ht
    cases ht
  | ok p =>
    rw [hp] at ht
    dsimp only at ht
    rw [compileProgram, compileInto_eq, World.compile_eq] at ht
    have added : (s.world.addModule s.inputModule).1.library.Regular false :=
      Library.Regular.add h ((inputModule_spec s).1.regular false)
    have met := Compilation.regular_program added Library.modules_add_self s.invoke p.nests_lenient
    cases hr : Compile.program s.invoke p
        (Compilation.start (s.world.addModule s.inputModule).1 s.world.library.modules.size) with
    | ok i d =>
      rw [hr] at ht
      cases ht
      exact (Library.upholds_add _ _).remembers.trans (met.of_ok hr).2.library.remembers
    | error e d =>
      rw [hr] at ht
      cases ht

/-- **Instances are told apart by types, and by nothing else.** Whatever a session was asked, successfully or not, all its
modules are keyed: there is one instance of a function for the same types at most, its parameters have these types, which
are all known, and if it is written, so is its result. Requests forget no instances. If a use of a generic function is given
one, it is filed, and what follows in the compilation forgets it only if it fails, so two uses that are not forgotten are
given the same instance if and only if they are for the same types. -/
theorem instances_told_by_types {config : Config} (hs : start config = .ok s) (rs : List Request) :
    let t := (s.serveAll rs).1
    t.world.library.Keyed ∧ (∀ source, (t.compile source).1.world.library.Keyed) ∧
      (∀ later, t.world.library.Remembers (t.serveAll later).1.world.library) ∧
      (∀ source u main, t.compile source = (u, .ok main) → t.world.library.Remembers u.world.library ∧
        u.world.library.Remembers (u.discard main.module).world.library ∧
        u.world.library.Remembers (t.eval source).1.world.library) ∧
      Compile.Recalling ∧
      ∀ f ts us i j d e (l : Library), Compile.Uses f ts i d → Compile.Uses f us j e → l.Keyed → d.library.Remembers l →
        e.library.Remembers l → (i = j ↔ ts = us) := by
  intro t
  have lenient {p : Prop} : false = true → p := nofun
  have regular : t.Regular false := (((start_regular lenient).1 s hs).serveAll rs lenient).1
  have begun : t.Orderly [] := (Keeping.serveAll rs ⟨orderly_start hs, .refl _⟩).orderly
  refine ⟨Library.Regular.keyed regular, fun source => Library.Regular.keyed (regular.compile lenient).regular,
    fun later => (Keeping.serveAll later ⟨begun, .refl _⟩).upholds.remembers, fun source u main hu => ?_,
    Compile.recalling, fun f ts us i j d e l use use' keyed kept kept' => ?_⟩
  · refine ⟨regular.remembers_compile hu, remembers_discard _ _, ?_⟩
    unfold Session.eval
    rw [hu]
    exact remembers_run u main
  · exact keyed.eq_iff (kept f ts i use.files) (kept' f us j use'.files)

/-- A generic function is used by the input that declares it and by a later one; in between, another one is used in vain. -/
def identity : List Request :=
  [.eval "fn identity(x) \x7b x \x7d let a = identity(5); identity(7)", .eval "fn g(x) \x7b x + true \x7d g(1)",
    .eval "identity(\"s\")"]

/-- There are two instances by then. One of them is used again, and a third one is made. -/
theorem instances_told_by_types_identity :
    (bare.serveAll identity).1.world.library.modules[1]?.map (·.instances) = some [⟨0, [.int32], 2⟩, ⟨0, [.string], 4⟩] ∧
      (bare.serveAll identity).1.world.library.Keyed ∧
      ∃ i j d e, Compile.Uses ⟨1, 0⟩ [.int32] i d ∧ Compile.Uses ⟨1, 0⟩ [.bool] j e ∧ d.library.Remembers e.library ∧
        i ≠ j := by
  obtain ⟨keyed, -, -, -, recalling, told⟩ := instances_told_by_types start_bare identity
  have instances : (bare.serveAll identity).1.world.library.modules[1]?.map (·.instances) =
      some [⟨0, [.int32], 2⟩, ⟨0, [.string], 4⟩] := by decide +kernel
  have lenient {p : Prop} : false = true → p := nofun
  have regular : (bare.serveAll identity).1.Regular false :=
    (((start_regular lenient).1 bare start_bare).serveAll identity lenient).1
  have succeeds : Compile.succeeds (do
      let _ ← Compile.instantiate (Compile.writeDeferred 1) ⟨1, 0⟩ [.int32] {}
      Compile.instantiate (Compile.writeDeferred 1) ⟨1, 0⟩ [.bool] {})
      (Compilation.start (bare.serveAll identity).1.world 1) := by decide +kernel
  refine ⟨instances, keyed, ?_⟩
  generalize (bare.serveAll identity).1 = t at *
  obtain ⟨m, hm, -⟩ := Option.map_eq_some_iff.1 instances
  have begun := Compilation.regular_start regular hm
  obtain ⟨j, e, h⟩ := Compile.exists_of_succeeds succeeds
  obtain ⟨i, d, hi, hj⟩ := Compile.bind_eq_ok h
  obtain ⟨regular', -⟩ := (recalling.instantiate _ 1 ⟨1, 0⟩ [.int32] {} rfl begun).of_ok hi
  obtain ⟨regular'', kept⟩ := (recalling.instantiate _ 1 ⟨1, 0⟩ [.bool] {} rfl regular').of_ok hj
  have use : Compile.Uses ⟨1, 0⟩ [.int32] i d := ⟨_, 1, {}, begun, rfl, hi⟩
  have use' : Compile.Uses ⟨1, 0⟩ [.bool] j e := ⟨d, 1, {}, regular', rfl, hj⟩
  refine ⟨i, j, d, e, use, use', kept, fun same => ?_⟩
  have types := (told _ _ _ _ _ _ _ e.library use use' (Library.Regular.keyed regular''.library) kept (.refl _)).1 same
  cases types

end Session

end StackScript
