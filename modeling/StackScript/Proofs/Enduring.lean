import StackScript.Proofs.Lasting
import StackScript.Proofs.Meaning
import StackScript.Proofs.Persistence
import StackScript.Proofs.Sparing
import StackScript.Proofs.Sustaining

/-!
What the static values of a session refer to lasts. A request compiles, runs and gives up modules, and all that lies between
leaves the cells that values kept before lead to.
-/
namespace StackScript

/-! ### Modules that are given up -/

namespace Library

variable {l l' : Library}

theorem Upholds.statics (h : l.Upholds l') : ∀ r ∈ l.statics, r ∈ l'.statics := fun r hr => by
  obtain ⟨m, hm, hr⟩ := List.mem_flatMap.1 hr
  obtain ⟨x, hx, hr⟩ := List.mem_flatMap.1 hr
  obtain ⟨id, hid⟩ := List.mem_iff_getElem?.1 hm
  rw [Array.getElem?_toList] at hid
  obtain ⟨n, hn, keeps⟩ := h id m hid
  obtain ⟨i, hi⟩ := List.mem_iff_getElem?.1 hx
  rw [Array.getElem?_toList] at hi
  have kept : x ∈ (l'.get id).values := by
    rw [get_eq hn]
    exact Array.mem_of_getElem? (keeps.values i x hi)
  exact View.mem_statics kept hr

theorem releases_releaseValues (vs : List Value) (h : Heap) : h.Releases (releaseValues vs h) := by
  induction vs generalizing h with
  | nil => exact .refl h
  | cons v vs ih => exact (h.releases_decrefs v.handles).trans (ih _)

theorem releases_dropFrom : ∀ (fuel : Nat) (dropped : List Nat) (counts : Array Nat) (l : Library) (h : Heap),
    h.Releases (dropFrom fuel dropped counts l h).2
  | 0, _, _, _, h => .refl h
  | _ + 1, [], _, _, h => .refl h
  | fuel + 1, id :: rest, counts, l, h => by
    rw [dropFrom]
    split
    · exact releases_dropFrom fuel ..
    · exact (releases_releaseValues ..).trans (releases_dropFrom fuel ..)

/-- However many modules go, a slot is freed once. -/
theorem ages_drop (l : Library) (h : Heap) (roots dropped : List Nat) : h.Ages 1 (l.drop h roots dropped).2 :=
  (releases_dropFrom ..).ages (size_drop ..)

end Library

theorem World.ages_drop (w : World) (held dropped : List Nat) :
    w.machine.heap.Ages 1 (w.drop held dropped).machine.heap :=
  Library.ages_drop w.library w.machine.heap (held ++ w.framed) dropped

theorem World.ages_clear (w : World) (held : List Nat) : w.machine.heap.Ages 1 (w.clear held).machine.heap :=
  World.ages_drop ⟨w.library, w.machine.clear⟩ held w.framed

namespace Session

variable {dead dead' : FunctionRef → Prop} {roots roots' : List Handle} {loaded loaded' : List Nat} {s s' : Session}
  {l : Library} {m : Module} {p : Program} {main : FunctionRef} {source : String} {k : Nat}

/-! ### Few uses of the heap -/

/-- Two sound sessions are the ends of few uses of the heap. -/
theorem Sound.spares (before : s.Sound dead roots loaded) (after : s'.Sound dead' roots' loaded')
    (ages : s.heap.Ages k s'.heap) (few : k < 2 ^ 32 - 1) (upholds : l.Upholds s'.world.library) :
    s.heap.Spares l.statics s'.heap := by
  refine ⟨ages.size, fun room => ?_⟩
  obtain ⟨-, Ψ, sound⟩ := before.heap (Nat.le_trans ages.size room)
  obtain ⟨-, Ψ', sound'⟩ := after.heap room
  exact ages.shares few sound.balanced sound'.balanced fun r hr => List.mem_append_right _ (upholds.statics r hr)

theorem ages_discard (s : Session) (id : Nat) : s.heap.Ages 1 (s.discard id).heap := World.ages_drop ..

/-- All modules have a scope of their own. -/
theorem Regular.rooted (h : s.Regular false) (id : Nat) (m : Module) (hm : s.world.library.modules[id]? = some m) :
    0 < m.scopes.size := (h id m hm).root

theorem ages_compileInto (h : s.Regular false) (hm : m.Regular false) (p : Program) :
    s.heap.Ages 2 (s.compileInto m p).1.heap := by
  have added : (s.world.addModule m).1.library.Regular false := Library.Regular.add h hm
  have spared := Compilation.spared_program (s.world.addModule m).1 s.invoke p
    Library.modules_add_self fun id n hn => (added id n hn).root
  rw [compileInto_eq, World.compile_eq]
  cases hr : Compile.program s.invoke p (Compilation.start (s.world.addModule m).1 s.world.library.modules.size) with
  | ok main c => exact (spared.of_ok hr).heap.most (Nat.zero_le 2)
  | error e c => exact (spared.of_error hr).trans (World.ages_drop ((s.world.addModule m).1.compiled c) _ _)

/-! ### Requests -/

theorem ages_compile (h : s.Regular false) (source : String) : s.heap.Ages 2 (s.compile source).1.heap := by
  unfold Session.compile
  split
  · exact (Heap.Ages.refl s.heap).most (Nat.zero_le 2)
  · exact ages_compileInto h ((inputModule_spec s).1.regular false) _

theorem ages_build (h : s.Regular false) (name source : String) : s.heap.Ages 2 (s.build name source).1.heap := by
  unfold Session.build
  split
  · exact (Heap.Ages.refl s.heap).most (Nat.zero_le 2)
  · next p _ =>
    have ages := ages_compileInto h ((builtModule_spec s name).1.regular false) p
    dsimp only
    generalize s.compileInto _ p = r at ages ⊢
    obtain ⟨s', e | main⟩ := r <;> exact ages

/-- A run of what was compiled leaves what the values of all modules refer to. -/
theorem Sound.evaluate_spares (h : s.Sound dead roots [main.module]) (hm : s.Main main) :
    Meets (Run.evaluate s.world.library main) s.world.machine
      (fun _ n => s.heap.Spares s.world.library.statics n.heap) fun _ n => s.heap.Spares s.world.library.statics n.heap := by
  by_cases room : s.heap.cells.size ≤ Heap.capacity
  · obtain ⟨g, hg, -, callee⟩ := hm.callee h (.head _)
    obtain ⟨empty, Ψ, sound⟩ := h.heap room
    have holding : View.Holding ⟨s.world.library, dead⟩ Ψ main.module (Shape.ofTys []) roots [] [] s.world.machine :=
      ⟨[], [], [], ⟨empty, h.frames, rfl⟩, .nil, sound, nofun⟩
    refine meets_bind.2 ((holding.call_spares h.consistent.fits callee).imp (fun _ n hn => ?_) fun _ _ h => h)
    refine meets_bind.2 (meets_lift (Library.findFunction_eq hg) ((Run.heap_pullValue _ n).imp ?_ ?_)) <;>
    · intro _ p hp
      rw [hp]
      exact hn
  · exact (Run.Widens.evaluate s.world.library main s.world.machine).imp
      (fun _ _ size => .outgrown size fun h => room (Nat.le_trans size h))
      fun _ _ size => .outgrown size fun h => room (Nat.le_trans size h)

/-- The value of an input is kept, and the module of one that broke off is given up. -/
theorem Sound.run_spares (h : s.Sound dead roots [main.module]) (hm : s.Main main) (loading : s.Loading l main.module) :
    s.heap.Spares l.statics (s.run main).1.heap := by
  have spares := h.evaluate_spares hm
  have known : ∀ r ∈ l.statics, r ∈ s.world.library.statics := loading.upholds.statics
  have ran := h.run hm
  have kept := loading.run
  rw [run_eq] at ran kept ⊢
  cases hr : Run.evaluate s.world.library main s.world.machine with
  | ok y n =>
    rw [heap_keep]
    exact (spares.of_ok hr).among known
  | error f n =>
    rw [hr] at ran kept
    obtain ⟨y, e, -⟩ | ⟨e, roots', -, after, -⟩ := ran
    · cases e
    · have ages : n.heap.Ages 2 _ := (World.ages_clear ⟨s.world.library, n⟩ (main.module :: s.held)).trans
        (ages_discard { s with world := (⟨s.world.library, n⟩ : World).clear (main.module :: s.held) } main.module)
      refine ((spares.of_error hr).among known).trans ⟨ages.size, fun room => ?_⟩
      have size := Nat.le_trans (spares.of_error hr).size (Nat.le_trans ages.size room)
      obtain ⟨-, Ψ, left, sound⟩ := (h.evaluate hm size).of_error hr (Nat.le_trans ages.size room)
      obtain ⟨-, Ψ', sound'⟩ := after.heap room
      exact ages.shares (by decide) sound.balanced sound'.balanced fun r among =>
        List.mem_append_right _ (kept.upholds.statics r among)

/-- Either the program of an input is loaded, or the session is left as it keeps on; both times nothing is lost. -/
theorem Sound.compile_spares (h : s.Sound dead roots []) (keeping : s.Keeping l) (regular : s.Regular false)
    (plain : Program.textIsPlain source) : s.heap.Spares l.statics (s.compile source).1.heap := by
  have ages := ages_compile regular source
  have loads := keeping.compile source
  rcases h.compile plain with ⟨w, main, e, hs, -⟩ | ⟨s', f, e, ⟨dead', roots', hs, -⟩, -⟩
  · rw [e] at ages loads ⊢
    obtain ⟨_, _, e', loading⟩ | ⟨_, _, e', -⟩ := loads
    · cases e'
      exact h.spares hs ages (by decide) loading.upholds
    · cases e'
  · rw [e] at ages loads ⊢
    obtain ⟨_, _, e', -⟩ | ⟨_, _, e', keeping'⟩ := loads
    · cases e'
    · cases e'
      exact h.spares hs ages (by decide) keeping'.upholds

theorem Sound.eval_spares (h : s.Sound dead roots []) (keeping : s.Keeping l) (regular : s.Regular false)
    (plain : Program.textIsPlain source) : s.heap.Spares l.statics (s.eval source).1.heap := by
  have spares := h.compile_spares keeping regular plain
  have loads := keeping.compile source
  unfold Session.eval
  rcases h.compile plain with ⟨w, main, e, hs, hm⟩ | ⟨s', f, e, -⟩
  · rw [e] at spares loads ⊢
    obtain ⟨_, _, e', loading⟩ | ⟨_, _, e', -⟩ := loads
    · cases e'
      exact spares.trans (hs.run_spares hm loading)
    · cases e'
  · rw [e] at spares ⊢
    exact spares

theorem Sound.build_spares (h : s.Sound dead roots []) (keeping : s.Keeping l) (regular : s.Regular false) (name : String)
    (plain : Program.textIsPlain source) : s.heap.Spares l.statics (s.build name source).1.heap := by
  have ages := ages_build regular name source
  have built : (s.build name source).1.Keeping l := by
    rcases keeping.build name source with ⟨w, id, e, kept⟩ | ⟨s', f, e, kept⟩ <;>
    · rw [e]
      exact kept
  rcases h.build name plain with ⟨w, id, e, hs⟩ | ⟨s', f, e, dead', roots', hs, -⟩ <;>
  · rw [e] at ages built ⊢
    exact h.spares hs ages (by decide) built.upholds

theorem Sound.serve_spares (h : s.Sound dead roots []) (keeping : s.Keeping l) (regular : s.Regular false) {r : Request}
    (plain : r.isPlain) : s.heap.Spares l.statics (s.serve r).1.heap := by
  cases r with
  | eval source =>
    have spares : s.heap.Spares l.statics (s.eval source).1.heap := h.eval_spares keeping regular plain
    unfold Session.serve
    dsimp only
    generalize s.eval source = r at spares ⊢
    obtain ⟨s', e | v⟩ := r <;> exact spares
  | compile source =>
    have spares : s.heap.Spares l.statics (s.compile source).1.heap := h.compile_spares keeping regular plain
    have kept := keeping.serve (.compile source)
    obtain ⟨dead', roots', after, -⟩ := h.serve plain
    have plain : Program.textIsPlain source := plain
    unfold Session.serve at after kept ⊢
    rcases h.compile plain with ⟨w, main, e, hs, -⟩ | ⟨s', f, e, -⟩
    · simp only [e] at after kept spares ⊢
      exact spares.trans (hs.spares after (ages_discard { s with world := w } main.module) (by decide) kept.upholds)
    · simp only [e] at spares ⊢
      exact spares
  | build name source imported =>
    have spares : s.heap.Spares l.statics (s.build name source).1.heap := h.build_spares keeping regular name plain
    unfold Session.serve
    dsimp only
    generalize s.build name source = r at spares ⊢
    obtain ⟨s', e | id⟩ := r
    · exact spares
    · cases imported <;> exact spares

/-- Whatever is asked of a session, what the values refer to that it kept before is left. -/
theorem Sound.serveAll_spares {rs : List Request} : ∀ {dead : FunctionRef → Prop} {roots : List Handle} {s : Session},
    s.Sound dead roots [] → s.Keeping l → s.Regular false → (∀ r ∈ rs, r.isPlain) →
      s.heap.Spares l.statics (s.serveAll rs).1.heap := by
  induction rs with
  | nil => exact fun _ _ _ _ => .refl _ _
  | cons r rs ih =>
    intro dead roots s h keeping regular plain
    obtain ⟨dead', roots', h', -⟩ := h.serve (plain r (.head _))
    exact (h.serve_spares keeping regular (plain r (.head _))).trans
      (ih h' (keeping.serve r) (regular.serve nofun).1 fun r hr => plain r (.tail _ hr))

end Session

end StackScript
