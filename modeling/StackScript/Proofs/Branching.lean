import StackScript.Proofs.Applying

/-!
Code that leaves values, and code with branches. A jump is written before its distance is known; once its label is
bound, the finished code leads on from there with the shape that the stack has on both paths.
-/
namespace StackScript

namespace Compilation

variable {o : Surroundings} {x : Nat → Option Nat} {c d e : Compilation} {s u : Shape} {span : Span} {t : Ty}

/-! ### Values -/

/-- Code that leaves one value, whatever it counts. -/
def Yields (o : Surroundings) (x : Compile Ty) : Prop :=
  ∀ (c : Compilation) (s : Shape), c.Ready o → c.Sees s → c.Level s → Meets x c
    (fun t d => t.Known ∧ c.Reaches o (fun _ => none) d s (Shape.ofTy t ++ s)) fun _ => Failed o

theorem Yields.leaving {x : Compile Ty} (h : Yields o x) : Leaves o (Compile.leaving x) := by
  intro c s hc hs hl
  refine meets_bind.2 (meets_getDraft.2 ((h c s hc hs hl).seq fun t d hd => ?_))
  obtain ⟨ht, hd⟩ := hd
  refine meets_bind.2 (meets_modify.2 (meets_pure.2 ⟨ht, hd.trans (.setDepth hd.ready _ _), ?_⟩))
  have frame := hd.writes.frame
  rw [Level] at hl
  change d.draft.frame + (c.draft.depth + t.size) = _
  rw [Shape.size_append, Shape.size_ofTy]
  omega

/-! ### Jumps -/

theorem Ready.redraft (hc : c.Ready o) {k : Draft} (ht : k.target = c.draft.target) (hs : k.scope = c.draft.scope)
    (hv : k.code.Valid) : ({ c with draft := k } : Compilation).Ready o := by
  refine ⟨hc.good.redraft k, ht ▸ hc.here, ht ▸ hc.user, ?_, hv⟩
  change k.scope < (c.library.get k.target.module).scopes.size
  rw [ht, hs]
  exact hc.scope

theorem Evolves.redraft (h : c.Evolves o x d) (k : Draft) : c.Evolves o x { d with draft := k } :=
  ⟨h.library, h.scopes, h.waiting, h.unfinished, h.module, h.pending⟩

theorem Evolves.of_redraft {k : Draft} (h : Evolves o x { c with draft := k } d) : c.Evolves o x d :=
  ⟨h.library, h.scopes, h.waiting, h.unfinished, h.module, h.pending⟩

/-- What follows a branch that is taken. -/
def taken (c : Compilation) (n : Nat) : Compilation :=
  { c with draft := { c.draft with code := (c.draft.code.jump .jumpIfNot).1, depth := n } }

/-- What follows where the branch is not taken, behind a jump over it. -/
def skipped (d : Compilation) (label n : Nat) : Compilation :=
  { d with draft := { d.draft with code := (d.draft.code.jump .jump).1.bind label, depth := n } }

def landed (d : Compilation) (label : Nat) : Compilation :=
  { d with draft := { d.draft with code := d.draft.code.bind label } }

theorem Ready.taken (hc : c.Ready o) (n : Nat) : (c.taken n).Ready o :=
  hc.redraft rfl rfl (hc.code.jump _)

theorem Ready.skipped (hc : c.Ready o) (label n : Nat) : (c.skipped label n).Ready o :=
  hc.redraft rfl rfl ((hc.code.jump _).bind label)

theorem Ready.landed (hc : c.Ready o) (label : Nat) : (c.landed label).Ready o :=
  hc.redraft rfl rfl (hc.code.bind label)

/-- Code that a jump leads over. -/
theorem Reaches.over {n : Nat} (hc : c.Ready o) (h : (c.taken n).Reaches o (fun _ => none) d s s) :
    c.Reaches o (fun _ => none) (d.landed c.draft.code.patches.size) (.own .bool :: s) s := by
  have hext : (c.draft.code.jump .jumpIfNot).1.Extends d.draft.code := h.writes.code
  have hcode := (Code.extends_jump c.draft.code .jumpIfNot).trans hext
  refine ⟨h.ready.landed _, h.evolves.of_redraft.redraft _, ⟨h.writes.target, h.writes.name, h.writes.signature,
    h.writes.captures, h.writes.scope, hcode.bind (Nat.le_refl _)⟩, fun w code final hw hfit hflow => ?_⟩
  obtain ⟨fits, n, fetch, hsize⟩ := hfit.over hc.code hext
  have yes := h.flow w code final hw fits hflow
  change w.Flow _ _ code final (c.draft.code.jump .jumpIfNot).1.size s at yes
  rw [Code.size_jump] at yes
  change w.Flow _ _ code final d.draft.code.size s at hflow
  rw [hsize] at hflow
  exact .branch fetch yes hflow

/-- One of two pieces of code, the second one behind the first. -/
theorem Reaches.either {n k : Nat} (hc : c.Ready o) (h : (c.taken n).Reaches o (fun _ => none) d s u)
    (h' : (d.skipped c.draft.code.patches.size k).Reaches o (fun _ => none) e s u) :
    c.Reaches o (fun _ => none) (e.landed d.draft.code.patches.size) (.own .bool :: s) u := by
  have hext : (c.draft.code.jump .jumpIfNot).1.Extends d.draft.code := h.writes.code
  have hskip := hext.trans (Code.extends_jump d.draft.code .jump)
  have hext' : ((d.draft.code.jump .jump).1.bind c.draft.code.patches.size).Extends e.draft.code := h'.writes.code
  have hcode := (((Code.extends_jump c.draft.code .jumpIfNot).trans hskip).bind (Nat.le_refl _)).trans hext'
  refine ⟨h'.ready.landed _, (h.evolves.of_redraft.trans h'.evolves.of_redraft).redraft _,
    ⟨h'.writes.target.trans h.writes.target, h'.writes.name.trans h.writes.name,
      h'.writes.signature.trans h.writes.signature, h'.writes.captures.trans h.writes.captures,
      h'.writes.scope.trans h.writes.scope, hcode.bind (Nat.le_of_lt (hext.open_label hext').1)⟩,
    fun w code final hw hfit hflow => ?_⟩
  obtain ⟨fits₁, fits₃, ⟨i, fetch, hsize⟩, j, fetch', hsize'⟩ := hfit.either hc.code h.ready.code hext hext'
  have target : d.draft.target = c.draft.target := h.writes.target
  have frame : d.draft.frame = c.draft.frame := h.writes.frame
  have no := h'.flow w code final
  change _ → _ → _ → w.Flow d.draft.target.module d.draft.frame code final (d.draft.code.jump .jump).1.size s at no
  rw [Code.size_jump, hsize, target, frame] at no
  have no := no (target ▸ hw) fits₃ (target ▸ frame ▸ hflow)
  change w.Flow _ _ code final e.draft.code.size u at hflow
  rw [hsize'] at hflow
  have yes := h.flow w code final ((h'.evolves.library _).trans hw) fits₁ (.jump fetch' hflow)
  change w.Flow _ _ code final (c.draft.code.jump .jumpIfNot).1.size s at yes
  rw [Code.size_jump] at yes
  exact .branch fetch yes no

theorem meets_jump {op : Opcode} {ok : Nat → Compilation → Prop} {bad : CompileError → Compilation → Prop} :
    Meets (Compile.jump op) c ok bad ↔
      ok c.draft.code.patches.size { c with draft := { c.draft with code := (c.draft.code.jump op).1 } } := Iff.rfl

/-! ### Conditionals -/

theorem Ready.branch {test : Expr} (hc : c.Ready o) : Meets (Compile.branch test t) c
    (fun label d => t = .bool ∧ label = c.draft.code.patches.size ∧ d = c.taken (c.draft.depth - 1))
    fun _ => Failed o := by
  unfold Compile.branch
  split
  · exact hc.failed
  · next h => exact ⟨Decidable.not_not.1 h, rfl, rfl⟩

theorem Sees.taken (hs : c.Sees s) (hc : c.Ready o) (h : c.Reaches o (fun _ => none) d s u) (n : Nat) :
    (d.taken n).Sees s :=
  hs.carry (u := []) hc (h.evolves.redraft _) h.writes.target h.writes.scope h.writes.frame Shape.settled_nil

theorem Level.taken (hl : c.Level s) (h : c.Reaches o (fun _ => none) d s u) (hd : d.Level (.own .bool :: s)) :
    (d.taken (d.draft.depth - 1)).Level s := by
  have frame := h.writes.frame
  have size : Shape.size (.own .bool :: s) = 1 + s.size := rfl
  rw [Level] at hl hd
  change d.draft.frame + (d.draft.depth - 1) = s.size
  omega

theorem Yields.when {test yes : Option Ty → Compile Ty} (a b : Expr) (ht : ∀ h, Leaves o (test h))
    (hy : ∀ h, Leaves o (yes h)) : Yields o (do
      let skip ← Compile.branch a (← test (some .bool))
      Compile.discard (← yes none) b.span
      Compile.bindLabel skip
      return .void) := by
  intro c s hc hs hl
  refine (ht _ c s hc hs hl).seq fun t c₁ h₁ => ?_
  obtain ⟨-, h₁, hl₁⟩ := h₁
  refine h₁.ready.branch.seq fun skip c₂ h₂ => ?_
  obtain ⟨rfl, rfl, rfl⟩ := h₂
  have ready := h₁.ready.taken (c₁.draft.depth - 1)
  have level := hl.taken h₁ hl₁
  refine (hy none _ s ready (hs.taken hc h₁ _) level).seq fun u c₃ h₃ => ?_
  obtain ⟨-, h₃, hl₃⟩ := h₃
  have frame : c₃.draft.frame ≤ s.size := by
    rw [h₃.writes.frame, ← level]
    exact Nat.le_add_right _ _
  refine (h₃.ready.discard hs.settled hl₃ frame).seq fun _ c₄ h₄ => ?_
  exact meets_bind.2 (meets_modify.2 (meets_pure.2 ⟨rfl, h₁.trans (.over h₁.ready (h₃.trans h₄.1))⟩))

theorem Yields.either {test yes no : Option Ty → Compile Ty} (a b : Expr) (expected : Option Ty)
    (ht : ∀ h, Leaves o (test h)) (hy : ∀ h, Leaves o (yes h)) (hn : ∀ h, Leaves o (no h)) : Yields o (do
      let other ← Compile.branch a (← test (some .bool))
      let depth := (← Compile.getDraft).depth
      let t ← yes expected
      let done ← Compile.jump .jump
      Compile.bindLabel other
      Compile.setDepth depth
      let u ← no (some t)
      if !t.agrees u then Compile.fail (.mismatch t u) b.span
      Compile.bindLabel done
      return (t.unify? u).getD t) := by
  intro c s hc hs hl
  refine (ht _ c s hc hs hl).seq fun t c₁ h₁ => ?_
  obtain ⟨-, h₁, hl₁⟩ := h₁
  refine h₁.ready.branch.seq fun skip c₂ h₂ => ?_
  obtain ⟨rfl, rfl, rfl⟩ := h₂
  have ready := h₁.ready.taken (c₁.draft.depth - 1)
  have level := hl.taken h₁ hl₁
  have sees := hs.taken hc h₁ (c₁.draft.depth - 1)
  refine meets_bind.2 (meets_getDraft.2 ((hy expected _ s ready sees level).seq fun t c₃ h₃ => ?_))
  obtain ⟨known, h₃, -⟩ := h₃
  have ready' := h₃.ready.skipped c₁.draft.code.patches.size (c₁.draft.depth - 1)
  have sees' : (c₃.skipped c₁.draft.code.patches.size (c₁.draft.depth - 1)).Sees s :=
    sees.carry (u := []) ready (h₃.evolves.redraft _) h₃.writes.target h₃.writes.scope h₃.writes.frame Shape.settled_nil
  have level' : (c₃.skipped c₁.draft.code.patches.size (c₁.draft.depth - 1)).Level s := by
    change c₃.draft.frame + _ = _
    rw [h₃.writes.frame]
    exact level
  refine meets_bind.2 (meets_jump.2 (meets_bind.2 (meets_modify.2 (meets_bind.2 (meets_modify.2 (meets_bind.2
    ((hn (some t) _ s ready' sees' level').imp (fun u c₅ h₅ => ?_) fun _ _ h => h)))))))
  obtain ⟨known', h₅, -⟩ := h₅
  dsimp only
  split
  · exact h₅.failed
  · next hagree =>
    obtain rfl : t = u := Ty.eq_of_agrees known known' (by simpa using hagree)
    rw [Ty.unify?_getD known]
    exact meets_bind.2 (meets_modify.2 (meets_pure.2 ⟨known, h₁.trans (.either h₁.ready h₃ h₅)⟩))

end Compilation

end StackScript
