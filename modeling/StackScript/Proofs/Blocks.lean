import StackScript.Proofs.Branching

/-!
Blocks. Their variables lie one above another where their values were pushed, and are bound in a scope of the block;
at its end they are removed from under its value.
-/
namespace StackScript

namespace Compilation

variable {o : Surroundings} {x : Nat → Option Nat} {c d e : Compilation} {s u : Shape} {span : Span} {t : Ty}
  {name : String} {m : Module}

/-! ### Variables -/

/-- The scope in which the draft binds variables. -/
def within (c : Compilation) : Nat → Option Nat := fun id =>
  if id = c.draft.target.module then some c.draft.scope else none

theorem Reaches.within (h : c.Reaches o x d s u) : d.within = c.within := by
  unfold Compilation.within
  rw [h.writes.target, h.writes.scope]

/-- Code that leaves variables, and gives their places. -/
def Places {α : Type} (o : Surroundings) (f : α → List (Nat × Ty)) (x : Compile α) : Prop :=
  ∀ (c : Compilation) (s : Shape), c.Ready o → c.Sees s → c.Level s → Meets x c
    (fun a d => Stacked c.draft.depth (f a) ∧ c.Reaches o c.within d s (stack (f a) ++ s) ∧
      d.Sees (stack (f a) ++ s) ∧ d.Level (stack (f a) ++ s)) fun _ => Failed o

theorem Stacked.append : ∀ {l k : List (Nat × Ty)} {n : Nat}, Stacked n l → Stacked (n + Ty.sizes (l.map (·.2))) k →
    Stacked n (l ++ k)
  | [], _, _, _, h => h
  | (_, t) :: l, k, n, h, h' => by
    refine ⟨h.1, Stacked.append h.2 ?_⟩
    rw [List.map_cons, Ty.sizes, ← Nat.add_assoc] at h'
    exact h'

theorem Level.depth {l : List (Nat × Ty)} (hl : c.Level s) (h : c.Reaches o x d s u) (hd : d.Level (stack l ++ s)) :
    d.draft.depth = c.draft.depth + Ty.sizes (l.map (·.2)) := by
  have frame := h.writes.frame
  rw [Level] at hl hd
  rw [Shape.size_append, size_stack] at hd
  omega

theorem places_nil : Places o id (pure []) := fun _ s hc hs hl => meets_pure.2 ⟨trivial, .refl hc _ s, hs, hl⟩

theorem Places.cons {x : Compile (Option (Nat × Ty))} {y : Compile (List (Nat × Ty))} (hx : Places o Option.toList x)
    (hy : Places o id y) : Places o id (do
      let here ← x
      let rest ← y
      return here.toList ++ rest) := by
  intro c s hc hs hl
  refine (hx c s hc hs hl).seq fun a d hd => ?_
  obtain ⟨stacked, hd, sees, level⟩ := hd
  refine (hy d _ hd.ready sees level).seq fun l e he => meets_pure.2 ?_
  obtain ⟨stacked', he, sees', level'⟩ := he
  rw [hd.within] at he
  rw [hl.depth hd level] at stacked'
  have shape : stack (id l) ++ (stack a.toList ++ s) = stack (id (a.toList ++ l)) ++ s := by simp
  rw [shape] at he sees' level'
  exact ⟨stacked.append stacked', hd.trans he, sees', level'⟩

/-- A variable lies where its value was pushed. -/
theorem Ready.bindLocal {annotated : Option Ty} {init : Expr} {n : Nat} (hc : c.Ready o)
    (hs : c.Sees (Shape.ofTy t ++ s)) (ht : t.Known) (ha : ∀ a, annotated = some a → a.Known)
    (hn : name ≠ Plain.reserved) (hsize : s.size = c.draft.frame + n) :
    Meets (Compile.bindLocal name annotated n t init span) c (fun p d => p = (n, t) ∧
      c.Reaches o c.within d (Shape.ofTy t ++ s) (Shape.ofTy t ++ s) ∧ d.Sees (Shape.ofTy t ++ s) ∧
      d.draft = c.draft) fun _ => Failed o := by
  obtain ⟨m, hm, halive⟩ := hc.here
  have houses := hc.houses hm
  have bind (u : Ty) (hu : u = t) : Meets (do
      if u.isGeneric then Compile.fail (.cannotInfer ("variable '" ++ name ++ "'")) span
      let d ← Compile.getDraft
      Compile.bindIn d.target.module d.scope name (.slot n u)
      return (n, u)) c (fun p d => p = (n, t) ∧
      c.Reaches o c.within d (Shape.ofTy t ++ s) (Shape.ofTy t ++ s) ∧ d.Sees (Shape.ofTy t ++ s) ∧
      d.draft = c.draft) fun _ => Failed o := by
    subst hu
    dsimp only
    split
    · exact hc.failed
    have binds : m.Binds name (.slot n u) := ⟨ht, hn⟩
    have sane := houses.sane.bind c.draft.scope binds
    have hscope := hc.scope
    rw [Library.get_eq hm] at hscope
    have placed := hs.placed
    rw [Library.get_eq hm] at placed
    refine meets_bind.2 (meets_getDraft.2 (meets_bind.2 ((meets_onModule hm).2
      (meets_pure.2 ⟨rfl, ?_, ⟨?_, hs.settled⟩, rfl⟩))))
    · refine .tune hc hm halive hc.user ⟨m.extends_scopes (m.scopes.bind c.draft.scope name (.slot n u)), rfl,
        rfl, rfl, rfl, sane, fun _ h => h, by simp⟩ ?_ _
      exact ScopeTable.grows_bind _ _ _ _ (.inl (if_pos rfl))
    · change ((c.library.put _ _).get _).scopes.Placed _ _ _
      rw [Library.get_put_self hm]
      exact placed.bind houses.sane.ordered hscope ⟨[], s, rfl, hsize⟩
  unfold Compile.bindLocal
  cases annotated with
  | none => exact bind t rfl
  | some a =>
    dsimp only
    split
    · refine bind _ ?_
      cases hu : a.unify? t with
      | none => rfl
      | some u => exact Ty.unify?_eq_right ht hu
    · exact hc.failed

/-! ### Statements -/

theorem Places.discard {y : Option Ty → Compile Ty} (hy : ∀ h, Leaves o (y h)) (span : Span) :
    Places o Option.toList (do
      Compile.discard (← y none) span
      return none) := by
  intro c s hc hs hl
  refine (hy none c s hc hs hl).seq fun t d hd => ?_
  obtain ⟨-, hd, level⟩ := hd
  have frame : d.draft.frame ≤ s.size := by
    rw [hd.writes.frame, ← hl]
    exact Nat.le_add_right _ _
  refine (hd.ready.discard hs.settled level frame).seq fun _ e he => meets_pure.2 ?_
  obtain ⟨he, level'⟩ := he
  have h := hd.trans he
  exact ⟨trivial, h.open _, hs.push (u := []) hc h Shape.settled_nil, level'⟩

theorem Places.bind {y : Option Ty → Compile Ty} {written : Option TypeExpr} {init : Expr} (hn : name ≠ Plain.reserved)
    (hy : ∀ h, Leaves o (y h)) (span : Span) : Places o Option.toList (do
      let annotated ← Compile.lift (written.mapM TypeExpr.resolve)
      let offset := (← Compile.getDraft).depth
      let t ← y annotated
      return some (← Compile.bindLocal name annotated offset t init span)) := by
  intro c s hc hs hl
  refine meets_bind.2 (meets_lift hc.failed fun annotated ha => ?_)
  have known : ∀ a, annotated = some a → a.Known := fun a e => TypeExpr.known_mapM (e ▸ ha)
  refine meets_bind.2 (meets_getDraft.2 ((hy annotated c s hc hs hl).seq fun t d hd => ?_))
  obtain ⟨ht, hd, level⟩ := hd
  have sees := hs.push hc hd (Shape.settled_ofTy t)
  refine (hd.ready.bindLocal (n := c.draft.depth) sees ht known hn
    (by rw [hd.writes.frame]; exact hl.symm)).seq fun p e he => meets_pure.2 ?_
  obtain ⟨rfl, he, sees', hdraft⟩ := he
  have shape : stack (some (c.draft.depth, t)).toList = Shape.ofTy t := by simp
  rw [shape]
  rw [hd.within] at he
  refine ⟨⟨rfl, trivial⟩, (hd.open _).trans he, sees', ?_⟩
  rw [Level, hdraft]
  exact level

theorem Places.declare {decl : FunctionDecl} {sg : Signature} {body : Option Ty → Compile Ty}
    (hd : decl.isPlain) (hs : Header.Declares sg) (hbody : ∀ expected, Leaves o (body expected)) :
    Places o Option.toList (do
      let _ ← Compile.declareNested decl sg body
      return none) := by
  intro c s hc hsees hl
  refine (hc.declareNested hd hs hbody s).seq fun i d h => meets_pure.2 ?_
  obtain ⟨h, hdraft, -⟩ := h
  refine ⟨trivial, h.open _, hsees.push (u := []) hc h Shape.settled_nil, ?_⟩
  rw [Level, hdraft]
  exact hl

/-! ### Scopes -/

theorem Evolves.close (h : c.Evolves o x d) (hx : ∀ id a, x id = some a → (c.library.get id).scopes.size ≤ a) :
    c.Evolves o (fun _ => none) d := by
  refine { h with scopes := fun id => ?_ }
  have := h.scopes id
  cases hid : x id with
  | none => rwa [hid] at this
  | some a =>
    rw [hid] at this
    exact this.close (hx id a hid)

/-- The draft goes on in a new scope. -/
def opened (c : Compilation) (m : Module) : Compilation :=
  { c with
    library := c.library.put c.draft.target.module { m with scopes := (m.scopes.add c.draft.scope .block "").1 }
    draft := { c.draft with scope := m.scopes.size } }

def closed (d : Compilation) (scope : Nat) : Compilation := { d with draft := { d.draft with scope := scope } }

section

variable (hc : c.Ready o) (hm : c.library.modules[c.draft.target.module]? = some m)
include hc hm

theorem Ready.scope_lt : c.draft.scope < m.scopes.size := by
  have hscope := hc.scope
  rwa [Library.get_eq hm] at hscope

theorem Ready.tunes_opened : Tunes m { m with scopes := (m.scopes.add c.draft.scope .block "").1 } :=
  ⟨m.extends_scopes (m.scopes.add c.draft.scope .block "").1, rfl, rfl, rfl, rfl,
    (hc.houses hm).sane.addScope (hc.scope_lt hm) _ _, fun _ h => h, by simp⟩

theorem Ready.opened : (c.opened m).Ready o := by
  have halive : m.alive := by
    have := hc.alive
    rwa [Library.get_eq hm] at this
  refine ⟨(hc.good.tune hm halive hc.user (hc.tunes_opened hm)).redraft _, ⟨_, Library.modules_put_self hm, halive⟩,
    hc.user, ?_, hc.code⟩
  change m.scopes.size < ((c.library.put _ _).get c.draft.target.module).scopes.size
  rw [Library.get_put_self hm]
  simp

theorem Ready.evolves_opened : c.Evolves o (fun _ => none) (c.opened m) := by
  have tunes := hc.tunes_opened hm
  have := Evolves.put (o := o) (x := fun _ => none) hm tunes.growth (untouched_of_eq rfl)
    (ScopeTable.grows_add m.scopes c.draft.scope .block "") c.heap
  exact this.redraft _

theorem Sees.opened (hs : c.Sees s) : (c.opened m).Sees s := by
  have placed := hs.placed
  rw [Library.get_eq hm] at placed
  refine ⟨?_, hs.settled⟩
  change ((c.library.put _ _).get c.draft.target.module).scopes.Placed m.scopes.size _ _
  rw [Library.get_put_self hm]
  exact placed.addBlock (hc.houses hm).sane.ordered (hc.scope_lt hm) ""

/-- What is bound in a block is not seen outside of it. -/
theorem Reaches.closed (h : (c.opened m).Reaches o (c.opened m).within d s u) :
    c.Reaches o (fun _ => none) (d.closed c.draft.scope) s u := by
  have evolves : c.Evolves o (c.opened m).within d := ((hc.evolves_opened hm).open _).trans h.evolves
  have closed : c.Evolves o (fun _ => none) d := evolves.close fun id a ha => by
    unfold Compilation.within at ha
    split at ha
    · next hid =>
      cases ha
      rw [hid]
      exact Nat.le_of_eq (by rw [show (c.opened m).draft.target = c.draft.target from rfl, Library.get_eq hm]; rfl)
    · cases ha
  have target : d.draft.target = c.draft.target := h.writes.target
  refine ⟨⟨h.ready.good.redraft _, h.ready.here, h.ready.user, ?_, h.ready.code⟩, closed.redraft _,
    ⟨target, h.writes.name, h.writes.signature, h.writes.captures, rfl, h.writes.code⟩, h.flow⟩
  change c.draft.scope < (d.library.get d.draft.target.module).scopes.size
  rw [target]
  exact Nat.lt_of_lt_of_le hc.scope (closed.scopes _).size

end

theorem Yields.inBlock {y : Compile Ty} (hy : ∀ (c : Compilation) (s : Shape), c.Ready o → c.Sees s → c.Level s →
    Meets y c (fun t d => t.Known ∧ c.Reaches o c.within d s (Shape.ofTy t ++ s)) fun _ => Failed o) :
    Yields o (Compile.inBlock y) := by
  intro c s hc hs hl
  obtain ⟨m, hm, -⟩ := hc.here
  refine meets_bind.2 (meets_getDraft.2 (meets_bind.2 ((meets_onModule hm).2 (meets_bind.2 (meets_modify.2
    (meets_bind.2 ?_))))))
  refine (hy (c.opened m) s (hc.opened hm) (hs.opened hc hm) hl).imp (fun t d hd => ?_) fun _ _ h => h
  exact meets_bind.2 (meets_modify.2 (meets_pure.2 ⟨hd.1, hd.2.closed hc hm⟩))

/-- The value of a block is left when its variables are removed. -/
theorem Yields.block {ss : Compile (List (Nat × Ty))} {value : Option Ty → Compile Ty} (hss : Places o id ss)
    (hv : ∀ h, Leaves o (value h)) (expected : Option Ty) (span : Span) : Yields o (Compile.inBlock do
      let locals ← ss
      let t ← value expected
      Compile.releaseLocals locals t span
      return t) := by
  refine .inBlock fun c s hc hs hl => (hss c s hc hs hl).seq fun locals c₁ h₁ => ?_
  obtain ⟨stacked, h₁, sees, level⟩ := h₁
  refine (hv expected c₁ _ h₁.ready sees level).seq fun t c₂ h₂ => ?_
  obtain ⟨ht, h₂, level₂⟩ := h₂
  have h := h₁.trans (h₂.open _)
  refine (h.ready.releaseLocals hs.settled stacked ?_ level₂).seq fun _ d hd => meets_pure.2 ⟨ht, ?_⟩
  · rw [h.writes.frame]
    exact hl.symm
  · exact h.trans (hd.reaches.open _)

end Compilation

end StackScript
