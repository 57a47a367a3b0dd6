import StackScript.Proofs.Dropping

/-!
The code of an expression under the variables that it sees. Wherever the stack holds the variables at their places, the
code puts on top of it what the evaluator makes of them, or breaks off with the fault that the evaluator gives.
-/
namespace StackScript

/-! ### Data -/

namespace Datum

mutual

/-- The elements of lists have the type that the list says. -/
def Uniform : Datum → Prop
  | list t ds => AllUniform ds ∧ ∀ d ∈ ds, d.ty = t
  | tuple ds => AllUniform ds
  | _ => True

def AllUniform : List Datum → Prop
  | [] => True
  | d :: ds => d.Uniform ∧ AllUniform ds

end

theorem allUniform_iff {ds : List Datum} : AllUniform ds ↔ ∀ d ∈ ds, d.Uniform := by
  induction ds with
  | nil => simp [AllUniform]
  | cons d ds ih => simp [AllUniform, ih]

/-- A datum of a type. -/
structure Fits (d : Datum) (t : Ty) : Prop where
  ty : d.ty = t
  uniform : d.Uniform

theorem fits_void : void.Fits .void := ⟨rfl, trivial⟩

end Datum

/-- Variables of the types that are seen. -/
structure Env.Fits (ρ : Env) (Γ : Context) : Prop where
  types : ρ.types = Γ
  uniform : ∀ p ∈ ρ, p.2.Uniform

theorem Env.lookup_types (ρ : Env) (name : String) : ρ.types.lookup name = (ρ.lookup name).map Datum.ty := by
  induction ρ with
  | nil => rfl
  | cons p ρ ih =>
    obtain ⟨x, v⟩ := p
    change List.lookup name ((x, v.ty) :: types ρ) = _
    rw [List.lookup_cons, List.lookup_cons]
    split
    · rfl
    · exact ih

theorem Env.Fits.lookup {ρ : Env} {Γ : Context} {name : String} {t : Ty} (h : ρ.Fits Γ) (ht : Γ.lookup name = some t) :
    ∃ v, ρ.lookup name = some v ∧ v.Fits t := by
  rw [← h.types, ρ.lookup_types] at ht
  obtain ⟨v, hv, rfl⟩ := Option.map_eq_some_iff.1 ht
  refine ⟨v, hv, rfl, ?_⟩
  obtain ⟨l, k, hl, -⟩ := List.lookup_eq_some_iff.1 hv
  exact h.uniform (name, v) (hl ▸ by simp)

theorem Env.Fits.cons {ρ : Env} {Γ : Context} {v : Datum} {t : Ty} (h : ρ.Fits Γ) (hv : v.Fits t) (name : String) :
    Env.Fits ((name, v) :: ρ) ((name, t) :: Γ) := by
  refine ⟨?_, fun p hp => ?_⟩
  · rw [← h.types, ← hv.ty]
    rfl
  · rcases List.mem_cons.1 hp with rfl | hp
    · exact hv.uniform
    · exact h.uniform p hp

namespace Compilation

variable {c d e : Compilation} {Γ : Context} {ρ : Env} {s u : Pile} {out : Except Fault Pile} {span : Span} {t : Ty}
  {n : Nat} {name : String}

/-! ### Variables -/

/-- A variable on the stack that is seen under a name. -/
def Locates (c : Compilation) (name : String) (offset : Nat) (t : Ty) : Prop :=
  ∃ a, c.table.resolve? c.draft.scope name = some ⟨a, .slot offset t, false⟩

/-- The variables that are seen. -/
def Names (c : Compilation) (Γ : Context) : Prop :=
  ∀ name t, Γ.lookup name = some t → t.Known ∧ ∃ offset, c.Locates name offset t

/-- The variables lie at their places. -/
structure Bears (c : Compilation) (ρ : Env) (s : Pile) : Prop where
  settled : s.Settled
  level : s.size = c.draft.depth
  places : ∀ name v offset t, ρ.lookup name = some v → c.Locates name offset t →
    ∃ top below, s = top ++ (Pile.of v ++ below) ∧ below.size = offset

/-- What was bound in other scopes is not seen. -/
theorem Proceeds.locates (h : c.Proceeds n d) (hc : c.Hosts) (hn : c.draft.scope < n) {offset : Nat} :
    d.Locates name offset t ↔ c.Locates name offset t := by
  unfold Locates
  rw [h.writes.scope, ScopeTable.resolve?_spares hc.ordered h.scopes hn hc.scope]

theorem Names.proceeds (h : c.Names Γ) (hc : c.Hosts) (k : c.Proceeds n d) (hn : c.draft.scope < n) : d.Names Γ :=
  fun name t ht => ⟨(h name t ht).1, (h name t ht).2.imp fun _ ho => (k.locates hc hn).2 ho⟩

theorem Names.grows (h : c.Names Γ) (hc : c.Hosts) (k : c.Grows d) : d.Names Γ := h.proceeds hc k hc.scope

/-- More lies above the variables. -/
theorem Bears.push (h : c.Bears ρ s) (hc : c.Hosts) (k : c.Grows d) (hu : u.Settled)
    (depth : d.draft.depth = c.draft.depth + u.size) : d.Bears ρ (u ++ s) := by
  refine ⟨Pile.settled_append.2 ⟨hu, h.settled⟩, ?_, fun name v offset t hv ho => ?_⟩
  · rw [Pile.size_append, h.level, depth, Nat.add_comm]
  · obtain ⟨top, below, rfl, hb⟩ := h.places name v offset t hv ((k.locates hc hc.scope).1 ho)
    exact ⟨u ++ top, below, by simp, hb⟩

theorem Bears.grows (h : c.Bears ρ s) (hc : c.Hosts) (k : c.Grows d) (depth : d.draft.depth = c.draft.depth) :
    d.Bears ρ s :=
  h.push (u := []) hc k Pile.settled_nil depth

/-! ### Code for what is computed from variables -/

theorem converts_of_draft (h : d.draft = c.draft) (s : Pile) : c.Converts d s (.ok s) := fun w code _ _ => by
  rw [h]
  exact .refl w _ code _ s

theorem Converts.congr {out' : Except Fault Pile} (h : c.Converts d s out) (e : out' = out) : c.Converts d s out' := e ▸ h

/-- Code was written for what is computed from the variables. It leaves the pile of the result on what the stack holds,
and every result is as it is said to be. -/
structure Rendered {α : Type} (Γ : Context) (pile : α → Pile) (fits : α → Prop) (v : Env → Except Fault α)
    (c d : Compilation) : Prop where
  grows : c.Grows d
  converts : ∀ ρ s, ρ.Fits Γ → c.Bears ρ s → c.Converts d s ((v ρ).map fun x => pile x ++ s)
  fits : ∀ ρ x, ρ.Fits Γ → v ρ = .ok x → fits x

namespace Rendered

variable {α β : Type} {P : α → Pile} {Q : β → Pile} {F : α → Prop} {G : β → Prop} {v v' : Env → Except Fault α}
  {w : Env → Except Fault β}

theorem congr (h : Rendered Γ P F v c d) (e : ∀ ρ, ρ.Fits Γ → v' ρ = v ρ) : Rendered Γ P F v' c d :=
  ⟨h.grows, fun ρ s hρ hs => e ρ hρ ▸ h.converts ρ s hρ hs, fun ρ x hρ hx => h.fits ρ x hρ (e ρ hρ ▸ hx)⟩

/-- The module may change while nothing is written. -/
theorem constant (h : c.Grows d) (hd : d.draft = c.draft) {x : α} (hp : P x = []) (hx : F x) :
    Rendered Γ P F (fun _ => .ok x) c d := by
  refine ⟨h, fun ρ s _ _ => ?_, fun _ y _ hy => ?_⟩
  · change c.Converts d s (.ok (P x ++ s))
    rw [hp]
    exact converts_of_draft hd s
  · cases hy
    exact hx

/-- The second one is computed above the first one. -/
theorem both (h : Rendered Γ P F v c d) (k : Rendered Γ Q G w d e) (hc : c.Hosts)
    (above : ∀ x, F x → (P x).Settled ∧ d.draft.depth = c.draft.depth + (P x).size) :
    Rendered Γ (fun p => Q p.2 ++ P p.1) (fun p => F p.1 ∧ G p.2)
      (fun ρ => do
        let x ← v ρ
        let y ← w ρ
        return (x, y)) c e := by
  refine ⟨h.grows.trans k.grows, fun ρ s hρ hs => ?_, fun ρ p hρ hp => ?_⟩
  · have second (x : α) (hx : v ρ = .ok x) : d.Converts e (P x ++ s) ((w ρ).map fun y => Q y ++ (P x ++ s)) :=
      have ⟨settled, depth⟩ := above x (h.fits ρ x hρ hx)
      k.converts ρ _ hρ (hs.push hc h.grows settled depth)
    refine ((h.converts ρ s hρ hs).bind second h.grows k.grows).congr ?_
    cases v ρ with
    | error f => rfl
    | ok x => cases w ρ <;> simp [bind, Except.bind, Except.map, pure, Except.pure]
  · obtain ⟨x, hx, hp⟩ := bind_eq_ok.1 hp
    obtain ⟨y, hy, hp⟩ := bind_eq_ok.1 hp
    exact Except.ok.inj hp ▸ ⟨h.fits ρ x hρ hx, k.fits ρ y hρ hy⟩

/-- Instructions go on from the result. -/
theorem andThen (h : Rendered Γ P F v c d) {f : α → Except Fault β} (grows : d.Grows e)
    (converts : ∀ x s, F x → s.Settled → d.Converts e (P x ++ s) ((f x).map fun y => Q y ++ s))
    (fits : ∀ x y, F x → f x = .ok y → G y) : Rendered Γ Q G (fun ρ => v ρ >>= f) c e := by
  refine ⟨h.grows.trans grows, fun ρ s hρ hs => ?_, fun ρ y hρ hy => ?_⟩
  · refine ((h.converts ρ s hρ hs).bind (fun x hx => converts x s (h.fits ρ x hρ hx) hs.settled) h.grows grows).congr ?_
    cases v ρ <;> rfl
  · obtain ⟨x, hx, hy⟩ := bind_eq_ok.1 hy
    exact fits x y (h.fits ρ x hρ hx) hy

/-- What the stack holds is read as another result. -/
theorem map (h : Rendered Γ P F v c d) {f : α → β} (pile : ∀ x, F x → Q (f x) = P x) (fits : ∀ x, F x → G (f x)) :
    Rendered Γ Q G (fun ρ => (v ρ).map f) c d := by
  refine (h.andThen (f := fun x => .ok (f x)) (.refl h.grows.hosts _) (fun x s hx _ => ?_) fun x y hx hy => ?_).congr
    fun ρ _ => ?_
  · change d.Converts d _ (.ok (Q (f x) ++ s))
    rw [pile x hx]
    exact converts_refl d _
  · cases hy
    exact fits x hx
  · cases v ρ <;> rfl

theorem setDepth (h : Rendered Γ P F v c d) (n : Nat) :
    Rendered Γ P F v c { d with draft := { d.draft with depth := n } } :=
  ⟨h.grows.trans (h.grows.hosts.setDepth n), fun ρ s hρ hs => (h.converts ρ s hρ hs).setDepth n, h.fits⟩

end Rendered

/-- Code was written that leaves a datum of a type. -/
abbrev Lays (Γ : Context) (t : Ty) (v : Env → Except Fault Datum) (c d : Compilation) : Prop :=
  Rendered Γ Pile.of (·.Fits t) v c d

theorem Lays.both {α : Type} {Q : α → Pile} {G : α → Prop} {v : Env → Except Fault Datum} {w : Env → Except Fault α}
    (h : Lays Γ t v c d) (k : Rendered Γ Q G w d e) (hc : c.Hosts) (depth : d.draft.depth = c.draft.depth + t.size) :
    Rendered Γ (fun p => Q p.2 ++ Pile.of p.1) (fun p => p.1.Fits t ∧ G p.2)
      (fun ρ => do
        let x ← v ρ
        let y ← w ρ
        return (x, y)) c e :=
  Rendered.both h k hc fun x hx => ⟨Pile.settled_of x, by rw [Pile.size_of, hx.ty, depth]⟩

/-- Writes code that leaves a datum. -/
def Computes (Γ : Context) (t : Ty) (v : Env → Except Fault Datum) (x : Compile Ty) : Prop :=
  ∀ c : Compilation, c.Hosts → c.Names Γ → Meets x c (fun r d => r = t ∧ t.Known ∧ Lays Γ t v c d) fun _ _ => True

/-- Writes code that leaves a datum, and counts its bytes. -/
def Renders (Γ : Context) (t : Ty) (v : Env → Except Fault Datum) (x : Compile Ty) : Prop :=
  ∀ c : Compilation, c.Hosts → c.Names Γ → Meets x c (fun r d => r = t ∧ t.Known ∧ Lays Γ t v c d ∧
    d.draft.depth = c.draft.depth + t.size) fun _ _ => True

theorem Computes.leaving {v : Env → Except Fault Datum} {x : Compile Ty} (h : Computes Γ t v x) :
    Renders Γ t v (Compile.leaving x) := by
  intro c hc hn
  refine meets_bind.2 (meets_getDraft.2 ((h c hc hn).seq fun r d hd => ?_))
  obtain ⟨rfl, known, hd⟩ := hd
  exact meets_bind.2 (meets_modify.2 (meets_pure.2 ⟨rfl, known, hd.setDepth _, rfl⟩))

/-! ### Literals -/

theorem gains_addValue (n : Nat) (m : Module) (x : Value) : Gains n m (m.addValue x).1 :=
  ⟨fun _ _ h => Module.getElem?_push h x, fun _ _ h => h, rfl, rfl, .refl n _, fun h => h⟩

/-- A static value is pushed. -/
theorem Hosts.loadStatic (hc : c.Hosts) {x : Value} {y : Datum} {i : Nat}
    (hx : (c.library.get c.draft.target.module).values[i]? = some x) (hy : c.store.Denotes x y) (span : Span) :
    Meets (Compile.emit1 .loadStatic i span) c (fun _ d => c.Grows d ∧ ∀ s, c.Converts d s (.ok (Pile.of y ++ s)))
      fun _ _ => True :=
  (hc.emit1 rfl i span).imp (fun _ _ hd => ⟨hd.grows, fun _ => hd.converts fun _ hw =>
    .loadStatic (hw.values i x hx) (hy.extends hw)⟩) fun _ _ h => h

theorem eq_of_same {x y : Value} (h : x.same y) (ht : x.ty = y.ty) (hy : ∀ ys, y ≠ .tuple ys) : x = y := by
  cases x <;> cases y <;> simp_all [Value.same, Value.ty]

/-- An interned value is found or added. -/
theorem internValue_eq (m : Module) {x : Value} (hx : ∀ xs, x ≠ .tuple xs) :
    Gains n m (m.internValue x).1 ∧ (m.internValue x).1.values[(m.internValue x).2]? = some x ∧
      ((m.internValue x).1 = m ∨ (m.internValue x).1 = (m.addValue x).1) := by
  unfold Module.internValue
  split
  · next i hi =>
    obtain ⟨hlt, hp, -⟩ := Array.findIdx?_eq_some_iff_getElem.1 hi
    simp only [Bool.and_eq_true, decide_eq_true_eq] at hp
    refine ⟨.refl n m, ?_, .inl rfl⟩
    rw [Array.getElem?_eq_getElem hlt, eq_of_same hp.1.1 hp.1.2 hx]
  · exact ⟨gains_addValue n m x, Array.getElem?_push_size, .inr rfl⟩

/-- A static value takes over references. -/
theorem accounts_addValue {m : Module} {x : Value} {h : Heap} {roots : List Handle}
    (hm : c.library.modules[c.draft.target.module]? = some m)
    (hb : h.cells.size ≤ Heap.capacity → h.Balanced (x.handles ++ (roots ++ c.library.statics))) :
    Accounts roots { c with library := c.library.put c.draft.target.module (m.addValue x).1, heap := h } := fun hcap =>
  (hb hcap).congr fun r _ => by
    simp only [List.count_append, (Library.perm_statics_addValue hm x).count_eq r]
    omega

/-- The value of a literal that is no text. -/
theorem value_literal {v : Literal} (hv : ∀ r, v ≠ .string r) : ∃ x : Value, (∀ h, v.value h = (h, x)) ∧
    x.ty = v.ty ∧ (∀ xs, x ≠ .tuple xs) ∧ x.handles = [] ∧ ∀ Δ, (Datum.ofLiteral v).Is Δ x := by
  cases v with
  | string r => exact absurd rfl (hv r)
  | _ => exact ⟨_, fun _ => rfl, rfl, nofun, rfl, fun _ => rfl⟩

theorem fits_literal (v : Literal) : (Datum.ofLiteral v).Fits v.ty := by
  cases v <;> exact ⟨rfl, trivial⟩

theorem known_literal (v : Literal) : v.ty.Known := by
  cases v <;> rfl

theorem denotes_string {h : Heap} (l : Library) (tidy : h.cells.size ≤ Heap.capacity → h.Tidy) (r : String) :
    Store.Denotes ⟨l, (h.allocString r).1⟩ (.string (h.allocString r).2) (.string r) := by
  intro hcap
  change (h.alloc (.string r)).1.cells.size ≤ _ at hcap
  have allocates := Heap.allocates (tidy (Nat.le_trans (Heap.size_le_alloc h _) hcap)) (.string r) hcap
  obtain ⟨k, -, hk⟩ := allocates.self
  change (Datum.string r).Is (h.alloc (.string r)).1.texts (.string (h.alloc (.string r)).2)
  generalize (h.alloc (.string r)).1 = h' at *
  generalize (h.alloc (.string r)).2 = q at *
  have hnull : q.isNull = false := by
    cases hq : q.isNull with
    | false => rfl
    | true =>
      rw [allocates.tidy.cell?_null hq] at hk
      cases hk
  simp [Datum.Is, hnull, Heap.texts, Heap.filled?, hk]

theorem computes_literal (v : Literal) (expected : Option Ty) (span : Span) : Computes Γ (v.adapt expected).ty
    (fun _ => .ok (.ofLiteral (v.adapt expected))) (Compile.pushLiteral v expected span) := by
  intro c hc _
  obtain ⟨m, hm⟩ := hc.here
  -- The value is among those of the module, and is pushed.
  have load {d : Compilation} {x : Value} {i : Nat} (hd : c.Grows d) (draft : d.draft = c.draft)
      (hx : (d.library.get c.draft.target.module).values[i]? = some x)
      (denotes : d.store.Denotes x (.ofLiteral (v.adapt expected))) (ht : x.ty = (v.adapt expected).ty) :
      Meets (Compile.emit1 .loadStatic i span >>= fun _ => pure x.ty) d (fun r e => r = (v.adapt expected).ty ∧
        (v.adapt expected).ty.Known ∧ Lays Γ (v.adapt expected).ty (fun _ => .ok (.ofLiteral (v.adapt expected))) c e)
        fun _ _ => True := by
    rw [← hd.writes.target] at hx
    refine (hd.hosts.loadStatic hx denotes span).seq fun _ e he => meets_pure.2 ⟨ht, known_literal _, ?_⟩
    refine ⟨hd.trans he.1, fun _ s _ _ => (converts_of_draft draft s).trans (he.2 s) hd he.1, fun _ y _ hy => ?_⟩
    cases hy
    exact fits_literal _
  have interned (hv : ∀ r, v ≠ .string r) : Meets (Compile.onModule c.draft.target.module
        (fun m => m.internValue ((v.adapt expected).value c.heap).2) >>= fun i => Compile.emit1 .loadStatic i span >>=
          fun _ => pure ((v.adapt expected).value c.heap).2.ty) { c with heap := ((v.adapt expected).value c.heap).1 }
      (fun r e => r = (v.adapt expected).ty ∧ (v.adapt expected).ty.Known ∧
        Lays Γ (v.adapt expected).ty (fun _ => .ok (.ofLiteral (v.adapt expected))) c e) fun _ _ => True := by
    obtain ⟨x, hx, ht, htuple, hhandles, is⟩ := value_literal (adapt_ne_string hv expected)
    obtain ⟨gains, hvalue, hmodule⟩ := internValue_eq (n := c.table.size) m htuple
    have accounts {roots : List Handle} (ha : c.Accounts roots) : Accounts roots { c with
        library := c.library.put c.draft.target.module (m.internValue x).1, heap := c.heap } := by
      rcases hmodule with e | e <;> rw [e]
      · exact ha.put hm rfl rfl rfl
      · exact accounts_addValue hm fun hcap => hhandles ▸ ha hcap
    rw [hx]
    refine meets_bind.2 ((meets_onModule hm).2 (load (hc.put hm gains (.refl _) hc.heap accounts) rfl ?_ (fun _ => is _) ht))
    rw [Library.get_put_self hm]
    exact hvalue
  refine meets_bind.2 (meets_here.2 (meets_bind.2 (meets_onHeap.2 ?_)))
  cases v with
  | string r =>
    have hadapt := adapt_string r expected
    have allocates (hcap : (c.heap.alloc (.string r)).1.cells.size ≤ Heap.capacity) :=
      Heap.allocates (hc.heap (Nat.le_trans (Heap.size_le_alloc _ _) hcap)) (.string r) hcap
    have accounts {roots : List Handle} (ha : c.Accounts roots) : Accounts roots { c with
        library := c.library.put c.draft.target.module (m.addValue (.string (c.heap.allocString r).2)).1
        heap := (c.heap.allocString r).1 } := accounts_addValue hm fun hcap =>
      (ha (Nat.le_trans (Heap.size_le_alloc _ _) hcap)).alloc (x := .string r) ⟨[], rfl⟩ hcap (allocates hcap)
    rw [hadapt] at load ⊢
    refine meets_bind.2 ((meets_onModule (c := { c with heap := (c.heap.allocString r).1 }) hm).2 ?_)
    refine load (x := .string (c.heap.allocString r).2) (hc.put hm (gains_addValue _ m _) (Heap.retains_alloc hc.heap _)
      (fun hcap => (allocates hcap).tidy) accounts) rfl ?_ (denotes_string _ hc.heap r) rfl
    rw [Library.get_put_self hm]
    exact Array.getElem?_push_size
  | _ => exact interned (by simp)

/-! ### Variables as values -/

theorem Locates.resolve {offset : Nat} (h : c.Locates name offset t) (span : Span) :
    c.draft.resolve c.library name span = .ok (.stored .copyVariable offset t) := by
  obtain ⟨a, ha⟩ := h
  unfold Draft.resolve
  change c.table.resolve? _ _ = _ at ha
  simp only [table] at ha
  simp [ha, Meaning.ofLookup, Meaning.ofGlobal?]

/-- A variable is copied, and the copy takes references of its own. -/
theorem Hosts.pushStored (hc : c.Hosts) (offset : Nat) (t : Ty) (span : Span) :
    Meets (do
      if 0 < t.size then
        Compile.emit2 .copyVariable offset t.size span
        Compile.retain t span
      return t) c (fun r d => r = t ∧ Brings (fun s u => ∃ top v below, Datum.ty v = t ∧ Pile.size below = offset ∧
        s = top ++ (Pile.of v ++ below) ∧ u = Pile.of v ++ s) c d) fun _ _ => True := by
  dsimp only
  split
  · refine (hc.emit2 rfl offset t.size span).seq fun _ d hd => ?_
    have copied : Brings (fun s u => ∃ top v below, Datum.ty v = t ∧ Pile.size below = offset ∧
        s = top ++ (Pile.of v ++ below) ∧ u = (v.atoms.map Piece.lend).reverse ++ s) c d := by
      refine hd.brings ?_
      rintro w k _ _ ⟨top, v, below, rfl, hb, rfl, rfl⟩
      exact .copyVariable hb rfl
    refine (hd.grows.hosts.retain t span).seq fun _ e he => meets_pure.2 ⟨rfl, (copied.trans he).imp ?_⟩
    rintro s _ ⟨top, v, below, hv, hb, hs, rfl⟩
    exact ⟨_, ⟨top, v, below, hv, hb, hs, rfl⟩, s, v, hv, rfl, rfl⟩
  · next hsize =>
    refine meets_pure.2 ⟨rfl, (Brings.refl hc).imp ?_⟩
    rintro s _ ⟨top, v, below, rfl, -, -, rfl⟩
    rw [Pile.of, Datum.atoms_of_size (by omega)]
    rfl

theorem computes_variable {deferred : Deferred} (ht : Γ.lookup name = some t) (expected : Option Ty) (span : Span) :
    Computes Γ t (fun ρ => .ok ((ρ.lookup name).getD .void)) (Compile.pushVariable deferred name expected span) := by
  intro c hc hn
  obtain ⟨known, offset, ho⟩ := hn name t ht
  have hlimit : Compile.nestingLimit = 4095 + 1 := rfl
  rw [Compile.pushVariable, hlimit, Compile.pushNested]
  refine meets_bind.2 (meets_bind.2 (meets_get.2 ?_))
  rw [ho.resolve]
  refine (hc.pushStored offset t span).imp (fun r d ⟨hr, hd⟩ => ⟨hr, known, hd.grows, fun ρ s hρ hs => ?_, fun ρ x hρ hx => ?_⟩)
    fun _ _ h => h
  · obtain ⟨v, hv, fits⟩ := hρ.lookup ht
    obtain ⟨top, below, hs', hb⟩ := hs.places name v offset t hv ho
    rw [hv]
    exact hd.converts _ _ ⟨top, v, below, fits.ty, hb, hs', rfl⟩
  · obtain ⟨v, hv, fits⟩ := hρ.lookup ht
    rw [hv] at hx
    exact Except.ok.inj hx ▸ fits

/-! ### Likely types -/

theorem lookup_of_contains (h : (Γ.map (·.1)).contains name = true) : ∃ t, Γ.lookup name = some t := by
  obtain ⟨⟨_, t⟩, hp, rfl⟩ := List.mem_map.1 (List.contains_iff_mem.1 h)
  exact Option.isSome_iff_exists.1 (List.lookup_isSome_iff.2 ⟨_, hp, by simp⟩)

theorem Names.hint (h : c.Names Γ) : ∀ {e : Expr}, e.isCallFree (Γ.map (·.1)) →
    c.draft.hint? c.library e = e.hintIn Γ
  | .variable name span, he => by
    obtain ⟨t, ht⟩ := lookup_of_contains he
    obtain ⟨-, offset, ho⟩ := h name t ht
    rw [Draft.hint?, Draft.nameHint?, ho.resolve, Expr.hintIn, ht]
  | .literal v span, _ => by
    cases v <;> rfl
  | .group e _, he | .unary _ e _, he => by
    have he : e.isCallFree _ := he
    rw [Draft.hint?, Expr.hintIn, h.hint he]
  | .binary op a b _, he => by
    obtain ⟨ha, hb⟩ := Bool.and_eq_true_iff.1 he
    cases op <;> simp only [Draft.hint?, Expr.hintIn, h.hint ha, h.hint hb]
  | .index a b _, he => by
    rw [Draft.hint?, Expr.hintIn, h.hint (Bool.and_eq_true_iff.1 he).1]
  | .field e i _, he => by
    have he : e.isCallFree _ := he
    cases ht : e.hintIn Γ with
    | none => simp only [Draft.hint?, Expr.hintIn, h.hint he, ht]
    | some t => cases t <;> simp only [Draft.hint?, Expr.hintIn, h.hint he, ht]
  | .tuple _ _, _ | .list _ _, _ | .block _ _ _, _ | .cond _ _ _ _, _ => rfl

end Compilation

end StackScript
