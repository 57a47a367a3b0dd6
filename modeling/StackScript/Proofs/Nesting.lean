import StackScript.Proofs.Composing

/-!
Conditionals and blocks. A jump leads over the code that is not to be run; the variables of a block lie one above another
where their values were pushed, and those that are bound later hide the earlier ones of their name.
-/
namespace StackScript

namespace Store.Carries

variable {w : Store} {k : Nat} {code : Array UInt8} {pc pc' pc'' : Nat} {s : Pile} {out : Except Fault Pile}

/-- Code that leaves every pile as it is follows. -/
theorem follow (h : w.Carries k code pc pc' s out) (h' : ∀ u, w.Carries k code pc' pc'' u (.ok u)) :
    w.Carries k code pc pc'' s out := fun final hok hbad =>
  h final (fun u hu => h' u final (fun v hv => by cases hv; exact hok u hu) nofun) hbad

end Store.Carries

namespace Compilation

variable {c d e : Compilation} {Γ Γ' : Context} {s : Pile} {out : Except Fault Pile} {span : Span} {t u : Ty} {n k : Nat}

/-! ### Jumps -/

theorem Hosts.taken (hc : c.Hosts) (n : Nat) : c.Grows (c.taken n) :=
  hc.draft ⟨rfl, rfl, rfl, rfl, rfl, Code.extends_jump _ _⟩ (hc.code.jump _)

/-- Code that a jump leads over. -/
theorem Hosts.over (hc : c.Hosts) (h : (c.taken n).Grows d) : c.Grows (d.landed c.draft.code.patches.size) := by
  have hext : (c.draft.code.jump .jumpIfNot).1.Extends d.draft.code := h.writes.code
  have hcode := (Code.extends_jump c.draft.code .jumpIfNot).trans hext
  exact ((hc.taken n).trans h).redraft ⟨h.writes.target, h.writes.name, h.writes.signature, h.writes.captures, h.writes.scope,
    hcode.bind (Nat.le_refl _)⟩ (h.hosts.code.bind _)

/-- Code that another jump leads to. -/
theorem Hosts.skipped (hc : c.Hosts) (h : (c.taken n).Grows d) (k : Nat) : c.Grows (d.skipped c.draft.code.patches.size k) := by
  have hext : (c.draft.code.jump .jumpIfNot).1.Extends d.draft.code := h.writes.code
  have hcode := (Code.extends_jump c.draft.code .jumpIfNot).trans (hext.trans (Code.extends_jump d.draft.code .jump))
  exact ((hc.taken n).trans h).redraft ⟨h.writes.target, h.writes.name, h.writes.signature, h.writes.captures, h.writes.scope,
    hcode.bind (Nat.le_refl _)⟩ ((h.hosts.code.jump _).bind _)

theorem Hosts.either (hc : c.Hosts) (h : (c.taken n).Grows d) (h' : (d.skipped c.draft.code.patches.size k).Grows e) :
    c.Grows (e.landed d.draft.code.patches.size) := by
  have hext : (c.draft.code.jump .jumpIfNot).1.Extends d.draft.code := h.writes.code
  have grows := (hc.skipped h k).trans h'
  have hlabels := (hext.open_label h'.writes.code).1
  exact grows.redraft ⟨grows.writes.target, grows.writes.name, grows.writes.signature, grows.writes.captures,
    grows.writes.scope, grows.writes.code.bind (Nat.le_of_lt hlabels)⟩ (grows.hosts.code.bind _)

theorem Converts.over {x : Bool} (hc : c.Hosts) (h : (c.taken n).Grows d) (yes : x = true → (c.taken n).Converts d s out)
    (no : x = false → out = .ok s) : c.Converts (d.landed c.draft.code.patches.size) (.own (.bool x) :: s) out := by
  intro w code hw hfit
  obtain ⟨fits, m, fetch, hsize⟩ := Code.Fits.over hfit hc.code h.writes.code
  refine .branch fetch ?_
  cases x with
  | true =>
    have taken := yes rfl w code hw fits
    change w.Carries _ code (c.draft.code.jump .jumpIfNot).1.size _ s out at taken
    rwa [Code.size_jump] at taken
  | false =>
    rw [no rfl, if_neg nofun, ← hsize]
    exact .refl w _ code _ s

theorem Converts.either {x : Bool} (hc : c.Hosts) (h : (c.taken n).Grows d)
    (h' : (d.skipped c.draft.code.patches.size k).Grows e) (yes : x = true → (c.taken n).Converts d s out)
    (no : x = false → (d.skipped c.draft.code.patches.size k).Converts e s out) :
    c.Converts (e.landed d.draft.code.patches.size) (.own (.bool x) :: s) out := by
  intro w code hw hfit
  obtain ⟨fits, fits', ⟨i, fetch, hsize⟩, j, fetch', hsize'⟩ :=
    Code.Fits.either hfit hc.code h.hosts.code h.writes.code h'.writes.code
  have target : d.draft.target = c.draft.target := h.writes.target
  refine .branch fetch ?_
  cases x with
  | true =>
    have store : d.store.Extends d.draft.target.module e.store := h'.store
    rw [target] at store
    have taken := yes rfl w code (store.trans hw) fits
    change w.Carries _ code (c.draft.code.jump .jumpIfNot).1.size _ s out at taken
    rw [Code.size_jump] at taken
    exact taken.follow fun u => .jump fetch' hsize'
  | false =>
    have skipped := no rfl w code
    change _ → _ → w.Carries d.draft.target.module code (d.draft.code.jump .jump).1.size _ s out at skipped
    rw [Code.size_jump, hsize, target] at skipped
    rw [if_neg nofun]
    exact skipped (target ▸ hw) fits'

/-! ### Conditionals -/

theorem meets_branch {test : Expr} :
    Meets (Compile.branch test t) c (fun label d => t = .bool ∧ label = c.draft.code.patches.size ∧
      d = c.taken (c.draft.depth - 1)) fun _ _ => True := by
  unfold Compile.branch
  split
  · trivial
  · next h => exact ⟨Decidable.not_not.1 h, rfl, rfl⟩

theorem Renders.when {v w : Env → Except Fault Datum} {x y : Compile Ty} (hx : Renders Γ t v x) (hy : Renders Γ u w y)
    (a : Expr) (span : Span) : Computes Γ .void
      (fun ρ => v ρ >>= fun b => if b.holds then (w ρ).map fun _ => .void else .ok .void)
      (do
        let skip ← Compile.branch a (← x)
        Compile.discard (← y) span
        Compile.bindLabel skip
        return .void) := by
  intro c hc hn
  refine (hx c hc hn).seq fun t d hd => ?_
  obtain ⟨rfl, -, hd, depth⟩ := hd
  refine meets_branch.seq fun skip e he => ?_
  obtain ⟨rfl, rfl, rfl⟩ := he
  have taken := hd.grows.hosts.taken (d.draft.depth - 1)
  have grows := hd.grows.trans taken
  refine (hy _ taken.hosts (hn.grows hc grows)).seq fun u f hf => ?_
  obtain ⟨rfl, -, hf, -⟩ := hf
  refine (hf.grows.hosts.discard u span).seq fun _ g hg => ?_
  obtain ⟨hg, -, dropped⟩ := hg
  refine meets_bind.2 (meets_modify.2 (meets_pure.2 ⟨rfl, rfl, ?_⟩))
  have whole := hd.grows.hosts.over (hf.grows.trans hg)
  refine ⟨hd.grows.trans whole, fun ρ s hρ hs => ?_, fun ρ z hρ hz => ?_⟩
  · have level : (d.taken (d.draft.depth - 1)).Bears ρ s := hs.grows hc grows (by
      change d.draft.depth - 1 = _
      rw [depth]
      rfl)
    refine ((hd.converts ρ s hρ hs).bind (g := fun b => (if b.holds then (w ρ).map fun _ => .void else .ok .void).map fun z =>
      Pile.of z ++ s) (fun b hb => ?_) hd.grows whole).congr (by cases v ρ <;> rfl)
    obtain ⟨x, rfl⟩ := Datum.exists_bool (hd.fits ρ b hρ hb).ty
    refine .over hd.grows.hosts (hf.grows.trans hg) (fun hx => ?_) fun hx => ?_
    · subst hx
      refine ((hf.converts ρ s hρ level).bind (g := fun _ => .ok s) (fun y hy => ?_) hf.grows hg).congr (by cases w ρ <;> rfl)
      exact dropped y s (hf.fits ρ y hρ hy).ty hs.settled
    · subst hx
      rfl
  · obtain ⟨b, -, hz⟩ := bind_eq_ok.1 hz
    split at hz
    · obtain ⟨y, -, rfl⟩ := map_eq_ok.1 hz
      exact Datum.fits_void
    · cases hz
      exact Datum.fits_void

theorem Renders.either {v w : Env → Except Fault Datum} {r : Env → Ty → Except Fault Datum} {b : Ty} {x y : Compile Ty}
    {z : Ty → Compile Ty} (hx : Renders Γ b v x) (hy : Renders Γ t w y) (hz : Renders Γ u (fun ρ => r ρ t) (z t))
    (a : Expr) (span : Span) : Computes Γ t (fun ρ => v ρ >>= fun b => if b.holds then w ρ else r ρ t)
      (do
        let other ← Compile.branch a (← x)
        let depth := (← Compile.getDraft).depth
        let t ← y
        let done ← Compile.jump .jump
        Compile.bindLabel other
        Compile.setDepth depth
        let u ← z t
        if !t.agrees u then Compile.fail (.mismatch t u) span
        Compile.bindLabel done
        return (t.unify? u).getD t) := by
  intro c hc hn
  refine (hx c hc hn).seq fun b d hd => ?_
  obtain ⟨rfl, -, hd, depth⟩ := hd
  refine meets_branch.seq fun skip e he => ?_
  obtain ⟨rfl, rfl, rfl⟩ := he
  have taken := hd.grows.hosts.taken (d.draft.depth - 1)
  have grows := hd.grows.trans taken
  have same : d.draft.depth - 1 = c.draft.depth := by
    rw [depth]
    rfl
  refine meets_bind.2 (meets_getDraft.2 ((hy _ taken.hosts (hn.grows hc grows)).seq fun t f hf => ?_))
  obtain ⟨rfl, known, hf, -⟩ := hf
  have skipped := hd.grows.trans (hd.grows.hosts.skipped hf.grows (d.draft.depth - 1))
  refine meets_bind.2 (meets_jump.2 (meets_bind.2 (meets_modify.2 (meets_bind.2 (meets_modify.2 (meets_bind.2
    ((hz _ skipped.hosts (hn.grows hc skipped)).imp (fun u g hg => ?_) fun _ _ h => h)))))))
  obtain ⟨rfl, known', hg, -⟩ := hg
  dsimp only
  split
  · trivial
  · next agrees =>
    obtain rfl : t = u := Ty.eq_of_agrees known known' (by simpa using agrees)
    rw [Ty.unify?_getD known]
    refine meets_bind.2 (meets_modify.2 (meets_pure.2 ⟨rfl, known, ?_⟩))
    have either := hd.grows.hosts.either hf.grows hg.grows
    refine ⟨hd.grows.trans either, fun ρ s hρ hs => ?_, fun ρ z hρ hz => ?_⟩
    · refine ((hd.converts ρ s hρ hs).bind (g := fun b => (if b.holds then w ρ else r ρ t).map fun z => Pile.of z ++ s)
        (fun b hb => ?_) hd.grows either).congr (by cases v ρ <;> rfl)
      obtain ⟨x, rfl⟩ := Datum.exists_bool (hd.fits ρ b hρ hb).ty
      refine .either hd.grows.hosts hf.grows hg.grows (fun hx => ?_) fun hx => ?_
      · subst hx
        exact hf.converts ρ s hρ (hs.grows hc grows same)
      · subst hx
        exact hg.converts ρ s hρ (hs.grows hc skipped same)
    · obtain ⟨b, -, hz⟩ := bind_eq_ok.1 hz
      split at hz
      · exact hf.fits ρ z hρ hz
      · exact hg.fits ρ z hρ hz

/-! ### Variables -/

/-- After a fault nothing follows. -/
theorem Converts.fails {f : Fault} {n' : Nat} (h : c.Converts d s (.error f)) (hcd : c.Proceeds n d) (hde : d.Proceeds n' e) :
    c.Converts e s (.error f) :=
  Converts.bind (x := .error f) (f := fun u => u) (g := fun _ => .error f) h nofun hcd hde

/-- Code was written that leaves variables one above another, and the variables are bound. -/
structure Binds (Γ Γ' : Context) (locals : List (Nat × Ty)) (v : Env → Except Fault Env) (c d : Compilation) : Prop where
  proceeds : c.Proceeds c.draft.scope d
  names : d.Names Γ'
  stacked : Stacked c.draft.depth locals
  depth : d.draft.depth = c.draft.depth + Ty.sizes (locals.map (·.2))
  fits : ∀ ρ ρ', ρ.Fits Γ → v ρ = .ok ρ' → ρ'.Fits Γ'
  leaves : ∀ ρ s ρ', ρ.Fits Γ → c.Bears ρ s → v ρ = .ok ρ' → ∃ vs, Datum.tys vs = locals.map (·.2) ∧
    d.Bears ρ' (Pile.ofAll vs ++ s) ∧ c.Converts d s (.ok (Pile.ofAll vs ++ s))
  fails : ∀ ρ s f, ρ.Fits Γ → c.Bears ρ s → v ρ = .error f → c.Converts d s (.error f)

/-- Writes code that leaves variables, and gives their places. -/
def Runs {α : Type} (Γ Γ' : Context) (f : α → List (Nat × Ty)) (v : Env → Except Fault Env) (x : Compile α) : Prop :=
  ∀ c : Compilation, c.Hosts → c.Names Γ → Meets x c (fun a d => Binds Γ Γ' (f a) v c d) fun _ _ => True

theorem runs_nil : Runs Γ Γ id .ok (pure []) := fun c hc hn => meets_pure.2 ⟨.refl hc _, hn, trivial, rfl,
  fun _ _ hρ h => Except.ok.inj h ▸ hρ, fun _ s _ _ hs h => ⟨[], rfl, Except.ok.inj h ▸ hs, converts_refl c s⟩, nofun⟩

theorem Binds.trans {Γ'' : Context} {v w : Env → Except Fault Env} {l l' : List (Nat × Ty)} (h : Binds Γ Γ' l v c d)
    (k : Binds Γ' Γ'' l' w d e) : Binds Γ Γ'' (l ++ l') (fun ρ => v ρ >>= w) c e := by
  have scope := h.proceeds.writes.scope
  have later : d.Proceeds c.draft.scope e := scope ▸ k.proceeds
  refine ⟨h.proceeds.trans later (Nat.le_refl _), k.names, h.stacked.append (h.depth ▸ k.stacked), ?_, ?_, ?_, ?_⟩
  · rw [k.depth, h.depth, List.map_append, Ty.sizes_append, Nat.add_assoc]
  · intro ρ ρ'' hρ hv
    obtain ⟨ρ', hv, hw⟩ := bind_eq_ok.1 hv
    exact k.fits ρ' ρ'' (h.fits ρ ρ' hρ hv) hw
  · intro ρ s ρ'' hρ hs hv
    obtain ⟨ρ', hv, hw⟩ := bind_eq_ok.1 hv
    obtain ⟨vs, hvs, bears, first⟩ := h.leaves ρ s ρ' hρ hs hv
    obtain ⟨us, hus, bears', second⟩ := k.leaves ρ' _ ρ'' (h.fits ρ ρ' hρ hv) bears hw
    refine ⟨vs ++ us, by rw [Datum.tys_append, hvs, hus, List.map_append], ?_⟩
    rw [Pile.ofAll_append, List.append_assoc]
    exact ⟨bears', first.trans second h.proceeds k.proceeds⟩
  · intro ρ s f hρ hs hv
    rcases bind_eq_error.1 hv with hv | ⟨ρ', hv, hw⟩
    · exact (h.fails ρ s f hρ hs hv).fails h.proceeds k.proceeds
    · obtain ⟨vs, -, bears, first⟩ := h.leaves ρ s ρ' hρ hs hv
      exact first.trans (k.fails ρ' _ f (h.fits ρ ρ' hρ hv) bears hw) h.proceeds k.proceeds

theorem Runs.cons {Γ'' : Context} {v w : Env → Except Fault Env} {x : Compile (Option (Nat × Ty))}
    {y : Compile (List (Nat × Ty))} (hx : Runs Γ Γ' Option.toList v x) (hy : Runs Γ' Γ'' id w y) :
    Runs Γ Γ'' id (fun ρ => v ρ >>= w) (do
      let here ← x
      let rest ← y
      return here.toList ++ rest) := by
  intro c hc hn
  refine (hx c hc hn).seq fun a d hd => ?_
  refine (hy d hd.proceeds.hosts hd.names).seq fun l e he => meets_pure.2 ?_
  exact hd.trans he

/-- The value of an expression statement is given up. -/
theorem Renders.discard {v : Env → Except Fault Datum} {x : Compile Ty} (hx : Renders Γ t v x) (span : Span) :
    Runs Γ Γ Option.toList (fun ρ => (v ρ).map fun _ => ρ) (do
      Compile.discard (← x) span
      return none) := by
  intro c hc hn
  refine (hx c hc hn).seq fun t d hd => ?_
  obtain ⟨rfl, -, hd, depth⟩ := hd
  refine (hd.grows.hosts.discard t span).seq fun _ e he => meets_pure.2 ?_
  obtain ⟨he, depth', dropped⟩ := he
  have grows := hd.grows.trans he
  have level : e.draft.depth = c.draft.depth := by rw [depth', depth, Nat.add_sub_cancel]
  refine ⟨grows.below (Nat.le_of_lt hc.scope), hn.grows hc grows, trivial, level, fun ρ ρ' hρ h => ?_,
    fun ρ s ρ' hρ hs h => ?_, fun ρ s f hρ hs h => ?_⟩
  · obtain ⟨x, -, rfl⟩ := map_eq_ok.1 h
    exact hρ
  · obtain ⟨x, hv, rfl⟩ := map_eq_ok.1 h
    have first := hd.converts ρ s hρ hs
    rw [hv] at first
    refine ⟨[], rfl, hs.grows hc grows level, ?_⟩
    exact first.trans (dropped x s (hd.fits ρ x hρ hv).ty hs.settled) hd.grows he
  · have first := hd.converts ρ s hρ hs
    rw [map_eq_error.1 h] at first
    exact first.fails hd.grows he

/-! ### Bindings -/

/-- A variable was bound that lies where its value was pushed, and hides those of its name. -/
structure Introduces (Γ : Context) (name : String) (n : Nat) (t : Ty) (c d : Compilation) : Prop where
  proceeds : c.Proceeds c.draft.scope d
  draft : d.draft = c.draft
  names : d.Names ((name, t) :: Γ)
  own : d.Locates name n t
  others : ∀ other offset u, other ≠ name → d.Locates other offset u → c.Locates other offset u

theorem Hosts.introduces {m : Module} {name : String} (hc : c.Hosts) (hn : c.Names Γ) (ht : t.Known) (n : Nat)
    (hm : c.library.modules[c.draft.target.module]? = some m) : Introduces Γ name n t c { c with
      library := c.library.put c.draft.target.module { m with scopes := m.scopes.bind c.draft.scope name (.slot n t) } } := by
  have table := Hosts.table_eq hm
  have gains : Gains c.draft.scope m { m with scopes := m.scopes.bind c.draft.scope name (.slot n t) } :=
    ⟨fun _ _ h => h, fun _ _ h => h, rfl, rfl, ScopeTable.spares_bind _ _ _ _, fun h => h.bind _ _ _⟩
  have put := hc.tune hm gains rfl
  generalize hd : ({ c with
    library := c.library.put c.draft.target.module { m with scopes := m.scopes.bind c.draft.scope name (.slot n t) } } :
      Compilation) = d
  have put : c.Proceeds c.draft.scope d := hd ▸ put
  have scopes : d.table = c.table.bind c.draft.scope name (.slot n t) := by
    rw [← hd, Compilation.table, table, Library.get_put_self hm]
  have draft : d.draft = c.draft := hd ▸ rfl
  have own : d.Locates name n t := ⟨c.draft.scope, by rw [scopes, draft, ScopeTable.resolve?_bind_self hc.scope]⟩
  have other {other : String} {offset : Nat} {r : Ty} (hne : other ≠ name) :
      d.Locates other offset r ↔ c.Locates other offset r := by
    unfold Locates
    rw [scopes, draft, ScopeTable.resolve?_bind_ne hne]
  refine ⟨put, draft, fun x r hx => ?_, own, fun _ _ _ hne => (other hne).1⟩
  rw [List.lookup_cons] at hx
  split at hx
  · next heq =>
    obtain rfl := Option.some.inj hx
    exact ⟨ht, n, (beq_iff_eq.1 heq) ▸ own⟩
  · next hne =>
    exact ⟨(hn x r hx).1, (hn x r hx).2.imp fun _ ho => (other (by simpa using hne)).2 ho⟩

/-- What a binding is written with does not change its type. -/
theorem Hosts.bindLocal {annotated : Option Ty} {init : Expr} {name : String} (hc : c.Hosts) (hn : c.Names Γ) (ht : t.Known)
    (n : Nat) : Meets (Compile.bindLocal name annotated n t init span) c
      (fun p d => p = (n, t) ∧ Introduces Γ name n t c d) fun _ _ => True := by
  obtain ⟨m, hm⟩ := hc.here
  have binds (u : Ty) (hu : u = t) : Meets (do
      if u.isGeneric then Compile.fail (.cannotInfer ("variable '" ++ name ++ "'")) span
      let d ← Compile.getDraft
      Compile.bindIn d.target.module d.scope name (.slot n u)
      return (n, u)) c (fun p d => p = (n, t) ∧ Introduces Γ name n t c d) fun _ _ => True := by
    subst hu
    dsimp only
    split
    · trivial
    · exact meets_bind.2 (meets_getDraft.2 (meets_bind.2 ((meets_onModule hm).2
        (meets_pure.2 ⟨rfl, hc.introduces hn ht n hm⟩))))
  unfold Compile.bindLocal
  cases annotated with
  | none => exact binds t rfl
  | some a =>
    dsimp only
    split
    · refine binds _ ?_
      cases hu : a.unify? t with
      | none => rfl
      | some u => exact Ty.unify?_eq_right ht hu
    · trivial

theorem Locates.unique {name : String} {a b : Nat} (h : c.Locates name a t) (k : c.Locates name b u) : a = b := by
  obtain ⟨i, hi⟩ := h
  obtain ⟨j, hj⟩ := k
  rw [hi] at hj
  cases hj
  rfl

theorem annotation_of_mapM {written : Option TypeExpr} {a : Option Ty} (h : written.mapM TypeExpr.resolve = .ok a) :
    TypeExpr.annotation written = a := by
  cases written with
  | none =>
    cases h
    rfl
  | some r =>
    change some <$> r.resolve = .ok a at h
    unfold TypeExpr.annotation
    cases hr : r.resolve with
    | error e =>
      rw [hr] at h
      cases h
    | ok u =>
      rw [hr] at h
      cases h
      simp [hr, Except.toOption]

theorem Renders.bind {written : Option TypeExpr} {init : Expr} {name : String} {v : Env → Except Fault Datum}
    {x : Option Ty → Compile Ty} (hx : Renders Γ t v (x (TypeExpr.annotation written))) (span : Span) :
    Runs Γ ((name, t) :: Γ) Option.toList (fun ρ => (v ρ).map fun d => (name, d) :: ρ) (do
      let annotated ← Compile.lift (written.mapM TypeExpr.resolve)
      let offset := (← Compile.getDraft).depth
      let t ← x annotated
      return some (← Compile.bindLocal name annotated offset t init span)) := by
  intro c hc hn
  refine meets_bind.2 (meets_lifted (fun annotated ha => ?_) fun _ => trivial)
  obtain rfl := annotation_of_mapM ha
  refine meets_bind.2 (meets_getDraft.2 ((hx c hc hn).seq fun t d hd => ?_))
  obtain ⟨rfl, known, hd, depth⟩ := hd
  refine (hd.grows.hosts.bindLocal (hn.grows hc hd.grows) known c.draft.depth).seq fun p e he => meets_pure.2 ?_
  obtain ⟨rfl, ⟨he, draft, names, own, others⟩⟩ := he
  have scope := hd.grows.writes.scope
  have proceeds : c.Proceeds c.draft.scope d := hd.grows.below (Nat.le_of_lt hc.scope)
  refine ⟨proceeds.trans (scope ▸ he) (Nat.le_refl _), names, ⟨rfl, trivial⟩, ?_, fun ρ ρ' hρ h => ?_, fun ρ s ρ' hρ hs h => ?_,
    fun ρ s f hρ hs h => ?_⟩
  · rw [draft, depth]
    rfl
  · obtain ⟨y, hv, rfl⟩ := map_eq_ok.1 h
    exact hρ.cons (hd.fits ρ y hρ hv) name
  · obtain ⟨y, hv, rfl⟩ := map_eq_ok.1 h
    have type := (hd.fits ρ y hρ hv).ty
    have pile : Pile.ofAll [y] = Pile.of y := by simp
    have bears := hs.push hc hd.grows (Pile.settled_of y) (by rw [Pile.size_of, type, depth])
    have first := hd.converts ρ s hρ hs
    rw [hv] at first
    refine ⟨[y], by rw [Datum.tys, type]; rfl, ?_⟩
    rw [pile]
    refine ⟨⟨bears.settled, by rw [bears.level, draft], fun other r offset u hr ho => ?_⟩,
      first.trans (converts_of_draft draft _) hd.grows he⟩
    rw [List.lookup_cons] at hr
    split at hr
    · next heq =>
      obtain rfl := Option.some.inj hr
      obtain rfl := beq_iff_eq.1 heq
      obtain rfl := own.unique ho
      exact ⟨[], s, rfl, hs.level⟩
    · next hne => exact bears.places other r offset u hr (others other offset u (by simpa using hne) ho)
  · have first := hd.converts ρ s hρ hs
    rw [map_eq_error.1 h] at first
    exact first.fails hd.grows he

/-! ### Scopes -/

section

variable {m : Module} (hm : c.library.modules[c.draft.target.module]? = some m)
include hm

theorem table_opened : (c.opened m).table = (c.table.add c.draft.scope .block "").1 := by
  rw [Hosts.table_eq hm, Compilation.table]
  change ((c.library.put _ _).get c.draft.target.module).scopes = _
  rw [Library.get_put_self hm]

variable (hc : c.Hosts)
include hc

/-- The module gains a scope. -/
theorem Hosts.addScope : c.Grows { c with
    library := c.library.put c.draft.target.module { m with scopes := (m.scopes.add c.draft.scope .block "").1 } } := by
  have table := Hosts.table_eq hm
  have gains : Gains c.table.size m { m with scopes := (m.scopes.add c.draft.scope .block "").1 } := by
    refine ⟨fun _ _ h => h, fun _ _ h => h, rfl, rfl, ?_, fun h => h.add (table ▸ hc.scope) _ _⟩
    rw [table]
    exact ScopeTable.spares_add _ _ _ _
  exact hc.tune hm gains rfl

theorem Hosts.opened : (c.opened m).Hosts := by
  have h := (hc.addScope hm).hosts
  refine ⟨h.here, h.imports, h.builtin, h.user, h.ordered, ?_, h.code, h.heap⟩
  rw [table_opened hm]
  change m.scopes.size < _
  rw [Hosts.table_eq hm]
  simp

theorem Hosts.locates_opened {name : String} {offset : Nat} : (c.opened m).Locates name offset t ↔ c.Locates name offset t := by
  have scope : (c.opened m).draft.scope = c.table.size := (congrArg ScopeTable.size (Hosts.table_eq hm)).symm
  unfold Locates
  rw [scope, table_opened hm, ScopeTable.resolve?_addBlock hc.ordered hc.scope]

theorem Names.opened (hn : c.Names Γ) : (c.opened m).Names Γ := fun name t ht =>
  ⟨(hn name t ht).1, (hn name t ht).2.imp fun _ ho => (hc.locates_opened hm).2 ho⟩

theorem Bears.opened {ρ : Env} (hs : c.Bears ρ s) : (c.opened m).Bears ρ s :=
  ⟨hs.settled, hs.level, fun name v offset t hv ho => hs.places name v offset t hv ((hc.locates_opened hm).1 ho)⟩

/-- What is bound in a block is not seen outside of it. -/
theorem Proceeds.closed (h : (c.opened m).Proceeds (c.opened m).draft.scope d) : c.Grows (d.closed c.draft.scope) := by
  have added := hc.addScope hm
  have scope : (c.opened m).draft.scope = c.table.size := (congrArg ScopeTable.size (Hosts.table_eq hm)).symm
  have scopes : ScopeTable.Spares c.table.size c.table d.table :=
    added.scopes.trans h.scopes (Nat.le_of_eq scope.symm)
  have target : d.draft.target = c.draft.target := h.writes.target
  refine ⟨⟨h.hosts.here, h.hosts.imports, h.hosts.builtin, h.hosts.user, h.hosts.ordered, ?_, h.hosts.code, h.hosts.heap⟩,
    added.store.trans h.store, scopes, ⟨target, h.writes.name, h.writes.signature, h.writes.captures, rfl, h.writes.code⟩,
    h.functions.trans added.functions, fun ha => h.accounts (added.accounts ha)⟩
  exact Nat.lt_of_lt_of_le hc.scope scopes.size

end

/-- The value of a block is left when its variables are removed. -/
theorem Runs.block {v : Env → Except Fault Env} {w : Env → Except Fault Datum} {x : Compile (List (Nat × Ty))}
    {y : Compile Ty} (hx : Runs Γ Γ' id v x) (hy : Renders Γ' t w y) (span : Span) :
    Computes Γ t (fun ρ => v ρ >>= w) (Compile.inBlock do
      let locals ← x
      let t ← y
      Compile.releaseLocals locals t span
      return t) := by
  intro c hc hn
  obtain ⟨m, hm⟩ := hc.here
  refine meets_bind.2 (meets_getDraft.2 (meets_bind.2 ((meets_onModule hm).2 (meets_bind.2 (meets_modify.2
    (meets_bind.2 (meets_bind.2 ?_)))))))
  refine (hx (c.opened m) (hc.opened hm) (hn.opened hm hc)).imp (fun locals d hd => ?_) fun _ _ h => h
  refine (hy d hd.proceeds.hosts hd.names).seq fun t e he => ?_
  obtain ⟨rfl, known, he, depth⟩ := he
  have stacked : Stacked c.draft.depth locals := hd.stacked
  refine (he.grows.hosts.releaseLocals stacked t span).seq fun _ f hf => meets_pure.2 (meets_bind.2
    (meets_modify.2 (meets_pure.2 ⟨rfl, known, ?_⟩)))
  have inner := he.grows.trans hf.grows
  have all : (c.opened m).Proceeds (c.opened m).draft.scope f :=
    hd.proceeds.trans inner (hd.proceeds.writes.scope ▸ Nat.le_of_lt hd.proceeds.hosts.scope)
  refine ⟨all.closed hm hc, fun ρ s hρ hs => ?_, fun ρ z hρ hz => ?_⟩
  · have opened := hs.opened hm hc
    change (c.opened m).Converts f s _
    cases hv : v ρ with
    | error g => exact (hd.fails ρ s g hρ opened hv).fails hd.proceeds inner
    | ok ρ' =>
      obtain ⟨vs, hvs, bears, first⟩ := hd.leaves ρ s ρ' hρ opened hv
      have fits := hd.fits ρ ρ' hρ hv
      refine first.trans (((he.converts ρ' _ fits bears).bind (g := fun z => .ok (Pile.of z ++ s)) (fun z hz => ?_) he.grows
        hf.grows).congr ?_) hd.proceeds inner
      · have type := (he.fits ρ' z fits hz).ty
        refine hf.converts _ _ ⟨z, vs, s, type, hvs, hs.settled, hs.level, ?_, rfl, rfl⟩
        have level := bears.level
        rw [Pile.size_append, Pile.size_of, level, type, depth, Nat.add_comm]
      · change (w ρ').map _ = _
        cases w ρ' <;> rfl
  · obtain ⟨ρ', hv, hw⟩ := bind_eq_ok.1 hz
    exact he.fits ρ' z (hd.fits ρ ρ' hρ hv) hw

end Compilation

end StackScript
