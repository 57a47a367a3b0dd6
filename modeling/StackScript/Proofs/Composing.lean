import StackScript.Proofs.Computing

/-!
Tuples and lists. Their parts are computed one above another; a part is taken out of a tuple by dropping what lies
around it, and out of a list by the machine.
-/
namespace StackScript

namespace Datum

variable {d : Datum} {ds : List Datum} {t : Ty} {ts : List Ty}

/-- Data of types. -/
structure AllFit (ds : List Datum) (ts : List Ty) : Prop where
  tys : Datum.tys ds = ts
  uniform : AllUniform ds

theorem allFit_nil : AllFit [] [] := ⟨rfl, trivial⟩

theorem AllFit.cons (h : d.Fits t) (hs : AllFit ds ts) : AllFit (d :: ds) (t :: ts) :=
  ⟨by rw [Datum.tys, h.ty, hs.tys], h.uniform, hs.uniform⟩

theorem AllFit.tuple (h : AllFit ds ts) : (Datum.tuple ds).Fits (.tuple ts) := ⟨congrArg Ty.tuple h.tys, h.uniform⟩

theorem fits_list (h : ∀ d ∈ ds, d.Fits t) : (ofItems t ds).Fits (.list t) := by
  refine ⟨rfl, ?_⟩
  unfold ofItems
  split
  · exact ⟨trivial, nofun⟩
  · exact ⟨allUniform_iff.2 fun d hd => (h d hd).uniform, fun d hd => (h d hd).ty⟩

/-- An item of a tuple. -/
theorem Fits.item {i : Nat} (h : (Datum.tuple ds).Fits (.tuple ts)) (ht : ts[i]? = some t) : (ds.getD i .void).Fits t := by
  obtain rfl : tys ds = ts := Ty.tuple.inj h.ty
  rw [tys_eq_map, List.getElem?_map, Option.map_eq_some_iff] at ht
  obtain ⟨d, hd, rfl⟩ := ht
  rw [List.getD_eq_getElem?_getD, hd]
  exact ⟨rfl, allUniform_iff.1 h.uniform d (List.mem_of_getElem? hd)⟩

/-- An element of a list. -/
theorem Fits.element {n : Int32} (h : (Datum.list t ds).Fits (.list t)) (hd : (Datum.list t ds).element (.int32 n) = .ok d) :
    d.Fits t := by
  simp only [Datum.element] at hd
  generalize (if n.toInt < 0 then _ else _ : Int) = position at hd
  split at hd
  · cases hd
  · next inside =>
    have bound : position.toNat < ds.length := by omega
    obtain rfl := Except.ok.inj hd
    have among := List.getElem_mem bound
    rw [List.getD_eq_getElem?_getD, List.getElem?_eq_getElem bound]
    exact ⟨h.uniform.2 _ among, allUniform_iff.1 h.uniform.1 _ among⟩

end Datum

namespace Compilation

variable {c d e : Compilation} {Γ : Context} {span : Span} {t u : Ty} {ts : List Ty} {n : Nat}

/-- A type of the module of the draft. -/
theorem Hosts.typeOperand (hc : c.Hosts) (t : Ty) :
    Meets (Compile.typeOperand t) c (fun i d => c.Grows d ∧ d.draft = c.draft ∧
      (d.library.get c.draft.target.module).types[i]? = some t) fun _ _ => True := by
  obtain ⟨m, hm⟩ := hc.here
  obtain ⟨hext, htype, types, heq⟩ := m.addType_spec t
  have gains (n : Nat) : Gains n m (m.addType t).1 :=
    ⟨fun i v hv => hext.values i v hv, fun i t ht => hext.types i t ht, by rw [heq], by rw [heq], by rw [heq]; exact .refl n _,
      by rw [heq]; exact fun h => h⟩
  refine meets_bind.2 (meets_here.2 ((meets_onModule hm).2 ⟨hc.tune hm (gains _) (by rw [heq]), rfl, ?_⟩))
  change ((c.library.put _ _).get _).types[_]? = _
  rw [Library.get_put_self hm]
  exact htype

/-! ### Indices and fields -/

theorem Renders.index {v w : Env → Except Fault Datum} {x y : Compile Ty} {position object : Expr} (hx : Renders Γ t v x)
    (hy : Renders Γ u w y) (span : Span) :
    Computes Γ (u.elem?.getD .void) (fun ρ => do
        let i ← v ρ
        let l ← w ρ
        l.element i) (do
      let t ← x
      if t ≠ .int32 then Compile.fail (.mismatch .int32 t) position.span
      Compile.emitSubscript object (← y) span) := by
  intro c hc hn
  refine (hx c hc hn).seq fun t d hd => ?_
  obtain ⟨rfl, -, hd, depth⟩ := hd
  dsimp only
  split
  · trivial
  · next ht =>
    obtain rfl := Decidable.not_not.1 ht
    refine (hy d hd.grows.hosts (hn.grows hc hd.grows)).seq fun u e he => ?_
    obtain ⟨rfl, known, he, -⟩ := he
    unfold Compile.emitSubscript
    split
    · trivial
    · next elem helem =>
      obtain rfl : u = .list elem := by cases u <;> cases helem <;> rfl
      split
      · trivial
      · refine (he.grows.hosts.typeOperand elem).seq fun i f hf => ?_
        obtain ⟨grows, draft, htype⟩ := hf
        refine (grows.hosts.emit1 rfl i span).seq fun _ g hg => meets_pure.2 ⟨rfl, Ty.known_list.1 known, ?_⟩
        refine ((hd.both he hc depth).andThen (f := fun p => p.2.element p.1) (grows.trans hg.grows) ?_ ?_).congr ?_
        · rintro ⟨x, y⟩ s ⟨hx, hy⟩ hs
          obtain ⟨n, rfl⟩ := Datum.exists_word (w := .w32) hx.ty
          obtain ⟨ds, rfl⟩ := Datum.exists_list hy.ty
          refine (converts_of_draft draft _).trans (hg.converts fun w hw => ?_) grows hg.grows
          rw [grows.writes.target] at hw ⊢
          exact .subscript (hw.types i elem htype) hs
        · rintro ⟨x, y⟩ z ⟨hx, hy⟩ hz
          obtain ⟨n, rfl⟩ := Datum.exists_word (w := .w32) hx.ty
          obtain ⟨ds, rfl⟩ := Datum.exists_list hy.ty
          exact hy.element hz
        · intro ρ _
          cases v ρ with
          | error f => rfl
          | ok i =>
            simp only [bind, Except.bind]
            cases w ρ <;> rfl

theorem Renders.field {v : Env → Except Fault Datum} {x : Compile Ty} (object : Expr) (i : Nat) (span : Span) :
    Renders Γ t v x → Computes Γ (match t with
        | .tuple ts => ts.getD i .void
        | _ => .void) (fun ρ => (v ρ).map (Datum.item i)) (do Compile.selectItem object (← x) i span) := by
  intro hx c hc hn
  refine (hx c hc hn).seq fun t d hd => ?_
  obtain ⟨rfl, known, hd, -⟩ := hd
  refine (hd.grows.hosts.selectItem object t i span).imp (fun r e he => ?_) fun _ _ h => h
  obtain ⟨⟨ts, rfl, hr⟩, he⟩ := he
  have type : ts.getD i .void = r := by rw [List.getD_eq_getElem?_getD, hr, Option.getD_some]
  dsimp only
  rw [type]
  refine ⟨rfl, Ty.known_tuple.1 known r (List.mem_of_getElem? hr), ?_⟩
  · refine (hd.andThen (f := fun x => .ok (x.item i)) he.grows (fun x s hx hs => ?_) fun x y hx hy => ?_).congr fun ρ _ => ?_
    · obtain ⟨ds, rfl, htys⟩ := Datum.exists_tuple hx.ty
      exact he.converts _ _ ⟨ds, s, congrArg Ty.tuple htys, hs, rfl, rfl⟩
    · obtain ⟨ds, rfl, -⟩ := Datum.exists_tuple hx.ty
      cases hy
      exact hx.item hr
    · cases v ρ <;> rfl

/-! ### Tuples -/

/-- Writes code that leaves data one above another, and counts their bytes. -/
def RendersAll (Γ : Context) (ts : List Ty) (v : Env → Except Fault (List Datum)) (x : Compile (List Ty)) : Prop :=
  ∀ c : Compilation, c.Hosts → c.Names Γ → Meets x c (fun r d => r = ts ∧ Ty.AllKnown ts ∧
    Rendered Γ Pile.ofAll (Datum.AllFit · ts) v c d) fun _ _ => True

theorem rendersAll_nil : RendersAll Γ [] (fun _ => .ok []) (pure []) := fun _ hc _ =>
  meets_pure.2 ⟨rfl, Ty.allKnown_nil, .constant (.refl hc _) rfl rfl Datum.allFit_nil⟩

theorem Renders.andAll {v : Env → Except Fault Datum} {w : Env → Except Fault (List Datum)} {x : Compile Ty}
    {y : Compile (List Ty)} (hx : Renders Γ t v x) (hy : RendersAll Γ ts w y) : RendersAll Γ (t :: ts) (fun ρ => do
        let d ← v ρ
        let ds ← w ρ
        return d :: ds) (do
      let t ← x
      let ts ← y
      return t :: ts) := by
  intro c hc hn
  refine (hx c hc hn).seq fun t d hd => ?_
  obtain ⟨rfl, known, hd, depth⟩ := hd
  refine (hy d hd.grows.hosts (hn.grows hc hd.grows)).seq fun ts e he => ?_
  obtain ⟨rfl, known', he⟩ := he
  refine meets_pure.2 ⟨rfl, List.forall_mem_cons.2 ⟨known, known'⟩, ?_⟩
  refine ((hd.both he hc depth).map (f := fun p => p.1 :: p.2) (fun p _ => by simp) fun p hp => hp.2.cons hp.1).congr
    fun ρ _ => ?_
  cases v ρ with
  | error f => rfl
  | ok a =>
    simp only [bind, Except.bind]
    cases w ρ <;> rfl

theorem RendersAll.tuple {v : Env → Except Fault (List Datum)} {x : Compile (List Ty)} (hx : RendersAll Γ ts v x) :
    Computes Γ (.tuple ts) (fun ρ => (v ρ).map .tuple) (do return .tuple (← x)) := by
  intro c hc hn
  refine (hx c hc hn).seq fun ts d hd => ?_
  obtain ⟨rfl, known, hd⟩ := hd
  exact meets_pure.2 ⟨rfl, Ty.known_tuple.2 known, hd.map (fun ds _ => Pile.of_tuple ds) fun ds h => h.tuple⟩

/-! ### Lists -/

/-- Elements, all of the type that they have in common. -/
structure Alike (u : Option Ty) (n : Nat) (p : Option Ty × List Datum) : Prop where
  type : p.1 = u
  length : p.2.length = n
  fits : ∀ t, u = some t → ∀ d ∈ p.2, d.Fits t

/-- Writes code that leaves so many elements of a list one above another. -/
def RendersElements (Γ : Context) (u : Option Ty) (n : Nat) (v : Env → Except Fault (Option Ty × List Datum))
    (x : Compile (Option Ty)) : Prop :=
  ∀ c : Compilation, c.Hosts → c.Names Γ → Meets x c (fun r d => r = u ∧ (∀ t, u = some t → t.Known) ∧
    Rendered Γ (fun p => Pile.ofAll p.2) (Alike u n) v c d) fun _ _ => True

theorem rendersElements_nil {u : Option Ty} (known : ∀ t, u = some t → t.Known) :
    RendersElements Γ u 0 (fun _ => .ok (u, [])) (pure u) := fun _ hc _ =>
  meets_pure.2 ⟨rfl, known, .constant (.refl hc _) rfl rfl ⟨rfl, rfl, fun _ _ => nofun⟩⟩

section

variable {v : Env → Except Fault Datum} {w : Env → Ty → Except Fault (Option Ty × List Datum)}

/-- The other elements lie above the first one. -/
theorem Lays.andElements (hd : Lays Γ t v c d) (hc : c.Hosts) (depth : d.draft.depth = c.draft.depth + t.size)
    (he : Rendered Γ (fun p => Pile.ofAll p.2) (Alike (some t) n) (fun ρ => w ρ t) d e) :
    Rendered Γ (fun p => Pile.ofAll p.2) (Alike (some t) (n + 1)) (fun ρ => do
      let d ← v ρ
      let (u, ds) ← w ρ d.ty
      return (u, d :: ds)) c e := by
  refine ((hd.both he hc depth).map (f := fun p => (p.2.1, p.1 :: p.2.2)) (fun p _ => by simp) ?_).congr ?_
  · rintro ⟨x, u, ds⟩ ⟨hx, hds⟩
    refine ⟨hds.type, congrArg (· + 1) hds.length, fun r hr => List.forall_mem_cons.2 ⟨?_, hds.fits r hr⟩⟩
    exact Option.some.inj hr ▸ hx
  · intro ρ hρ
    cases hv : v ρ with
    | error f => rfl
    | ok a =>
      simp only [bind, Except.bind, (hd.fits ρ a hρ hv).ty]
      cases w ρ t <;> rfl

/-- The first element decides the type of the others. -/
theorem Renders.andElements {x : Compile Ty} {y : Ty → Compile (Option Ty)} (hx : Renders Γ t v x)
    (hy : t.Known → RendersElements Γ (some t) n (fun ρ => w ρ t) (y t)) :
    RendersElements Γ (some t) (n + 1) (fun ρ => do
      let d ← v ρ
      let (u, ds) ← w ρ d.ty
      return (u, d :: ds)) (x >>= y) := by
  intro c hc hn
  refine (hx c hc hn).seq fun t d hd => ?_
  obtain ⟨rfl, known, hd, depth⟩ := hd
  refine (hy known d hd.grows.hosts (hn.grows hc hd.grows)).imp (fun u e he => ?_) fun _ _ h => h
  obtain ⟨rfl, -, he⟩ := he
  exact ⟨rfl, fun _ h => Option.some.inj h ▸ known, hd.andElements hc depth he⟩

/-- An element has the type that the list has already. -/
theorem Renders.nextElement {x : Compile Ty} {y : Compile (Option Ty)} (hx : Renders Γ u v x) (known : t.Known)
    (hy : RendersElements Γ (some t) n (fun ρ => w ρ t) y) (span : Span) :
    RendersElements Γ (some t) (n + 1) (fun ρ => do
      let d ← v ρ
      let (u, ds) ← w ρ d.ty
      return (u, d :: ds)) (do
      let u ← x
      if !t.agrees u then Compile.fail (.mismatch t u) span
      y) := by
  intro c hc hn
  refine (hx c hc hn).seq fun u d hd => ?_
  obtain ⟨rfl, known', hd, depth⟩ := hd
  dsimp only
  split
  · trivial
  · next agrees =>
    obtain rfl := Ty.eq_of_agrees known known' (by simpa using agrees)
    refine (hy d hd.grows.hosts (hn.grows hc hd.grows)).imp (fun u e he => ?_) fun _ _ h => h
    obtain ⟨rfl, known, he⟩ := he
    exact ⟨rfl, known, hd.andElements hc depth he⟩

end

theorem RendersElements.list {u : Option Ty} {v : Env → Except Fault (Option Ty × List Datum)} {x : Compile (Option Ty)}
    (hx : RendersElements Γ u n v x) (span : Span) : Computes Γ (.list (u.getD .void)) (fun ρ => do
        let (t, items) ← v ρ
        return .ofItems (t.getD .void) items) (do
      let elem ← x
      Compile.emitList n elem span) := by
  intro c hc hn
  refine (hx c hc hn).seq fun u d hd => ?_
  obtain ⟨rfl, known, hd⟩ := hd
  cases u with
  | none => trivial
  | some t =>
    refine (hd.grows.hosts.typeOperand t).seq fun i e he => ?_
    obtain ⟨grows, draft, htype⟩ := he
    refine (grows.hosts.emit2 rfl n i span).seq fun _ f hf => meets_pure.2 ⟨rfl, ?_, ?_⟩
    · exact Ty.known_list.2 (known t rfl)
    · refine (hd.andThen (f := fun p => .ok (.ofItems (p.1.getD .void) p.2)) (grows.trans hf.grows) ?_ ?_).congr ?_
      · rintro ⟨_, ds⟩ s ⟨rfl, hlen, fits⟩ hs
        refine (converts_of_draft draft _).trans (hf.converts fun w hw => ?_) grows hf.grows
        rw [grows.writes.target] at hw ⊢
        exact .makeList (hw.types i t htype) hlen fun d hd => (fits t rfl d hd).ty
      · rintro ⟨_, ds⟩ y ⟨rfl, -, fits⟩ hy
        cases hy
        exact Datum.fits_list (fits t rfl)
      · intro ρ _
        cases v ρ <;> rfl

end Compilation

end StackScript
