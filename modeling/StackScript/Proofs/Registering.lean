import StackScript.Proofs.Releasing

/-!
What a compilation adds to the library besides functions: types, static values and imports, with the instructions
that name them.
-/
namespace StackScript

namespace Compilation

variable {o : Surroundings} {x : Nat → Option Nat} {c d e : Compilation} {s u : Shape} {span : Span} {t : Ty}
  {id : Nat} {m m' : Module} {f : FunctionRef} {g : Function} {waits : FunctionRef → Prop}

/-! ### Changes of one module -/

theorem meets_onModule {α : Type} [Inhabited α] {k : Module → Module × α} {ok : α → Compilation → Prop}
    {bad : CompileError → Compilation → Prop} (hm : c.library.modules[id]? = some m) :
    Meets (Compile.onModule id k) c ok bad ↔ ok (k m).2 { c with library := c.library.put id (k m).1 } := by
  unfold Compile.onModule Meets
  simp only [Library.update_eq hm]

theorem meets_lifted {α : Type} {r : Except CompileError α} {ok : α → Compilation → Prop}
    {bad : CompileError → Compilation → Prop} (hok : ∀ a, r = .ok a → ok a c) (hbad : ∀ e, bad e c) :
    Meets (Compile.lift r) c ok bad := by
  cases r with
  | ok a => exact hok a rfl
  | error e => exact hbad e

theorem meets_here {ok : Nat → Compilation → Prop} {bad : CompileError → Compilation → Prop} :
    Meets Compile.here c ok bad ↔ ok c.draft.target.module c := Iff.rfl

/-- The draft goes on in a library with another module. -/
theorem Reaches.put {h : Heap} (hc : c.Ready o) (hm : c.library.modules[id]? = some m) (growth : m.Extends m')
    (untouched : c.Untouched o id m m') (grows : ScopeTable.Grows (x id) m.scopes m'.scopes)
    (alive : m'.alive = m.alive)
    (good : ({ c with library := c.library.put id m', heap := h } : Compilation).Good o c.Waits) (s : Shape) :
    c.Reaches o x { c with library := c.library.put id m', heap := h } s s := by
  refine ⟨⟨good, ?_, hc.user, ?_, hc.code⟩, .put hm growth untouched grows h, .refl _, fun _ _ _ _ _ h => h⟩
  · obtain ⟨n, hn, hna⟩ := hc.here
    by_cases h : id = c.draft.target.module
    · subst h
      obtain rfl := Option.some.inj (hm.symm.trans hn)
      exact ⟨m', Library.modules_put_self hm, alive.trans hna⟩
    · exact ⟨n, (Library.modules_put_ne h).trans hn, hna⟩
  · have hscope := hc.scope
    change _ < ((c.library.put id m').get _).scopes.size
    by_cases h : id = c.draft.target.module
    · subst h
      rw [Library.get_eq hm] at hscope
      rw [Library.get_put_self hm]
      exact Nat.lt_of_lt_of_le hscope grows.size
    · rwa [Library.get_put_ne h]

theorem Reaches.tune (hc : c.Ready o) (hm : c.library.modules[id]? = some m) (ha : m.alive) (hid : id ≠ 0)
    (e : Tunes m m') (grows : ScopeTable.Grows (x id) m.scopes m'.scopes) (s : Shape) :
    c.Reaches o x { c with library := c.library.put id m' } s s :=
  .put hc hm e.growth (untouched_of_eq e.functions) grows e.alive (hc.good.tune hm ha hid e) s

theorem Ready.houses (hc : c.Ready o) (hm : c.library.modules[c.draft.target.module]? = some m) :
    (c.view o).Houses c.Waits c.draft.target.module m := by
  have ha := hc.alive
  exact hc.good.consistent.houses hm ha

/-! ### Types and imports -/

theorem Ready.typeOperand (hc : c.Ready o) (s : Shape) :
    Meets (Compile.typeOperand t) c (fun i d => c.Reaches o (fun _ => none) d s s ∧
      (d.library.get c.draft.target.module).types[i]? = some t) fun _ => Failed o := by
  obtain ⟨m, hm, ha⟩ := hc.here
  obtain ⟨hext, htype, types, heq⟩ := m.addType_spec t
  refine meets_bind.2 (meets_here.2 ((meets_onModule hm).2 ⟨?_, ?_⟩))
  · have sane := (hc.houses hm).sane.extends hext (by rw [heq]) (by rw [heq]; exact fun _ h => h) (by rw [heq])
    refine .tune hc hm ha hc.user ⟨hext, by rw [heq], by rw [heq], by rw [heq], by rw [heq], sane, ?_, ?_⟩ ?_ s
    · rw [heq]
      exact fun _ h => h
    · exact Nat.le_of_eq (by rw [heq])
    · rw [heq]
      exact .refl _ _
  · change ((c.library.put _ _).get _).types[_]? = _
    rw [Library.get_put_self hm]
    exact htype

/-- A module that is called is visible, and then imported. -/
theorem Ready.importIndex (hc : c.Ready o) (s : Shape) :
    Meets (Compile.importIndex id span) c (fun i d => c.Reaches o (fun _ => none) d s s ∧
      (d.library.get c.draft.target.module).imports[i]? = some id ∧ i < 256) fun _ => Failed o := by
  obtain ⟨m, hm, ha⟩ := hc.here
  obtain ⟨hext, ⟨imports, heq, hrefs⟩, himport⟩ := m.importVisible_spec id
  have sane := (hc.houses hm).sane.extends hext (by rw [heq]) (by rw [heq]; exact fun _ h => h) (by rw [heq])
  have reaches : c.Reaches o (fun _ => none)
      { c with library := c.library.put c.draft.target.module (m.importVisible id).1 } s s := by
    refine .tune hc hm ha hc.user ⟨hext, by rw [heq], by rw [heq], by rw [heq], by rw [heq], sane, ?_, ?_⟩ ?_ s
    · rw [heq]
      intro r hr
      simp only [Library.references, List.mem_append, Array.mem_toList_iff] at hr ⊢
      exact hr.elim (hrefs r) .inr
    · exact Nat.le_of_eq (by rw [heq])
    · rw [heq]
      exact .refl _ _
  refine meets_bind.2 (meets_here.2 (meets_bind.2 (meets_get.2 (meets_bind.2 ((meets_onModule hm).2 ?_)))))
  split
  · exact reaches.failed
  · next i hi =>
    split
    · next hlt =>
      refine meets_pure.2 ⟨reaches, ?_, hlt⟩
      change ((c.library.put _ _).get _).imports[_]? = _
      rw [Library.get_put_self hm]
      exact himport i hi
    · exact reaches.failed

/-! ### Static values -/

theorem Good.addStatic {h : Heap} {v : Value} (hc : c.Good o waits) (hm : c.library.modules[id]? = some m)
    (ha : m.alive) (hid : id ≠ 0) (known : v.ty.Known)
    (sound : h.cells.size ≤ Heap.capacity →
      ∃ Ψ, (c.view o).Sound Ψ h (v.handles ++ o.roots) ∧ Ψ.Describes id v) :
    ({ c with library := c.library.put id (m.addValue v).1, heap := h } : Compilation).Good o waits := by
  have old := (hc.consistent.modules id m hm ha).sane
  have growth := m.extends_addValue v
  refine hc.put hm rfl (untouched_of_eq rfl) (fun _ _ _ => ⟨rfl, fun _ h => .inl h⟩)
    (hc.consistent.put_same hm ha hid growth rfl (old.addValue known) (fun _ h => h) (Nat.le_refl _)) fun hcap => ?_
  obtain ⟨Ψ, hs, hv⟩ := sound hcap
  exact ⟨Ψ, hs.addValue hm hv⟩

/-- A new static value of the module of the draft, which takes over the references in it. -/
theorem Reaches.addStatic {h : Heap} {v : Value} (hc : c.Ready o)
    (hm : c.library.modules[c.draft.target.module]? = some m) (known : v.ty.Known)
    (sound : h.cells.size ≤ Heap.capacity →
      ∃ Ψ, (c.view o).Sound Ψ h (v.handles ++ o.roots) ∧ Ψ.Describes c.draft.target.module v) (s : Shape) :
    c.Reaches o x { c with library := c.library.put c.draft.target.module (m.addValue v).1, heap := h } s s := by
  have ha : m.alive := by
    have := hc.alive
    rwa [Library.get_eq hm] at this
  exact .put hc hm (m.extends_addValue v) (untouched_of_eq rfl) (.refl _ _) rfl (hc.good.addStatic hm ha hc.user known sound) s

theorem Ready.loadStatic {v : Value} {i : Nat} (hc : c.Ready o)
    (hv : (c.library.get c.draft.target.module).values[i]? = some v) :
    Meets (Compile.emit1 .loadStatic i span) c (fun _ d => c.Emits o d s (Shape.ofTy v.ty ++ s)) fun _ => Failed o :=
  hc.emit1 rfl fun _ hw => .loadStatic ((hw.modules _ (Nat.le_refl _)).values i v hv)

/-! ### Literals -/

/-- A literal that is no text has no handles. -/
theorem describes_literal {h : Heap} {v : Literal} (hv : ∀ r, v ≠ .string r) :
    ∃ y, v.value h = (h, y) ∧ y.ty.Known ∧ y.handles = [] ∧ y.ty.isHeap = false ∧
      ∀ (Ψ : Typing) (b : Nat), Ψ.Describes b y := by
  cases v with
  | string r => exact absurd rfl (hv r)
  | char ch =>
    refine ⟨_, rfl, rfl, rfl, rfl, fun Ψ b => .scalar rfl (by simp [Value.encode, Value.ty, Ty.size]) fun _ => ?_⟩
    rw [Typing.toNat_encode_char]
    exact ch.valid
  | _ =>
    exact ⟨_, rfl, rfl, rfl, rfl, fun Ψ b =>
      .scalar rfl (by simp [Value.encode, Value.ty, Ty.size]) (by simp [Value.ty])⟩

theorem adapt_string (r : String) (expected : Option Ty) : (Literal.string r).adapt expected = .string r := by
  unfold Literal.adapt
  split <;> first | rfl | simp_all

theorem adapt_ne_string {v : Literal} (hv : ∀ r, v ≠ .string r) (expected : Option Ty) (r : String) :
    v.adapt expected ≠ .string r := by
  unfold Literal.adapt
  split <;> first | exact hv r | (try split) <;> nofun

theorem internValue_spec (m : Module) (v : Value) :
    (∃ u, (m.internValue v).1 = m ∧ m.values[(m.internValue v).2]? = some u ∧ u.ty = v.ty) ∨
      m.internValue v = m.addValue v := by
  unfold Module.internValue
  split
  · next i hi =>
    obtain ⟨hlt, hp, -⟩ := Array.findIdx?_eq_some_iff_getElem.1 hi
    simp only [Bool.and_eq_true, decide_eq_true_eq] at hp
    exact .inl ⟨m.values[i], rfl, Array.getElem?_eq_getElem hlt, hp.1.2⟩
  · exact .inr rfl

theorem meets_onHeap {α : Type} {k : Heap → Heap × α} {ok : α → Compilation → Prop}
    {bad : CompileError → Compilation → Prop} :
    Meets (Compile.onHeap k) c ok bad ↔ ok (k c.heap).2 { c with heap := (k c.heap).1 } := Iff.rfl

theorem Ready.pushLiteral {v : Literal} {expected : Option Ty} (hc : c.Ready o) :
    Meets (Compile.pushLiteral v expected span) c
      (fun t d => t.Known ∧ c.Reaches o (fun _ => none) d s (Shape.ofTy t ++ s)) fun _ => Failed o := by
  obtain ⟨m, hm, ha⟩ := hc.here
  have load {d : Compilation} {y : Value} {i : Nat} {t : Ty} (hd : c.Reaches o (fun _ => none) d s s)
      (hy : (d.library.get c.draft.target.module).values[i]? = some y) (ht : y.ty = t) (hk : t.Known) :
      Meets (Compile.emit1 .loadStatic i span >>= fun _ => pure t) d
        (fun t e => t.Known ∧ c.Reaches o (fun _ => none) e s (Shape.ofTy t ++ s)) fun _ => Failed o := by
    subst ht
    rw [← hd.writes.target] at hy
    exact (hd.ready.loadStatic hy).seq fun _ e he => meets_pure.2 ⟨hk, hd.trans he.reaches⟩
  have added {y : Value} :
      ((c.library.put c.draft.target.module (m.addValue y).1).get c.draft.target.module).values[m.values.size]? =
        some y := by
    rw [Library.get_put_self hm]
    exact Array.getElem?_push_size
  have interned (hv : ∀ r, v ≠ .string r) :
      Meets (Compile.onModule c.draft.target.module (fun m => m.internValue ((v.adapt expected).value c.heap).2) >>=
        fun i => Compile.emit1 .loadStatic i span >>= fun _ => pure ((v.adapt expected).value c.heap).2.ty)
        { c with heap := ((v.adapt expected).value c.heap).1 }
        (fun t e => t.Known ∧ c.Reaches o (fun _ => none) e s (Shape.ofTy t ++ s)) fun _ => Failed o := by
    obtain ⟨y, hy, hk, hh, hscalar, hd⟩ := describes_literal (h := c.heap) (adapt_ne_string hv expected)
    rw [hy]
    refine meets_bind.2 ((meets_onModule hm).2 ?_)
    rcases internValue_spec m y with ⟨u, he, hu, ht⟩ | he
    · refine load (y := u) ?_ ?_ ht hk
      · rw [he]
        have tunes : Tunes m m :=
          ⟨.refl m, rfl, rfl, rfl, rfl, (hc.houses hm).sane, fun _ h => h, Nat.le_refl _⟩
        exact .tune hc hm ha hc.user tunes (.refl _ _) s
      · rw [he]
        change ((c.library.put _ m).get _).values[_]? = _
        rwa [Library.get_put_self hm]
    · rw [he]
      refine load (.addStatic hc hm hk (fun hcap => ?_) s) (added) rfl hk
      obtain ⟨Ψ, hs⟩ := hc.good.heap hcap
      rw [hh]
      exact ⟨Ψ, hs, hd Ψ _⟩
  refine meets_bind.2 (meets_here.2 (meets_bind.2 (meets_onHeap.2 ?_)))
  cases v with
  | string r =>
    rw [adapt_string]
    refine meets_bind.2 ((meets_onModule (c := { c with heap := (c.heap.allocString r).1 }) hm).2 ?_)
    refine load (.addStatic (v := .string (c.heap.allocString r).2) hc hm rfl (fun hcap => ?_) s) added rfl rfl
    obtain ⟨Ψ, hs⟩ := hc.good.heap (Nat.le_trans (Heap.size_le_alloc _ _) hcap)
    obtain ⟨Ψ', hs', hf, -⟩ := View.Sound.alloc (x := .string r) hs (.string r) hcap
    exact ⟨Ψ', hs', .handle rfl (hf.mono (Nat.zero_le _) fun _ => rfl)⟩
  | _ => exact interned (by simp)

end Compilation

end StackScript
