import StackScript.Compile.Call
import StackScript.Proofs.Declaring

/-!
Functions that are written when they are first used: those of the program that are still pending, and the instances
of generic functions. Afterwards the function can be called or waits only for what is being written.
-/
namespace StackScript

theorem Builtin.not_generic {g : Function} (h : g ∈ module.functions) : g.body.isGeneric = false := by
  have all : ∀ g ∈ module.functions.toList, g.body.isGeneric = false := by decide +kernel
  exact all g (Array.mem_toList_iff.2 h)

namespace Compilation

variable {o : Surroundings} {x : Nat → Option Nat} {c d e : Compilation} {s : Shape} {id : Nat} {m m' : Module}
  {f : FunctionRef} {g : Function} {waits : FunctionRef → Prop} {span : Span} {deferred : Deferred} {types : List Ty}

/-- A function whose parameters are typed. -/
structure Specific (c : Compilation) (f : FunctionRef) (g : Function) : Prop where
  function : c.library.function? f = some g
  generic : g.body.isGeneric = false
  typed : g.body ≠ .native .listLength
  bound : g.signature.bound = []

/-- A function that can be called once its result is known. -/
structure Usable (c : Compilation) (f : FunctionRef) (g : Function) : Prop extends Specific c f g where
  begun : ∀ p ∈ c.pending, f ≠ ⟨c.module, p.1⟩

theorem Specific.evolve (h : c.Specific f g) (he : c.Evolves o x d) : ∃ g', d.Specific f g' ∧ g.Extends g' := by
  obtain ⟨g', hg', hext⟩ := he.function h.function
  exact ⟨g', ⟨hg', hext.isGeneric.trans h.generic, fun hl => h.typed ((hext.native _).1 hl),
    hext.bound.trans h.bound⟩, hext⟩

theorem Reachable.evolve (h : c.Reachable id) (he : c.Evolves o x d) (ht : d.draft.target = c.draft.target) :
    d.Reachable id :=
  ⟨ht ▸ h.below, he.alive h.alive⟩

/-! ### Pending functions -/

theorem Good.unqueue (h : c.Good o c.Waits) (i : Nat) :
    Good o (fun r => Waits { c with pending := c.pending.filter fun p => p.1 ≠ i } r ∨ r = ⟨c.module, i⟩)
      { c with pending := c.pending.filter fun p => p.1 ≠ i } := by
  refine ⟨h.consistent.waiting fun r _ _ _ hr => ?_, h.heap, h.count, h.living, fun q hq => ?_, h.begun, h.alive, h.user⟩
  · rcases hr with ⟨hmod, p, hp, hi⟩ | hu
    · by_cases he : p.1 = i
      · refine .inr ?_
        cases r
        simp_all
      · exact .inl (.inl ⟨hmod, p, List.mem_filter.2 ⟨hp, by simpa using he⟩, hi⟩)
    · exact .inl (.inr hu)
  · have old := h.pending q (List.mem_filter.1 hq).1
    exact ⟨old.plain, old.unbegun, old.living, old.undefined, old.sole⟩

theorem Good.ensureWritten (hw : Writes o deferred) (hc : c.Good o c.Waits) :
    Meets (Compile.ensureWritten deferred f) c (fun _ d => d.Good o d.Waits ∧ c.Evolves o (fun _ => none) d ∧
      d.draft = c.draft ∧ ∀ p ∈ d.pending, f ≠ ⟨d.module, p.1⟩) fun _ => Failed o := by
  unfold Compile.ensureWritten
  rw [meets_bind, meets_get]
  split
  · next hmod =>
    split
    · next decl hdecl =>
      obtain ⟨l₁, l₂, hl, -⟩ := List.lookup_eq_some_iff.1 hdecl
      have hmem : (f.index, decl) ∈ c.pending := by simp [hl]
      have pends := hc.pending _ hmem
      obtain ⟨g, hg, hu⟩ := pends.undefined
      have hf : f = ⟨c.module, f.index⟩ := by
        rw [← hmod]
      obtain ⟨m, hm, -⟩ := Library.exists_module hg
      have sane := (hc.consistent.houses hm hc.alive).sane
      have begins : Begins o { c with pending := c.pending.filter fun p => p.1 ≠ f.index } f g ScopeTable.root := by
        rw [hf]
        refine ⟨hc.unqueue f.index, hg, hu, pends.living, pends.unbegun, fun p hp e => ?_, hc.alive, hc.user, ?_⟩
        · have := (List.mem_filter.1 hp).2
          simp only [FunctionRef.mk.injEq] at e
          simp [e.2] at this
        · change 0 < (c.library.get c.module).scopes.size
          rw [Library.get_eq hm]
          exact sane.root
      refine meets_bind.2 (meets_set.2 ((hw _ f g decl _ begins pends.plain).imp (fun _ d hd => ?_) fun _ _ h => h))
      have he := hd.evolves
      refine ⟨hd.good, ⟨he.library, he.scopes, he.waiting, he.unfinished, he.module,
        fun p hp => (List.mem_filter.1 (he.pending p hp)).1⟩, hd.draft, fun p hp e => ?_⟩
      exact begins.unqueued p (he.pending p hp) (he.module ▸ e)
    · next hnone =>
      refine meets_pure.2 ⟨hc, .refl _ _, rfl, fun p hp e => ?_⟩
      have := List.lookup_eq_none_iff.1 (Option.eq_none_iff_forall_ne_some.2 hnone) p hp
      rw [e] at this
      simp at this
  · next hmod => exact meets_pure.2 ⟨hc, .refl _ _, rfl, fun p _ e => hmod (by rw [e])⟩

/-- A function can be used once it has been written. -/
theorem Ready.ensureWritten (hw : Writes o deferred) (hc : c.Ready o) (hf : c.Specific f g) :
    Meets (Compile.ensureWritten deferred f) c (fun _ d => c.Reaches o (fun _ => none) d s s ∧ d.draft = c.draft ∧
      ∃ g', d.Usable f g' ∧ g.Extends g') fun _ => Failed o := by
  refine (hc.good.ensureWritten hw).imp (fun _ d hd => ?_) fun _ _ h => h
  obtain ⟨hgood, hevolves, hdraft, hbegun⟩ := hd
  obtain ⟨g', hg', hext⟩ := hf.evolve hevolves
  exact ⟨hc.evolve hgood hevolves hdraft s, hdraft, g', ⟨hg', hbegun⟩, hext⟩

/-! ### Instances -/

/-- What an instance has from its generic function. -/
theorem lawful_instance {v w : View} {r : FunctionRef} {label : String} (h : v.Lawful waits f g)
    (ht : Ty.AllKnown types) (hw : waits' r) :
    w.Lawful waits' r ⟨label, { params := types, nonlocals := g.signature.nonlocals, result := g.signature.result },
      .undefined, g.captures⟩ :=
  ⟨h.captures, h.unreserved, h.nonlocals, Ty.allKnown_nil, fun _ _ => ht, h.result, nofun, nofun, nofun,
    fun _ => .inl hw, nofun, nofun⟩

theorem Good.addInstance (hc : c.Good o waits) (hm : c.library.modules[id]? = some m) (ha : m.alive) (hid : id ≠ 0)
    {i : Instance} (hi : m.Records i) (hp : ∀ p ∈ c.pending, (⟨id, i.function⟩ : FunctionRef) ≠ ⟨c.module, p.1⟩) :
    ({ c with library := c.library.put id (m.addInstance i) } : Compilation).Good o waits := by
  have old := (hc.consistent.modules id m hm ha).sane
  have growth : m.Extends (m.addInstance i) := m.extends_instances _
  have sane : (m.addInstance i).Sane := by
    refine ⟨old.ordered, old.root, fun j name symbol hs => (old.binds j name symbol hs).extends growth, fun k hk => ?_,
      old.values⟩
    rcases List.mem_append.1 hk with hk | hk
    · exact (old.records k hk).extends growth
    · exact List.mem_singleton.1 hk ▸ hi.extends growth
  refine hc.put hm rfl (untouched_of_eq rfl) (fun p hp' e => ⟨rfl, fun k hk => ?_⟩)
    (hc.consistent.put_same hm ha hid growth rfl sane (fun _ h => h) (Nat.le_refl _)) fun hcap => ?_
  · rcases List.mem_append.1 hk with hk | hk
    · exact .inl hk
    · rw [List.mem_singleton.1 hk]
      exact .inr fun e' => hp p hp' (by rw [e, e'])
  · obtain ⟨Ψ, hs⟩ := hc.heap hcap
    exact ⟨Ψ, hs.put hm growth (fun _ _ => rfl) rfl rfl⟩

theorem Evolves.addInstance (hm : c.library.modules[id]? = some m) (i : Instance) :
    c.Evolves o x { c with library := c.library.put id (m.addInstance i) } :=
  .put hm (m.extends_instances (m.instances ++ [i])) (untouched_of_eq rfl) (.refl _ _) c.heap

/-- An instance that did not compile is forgotten, and the compilation fails. -/
theorem Failed.removeInstance {i : Nat} (hc : c.Failed o) (ha : (c.library.get id).alive) (hid : id ≠ 0) :
    Meets (Compile.onModule id fun m => (m.removeInstance i, ())) c (fun _ => Failed o) fun _ => Failed o := by
  cases hm : c.library.modules[id]? with
  | none =>
    unfold Compile.onModule Meets
    simp only [Library.update, hm]
    exact hc
  | some m =>
    rw [Library.get_eq hm] at ha
    obtain ⟨waits, consistent⟩ := hc.consistent
    have growth : m.Extends (m.removeInstance i) := m.extends_instances _
    have sane := (consistent.modules id m hm ha).sane.extends growth rfl (fun _ h => (List.mem_filter.1 h).1) rfl
    refine (meets_onModule hm).2 ⟨⟨waits, ?_⟩, fun hcap => ?_, Library.size_put.trans hc.count,
      fun j => (alive_put hm (show (m.removeInstance i).alive = m.alive from rfl)).trans (hc.living j)⟩
    · exact consistent.put_same hm ha hid growth rfl sane (fun _ h => h) (Nat.le_refl _)
    · obtain ⟨Ψ, hs⟩ := hc.heap hcap
      exact ⟨Ψ, hs.put hm growth (fun _ _ => rfl) rfl rfl⟩

theorem Ready.user_of_generic (hc : c.Ready o) (hg : c.library.function? f = some g) (hb : g.body.isGeneric) :
    f.module ≠ 0 := by
  intro h0
  obtain ⟨m, hm, hf⟩ := Library.exists_module hg
  have builtin : c.library.modules[0]? = some Builtin.module := hc.good.consistent.builtin
  rw [h0] at hm
  obtain rfl := Option.some.inj (builtin.symm.trans hm)
  rw [Builtin.not_generic (Array.mem_of_getElem? hf)] at hb
  cases hb

theorem Ready.instantiate (hw : Writes o deferred) (hc : c.Ready o) (hr : c.Reachable f.module)
    (hg : c.library.function? f = some g) (ht : Ty.AllKnown types) :
    Meets (Compile.instantiate deferred f types span) c (fun i d => c.Reaches o (fun _ => none) d s s ∧
      d.draft = c.draft ∧ ∃ g', d.Usable ⟨f.module, i⟩ g' ∧ g'.signature.params = types) fun _ => Failed o := by
  obtain ⟨m, hm, hf⟩ := Library.exists_module hg
  have hget := Library.get_eq hm
  have ha : m.alive := hget ▸ hr.alive
  have houses := hc.good.consistent.houses hm hr.alive
  have lawful := hc.lawful hg hr.alive
  refine meets_bind.2 (meets_bind.2 (meets_get.2 (meets_pure.2 ?_)))
  rw [hget]
  split
  · next i hi =>
    obtain ⟨k, hk, rfl⟩ := Option.map_eq_some_iff.1 hi
    have hmem := List.mem_of_find?_eq_some hk
    have hargs := List.find?_some hk
    simp only [Bool.and_eq_true, decide_eq_true_eq] at hargs
    obtain ⟨g', hg', hp, hb, hgen, hl⟩ := houses.sane.records k hmem
    refine meets_pure.2 ⟨.refl hc _ s, rfl, g', ⟨⟨(Library.function?_of_module (f := ⟨f.module, k.function⟩) hm).trans hg',
      hgen, hl, hb⟩, fun p hp e => ?_⟩, hp.trans hargs.2⟩
    obtain ⟨hmod, hfun⟩ := FunctionRef.mk.inj e
    refine (hc.good.pending p hp).sole k ?_ hfun
    rw [← hmod, hget]
    exact hmem
  · refine meets_bind.2 ((meets_getFunction hg).2 ?_)
    split
    · next decl scope hbody =>
      obtain ⟨hdecl, hscope⟩ := lawful.generic decl scope hbody
      have hid : f.module ≠ 0 := hc.user_of_generic hg (by rw [hbody]; rfl)
      refine meets_bind.2 ((meets_onModule hm).2 (meets_bind.2 ((meets_onModule (Library.modules_put_self hm)).2 ?_)))
      generalize hg₀ : (⟨_, _, _, _⟩ : Function) = g₀
      have hadded : (m.addFunction g₀).1.functions[m.functions.size]? = some g₀ := Array.getElem?_push_size
      have fresh : c.library.function? ⟨f.module, m.functions.size⟩ = none := by
        rw [Library.function?_of_module (f := ⟨f.module, m.functions.size⟩) hm]
        exact Array.getElem?_eq_none (Nat.le_refl _)
      obtain ⟨living, unbegun, unqueued⟩ := hc.good.fresh fresh
      have good := hc.good.addFunction (g := g₀) (fun r => c.Waits r ∨ r = ⟨f.module, m.functions.size⟩) hm ha
        hid (fun _ h => .inl h) (by
          rw [← hg₀]
          exact lawful_instance lawful ht (.inr rfl))
      have records : (m.addFunction g₀).1.Records ⟨f.index, types, m.functions.size⟩ :=
        ⟨g₀, hadded, by rw [← hg₀], by rw [← hg₀], by rw [← hg₀]; rfl, by rw [← hg₀]; nofun⟩
      have good := good.addInstance (Library.modules_put_self hm) ha hid records unqueued
      have hevolves := (Evolves.addFunction (x := fun _ => none) hc.good hm g₀).trans
        (.addInstance (Library.modules_put_self hm) ⟨f.index, types, m.functions.size⟩)
      have begins : Begins o { c with
          library := (c.library.put f.module (m.addFunction g₀).1).put f.module
            ((m.addFunction g₀).1.addInstance ⟨f.index, types, m.functions.size⟩) }
          ⟨f.module, m.functions.size⟩ g₀ scope := by
        refine ⟨good, (Library.function?_put_self (Library.modules_put_self hm)).trans hadded, by rw [← hg₀], living,
          unbegun, unqueued, hevolves.alive hr.alive, hid,
          Nat.lt_of_lt_of_le hscope (hevolves.scopes f.module).size⟩
      refine meets_bind.2 (meets_tryCatch.2 ((hw _ _ g₀ decl scope begins hdecl).imp (fun _ d hd => ?_) fun _ d hd => ?_))
      · obtain ⟨g₁, bytes, hg₁, hb⟩ := hd.written
        obtain ⟨g₂, hg₂, hext⟩ := hd.evolves.function begins.function
        obtain rfl := Option.some.inj (hg₁.symm.trans hg₂)
        have usable : d.Usable ⟨f.module, m.functions.size⟩ g₁ :=
          ⟨⟨hg₁, by rw [hb]; rfl, by rw [hb]; nofun, by rw [hext.bound, ← hg₀]⟩, hd.good.not_pending hg₁ (by rw [hb]; nofun)⟩
        exact meets_pure.2 ⟨hc.evolve hd.good (hevolves.trans hd.evolves) hd.draft s, hd.draft, g₁, usable,
          by rw [hext.params, ← hg₀]⟩
      · have ha' : (d.library.get f.module).alive := by
          rw [hd.living, ← hc.good.living]
          exact hr.alive
        exact (hd.removeInstance ha' hid).seq fun _ _ h => h
    · exact hc.failed

end Compilation

end StackScript
