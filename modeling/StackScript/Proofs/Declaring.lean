import StackScript.Proofs.Writing

/-!
Functions that are declared: at the top of a program, where they wait to be written, and in the body of another
function, with the variables that they capture.
-/
namespace StackScript

namespace Compilation

variable {o : Surroundings} {x : Nat → Option Nat} {c d e : Compilation} {s : Shape} {id : Nat} {m m' : Module}
  {f : FunctionRef} {g : Function} {waits : FunctionRef → Prop}

/-! ### Captures -/

theorem mem_captures {decl : FunctionDecl} {scope : Nat} {p : String × Ty} (h : p ∈ decl.captures m scope) :
    ∃ name ∈ decl.freeNames, p ∈ Captures.ofName m scope name := by
  have fold : ∀ (ps qs : List (String × Ty)), p ∈ ps.foldl (fun acc c => Captures.note c acc) qs → p ∈ ps ∨ p ∈ qs := by
    intro ps
    induction ps with
    | nil => exact fun qs h => .inr h
    | cons q ps ih =>
      intro qs h
      rcases ih _ h with h | h
      · exact .inl (.tail _ h)
      · change p ∈ Captures.note q qs at h
        unfold Captures.note at h
        split at h
        · exact .inr h
        · rcases List.mem_append.1 h with h | h
          · exact .inr h
          · exact .inl (List.mem_singleton.1 h ▸ .head _)
  rcases fold _ _ h with h | h
  · exact List.mem_flatMap.1 h
  · cases h

/-- Captured variables are typed. -/
theorem captures_spec {v : View} {decl : FunctionDecl} {scope : Nat} {p : String × Ty} (hm : v.Houses waits id m)
    (h : p ∈ decl.captures m scope) : p.2.Known ∧ p.1 ≠ Plain.reserved := by
  obtain ⟨name, -, h⟩ := mem_captures h
  unfold Captures.ofName at h
  split at h
  · cases h
  · next found hfound =>
    split at h
    · cases h
    · have hb := hm.sane.binds _ _ _ (ScopeTable.resolve?_get hfound)
      split at h
      · next hsym =>
        rw [hsym] at hb
        cases List.mem_singleton.1 h
        exact hb
      · next hsym =>
        rw [hsym] at hb
        cases List.mem_singleton.1 h
        exact hb
      · next hsym =>
        rw [hsym] at hb
        cases List.mem_singleton.1 h
        exact hb
      · split at h
        · next f hf =>
          have lawful := hm.functions _ f hf
          obtain ⟨hn, ht⟩ := List.of_mem_zip h
          exact ⟨lawful.nonlocals _ ht, fun e => lawful.unreserved (e ▸ hn)⟩
        · cases h
      · cases h
      · cases h

/-! ### Names -/

theorem Good.bind {name : String} {symbol : Symbol} (hc : c.Good o waits) (hm : c.library.modules[id]? = some m)
    (ha : m.alive) (hid : id ≠ 0) (hb : m.Binds name symbol) (scope : Nat) :
    ({ c with library := c.library.put id { m with scopes := m.scopes.bind scope name symbol } } : Compilation).Good o
      waits :=
  hc.tune hm ha hid ⟨m.extends_scopes _, rfl, rfl, rfl, rfl, (hc.consistent.modules id m hm ha).sane.bind scope hb,
    fun _ h => h, by simp⟩

theorem Evolves.bindFunction (hm : c.library.modules[id]? = some m) (scope : Nat) (name : String) (i : Nat) :
    c.Evolves o x { c with
      library := c.library.put id { m with scopes := m.scopes.bind scope name (.function i) } } :=
  .put hm (m.extends_scopes (m.scopes.bind scope name (.function i))) (untouched_of_eq rfl)
    (ScopeTable.grows_bind _ _ _ _ (.inr (.inl ⟨i, rfl⟩))) c.heap

/-- A function that is declared may be called by its name. -/
theorem Good.nameFunction {name : String} {i scope : Nat} {α : Type} {k : Unit → Compile α}
    {ok : α → Compilation → Prop} {bad : CompileError → Compilation → Prop} (hc : c.Good o waits)
    (hm : c.library.modules[id]? = some m) (ha : m.alive) (hid : id ≠ 0) (hb : m.Binds name (.function i))
    (hk : ∀ (l : Library) (m' : Module), ({ c with library := l } : Compilation).Good o waits →
      c.Evolves o (fun _ => none) { c with library := l } → l.modules[id]? = some m' → m'.functions = m.functions →
      m'.alive → m'.scopes.size = m.scopes.size → Meets (k ()) { c with library := l } ok bad) :
    Meets (if (!name.isEmpty) = true then Compile.bindIn id scope name (.function i) >>= k else k ()) c ok bad := by
  split
  · refine meets_bind.2 ((meets_onModule hm).2 ?_)
    exact hk _ _ (hc.bind hm ha hid hb scope) (.bindFunction hm scope name i) (Library.modules_put_self hm) rfl ha
      (by simp)
  · exact hk c.library m hc (.refl _ _) hm rfl ha rfl

/-- A function is declared with what it captures. It waits to be written or for its uses. -/
theorem lawful_declared {v : View} {sg : Signature} {label : String} {body : Body} {caps : List (String × Ty)}
    (hs : Header.Declares sg) (known : ∀ p ∈ caps, p.2.Known ∧ p.1 ≠ Plain.reserved)
    (hbody : body = .undefined ∧ waits f ∧ sg.isGeneric = false ∨
      ∃ decl scope, body = .generic decl scope ∧ decl.isPlain ∧ scope < (v.library.get f.module).scopes.size) :
    v.Lawful waits f ⟨label, { sg with nonlocals := caps.map (·.2) }, body, caps.map (·.1)⟩ := by
  have nonlocals : Ty.AllKnown (caps.map (·.2)) := fun t ht => by
    obtain ⟨p, hp, rfl⟩ := List.mem_map.1 ht
    exact (known p hp).1
  have unreserved : Plain.reserved ∉ caps.map (·.1) := fun h => by
    obtain ⟨p, hp, e⟩ := List.mem_map.1 h
    exact (known p hp).2 e
  have bound : Ty.AllKnown sg.bound := by
    rw [hs.bound]
    exact Ty.allKnown_nil
  rcases hbody with ⟨rfl, hw, hgen⟩ | ⟨decl, scope, rfl, hd, hscope⟩
  · exact ⟨by simp, unreserved, nonlocals, bound, fun _ _ => Ty.anyGeneric_eq_false.1 hgen, hs.result, nofun, nofun,
      nofun, fun _ => .inl hw, nofun, nofun⟩
  · refine ⟨by simp, unreserved, nonlocals, bound, nofun, hs.result, fun decl' scope' h => ?_, nofun, nofun, nofun,
      nofun, nofun⟩
    cases h
    exact ⟨hd, hscope⟩

theorem Good.not_pending (hc : c.Good o waits) (hg : c.library.function? f = some g) (hb : g.body ≠ .undefined) :
    ∀ p ∈ c.pending, f ≠ ⟨c.module, p.1⟩ := by
  rintro p hp rfl
  obtain ⟨g', hg', hu⟩ := (hc.pending p hp).undefined
  obtain rfl := Option.some.inj (hg.symm.trans hg')
  exact hb hu

/-! ### Nested functions -/

/-- A function that was not there is held by nothing. -/
theorem Good.fresh (hc : c.Good o waits) (hf : c.library.function? f = none) :
    ¬ o.dead f ∧ f ∉ c.unfinished ∧ ∀ p ∈ c.pending, f ≠ ⟨c.module, p.1⟩ := by
  refine ⟨fun hd => ?_, fun hu => ?_, ?_⟩
  · obtain ⟨g, hg⟩ := hc.consistent.dead f hd
    cases hf.symm.trans hg
  · obtain ⟨g, hg⟩ := hc.begun f hu
    cases hf.symm.trans hg
  · rintro p hp rfl
    obtain ⟨g, hg, -⟩ := (hc.pending p hp).undefined
    cases hf.symm.trans hg

/-- A function in the body of another. -/
theorem Ready.declareNested {decl : FunctionDecl} {sg : Signature} {body : Option Ty → Compile Ty} (hc : c.Ready o)
    (hd : decl.isPlain) (hs : Header.Declares sg) (hbody : ∀ expected, Leaves o (body expected)) (s : Shape) :
    Meets (Compile.declareNested decl sg body) c (fun i d => c.Reaches o (fun _ => none) d s s ∧ d.draft = c.draft ∧
      ∃ g, d.library.function? ⟨c.draft.target.module, i⟩ = some g ∧ g.signature.params = sg.params ∧
        g.signature.bound = [] ∧ (sg.isGeneric = false → ∃ bytes, g.body = .code bytes)) fun _ => Failed o := by
  obtain ⟨m, hm, ha⟩ := hc.here
  have hscope := hc.scope
  rw [Library.get_eq hm] at hscope
  obtain ⟨hheader, -⟩ : decl.header.isPlain ∧ decl.body.isPlain false := by simpa [FunctionDecl.isPlain] using hd
  obtain ⟨hname, hparams⟩ := Header.isPlain_iff.1 hheader
  generalize hcaps : decl.captures m c.draft.scope = caps
  have known : ∀ p ∈ caps, p.2.Known ∧ p.1 ≠ Plain.reserved := fun p hp =>
    captures_spec (hc.houses hm) (hcaps.symm ▸ hp)
  have added (g : Function) : (m.addFunction g).1.functions[m.functions.size]? = some g := Array.getElem?_push_size
  have fresh : c.library.function? ⟨c.draft.target.module, m.functions.size⟩ = none := by
    rw [Library.function?_of_module (f := ⟨c.draft.target.module, m.functions.size⟩) hm]
    exact Array.getElem?_eq_none (Nat.le_refl _)
  obtain ⟨living, unbegun, unqueued⟩ := hc.good.fresh fresh
  refine meets_bind.2 (meets_getDraft.2 (meets_bind.2 (meets_getDraft.2 (meets_bind.2 (meets_bind.2 (meets_get.2
    (meets_pure.2 ?_)))))))
  rw [Library.get_eq hm, hcaps]
  refine meets_bind.2 ((meets_onModule hm).2 ?_)
  generalize hg : (⟨_, _, _, _⟩ : Function) = g
  have hevolves := Evolves.addFunction (x := fun _ => none) hc.good hm g
  have hsize : ((c.library.put c.draft.target.module (m.addFunction g).1).get c.draft.target.module).scopes = m.scopes := by
    rw [Library.get_put_self hm]
    rfl
  have hparams' : g.signature.params = sg.params := by rw [← hg]
  have hbound : g.signature.bound = [] := by rw [← hg, ← hs.bound]
  have hbody' : g.body = if sg.isGeneric then .generic decl c.draft.scope else .undefined := by
    rw [← hg]
    rfl
  have hnative : g.body = .native .listLength ↔ decl.header.name = Plain.reserved := by
    refine ⟨fun h => ?_, fun h => absurd h hname⟩
    rw [hbody'] at h
    split at h <;> cases h
  have hbinds : (m.addFunction g).1.Binds decl.header.name (.function m.functions.size) := ⟨g, added g, hbound, hnative⟩
  have function {l : Library} {m' : Module} (hm' : l.modules[c.draft.target.module]? = some m')
      (hfun : m'.functions = (m.addFunction g).1.functions) :
      l.function? ⟨c.draft.target.module, m.functions.size⟩ = some g := by
    rw [Library.function?_of_module (f := ⟨c.draft.target.module, m.functions.size⟩) hm', hfun]
    exact added g
  have hgen' : Signature.isGeneric { sg with nonlocals := caps.map (·.2) } = sg.isGeneric := rfl
  cases hgen : sg.isGeneric with
  | true =>
    rw [hgen] at hbody'
    have good := hc.good.addFunction (g := g) c.Waits hm ha hc.user (fun _ h => h) (by
      rw [← hg]
      exact lawful_declared hs known (.inr ⟨decl, c.draft.scope, if_pos hgen, hd, by rw [hg, hsize]; exact hscope⟩))
    refine good.nameFunction (Library.modules_put_self hm) ha hc.user hbinds fun l m' hd he hm' hfun _ _ => ?_
    rw [hgen', hgen]
    exact meets_pure.2 ⟨hc.evolve hd (hevolves.trans he) rfl s, rfl, g, function hm' hfun, hparams', hbound, nofun⟩
  | false =>
    have good := hc.good.addFunction (g := g)
      (fun r => c.Waits r ∨ r = ⟨c.draft.target.module, m.functions.size⟩) hm ha hc.user (fun _ h => .inl h) (by
      rw [← hg]
      exact lawful_declared hs known (.inl ⟨if_neg (Bool.eq_false_iff.1 hgen), .inr rfl, hgen⟩))
    refine good.nameFunction (Library.modules_put_self hm) ha hc.user hbinds fun l m' hd he hm' hfun ha' hsize' => ?_
    rw [hgen', hgen]
    have begins : Begins o { c with library := l } ⟨c.draft.target.module, m.functions.size⟩ g c.draft.scope :=
      ⟨hd, function hm' hfun, by rw [hbody', hgen]; rfl, living, unbegun, unqueued,
        by change (l.get _).alive; rw [Library.get_eq hm']; exact ha', hc.user,
        by change _ < (l.get _).scopes.size; rw [Library.get_eq hm', hsize']; exact hscope⟩
    refine (begins.writeFunction ?_ hbody).seq fun _ e he' => ?_
    · intro h
      obtain ⟨p, hp, e⟩ := List.mem_map.1 h
      exact hparams p hp e
    · obtain ⟨g₁, bytes, hg₁, hb⟩ := he'.written
      obtain ⟨g₂, hg₂, hext⟩ := he'.evolves.function (function hm' hfun)
      obtain rfl := Option.some.inj (hg₁.symm.trans hg₂)
      exact meets_pure.2 ⟨hc.evolve he'.good ((hevolves.trans he).trans he'.evolves) he'.draft s, he'.draft, g₁, hg₁,
        hext.params.trans hparams', hext.bound.trans hbound, fun _ => ⟨bytes, hb⟩⟩

end Compilation

end StackScript
