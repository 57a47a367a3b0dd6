import StackScript.Proofs.Resolving

/-!
Functions that are written while another one waits. The draft starts with the frame of the function on the stack;
its body leaves a result above the frame, the frame is removed, and the code keeps to the signature.
-/
namespace StackScript

namespace Draft

variable {s : Signature} {name : String} {symbol : Symbol} {m : Module}

/-- A symbol of variables that lie one below another is at the end of those above it. -/
theorem mem_place {make : Nat → Nat → Ty → Symbol} : ∀ {i offset : Nat} {names : List String} {ts : List Ty},
    (name, symbol) ∈ place make i offset names ts → ∃ pre t post, ts = pre ++ t :: post ∧
      names[pre.length]? = some name ∧ symbol = make (i + pre.length) (offset + Ty.sizes pre) t
  | _, _, [], _, h => by simp [place] at h
  | _, _, _ :: _, [], h => by simp [place] at h
  | i, offset, n :: names, t :: ts, h => by
    rw [place, List.mem_cons] at h
    rcases h with h | h
    · obtain ⟨rfl, rfl⟩ := Prod.mk.inj h
      exact ⟨[], t, ts, rfl, rfl, rfl⟩
    · obtain ⟨pre, u, post, rfl, named, e⟩ := mem_place h
      refine ⟨t :: pre, u, post, rfl, named, ?_⟩
      rw [e, Ty.sizes, List.length_cons, Nat.add_right_comm i, Nat.add_assoc i, Nat.add_assoc offset]

/-- The variables of a frame lie in it. -/
theorem frameSymbols_spec {captures params : List String} (hn : Ty.AllKnown s.nonlocals) (hp : Ty.AllKnown s.params)
    (hc : Plain.reserved ∉ captures) (hr : Plain.reserved ∉ params) (h : (name, symbol) ∈ frameSymbols s captures params) :
    m.Binds name symbol ∧ symbol.Placed (Ty.sizes (frameTypes s)) (Shape.ofTys (frameTypes s)) := by
  rw [frameSymbols, List.mem_append] at h
  rcases h with h | h
  · obtain ⟨pre, t, post, e, named, rfl⟩ := mem_place h
    refine ⟨⟨hn t (by simp [e]), fun h => hc (h ▸ List.mem_of_getElem? named)⟩, Shape.ofTys pre, Shape.ofTys (post ++ s.bound ++ s.params),
      by simp [frameTypes, e], ?_⟩
    simp only [frameTypes, e, Shape.size_ofTys, Ty.sizes_append, Ty.sizes]
    omega
  · obtain ⟨pre, t, post, e, named, rfl⟩ := mem_place h
    refine ⟨⟨hp t (by simp [e]), fun h => hr (h ▸ List.mem_of_getElem? named)⟩, Shape.ofTys (s.nonlocals ++ s.bound ++ pre),
      Shape.ofTys post, by simp [frameTypes, e], ?_⟩
    simp only [frameTypes, e, Shape.size_ofTys, Ty.sizes_append, Ty.sizes, Signature.closureSize]
    omega

end Draft

theorem Library.put_put (l : Library) (id : Nat) (m m' : Module) : (l.put id m).put id m' = l.put id m' := by
  simp [Library.put, Array.setIfInBounds_setIfInBounds]

namespace Compilation

variable {o : Surroundings} {x : Nat → Option Nat} {c d e : Compilation} {s : Shape} {span bodySpan : Span} {t : Ty}
  {id parent : Nat} {m m' : Module} {f : FunctionRef} {g : Function} {waits waits' : FunctionRef → Prop}
  {params : List String}

/-! ### Other functions -/

/-- A function that is added is none of those that were there. -/
theorem untouched_addFunction (hc : c.Good o waits) (hm : c.library.modules[id]? = some m) (g : Function) :
    c.Untouched o id m (m.addFunction g).1 := by
  intro i hi
  have old : ∃ g', c.library.function? ⟨id, i⟩ = some g' := hi.elim (hc.consistent.dead _) (hc.begun _)
  obtain ⟨g', hg'⟩ := old
  rw [Library.function?_of_module hm] at hg'
  rw [hg']
  exact Module.getElem?_push hg' g

theorem Good.addFunction (waits' : FunctionRef → Prop) (hc : c.Good o waits) (hm : c.library.modules[id]? = some m) (ha : m.alive) (hid : id ≠ 0)
    (hw : ∀ r, waits r → waits' r)
    (law : View.Lawful ⟨c.library.put id (m.addFunction g).1, o.dead⟩ waits' ⟨id, m.functions.size⟩ g) :
    ({ c with library := c.library.put id (m.addFunction g).1 } : Compilation).Good o waits' := by
  have growth := m.extends_addFunction g
  have old := (hc.consistent.modules id m hm ha).sane
  have untouched := untouched_addFunction hc hm g
  have sane : (m.addFunction g).1.Sane := old.extends growth rfl (fun _ h => h) rfl
  have consistent : View.Consistent ⟨c.library.put id (m.addFunction g).1, o.dead⟩ waits' :=
    hc.consistent.put hm ha hid growth (fun i hi => untouched i (.inl hi)) sane (fun _ h => h) (Nat.le_refl _)
      (fun i g' hg' => ?_) fun r _ _ _ hr => hw r hr
  · refine hc.put hm rfl untouched (fun p hp e => ?_) consistent fun hcap => ?_
    · obtain ⟨g', hg', -⟩ := (hc.pending p hp).undefined
      rw [e, Library.function?_of_module (f := ⟨id, p.1⟩) hm] at hg'
      exact ⟨(Module.getElem?_push hg' g).trans hg'.symm, fun _ h => .inl h⟩
    · obtain ⟨Ψ, hs⟩ := hc.heap hcap
      exact ⟨Ψ, hs.put hm growth (fun i hi => untouched i (.inl hi)) rfl rfl⟩
  · change (m.functions.push g)[i]? = some g' at hg'
    rw [Array.getElem?_push] at hg'
    split at hg'
    · next hi =>
      subst hi
      obtain rfl := Option.some.inj hg'
      exact .inr law
    · exact .inl hg'

theorem Evolves.addFunction (hc : c.Good o waits) (hm : c.library.modules[id]? = some m) (g : Function) :
    c.Evolves o x { c with library := c.library.put id (m.addFunction g).1 } :=
  .put hm (m.extends_addFunction g) (untouched_addFunction hc hm g) (.refl _ _) c.heap

/-- A draft that waited goes on. -/
theorem Ready.evolve (hc : c.Ready o) (hd : d.Good o d.Waits) (he : c.Evolves o x d) (hdraft : d.draft = c.draft)
    (s : Shape) : c.Reaches o x d s s := by
  refine ⟨⟨hd, ?_, hdraft ▸ hc.user, ?_, hdraft ▸ hc.code⟩, he, hdraft ▸ .refl _, fun _ _ _ _ _ h => hdraft ▸ h⟩
  · obtain ⟨m, hm, -⟩ := hc.here
    have hlt := (Array.getElem?_eq_some_iff.1 hm).1
    rw [hc.good.count, ← hd.count] at hlt
    have hn : d.library.modules[c.draft.target.module]? = some d.library.modules[c.draft.target.module] :=
      Array.getElem?_eq_getElem hlt
    have ha := he.alive hc.alive
    rw [Library.get_eq hn] at ha
    rw [hdraft]
    exact ⟨_, hn, ha⟩
  · rw [hdraft]
    exact Nat.lt_of_lt_of_le hc.scope (he.scopes _).size

/-! ### The frame of a function -/

/-- A function that can be begun: it is declared, and nothing else writes it. -/
structure Begins (o : Surroundings) (c : Compilation) (f : FunctionRef) (g : Function) (parent : Nat) : Prop where
  good : c.Good o fun r => c.Waits r ∨ r = f
  function : c.library.function? f = some g
  undefined : g.body = .undefined
  living : ¬ o.dead f
  unbegun : f ∉ c.unfinished
  unqueued : ∀ p ∈ c.pending, f ≠ ⟨c.module, p.1⟩
  alive : (c.library.get f.module).alive
  user : f.module ≠ 0
  parent : parent < (c.library.get f.module).scopes.size

/-- Scopes to which one is added, in which the variables lie. -/
structure Opens (m : Module) (frame : Nat) (s : Shape) (scopes : ScopeTable) : Prop where
  sane : ({ m with scopes := scopes } : Module).Sane
  inside : m.scopes.size < scopes.size
  placed : scopes.Placed m.scopes.size frame s
  grows : ScopeTable.Grows none m.scopes scopes

theorem opens_add (hm : m.Sane) (hp : parent < m.scopes.size) (label : String) (frame : Nat) (s : Shape) :
    Opens m frame s (m.scopes.add parent .function label).1 :=
  ⟨hm.addScope hp .function label, by simp, ScopeTable.placed_addFunction _ _ _ _ _, ScopeTable.grows_add _ _ _ _⟩

theorem Opens.bind {frame : Nat} {scopes : ScopeTable} {name : String} {symbol : Symbol} (h : Opens m frame s scopes)
    (hb : m.Binds name symbol) (hp : symbol.Placed frame s) :
    Opens m frame s (scopes.bind m.scopes.size name symbol) := by
  refine ⟨h.sane.bind m.scopes.size (by cases symbol <;> exact hb), by simpa using h.inside,
    h.placed.bind h.sane.ordered h.inside hp, ?_⟩
  have grows := ScopeTable.grows_bind (x := some m.scopes.size) scopes m.scopes.size name symbol (.inl rfl)
  exact ((h.grows.open (some m.scopes.size)).trans grows).close (Nat.le_refl _)

/-- The scope of a function, before and after its variables are bound. -/
theorem meets_bindFrame {frame : Nat} (bad : CompileError → Compilation → Prop)
    (hm : c.library.modules[id]? = some m) : ∀ {symbols : List (String × Symbol)} {scopes : ScopeTable},
      Opens m frame s scopes → (∀ p ∈ symbols, m.Binds p.1 p.2 ∧ p.2.Placed frame s) →
      Meets (symbols.forM fun (name, symbol) => Compile.bindIn id m.scopes.size name symbol)
        { c with library := c.library.put id { m with scopes := scopes } }
        (fun _ d => ∃ scopes', Opens m frame s scopes' ∧
          d = { c with library := c.library.put id { m with scopes := scopes' } }) bad
  | [], scopes, h, _ => ⟨scopes, h, rfl⟩
  | (name, symbol) :: symbols, scopes, h, hs => by
    obtain ⟨hb, hp⟩ := hs _ (.head _)
    refine meets_bind.2 ((meets_onModule (Library.modules_put_self hm)).2 ?_)
    have := meets_bindFrame bad hm (h.bind hb hp) fun p hp' => hs p (.tail _ hp')
    rwa [Library.put_put]

/-- What a draft that begins sees. -/
structure Begun (o : Surroundings) (c d : Compilation) (f : FunctionRef) (g : Function) : Prop where
  ready : d.Ready o
  sees : d.Sees (Shape.ofTys (Draft.frameTypes g.signature))
  level : d.Level (Shape.ofTys (Draft.frameTypes g.signature))
  evolves : c.Evolves o (fun _ => none) { d with unfinished := c.unfinished }
  function : d.library.function? f = some g
  unfinished : d.unfinished = f :: c.unfinished
  target : d.draft.target = f
  name : d.draft.name = g.name
  signature : d.draft.signature = g.signature
  captures : d.draft.captures = g.captures
  code : d.draft.code = {}

theorem Begins.beginFunction (h : Begins o c f g parent) (hparams : Plain.reserved ∉ params) :
    Meets (Compile.beginFunction f params parent span) c (fun _ d => Begun o c d f g) fun _ => Failed o := by
  obtain ⟨m, hm, hf⟩ := Library.exists_module h.function
  have hget := Library.get_eq hm
  have alive : m.alive := hget ▸ h.alive
  have parent := hget ▸ h.parent
  have houses := h.good.consistent.houses hm h.alive
  have lawful := h.good.consistent.lawful h.function h.alive
  have known := lawful.params (by rw [h.undefined]; rfl) (by rw [h.undefined]; nofun)
  have opens := opens_add houses.sane parent g.name (Ty.sizes (Draft.frameTypes g.signature))
    (Shape.ofTys (Draft.frameTypes g.signature))
  refine meets_bind.2 ((meets_getFunction h.function).2 (meets_bind.2 ((meets_onModule hm).2 (meets_bind.2 ?_))))
  refine (meets_bindFrame _ hm opens fun p hp =>
    Draft.frameSymbols_spec lawful.nonlocals known lawful.unreserved hparams hp).imp (fun _ d hd => ?_)
    fun _ _ h => h
  obtain ⟨scopes, hopens, rfl⟩ := hd
  have tunes : Tunes m { m with scopes := scopes } :=
    ⟨m.extends_scopes scopes, rfl, rfl, rfl, rfl, hopens.sane, fun _ h => h, Nat.le_of_lt hopens.inside⟩
  have good := h.good.tune hm alive h.user tunes
  have hput : (c.library.put f.module { m with scopes := scopes }).get f.module = { m with scopes := scopes } :=
    Library.get_put_self hm
  refine meets_modify.2 ⟨⟨⟨?_, good.heap, good.count, good.living, ?_, ?_, good.alive, good.user⟩,
    ⟨_, Library.modules_put_self hm, alive⟩, h.user, ?_, ?_⟩, ⟨?_, Shape.settled_ofTys _⟩, ?_, ?_, ?_, rfl, rfl, rfl,
    rfl, rfl, rfl⟩
  · refine good.consistent.waiting fun r _ _ _ hr => ?_
    rcases hr with (hp | hu) | rfl
    · exact .inl hp
    · exact .inr (.tail _ hu)
    · exact .inr (.head _)
  · intro p hp
    have old := good.pending p hp
    refine ⟨old.plain, fun hmem => ?_, old.living, old.undefined, old.sole⟩
    rcases List.mem_cons.1 hmem with e | hmem
    · exact h.unqueued p hp e.symm
    · exact old.unbegun hmem
  · intro r hr
    rcases List.mem_cons.1 hr with rfl | hr
    · exact ⟨g, (Library.function?_put_self hm).trans hf⟩
    · exact good.begun r hr
  · change m.scopes.size < ((c.library.put f.module _).get f.module).scopes.size
    rw [hput]
    exact hopens.inside
  · exact Code.valid_empty
  · change ((c.library.put f.module _).get f.module).scopes.Placed _ _ _
    rw [hput]
    exact hopens.placed
  · change Ty.sizes _ + 0 = _
    rw [Shape.size_ofTys, Nat.add_zero]
  · have := Evolves.put (o := o) (x := fun _ => none) hm tunes.growth (untouched_of_eq rfl) hopens.grows c.heap
    exact ⟨this.library, this.scopes, this.waiting, rfl, rfl, fun _ h => h⟩
  · exact (Library.function?_put_self hm).trans hf

/-! ### The end of a function -/

theorem Good.redraft (h : c.Good o waits) (d : Draft) : ({ c with draft := d } : Compilation).Good o waits :=
  ⟨h.consistent, h.heap, h.count, h.living, fun p hp => ⟨(h.pending p hp).plain, (h.pending p hp).unbegun,
    (h.pending p hp).living, (h.pending p hp).undefined, (h.pending p hp).sole⟩, h.begun, h.alive, h.user⟩

theorem resolve_spec {sg sg' : Signature} (h : sg.resolve t = .ok sg') (ht : t.Known) (hr : sg.effectiveResult.Known) :
    sg' = { sg with result := t } ∧ (t = sg.result ∨ sg.result = .unknown) := by
  unfold Signature.resolve at h
  split at h
  · next u hu =>
    cases h
    obtain rfl := Ty.unify?_eq_right ht hu
    refine ⟨rfl, ?_⟩
    rcases Signature.known_effectiveResult.1 hr with e | hk
    · exact .inr e
    · exact .inl (Ty.unify?_eq_left hk hu)
  · cases h

/-- What is left when a function has been written while the draft waited. -/
structure Wrote (o : Surroundings) (c d : Compilation) (f : FunctionRef) : Prop where
  good : d.Good o d.Waits
  evolves : c.Evolves o (fun _ => none) d
  draft : d.draft = c.draft
  written : ∃ g bytes, d.library.function? f = some g ∧ g.body = .code bytes

theorem Good.finish (h : c.Good o waits) (p : FunctionRef → Bool) :
    ({ c with unfinished := c.unfinished.filter p } : Compilation).Good o waits := by
  refine ⟨h.consistent, h.heap, h.count, h.living, fun q hq => ?_, fun r hr => h.begun r (List.mem_filter.1 hr).1,
    h.alive, h.user⟩
  have old := h.pending q hq
  exact ⟨old.plain, fun hmem => old.unbegun (List.mem_filter.1 hmem).1, old.living, old.undefined, old.sole⟩

/-- A function is replaced that nothing else holds on to. -/
structure Replaces (o : Surroundings) (c : Compilation) (f : FunctionRef) (m : Module) (g g' : Function) : Prop where
  module : c.library.modules[f.module]? = some m
  alive : m.alive
  user : f.module ≠ 0
  function : m.functions[f.index]? = some g
  growth : g.Extends g'
  living : ¬ o.dead f
  unbegun : f ∉ c.unfinished
  unqueued : ∀ p ∈ c.pending, f ≠ ⟨c.module, p.1⟩

section

variable {g' : Function} (h : Replaces o c f m g g')
include h

theorem Replaces.self : (m.setFunction f.index g').functions[f.index]? = some g' :=
  Array.getElem?_setIfInBounds_self_of_lt (Array.getElem?_eq_some_iff.1 h.function).1

theorem Replaces.function? : (c.library.put f.module (m.setFunction f.index g')).function? f = some g' :=
  (Library.function?_put_self h.module).trans h.self

theorem Replaces.extends : m.Extends (m.setFunction f.index g') := Module.extends_setFunction h.function h.growth

theorem Replaces.untouched : c.Untouched o f.module m (m.setFunction f.index g') := by
  intro i hi
  refine Array.getElem?_setIfInBounds_ne ?_
  rintro rfl
  exact hi.elim h.living h.unbegun

theorem Replaces.view (k : Nat) :
    (c.view o).Extends k ⟨c.library.put f.module (m.setFunction f.index g'), o.dead⟩ :=
  View.extends_put (v := c.view o) h.module h.extends (fun i hi => h.untouched i (.inl hi)) k

theorem Replaces.evolves : c.Evolves o x { c with library := c.library.put f.module (m.setFunction f.index g') } :=
  .put h.module h.extends h.untouched (.refl _ _) c.heap

theorem Replaces.good (waits' : FunctionRef → Prop) (hc : c.Good o waits) (hb : g'.body ≠ .undefined) (hw : ∀ r, r ≠ f → waits r → waits' r)
    (law : View.Lawful ⟨c.library.put f.module (m.setFunction f.index g'), o.dead⟩ waits' f g') :
    ({ c with library := c.library.put f.module (m.setFunction f.index g') } : Compilation).Good o waits' := by
  have hne {i : Nat} (hi : f.index ≠ i) : (m.setFunction f.index g').functions[i]? = m.functions[i]? :=
    Array.getElem?_setIfInBounds_ne hi
  have sane : (m.setFunction f.index g').Sane :=
    (hc.consistent.modules _ m h.module h.alive).sane.extends h.extends rfl (fun _ h => h) rfl
  refine hc.put h.module rfl h.untouched (fun p hp hid => ⟨hne ?_, fun _ h => .inl h⟩) ?_ fun hcap => ?_
  · exact fun e => h.unqueued p hp (by rw [hid, ← e])
  · refine hc.consistent.put h.module h.alive h.user h.extends (fun i hi => h.untouched i (.inl hi)) sane
      (fun _ h => h) (Nat.le_refl _) (fun i k hk => ?_) fun r k hk hu hr => hw r ?_ hr
    · by_cases hi : f.index = i
      · subst hi
        obtain rfl := Option.some.inj (h.self.symm.trans hk)
        exact .inr law
      · exact .inl ((hne hi).symm.trans hk)
    · rintro rfl
      obtain rfl := Option.some.inj (h.function?.symm.trans hk)
      exact hb hu
  · obtain ⟨Ψ, hs⟩ := hc.heap hcap
    exact ⟨Ψ, hs.put h.module h.extends (fun i hi => h.untouched i (.inl hi)) rfl rfl⟩

end

section

variable {code : Code} (hd : Begun o c d f g)
include hd

/-- The code of a function after its body and its epilogue. -/
theorem Begun.flow {w : View} (he : d.Reaches o x e (Shape.ofTys (Draft.frameTypes g.signature)) (Shape.ofTy t))
    (hcode : e.draft.code.resolve = (code, none)) (hw : (e.view o).Extends f.module w) :
    w.Flow f.module (Ty.sizes (Draft.frameTypes g.signature)) code.bytes (Shape.ofTy t) 0
      (Shape.ofTys (Draft.frameTypes g.signature)) := by
  have hsize : code.bytes.size ≤ e.draft.code.size := Nat.le_of_eq (he.ready.code.size_resolve hcode)
  have := he.flow w code.bytes (Shape.ofTy t)
  rw [hd.target, hd.code, Draft.frame, hd.signature] at this
  exact this hw (he.ready.code.fits_resolve hcode) (.done hsize)

theorem Begun.mem : f ∈ d.unfinished := by
  rw [hd.unfinished]
  exact .head _

theorem Begun.finish (h : Begins o c f g parent) (he : d.Evolves o (fun _ => none) e) :
    c.Evolves o (fun _ => none) { e with unfinished := e.unfinished.filter (· ≠ f) } := by
  refine ⟨fun k => (hd.evolves.library k).trans (he.library k), fun id => (hd.evolves.scopes id).trans (he.scopes id),
    fun r hr => ?_, ?_, he.module.trans hd.evolves.module, fun p hp => hd.evolves.pending p (he.pending p hp)⟩
  · have hrd : r ∈ d.unfinished := by
      rw [hd.unfinished]
      exact .tail _ hr
    exact (he.waiting r hrd).trans (hd.evolves.waiting r hr)
  · change e.unfinished.filter (· ≠ f) = c.unfinished
    rw [he.unfinished, hd.unfinished, List.filter_cons_of_neg (by simp), List.filter_eq_self]
    exact fun r hr => by simpa using fun e : r = f => h.unbegun (e ▸ hr)

/-- The code that is installed keeps to the signature. -/
theorem Begun.install {sg : Signature} (h : Begins o c f g parent)
    (he : d.Reaches o (fun _ => none) e (Shape.ofTys (Draft.frameTypes g.signature)) (Shape.ofTy t)) (ht : t.Known)
    (hsg : g.signature.resolve t = .ok sg) (hcode : e.draft.code.resolve = (code, none)) :
    ∃ m, e.library.modules[f.module]? = some m ∧ Wrote o c { e with
      library := e.library.put f.module (m.setFunction f.index ⟨g.name, sg, .code code.bytes, g.captures⟩)
      unfinished := e.unfinished.filter (· ≠ f)
      draft := c.draft } f := by
  have hfe : e.library.function? f = some g := (he.evolves.waiting f hd.mem).trans hd.function
  have hae : (e.library.get f.module).alive := he.evolves.alive (hd.evolves.alive h.alive)
  have lawful := he.ready.good.consistent.lawful hfe hae
  obtain ⟨rfl, hres⟩ := resolve_spec hsg ht lawful.result
  obtain ⟨m, hm, hf⟩ := Library.exists_module hfe
  have finish := hd.finish h he.evolves
  have replaces : Replaces o { e with unfinished := e.unfinished.filter (· ≠ f) } f m g
      ⟨g.name, { g.signature with result := t }, .code code.bytes, g.captures⟩ := by
    refine ⟨hm, by rwa [Library.get_eq hm] at hae, h.user, hf,
      .inr ⟨h.undefined, ⟨_, rfl⟩, rfl, rfl, rfl, rfl, hres⟩, h.living, by simp, fun p hp => ?_⟩
    rw [finish.module]
    exact h.unqueued p (finish.pending p hp)
  have hknown : Signature.effectiveResult { g.signature with result := t } = t := Signature.effectiveResult_of_known ht
  have good := replaces.good { e with unfinished := e.unfinished.filter (· ≠ f) }.Waits
    (he.ready.good.finish _) nofun (fun r hr hw => ?_) ?_
  · have evolves := finish.trans replaces.evolves
    exact ⟨m, hm, good.redraft c.draft,
      ⟨evolves.library, evolves.scopes, evolves.waiting, evolves.unfinished, evolves.module, evolves.pending⟩, rfl,
      _, _, replaces.function?, rfl⟩
  · exact hw.imp id fun hw => List.mem_filter.2 ⟨hw, by simpa using hr⟩
  · refine ⟨lawful.captures, lawful.unreserved, lawful.nonlocals, lawful.bound, fun _ _ => ?_, hknown.symm ▸ ht,
      nofun, nofun, nofun, nofun, fun bytes hb w hw => ?_, nofun⟩
    · exact lawful.params (by rw [h.undefined]; rfl) (by rw [h.undefined]; nofun)
    · cases hb
      rw [hknown]
      exact hd.flow he hcode ((replaces.view f.module).trans hw)

end

/-- Code that leaves one value, and gives its type. -/
def Leaves (o : Surroundings) (x : Compile Ty) : Prop :=
  ∀ (c : Compilation) (s : Shape), c.Ready o → c.Sees s → c.Level s → Meets x c
    (fun t d => t.Known ∧ c.Reaches o (fun _ => none) d s (Shape.ofTy t ++ s) ∧ d.Level (Shape.ofTy t ++ s))
    fun _ => Failed o

theorem Begun.endFunction (hd : Begun o c d f g) (h : Begins o c f g parent)
    (he : d.Reaches o (fun _ => none) e (Shape.ofTys (Draft.frameTypes g.signature))
      (Shape.ofTy t ++ Shape.ofTys (Draft.frameTypes g.signature))) (ht : t.Known) :
    Meets (Compile.endFunction t span) e (fun _ w => Wrote o c { w with draft := c.draft } f) fun _ => Failed o := by
  have signature : e.draft.signature = g.signature := he.writes.signature.trans hd.signature
  refine meets_bind.2 (meets_getDraft.2 ?_)
  rw [signature, he.writes.target, hd.target, he.writes.name, hd.name, he.writes.captures, hd.captures]
  split
  · exact he.failed
  · next sg hsg =>
    have lawful := hd.ready.good.consistent.lawful hd.function (hd.evolves.alive h.alive)
    obtain ⟨hsig, -⟩ := resolve_spec hsg ht lawful.result
    have frame : Draft.frameTypes sg = Draft.frameTypes g.signature := by
      rw [hsig]
      rfl
    have release := he.ready.releaseFrame sg t span
    rw [frame] at release
    refine release.seq fun _ k hk => ?_
    have hdk := he.trans hk.reaches
    refine meets_bind.2 (meets_getDraft.2 ?_)
    generalize hcode : k.draft.code.resolve = r
    obtain ⟨code, far⟩ := r
    cases far with
    | some jump => exact hdk.failed
    | none =>
      obtain ⟨m, hm, wrote⟩ := hd.install h hdk ht hsg hcode
      refine meets_bind.2 (meets_modify.2 ?_)
      exact (meets_onModule (c := { k with unfinished := k.unfinished.filter (· ≠ f) }) hm).2 wrote

theorem Begins.writeFunction {body : Option Ty → Compile Ty} (h : Begins o c f g parent)
    (hparams : Plain.reserved ∉ params) (hbody : ∀ expected, Leaves o (body expected)) :
    Meets (Compile.writeFunction f params parent span bodySpan body) c (fun _ d => Wrote o c d f) fun _ => Failed o := by
  refine meets_bind.2 (meets_getDraft.2 ((h.beginFunction hparams).seq fun _ d hd => ?_))
  refine meets_bind.2 (meets_getDraft.2 (meets_bind.2 ((hbody _ d _ hd.ready hd.sees hd.level).imp
    (fun t e he => ?_) fun _ _ h => h)))
  obtain ⟨ht, he, -⟩ := he
  exact (hd.endFunction h he ht).seq fun _ w hw => hw

/-- A function whose body is elsewhere is written like any other. -/
def Writes (o : Surroundings) (deferred : Deferred) : Prop :=
  ∀ (c : Compilation) (f : FunctionRef) (g : Function) (decl : FunctionDecl) (scope : Nat),
    Begins o c f g scope → decl.isPlain → Meets (deferred f decl scope) c (fun _ d => Wrote o c d f) fun _ => Failed o

end Compilation

end StackScript
