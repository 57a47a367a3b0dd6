import StackScript.Proofs.Complying
import StackScript.Proofs.Prolonging

/-!
Functions that are written while modules stay regular. The scope of a function holds the names in its frame, and what is
found around it passes on nothing that is not in the frame; the draft that waited goes on in its own scope.
-/
namespace StackScript

open FreeNames (paramNames)

/-! ### Scopes within scopes -/

namespace Module

variable {m : Module} {a b : Nat} {name label : String} {sc : Scope}

/-- A block that binds nothing yet serves the names that are served around it. -/
theorem Serves.block (h : m.Serves a name) (scope : m.scopes.scopes[b]? = some sc) (kind : sc.kind = .block)
    (parent : sc.parent = some a) (empty : sc.symbols = []) : m.Serves b name := fun r found crossed outer => by
  cases found with
  | here scope' bound =>
    obtain rfl := Option.some.inj (scope.symm.trans scope')
    rw [Scope.get?, empty] at bound
    cases bound
  | @outer _ p _ r scope' free parent' found =>
    obtain rfl := Option.some.inj (scope.symm.trans scope')
    obtain rfl := Option.some.inj (parent.symm.trans parent')
    have around : r.crossed := by simpa [kind] using crossed
    obtain ⟨j, g, symbol, hg, holds⟩ := h r found around outer
    exact ⟨j, g, symbol, hg, fun k hk => (holds k hk).inner (.up scope (by simp [kind]) parent .refl)⟩

end Module

namespace Library

variable {l l' l'' : Library} {own : Nat → Option Nat} {m n : Module}

/-- Names that are bound in scopes that were not there are no change of those that were. -/
theorem Prolongs.close (h : l.Prolongs own l')
    (later : ∀ (id a : Nat) (m : Module), own id = some a → l.modules[id]? = some m → m.scopes.size ≤ a) :
    l.Prolongs (fun _ => none) l' := fun id m hm => by
  obtain ⟨n, hn, on⟩ := h id m hm
  refine ⟨n, hn, ?_⟩
  cases ho : own id with
  | none => exact ho ▸ on
  | some a => exact (ho ▸ on).close (later id a m ho hm)

end Library

namespace Regime.Regular

variable {strict : Bool} {c d e : Compilation} {f : FunctionRef} {g : Function} {m : Module} {name : String} {span : Span}
  {id : Nat} {symbol : Symbol} {t : Ty} {params : List String} {scope : Nat} {names : String → Prop}

/-! ### Changes of one module -/

theorem added (hc : c.Regular strict) (hm : c.library.modules[id]? = some m) (result : g.signature.result.IsResult)
    (nonlocals : Ty.allSolid g.signature.nonlocals) (awaits : m.Awaits strict g) :
    ({ c with library := c.library.put id (m.addFunction g).1 } : Compilation).Regular strict ∧
      c.Prolongs { c with library := c.library.put id (m.addFunction g).1 } :=
  put hc hm ((hc.library id m hm).addFunction result nonlocals awaits) ((m.prolongs_addFunction g).open _)

/-- A name is bound where the draft is written. -/
theorem bound (symbol : Symbol) (hc : c.Regular strict) (hm : c.library.modules[id]? = some m) (own : c.own id = some scope)
    (name : String) (solid : ∀ t, symbol.ty? = some t → t.isSolid) (fits : strict → symbol.Fits m scope) :
    let d := { c with library := c.library.put id { m with scopes := m.scopes.bind scope name symbol } }
    d.Regular strict ∧ c.Prolongs d := by
  have on := Module.prolongs_rescope (m := m) (ScopeTable.prolongs_bind m.scopes scope name symbol)
  exact put hc hm ((hc.library id m hm).bind scope name solid fun hs => (fits hs).prolong on) (own ▸ on)

theorem own_eq_some {a : Nat} : c.own id = some a ↔ id = c.draft.target.module ∧ c.draft.scope = a := by
  simp [Compilation.own]

theorem own_here (c : Compilation) : c.own c.draft.target.module = some c.draft.scope := own_eq_some.2 ⟨rfl, rfl⟩

/-- Where a name is bound, it can be used. -/
theorem sees_bound (hm : c.library.modules[c.draft.target.module]? = some m) (inside : c.draft.scope < m.scopes.size)
    (name : String) (symbol : Symbol) :
    Sees strict { c with
      library := c.library.put c.draft.target.module { m with scopes := m.scopes.bind c.draft.scope name symbol } } name :=
  sees_of_holds (Library.modules_put_self hm)
    (ScopeTable.holds_self (ScopeTable.get?_bind_self (Array.getElem?_eq_getElem inside) name symbol))

theorem slot (inside : c.draft.scope ≠ ScopeTable.root) (ht : t.isSolid) (name : String) (offset : Nat) :
    (Regime.regular strict).Keeps c (Compile.bindIn c.draft.target.module c.draft.scope name (.slot offset t))
      fun _ d => Sees strict d name := fun hc => by
  obtain ⟨m, hm, here⟩ := hc.here
  obtain ⟨hd, on⟩ := bound (.slot offset t) hc hm (own_here c) name (by rintro _ ⟨⟩; exact ht) fun _ => inside
  exact (Compilation.meets_onModule hm).2 ⟨hd, ⟨hc, on⟩, sees_bound hm here name _⟩

/-! ### Drafts that wait -/

/-- A draft that waited goes on. -/
theorem resume (hc : c.Regular strict) (hd : d.Regular strict) (module : d.module = c.module)
    (on : c.library.Prolongs (fun _ => none) d.library) (code : Code) (depth : Nat) :
    let e := { d with draft := { c.draft with code := code, depth := depth } }
    e.Regular strict ∧ c.Prolongs e := by
  refine ⟨⟨hd.library, ?_, hd.home, hd.pending⟩, rfl, module, fun id m hm => ?_⟩
  · obtain ⟨m, hm, inside⟩ := hc.here
    obtain ⟨n, hn, on⟩ := on _ m hm
    exact ⟨n, hn, Nat.lt_of_lt_of_le inside on.scopes.size⟩
  · obtain ⟨n, hn, on⟩ := on id m hm
    exact ⟨n, hn, on.open _⟩

/-- A block is opened in the scope of the draft. -/
theorem opened (hc : c.Regular strict) (hm : c.library.modules[c.draft.target.module]? = some m) :
    let d : Compilation := { c with
      library := c.library.put c.draft.target.module { m with scopes := (m.scopes.add c.draft.scope .block "").1 }
      draft := { c.draft with scope := m.scopes.size } }
    d.Regular strict ∧ c.library.Prolongs (fun _ => none) d.library ∧ ∀ n, Sees strict c n → Sees strict d n := by
  obtain ⟨m', hm', here⟩ := hc.here
  obtain rfl := Option.some.inj (hm.symm.trans hm')
  have onto := ScopeTable.prolongs_add m.scopes c.draft.scope .block ""
  have on : c.library.Prolongs (fun _ => none) _ := Library.prolongs_put hm (Module.prolongs_rescope onto)
  have hd := hc.relibrary (hc.library.put c.draft.target.module ((hc.library _ m hm).addScope here .block ""))
    (on.open c.own)
  refine ⟨⟨hd.library, ⟨_, Library.modules_put_self hm, ?_⟩, hd.home, hd.pending⟩, on, fun n hn strictly p hp => ?_⟩
  · rw [ScopeTable.size_add]
    exact Nat.lt_succ_self _
  · obtain rfl := Option.some.inj ((Library.modules_put_self hm).symm.trans hp)
    have served := (hn strictly m hm).prolong (hc.library _ m hm).ordered here (Module.prolongs_rescope (onto.open _))
    exact served.block (ScopeTable.scopes_add_self m.scopes c.draft.scope .block "") rfl rfl rfl

theorem block {α : Type} {x : Compile α} {post : α → Prop}
    (hx : ∀ d : Compilation, d.draft.scope ≠ ScopeTable.root → (∀ n, Sees strict c n → Sees strict d n) →
      (Regime.regular strict).Keeps d x fun a _ => post a) :
    (Regime.regular strict).Keeps c (Compile.inBlock x) fun a _ => post a := fun hc => by
  obtain ⟨m, hm, here⟩ := hc.here
  obtain ⟨hd, on, sees⟩ := opened hc hm
  refine meets_bind.2 (Compilation.meets_getDraft.2 (meets_bind.2 ((Compilation.meets_onModule hm).2
    (meets_bind.2 (meets_modify.2 ?_)))))
  refine (hx _ (Nat.ne_zero_of_lt here) sees hd).seq fun a e he => ?_
  obtain ⟨he, ⟨-, on'⟩, ha⟩ := he
  have on := ((on.open _).trans on'.library).close fun id a p own hp => by
    obtain ⟨rfl, rfl⟩ := own_eq_some.1 own
    obtain rfl := Option.some.inj (hm.symm.trans hp)
    exact Nat.le_refl _
  obtain ⟨hf, on⟩ := resume hc he on'.module on e.draft.code e.draft.depth
  refine meets_bind.2 (meets_modify.2 (meets_pure.2 ?_))
  rw [on'.draft]
  exact ⟨hf, ⟨hc, on⟩, ha⟩

/-! ### Calls -/

theorem importVisible (c : Compilation) (id : Nat) :
    (Regime.regular strict).Keeps c (Compile.onModule c.draft.target.module fun m => m.importVisible id) Any := fun hc => by
  obtain ⟨m, hm, -⟩ := hc.here
  obtain ⟨-, ⟨imports, e, -⟩, -⟩ := m.importVisible_spec id
  have stored : (m.importVisible id).1.Regular strict := (hc.library _ m hm).store (by rw [e]) (by rw [e]) (by rw [e])
    fun v hv => .inl (by rwa [e] at hv)
  have grown : m.Prolongs none (m.importVisible id).1 := .of_eq (by rw [e]) (by rw [e]) (by rw [e])
  obtain ⟨hd, on⟩ := put hc hm stored (grown.open _)
  exact (Compilation.meets_onModule hm).2 ⟨hd, ⟨hc, on⟩, trivial⟩

theorem addFunction (hg : g.body.isGeneric = false) (result : g.signature.result.IsResult)
    (nonlocals : Ty.allSolid g.signature.nonlocals) (id : Nat) :
    (Regime.regular strict).Keeps c (Compile.addFunction id g) Any := fun hc => by
  cases hm : c.library.modules[id]? with
  | none =>
    unfold Compile.addFunction Compile.onModule Meets Library.update
    simp only [hm]
    exact ⟨hc, ⟨hc, .refl c⟩, trivial⟩
  | some m =>
    obtain ⟨hd, on⟩ := added hc hm result nonlocals (Module.awaits_of_body hg rfl)
    exact (Compilation.meets_onModule hm).2 ⟨hd, ⟨hc, on⟩, trivial⟩

/-! ### The frame of a function -/

/-- The scope of a function has been added to a module, and names of its variables are bound there. -/
structure Framed (strict : Bool) (m : Module) (parent : Nat) (u : ScopeTable) : Prop where
  regular : ({ m with scopes := u } : Module).Regular strict
  on : ScopeTable.Prolongs none m.scopes u
  scope : ∃ sc, u.scopes[m.scopes.size]? = some sc ∧ sc.kind = .function ∧ sc.parent = some parent

theorem framed_add (h : m.Regular strict) (inside : scope < m.scopes.size) (label : String) :
    Framed strict m scope (m.scopes.add scope .function label).1 :=
  ⟨h.addScope inside .function label, ScopeTable.prolongs_add _ _ _ _, _, ScopeTable.scopes_add_self _ _ _ _, rfl, rfl⟩

namespace Framed

variable {u : ScopeTable} (h : Framed strict m scope u)
include h

theorem bind (hm : 0 < m.scopes.size) (ht : symbol.ty? = some t) (solid : t.isSolid) (name : String) :
    Framed strict m scope (u.bind m.scopes.size name symbol) := by
  obtain ⟨sc, hsc, kind, parent⟩ := h.scope
  have onto := ScopeTable.prolongs_bind u m.scopes.size name symbol
  obtain ⟨sc', hsc', kind', parent', -⟩ := onto.scopes _ sc hsc
  refine ⟨h.regular.bind m.scopes.size name (fun t' ht' => ?_) fun _ => ?_,
    ((h.on.open _).trans onto).close (Nat.le_refl _), sc', hsc', kind'.trans kind, parent'.trans parent⟩
  · obtain rfl := Option.some.inj (ht.symm.trans ht')
    exact solid
  · cases symbol with
    | function | computed | value => cases ht
    | parameter | slot | nonlocal => exact Nat.ne_of_gt hm

/-- What the code of a function may use is served in its scope. -/
theorem serves (hm : m.Regular strict) (inside : scope < m.scopes.size) {frame : List String}
    (bound : ∀ n ∈ frame, u.Holds m.scopes.size n) (supplied : Supplied m scope frame name) :
    ({ m with scopes := u } : Module).Serves m.scopes.size name := by
  rcases supplied with among | around
  · exact Module.serves_of_holds (bound name among)
  · intro r found crossed outer
    obtain ⟨sc, hsc, -, parent⟩ := h.scope
    cases found with
    | here => cases crossed
    | @outer _ p _ r scope' _ parent' found =>
      obtain rfl := Option.some.inj (hsc.symm.trans scope')
      obtain rfl := Option.some.inj (parent.symm.trans parent')
      obtain ⟨j, g, symbol, hg, holds⟩ := around r (found.before hm.ordered h.on inside nofun) outer
      exact ⟨j, g, symbol, hg, fun k hk => bound k (holds k hk)⟩

end Framed

theorem solid_frameSymbols {s : Signature} {captures : List String} {p : String × Symbol} (nonlocals : Ty.allSolid s.nonlocals)
    (solid : Ty.allSolid s.params) (h : p ∈ Draft.frameSymbols s captures params) : ∃ t, p.2.ty? = some t ∧ t.isSolid := by
  rcases List.mem_append.1 h with h | h
  · obtain ⟨pre, t, post, e, -, symbol⟩ := Draft.mem_place h
    exact ⟨t, by rw [symbol]; rfl, Ty.allSolid_iff.1 nonlocals t (by simp [e])⟩
  · obtain ⟨pre, t, post, e, -, symbol⟩ := Draft.mem_place h
    exact ⟨t, by rw [symbol]; rfl, Ty.allSolid_iff.1 solid t (by simp [e])⟩

/-- The names of the variables of a frame are bound one by one. -/
theorem bindFrame (hm : c.library.modules[id]? = some m) (regular : m.Regular strict) {u : ScopeTable}
    (hu : Framed strict m scope u) {symbols : List (String × Symbol)}
    (solid : ∀ p ∈ symbols, ∃ t, p.2.ty? = some t ∧ t.isSolid) :
    Meets (symbols.forM fun (name, symbol) => Compile.bindIn id m.scopes.size name symbol)
      { c with library := c.library.put id { m with scopes := u } }
      (fun _ d => ∃ u, Framed strict m scope u ∧ (∀ n ∈ symbols.map (·.1), u.Holds m.scopes.size n) ∧
        d = { c with library := c.library.put id { m with scopes := u } }) fun _ _ => False := by
  -- what is not bound yet is still to come
  refine (Meets.forM (fun ps d => ∃ u, Framed strict m scope u ∧ (∀ p ∈ ps, p ∈ symbols) ∧
    (∀ p ∈ symbols, p ∈ ps ∨ u.Holds m.scopes.size p.1) ∧
    d = { c with library := c.library.put id { m with scopes := u } }) ?_ symbols _
    ⟨u, hu, fun _ hp => hp, fun _ hp => .inl hp, rfl⟩).imp ?_ fun _ _ h => h
  · rintro ⟨name, symbol⟩ ps d ⟨u, hu, among, bound, rfl⟩
    obtain ⟨t, ht, ht'⟩ := solid _ (among _ (.head _))
    obtain ⟨sc, hsc, -⟩ := hu.scope
    refine (Compilation.meets_onModule (Library.modules_put_self hm)).2
      ⟨_, hu.bind regular.root ht ht' name, fun p hp => among p (.tail _ hp), fun p hp => ?_, by rw [Library.put_put]⟩
    rcases bound p hp with hp | holds
    · rcases List.mem_cons.1 hp with rfl | hp
      · exact .inr (ScopeTable.holds_self (ScopeTable.get?_bind_self hsc name symbol))
      · exact .inl hp
    · exact .inr (holds.prolong (ScopeTable.prolongs_bind u m.scopes.size name symbol))
  · rintro _ _ ⟨u, hu, -, bound, rfl⟩
    refine ⟨u, hu, fun n hn => ?_, rfl⟩
    obtain ⟨p, hp, rfl⟩ := List.mem_map.1 hn
    exact (bound p hp).resolve_left List.not_mem_nil

/-! ### Functions -/

/-- The draft is that of a function as its callers know it. -/
def Drafts (c : Compilation) : Prop :=
  ∃ g, c.library.function? c.draft.target = some g ∧ g.Retains { g with
    signature := c.draft.signature, captures := c.draft.captures } ∧ c.draft.signature.result.IsResult

theorem Drafts.prolong (h : Drafts c) (on : c.Prolongs d) : Drafts d := by
  obtain ⟨g, hg, same, result⟩ := h
  obtain ⟨g', hg', retains⟩ := on.library.function hg
  refine ⟨g', on.target ▸ hg', ?_, by rw [on.draft]; exact result⟩
  rw [on.draft]
  exact ⟨same.params.trans retains.params.symm, same.nonlocals.trans retains.nonlocals.symm,
    same.captures.trans retains.captures.symm⟩

/-- The draft of a function has begun. -/
structure Begun (strict : Bool) (c d : Compilation) (f : FunctionRef) (names : String → Prop) : Prop where
  regular : d.Regular strict
  reads : (Regime.regular strict).Reads d names
  module : d.module = c.module
  library : c.library.Prolongs (fun _ => none) d.library
  later : ∀ m, c.library.modules[d.draft.target.module]? = some m → m.scopes.size ≤ d.draft.scope
  drafts : Drafts d

theorem beginFunction (hc : c.Regular strict) (ready : Ready strict c f params scope names) :
    Meets (Compile.beginFunction f params scope span) c (fun _ d => Begun strict c d f names) fun _ _ => False := by
  obtain ⟨m, g, hm, hg, inside, solid, supplied⟩ := ready.function
  have regular := hc.library _ m hm
  have hg' : c.library.function? f = some g := (Library.function?_of_module hm).trans hg
  refine meets_bind.2 ((Compilation.meets_getFunction hg').2 (meets_bind.2 ((Compilation.meets_onModule hm).2 ?_)))
  refine (bindFrame hm regular (framed_add regular inside g.name) fun p hp =>
    solid_frameSymbols (regular.nonlocals g (Array.mem_of_getElem? hg)) solid hp).seq ?_
  rintro _ _ ⟨u, hu, bound, rfl⟩
  have on : c.library.Prolongs (fun _ => none) _ := Library.prolongs_put hm (Module.prolongs_rescope hu.on)
  have hd := hc.relibrary (hc.library.put f.module hu.regular) (on.open c.own)
  have hm' : (c.library.put f.module { m with scopes := u }).modules[f.module]? = some { m with scopes := u } :=
    Library.modules_put_self hm
  obtain ⟨sc, hsc, -⟩ := hu.scope
  refine meets_modify.2 ⟨⟨hd.library, ⟨_, hm', ScopeTable.lt_size_of_scope hsc⟩, hd.home, hd.pending⟩,
    ⟨Nat.ne_of_gt regular.root, fun n hn strictly p hp => ?_⟩, rfl, on, fun p hp => ?_, g, ?_, .refl g,
    regular.results g (Array.mem_of_getElem? hg)⟩
  · obtain rfl := Option.some.inj (hm'.symm.trans hp)
    exact hu.serves regular inside bound (supplied strictly n hn)
  · obtain rfl := Option.some.inj (hm.symm.trans hp)
    exact Nat.le_refl _
  · exact (Library.function?_of_module hm').trans hg

/-- Code is installed. -/
theorem install {g' : Function} (hc : c.Regular strict) (hg : c.library.function? f = some g) (retains : g.Retains g')
    (result : g'.signature.result.isSolid) (body : g'.body.isGeneric = false) :
    Meets (Compile.onModule f.module fun m => (m.setFunction f.index g', ())) c
      (fun _ d => d.Regular strict ∧ c.Prolongs d) fun _ _ => False := by
  obtain ⟨m, hm, hf⟩ := Library.exists_module hg
  exact (Compilation.meets_onModule hm).2 (put hc hm ((hc.library _ m hm).setFunction hf retains result body)
    ((Module.prolongs_setFunction hf retains).open _))

/-- A function is finished with what its draft says. -/
theorem endFunction (drafts : Drafts c) (ht : t.isSolid) (span : Span) :
    (Regime.regular strict).Keeps c (Compile.endFunction t span) Any := by
  have L := basic strict
  refine Keeps.getDraft ?_
  split
  · exact Keeps.fail L rfl
  · next s hs =>
    obtain ⟨g, hg, same, result⟩ := drafts
    obtain ⟨r, rfl, solid⟩ := Signature.resolve_solid result ht hs
    have released : (Regime.regular strict).Keeps c (Compile.releaseFrame { c.draft.signature with result := r } t span) Any := by
      refine Keeps.seq L (Keeps.releaseAt L _ _) fun _ _ _ => ?_
      split
      · exact Keeps.emit2 L rfl _ _ _
      · exact Keeps.done L _
    refine Keeps.seq L released fun _ d on => Keeps.getDraft ?_
    generalize hcode : d.draft.code.resolve = resolved
    obtain ⟨code, far⟩ := resolved
    cases far with
    | some jump => exact Keeps.failing L rfl
    | none =>
      intro hd
      obtain ⟨g', hg', retains⟩ := on.2.library.function hg
      have same : g'.Retains ⟨c.draft.name, { c.draft.signature with result := r }, .code code.bytes, c.draft.captures⟩ :=
        ⟨same.params.trans retains.params.symm, same.nonlocals.trans retains.nonlocals.symm,
          same.captures.trans retains.captures.symm⟩
      refine meets_bind.2 (meets_modify.2 ?_)
      have finished : ({ d with unfinished := d.unfinished.filter (· ≠ c.draft.target) } : Compilation).Regular strict :=
        ⟨hd.library, hd.here, hd.home, hd.pending⟩
      refine (install finished hg' same solid rfl).imp (fun _ e he => ?_) fun _ _ h => h.elim
      exact ⟨he.1, ⟨hd, he.2.draft, he.2.module, he.2.library⟩, trivial⟩

/-- A function is written while the draft waits. -/
theorem writeFunction {body : Option Ty → Compile Ty} {bodySpan : Span} (ready : Ready strict c f params scope names)
    (hbody : (Regime.regular strict).Embodies names body) :
    (Regime.regular strict).Keeps c (Compile.writeFunction f params scope span bodySpan body) Any := fun hc => by
  refine meets_bind.2 (Compilation.meets_getDraft.2 (meets_bind.2 ((beginFunction hc ready).imp (fun _ d hd => ?_)
    fun _ _ h => h.elim)))
  refine meets_bind.2 (Compilation.meets_getDraft.2 ((hbody d _ hd.reads hd.regular).seq fun t e he => ?_))
  obtain ⟨he, ⟨-, on⟩, ht⟩ := he
  refine (endFunction (hd.drafts.prolong on) ht bodySpan he).seq fun _ w hw => ?_
  obtain ⟨hw, ⟨-, on'⟩, -⟩ := hw
  have on := on.trans on'
  have outer := ((hd.library.open d.own).trans on.library).close fun id a m own hm => by
    obtain ⟨rfl, rfl⟩ := own_eq_some.1 own
    exact hd.later m hm
  obtain ⟨hr, on⟩ := resume hc hw (on.module.trans hd.module) outer c.draft.code c.draft.depth
  exact meets_modify.2 ⟨hr, ⟨hc, on⟩, trivial⟩

/-! ### Functions that wait -/

/-- In the module itself there is nothing else than the names in the frame. -/
theorem supplied_root (h : m.Regular strict) (frame : List String) (name : String) :
    Supplied m ScopeTable.root frame name := .inr fun _ found outer => absurd (found.scope_root h.ordered) outer

theorem pending {i : Nat} {decl : FunctionDecl} (hc : c.Regular strict) (waiting : c.pending.lookup i = some decl) :
    let d : Compilation := { c with pending := c.pending.filter fun p => p.1 ≠ i }
    d.Regular strict ∧ c.Prolongs d ∧ decl.body.nests (Header.isAdmitted strict) ∧
      Ready strict d ⟨c.module, i⟩ (paramNames decl.header) ScopeTable.root fun n => decl.body.Uses n := by
  obtain ⟨l₁, l₂, hl, -⟩ := List.lookup_eq_some_iff.1 waiting
  obtain ⟨nests, g, hg, solid⟩ := hc.pending (i, decl) (by simp [hl])
  obtain ⟨m, hm, hf⟩ := Library.exists_module hg
  have regular := hc.library _ m hm
  exact ⟨⟨hc.library, hc.here, hc.home, fun p hp => hc.pending p (List.mem_filter.1 hp).1⟩, ⟨rfl, rfl, .refl _ _⟩, nests,
    m, g, hm, hf, regular.root, solid, fun _ n _ => supplied_root regular _ n⟩

/-- An instance is filed under the types of its parameters, to be written next. -/
theorem filed {ts : List Ty} {decl : FunctionDecl} (hc : c.Regular strict) (hm : c.library.modules[f.module]? = some m)
    (hg : m.functions[f.index]? = some g) (generic : g.body = .generic decl scope) (known : Ty.anyGeneric ts = false)
    (fresh : m.findInstance? f.index ts = none) (name : String) :
    let g' : Function := {
      name := name
      signature := { params := ts, nonlocals := g.signature.nonlocals, result := g.signature.result }
      captures := g.captures }
    let d := { c with
      library := c.library.put f.module ((m.addFunction g').1.addInstance ⟨f.index, ts, m.functions.size⟩) }
    d.Regular strict ∧ c.Prolongs d ∧ Callable strict d ⟨f.module, m.functions.size⟩ ∧ d.library.Files f ts m.functions.size ∧
      Ready strict d ⟨f.module, m.functions.size⟩ (paramNames decl.header) scope (fun n => decl.body.Uses n) := by
  intro g' d
  have regular := hc.library _ m hm
  have among := Array.mem_of_getElem? hg
  obtain ⟨inside, nests, global⟩ := regular.generics g among decl scope generic
  have added : (m.addFunction g').1.functions[m.functions.size]? = some g' := Array.getElem?_push_size
  have unshared : ∀ i ∈ m.instances, i.function ≠ m.functions.size := fun i hi => by
    obtain ⟨k, hk, -⟩ := regular.keyed.entries i hi
    exact Nat.ne_of_lt (Array.getElem?_eq_some_iff.1 hk).1
  have regular' := (regular.addFunction (g := g') (regular.results g among) (regular.nonlocals g among)
    (Module.awaits_of_body rfl rfl)).addInstance (e := ⟨f.index, ts, m.functions.size⟩) fresh unshared added rfl known rfl
    fun strictly => (global strictly).2
  have on := (m.prolongs_addFunction g').trans (Module.prolongs_addInstance _ ⟨f.index, ts, m.functions.size⟩)
  obtain ⟨hd, on⟩ := put hc hm regular' (on.open _)
  have hm' : d.library.modules[f.module]? = some _ := Library.modules_put_self hm
  refine ⟨hd, on, fun strictly => ⟨g', ?_, fun k hk => ?_⟩, ⟨_, hm', List.mem_append_right _ (.head _)⟩,
    _, g', hm', added, inside, Ty.allSolid_of_known known, fun strictly n _ => ?_⟩
  · exact (Library.function?_of_module (f := ⟨f.module, m.functions.size⟩) hm').trans added
  · rw [show g'.captures = [] from (global strictly).2] at hk
    cases hk
  · rw [(global strictly).1]
    exact supplied_root regular' _ n

/-- An instance whose body fails is forgotten. -/
theorem forgotten {err : CompileError} (h : Spoils strict err c) (id i : Nat) {bad : CompileError → Compilation → Prop} :
    Meets (Compile.onModule id fun m => (m.removeInstance i, ())) c (fun _ d => d.library.Regular strict) bad := by
  cases hm : c.library.modules[id]? with
  | none =>
    unfold Compile.onModule Meets Library.update
    simp only [hm]
    exact h.library
  | some m => exact (Compilation.meets_onModule hm).2 (h.library.put id ((h.library id m hm).removeInstance i))

/-- An instance that is filed may be used. -/
theorem reused {ts : List Ty} {i : Nat} (hc : c.Regular strict) (hi : (c.library.get f.module).findInstance? f.index ts = some i) :
    Callable strict c ⟨f.module, i⟩ ∧ c.library.Files f ts i := by
  cases hm : c.library.modules[f.module]? with
  | none =>
    rw [Library.get_none hm] at hi
    cases hi
  | some m =>
    rw [Library.get_eq hm] at hi
    have among := Module.findInstance?_eq_some hi
    refine ⟨fun strictly => ?_, m, hm, among⟩
    obtain ⟨g, hg, bare⟩ := (hc.library _ m hm).bare strictly _ among
    refine ⟨g, (Library.function?_of_module (f := ⟨f.module, i⟩) hm).trans hg, fun k hk => ?_⟩
    rw [bare] at hk
    cases hk

theorem instantiate {deferred : Deferred} {ts : List Ty} (hw : (Regime.regular strict).Installs deferred)
    (known : Ty.anyGeneric ts = false) :
    (Regime.regular strict).Keeps c (Compile.instantiate deferred f ts span) fun i d =>
      Callable strict d ⟨f.module, i⟩ ∧ d.library.Files f ts i := by
  have L := basic strict
  refine Keeps.getModule fun hc => ?_
  split
  · next i hi => exact meets_pure.2 ⟨hc, ⟨hc, .refl c⟩, reused hc hi⟩
  · next fresh =>
    revert hc
    refine Keeps.getFunction L fun g hg => ?_
    split
    · next decl scope generic =>
      intro hc
      obtain ⟨m, hm, hf⟩ := Library.exists_module hg
      rw [Library.get_eq hm] at fresh
      have missing : m.findInstance? f.index ts = none := Option.eq_none_iff_forall_ne_some.2 fresh
      obtain ⟨hd, on, callable, files, ready⟩ := filed hc hm hf generic known missing (Compile.instanceName g.name ts)
      obtain ⟨-, nests, -⟩ := (hc.library _ m hm).generics g (Array.mem_of_getElem? hf) decl scope generic
      refine meets_bind.2 ((Compilation.meets_onModule hm).2 (meets_bind.2
        ((Compilation.meets_onModule (Library.modules_put_self hm)).2 ?_)))
      rw [Library.put_put]
      refine meets_bind.2 (meets_tryCatch.2 ((hw _ _ decl scope ready nests hd).imp (fun _ e he => ?_) fun err e he => ?_))
      · obtain ⟨he, ⟨-, on'⟩, -⟩ := he
        exact meets_pure.2 ⟨he, ⟨hc, on.trans on'⟩, callable.prolong hd on', on'.library.files files⟩
      · exact (forgotten he f.module m.functions.size).seq fun _ w hw =>
          ⟨hw, fun strictly => .body g.name span (he.honest strictly)⟩
    · exact Keeps.fail L rfl

end Regime.Regular

end StackScript
