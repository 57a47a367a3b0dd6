import StackScript.Proofs.Calling

/-!
What every compilation keeps, whatever the program is. Modules only grow, but for functions that were not written yet,
and a function that is begun is written before the action that begins it is over. An action that fails leaves functions
unwritten, yet outside of the modules at hand only if an instance failed.
-/
namespace StackScript

/-! ### Modules -/

namespace Module

/-- Everything in a module keeps its number, its names and its meaning. -/
structure Keeps (m n : Module) : Prop where
  name : n.name = m.name
  visible : n.visible = m.visible
  alive : n.alive = m.alive
  imports : ∀ i id : Nat, m.imports[i]? = some id → n.imports[i]? = some id
  functions : ∀ (i : Nat) (g : Function), m.functions[i]? = some g → n.functions[i]? = some g
  values : ∀ (i : Nat) (x : Value), m.values[i]? = some x → n.values[i]? = some x
  types : ∀ (i : Nat) (t : Ty), m.types[i]? = some t → n.types[i]? = some t
  scopes : ∀ (i : Nat) (s : Scope), m.scopes.scopes[i]? = some s → n.scopes.scopes[i]? = some s
  instances : ∃ new, n.instances = m.instances ++ new

/-- Instances stand for functions that have code, or will be given it. -/
def Instantiates (m : Module) : Prop :=
  ∀ i ∈ m.instances, ∃ g, m.functions[i.function]? = some g ∧ (g.body = .undefined ∨ ∃ bytes, g.body = .code bytes)

/-- A change that leaves no more to be written. -/
structure Grows (m n : Module) : Prop where
  keeps : m.Keeps n
  references : ∀ r ∈ Library.references n, r ∈ Library.references m
  instantiates : m.Instantiates → n.Instantiates
  undefined : ∀ (i : Nat) (g : Function), n.functions[i]? = some g → g.body = .undefined → m.functions[i]? = some g

variable {m n p : Module} {g : Function} {i : Nat}

theorem Keeps.refl (m : Module) : m.Keeps m :=
  ⟨rfl, rfl, rfl, fun _ _ h => h, fun _ _ h => h, fun _ _ h => h, fun _ _ h => h, fun _ _ h => h, [],
    (List.append_nil _).symm⟩

theorem Keeps.trans (a : m.Keeps n) (b : n.Keeps p) : m.Keeps p := by
  obtain ⟨new, hn⟩ := a.instances
  obtain ⟨new', hp⟩ := b.instances
  refine ⟨b.name.trans a.name, b.visible.trans a.visible, b.alive.trans a.alive,
    fun i x h => b.imports i x (a.imports i x h), fun i x h => b.functions i x (a.functions i x h),
    fun i x h => b.values i x (a.values i x h), fun i x h => b.types i x (a.types i x h),
    fun i x h => b.scopes i x (a.scopes i x h), new ++ new', ?_⟩
  rw [hp, hn, List.append_assoc]

theorem Keeps.functions_size (h : m.Keeps n) : m.functions.size ≤ n.functions.size := by
  refine Nat.le_of_not_lt fun hlt => ?_
  have := h.functions n.functions.size _ (Array.getElem?_eq_getElem hlt)
  exact Nat.lt_irrefl _ (Array.getElem?_eq_some_iff.1 this).1

theorem Keeps.scopes_size (h : m.Keeps n) : m.scopes.size ≤ n.scopes.size := by
  refine Nat.le_of_not_lt fun hlt => ?_
  have := h.scopes n.scopes.size _ (Array.getElem?_eq_getElem hlt)
  exact Nat.lt_irrefl _ (Array.getElem?_eq_some_iff.1 this).1

/-! ### Changes that only add -/

/-- Functions, instances and imports stay as they are. -/
theorem grows_of_eq (keeps : m.Keeps n) (functions : n.functions = m.functions) (instances : n.instances = m.instances)
    (references : ∀ r ∈ Library.references n, r ∈ Library.references m) : m.Grows n := by
  refine ⟨keeps, references, fun h => ?_, fun i g hg _ => functions ▸ hg⟩
  rw [Instantiates, functions, instances]
  exact h

theorem Grows.refl (m : Module) : m.Grows m := grows_of_eq (.refl m) rfl rfl fun _ h => h

theorem grows_addType (m : Module) (t : Ty) : m.Grows (m.addType t).1 := by
  obtain ⟨-, -, types, e⟩ := m.addType_spec t
  have hext := (m.addType_spec t).1
  refine grows_of_eq ⟨?_, ?_, ?_, hext.imports, ?_, hext.values, hext.types, ?_, [], ?_⟩ ?_ ?_ ?_
  all_goals
    rw [e]
  · exact fun _ _ h => h
  · exact fun _ _ h => h
  · exact (List.append_nil _).symm
  · exact fun _ h => h

theorem grows_addValue (m : Module) (x : Value) : m.Grows (m.addValue x).1 :=
  grows_of_eq ⟨rfl, rfl, rfl, fun _ _ h => h, fun _ _ h => h, fun _ _ h => getElem?_push h x, fun _ _ h => h,
    fun _ _ h => h, [], (List.append_nil _).symm⟩ rfl rfl fun _ h => h

theorem grows_internValue (m : Module) (x : Value) : m.Grows (m.internValue x).1 := by
  unfold internValue
  split
  · exact .refl m
  · exact m.grows_addValue x

theorem grows_importVisible (m : Module) (id : Nat) : m.Grows (m.importVisible id).1 := by
  obtain ⟨hext, ⟨imports, e, references⟩, -⟩ := m.importVisible_spec id
  refine grows_of_eq ⟨?_, ?_, ?_, hext.imports, ?_, hext.values, hext.types, ?_, [], ?_⟩ ?_ ?_ ?_
  all_goals
    rw [e]
  · exact fun _ _ h => h
  · exact fun _ _ h => h
  · exact (List.append_nil _).symm
  · intro r hr
    simp only [Library.references, List.mem_append, Array.mem_toList_iff] at hr ⊢
    exact hr.elim (references r) .inr

theorem grows_addScope (m : Module) (parent : Nat) (kind : ScopeKind) (label : String) :
    m.Grows { m with scopes := (m.scopes.add parent kind label).1 } :=
  grows_of_eq ⟨rfl, rfl, rfl, fun _ _ h => h, fun _ _ h => h, fun _ _ h => h, fun _ _ h => h,
    fun _ _ h => getElem?_push h _, [], (List.append_nil _).symm⟩ rfl rfl fun _ h => h

theorem keeps_addFunction (m : Module) (g : Function) : m.Keeps (m.addFunction g).1 :=
  ⟨rfl, rfl, rfl, fun _ _ h => h, fun _ _ h => getElem?_push h g, fun _ _ h => h, fun _ _ h => h, fun _ _ h => h, [],
    (List.append_nil _).symm⟩

theorem Instantiates.addFunction (h : m.Instantiates) (g : Function) : (m.addFunction g).1.Instantiates := by
  intro i hi
  obtain ⟨f, hf, hb⟩ := h i hi
  exact ⟨f, getElem?_push hf g, hb⟩

/-- A new function is the last one. -/
theorem functions_addFunction {f : Function} (h : (m.addFunction g).1.functions[i]? = some f) :
    m.functions[i]? = some f ∨ i = m.functions.size ∧ f = g := by
  change (m.functions.push g)[i]? = some f at h
  rw [Array.getElem?_push] at h
  split at h
  · next e => exact .inr ⟨e, (Option.some.inj h).symm⟩
  · exact .inl h

theorem grows_addFunction (m : Module) (hg : g.body ≠ .undefined) : m.Grows (m.addFunction g).1 := by
  refine ⟨m.keeps_addFunction g, fun _ h => h, fun h => h.addFunction g, fun i f hf hb => ?_⟩
  rcases functions_addFunction hf with hf | ⟨-, rfl⟩
  · exact hf
  · exact absurd hb hg

theorem Instantiates.addInstance (h : m.Instantiates) {j : Instance} (hj : m.functions[j.function]? = some g)
    (hg : g.body = .undefined) : (m.addInstance j).Instantiates := by
  intro i hi
  rcases List.mem_append.1 hi with hi | hi
  · exact h i hi
  · obtain rfl := List.mem_singleton.1 hi
    exact ⟨g, hj, .inl hg⟩

theorem Instantiates.removeInstance (h : m.Instantiates) (i : Nat) : (m.removeInstance i).Instantiates :=
  fun j hj => h j (List.mem_filter.1 hj).1

/-- A function that is written does not become undefined. -/
theorem Instantiates.setFunction (h : m.Instantiates) {bytes : Array UInt8} (hg : g.body = .code bytes) (i : Nat) :
    (m.setFunction i g).Instantiates := by
  intro j hj
  obtain ⟨f, hf, hb⟩ := h j hj
  by_cases e : i = j.function
  · exact ⟨g, by rw [e]; exact Array.getElem?_setIfInBounds_self_of_lt (Array.getElem?_eq_some_iff.1 hf).1, .inr ⟨bytes, hg⟩⟩
  · exact ⟨f, (Array.getElem?_setIfInBounds_ne e).trans hf, hb⟩

/-! ### Changes beyond what is kept -/

theorem Keeps.bind (h : m.Keeps n) (hi : m.scopes.size ≤ i) (name : String) (symbol : Symbol) :
    m.Keeps { n with scopes := n.scopes.bind i name symbol } := by
  refine { h with scopes := fun j s hs => ?_ }
  change (n.scopes.scopes.modify i _)[j]? = some s
  have hj := (Array.getElem?_eq_some_iff.1 hs).1
  rw [Array.getElem?_modify, if_neg (Nat.ne_of_gt (Nat.lt_of_lt_of_le hj hi))]
  exact h.scopes j s hs

theorem Keeps.setFunction (h : m.Keeps n) (hi : m.functions.size ≤ i) (g : Function) : m.Keeps (n.setFunction i g) := by
  refine { h with functions := fun j f hf => ?_ }
  have hj := (Array.getElem?_eq_some_iff.1 hf).1
  exact (Array.getElem?_setIfInBounds_ne (Nat.ne_of_gt (Nat.lt_of_lt_of_le hj hi))).trans (h.functions j f hf)

theorem Keeps.addInstance (h : m.Keeps n) (j : Instance) : m.Keeps (n.addInstance j) := by
  obtain ⟨new, e⟩ := h.instances
  exact { h with instances := ⟨new ++ [j], by rw [Module.addInstance, e, List.append_assoc]⟩ }

/-- The instances that were there stand for functions that were there. -/
theorem Keeps.removeInstance (h : m.Keeps n) (hm : m.Instantiates) (hi : m.functions.size ≤ i) :
    m.Keeps (n.removeInstance i) := by
  obtain ⟨new, e⟩ := h.instances
  refine { h with instances := ⟨new.filter fun j => j.function != i, ?_⟩ }
  have old : m.instances.filter (fun j => j.function != i) = m.instances := by
    refine List.filter_eq_self.2 fun j hj => ?_
    obtain ⟨g, hg, -⟩ := hm j hj
    have := (Array.getElem?_eq_some_iff.1 hg).1
    simp only [bne_iff_ne]
    omega
  change n.instances.filter _ = _
  rw [e, List.filter_append, old]

end Module

/-! ### Libraries -/

namespace Library

/-- A function that is not written. -/
def Undefined (l : Library) (f : FunctionRef) : Prop := ∃ g, l.function? f = some g ∧ g.body = .undefined

def Instantiates (l : Library) : Prop := ∀ (id : Nat) (m : Module), l.modules[id]? = some m → m.Instantiates

/-- A library in which all modules but one are kept. -/
structure Grows (l l' : Library) (k : Nat) : Prop where
  size : l'.modules.size = l.modules.size
  modules : ∀ (id : Nat) (m : Module), l.modules[id]? = some m → ∃ n, l'.modules[id]? = some n ∧ n.alive = m.alive ∧
    (∀ r ∈ references n, r ∈ references m) ∧ (id ≠ k → m.Keeps n)

variable {l l' : Library} {k id : Nat} {m n m' : Module} {f : FunctionRef}

theorem Grows.refl (l : Library) (k : Nat) : l.Grows l k :=
  ⟨rfl, fun _ m hm => ⟨m, hm, rfl, fun _ h => h, fun _ => .refl m⟩⟩

theorem Grows.put (h : l.Grows l' k) (hn : l'.modules[id]? = some n) (alive : m'.alive = n.alive)
    (references : ∀ r ∈ Library.references m', r ∈ Library.references n)
    (keeps : ∀ m, l.modules[id]? = some m → id ≠ k → m.Keeps n → m.Keeps m') : l.Grows (l'.put id m') k := by
  refine ⟨size_put.trans h.size, fun j m hm => ?_⟩
  obtain ⟨p, hp, ha, hr, hk⟩ := h.modules j m hm
  by_cases e : id = j
  · subst e
    obtain rfl := Option.some.inj (hn.symm.trans hp)
    exact ⟨m', modules_put_self hn, alive.trans ha, fun r h => hr r (references r h), fun hid => keeps m hm hid (hk hid)⟩
  · exact ⟨p, (modules_put_ne e).trans hp, ha, hr, hk⟩

theorem Instantiates.put (h : l.Instantiates) (hm : l.modules[id]? = some m) (hm' : m'.Instantiates) :
    (l.put id m').Instantiates := by
  intro j n hn
  rcases modules_put hm hn with ⟨rfl, rfl⟩ | ⟨-, hn⟩
  · exact hm'
  · exact h j n hn

/-- What is unwritten was so before, or is in the module that changed. -/
theorem Undefined.of_put (hm : l.modules[id]? = some m) (h : (l.put id m').Undefined f) :
    l.Undefined f ∨ f.module = id ∧ ∃ g, m'.functions[f.index]? = some g ∧ g.body = .undefined := by
  obtain ⟨g, hg, hb⟩ := h
  by_cases e : id = f.module
  · subst e
    exact .inr ⟨rfl, g, (function?_of_module (modules_put_self hm)).symm.trans hg, hb⟩
  · exact .inl ⟨g, (function?_put_ne e).symm.trans hg, hb⟩

end Library

/-! ### Compilations -/

namespace CompileError

def isInstantiation (e : CompileError) : Bool :=
  match e.cause with
  | .instantiation _ _ => true
  | _ => false

end CompileError

namespace Compilation

/-- Against the library that a compilation starts from: all that is unwritten waits, but for one function that is about
to be begun, and the draft is written behind what is kept. -/
structure Settled (l : Library) (x : Option FunctionRef) (c : Compilation) : Prop where
  grows : l.Grows c.library c.module
  instantiates : c.library.Instantiates
  undefined : ∀ f, c.library.Undefined f → c.Waits f ∨ x = some f ∨ l.Undefined f
  fresh : ∀ m, l.modules[c.draft.target.module]? = some m → c.draft.target.module ≠ c.module →
    m.functions.size ≤ c.draft.target.index ∧ m.scopes.size ≤ c.draft.scope

/-- The draft that was written is written on, and nothing more waits. -/
structure Within (c d : Compilation) : Prop where
  module : d.module = c.module
  target : d.draft.target = c.draft.target
  scope : d.draft.scope = c.draft.scope
  unfinished : ∀ f ∈ d.unfinished, f ∈ c.unfinished
  pending : ∀ p ∈ d.pending, p ∈ c.pending

/-- What a failure leaves that occurred in a module. -/
structure Spoiled (l : Library) (c : Compilation) (k : Nat) (e : CompileError) (d : Compilation) : Prop where
  grows : l.Grows d.library c.module
  instantiates : d.library.Instantiates
  undefined : e.isInstantiation ∨
    ∀ f, d.library.Undefined f → l.Undefined f ∨ f.module = c.module ∨ f.module = k ∨ f ∈ c.unfinished

variable {l : Library} {x y : Option FunctionRef} {c d e : Compilation} {f : FunctionRef} {id k : Nat} {m m' : Module}
  {err : CompileError}

theorem Within.refl (c : Compilation) : c.Within c := ⟨rfl, rfl, rfl, fun _ h => h, fun _ h => h⟩

theorem Within.trans (h : c.Within d) (k : d.Within e) : c.Within e :=
  ⟨k.module.trans h.module, k.target.trans h.target, k.scope.trans h.scope, fun f hf => h.unfinished f (k.unfinished f hf),
    fun p hp => h.pending p (k.pending p hp)⟩

theorem Spoiled.before (h : Spoiled l d k err e) (w : c.Within d) : Spoiled l c k err e := by
  refine ⟨w.module ▸ h.grows, h.instantiates, h.undefined.imp_right fun hu f hf => ?_⟩
  exact (hu f hf).imp_right fun h => w.module ▸ h.imp_right fun h => h.imp_right (w.unfinished f)

theorem Waits.module (h : c.Waits f) : f.module = c.module ∨ f ∈ c.unfinished := h.imp_left (·.1)

/-- A failure on the spot leaves everything as it is. -/
theorem Settled.spoiled (h : c.Settled l none) (k : Nat) (err : CompileError) : Spoiled l c k err c := by
  refine ⟨h.grows, h.instantiates, .inr fun f hf => ?_⟩
  rcases h.undefined f hf with hw | hx | hl
  · exact .inr (hw.module.imp_right .inr)
  · cases hx
  · exact .inl hl

theorem Settled.spoiled_but (h : c.Settled l (some f)) (err : CompileError) : Spoiled l c f.module err c := by
  refine ⟨h.grows, h.instantiates, .inr fun g hg => ?_⟩
  rcases h.undefined g hg with hw | hx | hl
  · exact .inr (hw.module.imp_right .inr)
  · exact .inr (.inr (.inl (congrArg FunctionRef.module (Option.some.inj hx).symm)))
  · exact .inl hl

/-- One module is changed. -/
theorem Settled.put (h : c.Settled l x) (hm : c.library.modules[id]? = some m) (alive : m'.alive = m.alive)
    (references : ∀ r ∈ Library.references m', r ∈ Library.references m) (instantiates : m.Instantiates → m'.Instantiates)
    (keeps : ∀ n, l.modules[id]? = some n → id ≠ c.module → n.Keeps m → n.Keeps m')
    (undefined : ∀ (i : Nat) (g : Function), m'.functions[i]? = some g → g.body = .undefined →
      m.functions[i]? = some g ∨ y = some ⟨id, i⟩)
    (wider : ∀ f, x = some f → y = some f) : ({ c with library := c.library.put id m' } : Compilation).Settled l y := by
  refine ⟨h.grows.put hm alive references keeps, h.instantiates.put hm (instantiates (h.instantiates id m hm)), fun f hf => ?_,
    h.fresh⟩
  have before : c.library.Undefined f ∨ y = some f := by
    rcases Library.Undefined.of_put hm hf with hf | ⟨rfl, g, hg, hb⟩
    · exact .inl hf
    · exact (undefined f.index g hg hb).imp_left fun hg => ⟨g, (Library.function?_of_module hm).trans hg, hb⟩
  rcases before with hf | hy
  · rcases h.undefined f hf with hw | hx | hl
    · exact .inl hw
    · exact .inr (.inl (wider f hx))
    · exact .inr (.inr hl)
  · exact .inr (.inl hy)

theorem Settled.grow (h : c.Settled l x) (hm : c.library.modules[id]? = some m) (g : m.Grows m') :
    ({ c with library := c.library.put id m' } : Compilation).Settled l x :=
  h.put hm g.keeps.alive g.references g.instantiates (fun _ _ _ hk => hk.trans g.keeps)
    (fun i f hf hb => .inl (g.undefined i f hf hb)) fun _ h => h

/-- A function is added that is about to be begun. -/
theorem Settled.addFunction {g : Function} (h : c.Settled l none) (hm : c.library.modules[id]? = some m) :
    ({ c with library := c.library.put id (m.addFunction g).1 } : Compilation).Settled l
      (some ⟨id, m.functions.size⟩) := by
  refine h.put hm rfl (fun _ h => h) (fun h => h.addFunction g) (fun n _ _ hk => hk.trans (m.keeps_addFunction g))
    (fun i f hf _ => ?_) nofun
  rcases Module.functions_addFunction hf with hf | ⟨rfl, -⟩
  · exact .inl hf
  · exact .inr rfl

/-- A name is bound in the scope that is written, or in the module that is compiled. -/
theorem Settled.bind (h : c.Settled l x) (hm : c.library.modules[id]? = some m) {i : Nat}
    (hi : ∀ n, l.modules[id]? = some n → id ≠ c.module → n.scopes.size ≤ i) (name : String) (symbol : Symbol) :
    ({ c with library := c.library.put id { m with scopes := m.scopes.bind i name symbol } } : Compilation).Settled l x :=
  h.put hm rfl (fun _ h => h) (fun h => h) (fun n hn hk keeps => keeps.bind (hi n hn hk) name symbol)
    (fun _ _ hg _ => .inl hg) fun _ h => h

theorem Settled.redraft (h : c.Settled l x) {d : Draft} (target : d.target = c.draft.target) (scope : d.scope = c.draft.scope) :
    ({ c with draft := d } : Compilation).Settled l x :=
  ⟨h.grows, h.instantiates, h.undefined, fun m hm hk => by
    change m.functions.size ≤ d.target.index ∧ m.scopes.size ≤ d.scope
    change l.modules[d.target.module]? = some m at hm
    change d.target.module ≠ c.module at hk
    rw [target] at hm hk
    rw [target, scope]
    exact h.fresh m hm hk⟩

/-- A module that is there was there before. -/
theorem Settled.exists_module (h : c.Settled l x) (hm : c.library.modules[id]? = some m) :
    ∃ n, l.modules[id]? = some n ∧ (id ≠ c.module → n.Keeps m) := by
  have hlt : id < l.modules.size := h.grows.size ▸ (Array.getElem?_eq_some_iff.1 hm).1
  obtain ⟨p, hp, -, -, keeps⟩ := h.grows.modules id _ (Array.getElem?_eq_getElem hlt)
  obtain rfl := Option.some.inj (hm.symm.trans hp)
  exact ⟨_, Array.getElem?_eq_getElem hlt, keeps⟩

end Compilation

end StackScript
