import StackScript.Builtin
import StackScript.Proofs.Extension
import StackScript.Proofs.Plain
import StackScript.Proofs.Scoping

/-!
Consistent libraries. Names stand for functions that can be called and values that are typed, every function that
is written keeps to its signature, and those that are not are waiting to be written or will never be.
-/
namespace StackScript

/-! ### Modules -/

namespace Module

variable {m n : Module} {name : String} {symbol : Symbol}

/-- What a name may stand for. -/
def Binds (m : Module) (name : String) : Symbol → Prop
  | .parameter _ _ t | .slot _ t | .nonlocal _ _ t => t.Known ∧ name ≠ Plain.reserved
  | .function i => ∃ g, m.functions[i]? = some g ∧ g.signature.bound = [] ∧
      (g.body = .native .listLength ↔ name = Plain.reserved)
  | .computed i => name ≠ Plain.reserved ∧ ∃ g, m.functions[i]? = some g ∧ Draft.frameTypes g.signature = [] ∧
      g.body.isGeneric = false ∧ g.body ≠ .native .listLength
  | .value _ => name ≠ Plain.reserved

/-- What the record of an instance promises. -/
def Records (m : Module) (i : Instance) : Prop :=
  ∃ g, m.functions[i.function]? = some g ∧ g.signature.params = i.args ∧ g.signature.bound = [] ∧
    g.body.isGeneric = false ∧ g.body ≠ .native .listLength

structure Sane (m : Module) : Prop where
  ordered : m.scopes.Ordered
  root : 0 < m.scopes.size
  binds : ∀ i name symbol, m.scopes.get? i name = some symbol → m.Binds name symbol
  records : ∀ i ∈ m.instances, m.Records i
  values : ∀ x ∈ m.values, x.ty.Known

theorem Binds.extends (h : m.Binds name symbol) (e : m.Extends n) : n.Binds name symbol := by
  cases symbol with
  | parameter | slot | nonlocal | value => exact h
  | function i =>
    obtain ⟨g, hg, hb, hr⟩ := h
    obtain ⟨g', hg', e'⟩ := e.functions i g hg
    exact ⟨g', hg', e'.bound.trans hb, (e'.native _).trans hr⟩
  | computed i =>
    obtain ⟨hn, g, hg, hf, hgen, hl⟩ := h
    obtain ⟨g', hg', e'⟩ := e.functions i g hg
    exact ⟨hn, g', hg', e'.frameTypes.trans hf, e'.isGeneric.trans hgen, fun h => hl ((e'.native _).1 h)⟩

theorem Records.extends {i : Instance} (h : m.Records i) (e : m.Extends n) : n.Records i := by
  obtain ⟨g, hg, hp, hb, hgen, hl⟩ := h
  obtain ⟨g', hg', e'⟩ := e.functions i.function g hg
  exact ⟨g', hg', e'.params.trans hp, e'.bound.trans hb, e'.isGeneric.trans hgen,
    fun h => hl ((e'.native _).1 h)⟩

theorem Sane.extends (h : m.Sane) (e : m.Extends n) (scopes : n.scopes = m.scopes)
    (instances : ∀ i ∈ n.instances, i ∈ m.instances) (values : n.values = m.values) : n.Sane :=
  ⟨scopes ▸ h.ordered, scopes ▸ h.root, fun i name symbol hs => (h.binds i name symbol (scopes ▸ hs)).extends e,
    fun i hi => (h.records i (instances i hi)).extends e, fun x hx => h.values x (values ▸ hx)⟩

theorem Sane.bind (h : m.Sane) (i : Nat) (hb : m.Binds name symbol) :
    ({ m with scopes := m.scopes.bind i name symbol } : Module).Sane := by
  refine ⟨h.ordered.bind i name symbol, by simpa using h.root, fun j other sym hs => ?_, h.records, h.values⟩
  rcases ScopeTable.get?_bind hs with ⟨rfl, rfl, rfl⟩ | hs
  · cases sym <;> exact hb
  · have := h.binds j other sym hs
    cases sym <;> exact this

theorem Sane.addScope (h : m.Sane) {parent : Nat} (hp : parent < m.scopes.size) (kind : ScopeKind) (label : String) :
    ({ m with scopes := (m.scopes.add parent kind label).1 } : Module).Sane := by
  refine ⟨h.ordered.add hp kind label, by simp, fun j other sym hs => ?_, h.records, h.values⟩
  rw [ScopeTable.get?_add] at hs
  have := h.binds j other sym hs
  cases sym <;> exact this

theorem extends_scopes (m : Module) (scopes : ScopeTable) : m.Extends { m with scopes := scopes } :=
  ⟨fun _ f hf => ⟨f, hf, .refl f⟩, fun _ _ h => h, fun _ _ h => h, fun _ _ h => h, fun h => h⟩

theorem extends_instances (m : Module) (instances : List Instance) : m.Extends { m with instances := instances } :=
  ⟨fun _ f hf => ⟨f, hf, .refl f⟩, fun _ _ h => h, fun _ _ h => h, fun _ _ h => h, fun h => h⟩

theorem getElem?_push {α : Type} {xs : Array α} {i : Nat} {x : α} (h : xs[i]? = some x) (y : α) :
    (xs.push y)[i]? = some x := by
  have hi := (Array.getElem?_eq_some_iff.1 h).1
  rw [Array.getElem?_push, if_neg (Nat.ne_of_lt hi), h]

theorem extends_addFunction (m : Module) (g : Function) : m.Extends (m.addFunction g).1 :=
  ⟨fun _ f hf => ⟨f, getElem?_push hf g, .refl f⟩, fun _ _ h => h, fun _ _ h => h, fun _ _ h => h, fun h => h⟩

theorem extends_setFunction {i : Nat} {f g : Function} (hf : m.functions[i]? = some f) (e : f.Extends g) :
    m.Extends (m.setFunction i g) := by
  refine ⟨fun j f' hf' => ?_, fun _ _ h => h, fun _ _ h => h, fun _ _ h => h, fun h => h⟩
  have hi := (Array.getElem?_eq_some_iff.1 hf).1
  by_cases hij : i = j
  · subst hij
    obtain rfl := Option.some.inj (hf.symm.trans hf')
    exact ⟨g, Array.getElem?_setIfInBounds_self_of_lt hi, e⟩
  · exact ⟨f', (Array.getElem?_setIfInBounds_ne hij).trans hf', .refl f'⟩

theorem extends_addValue (m : Module) (x : Value) : m.Extends (m.addValue x).1 :=
  ⟨fun _ f hf => ⟨f, hf, .refl f⟩, fun _ _ h => h, fun _ _ h => getElem?_push h x, fun _ _ h => h, fun h => h⟩

theorem Sane.addValue {x : Value} (h : m.Sane) (known : x.ty.Known) : (m.addValue x).1.Sane :=
  ⟨h.ordered, h.root, fun i name symbol hs => (h.binds i name symbol hs).extends (m.extends_addValue x),
    fun i hi => (h.records i hi).extends (m.extends_addValue x),
    fun y hy => (Array.mem_push.1 hy).elim (h.values y) fun e => e ▸ known⟩

theorem addType_spec (m : Module) (t : Ty) : m.Extends (m.addType t).1 ∧
    (m.addType t).1.types[(m.addType t).2]? = some t ∧ ∃ types, (m.addType t).1 = { m with types := types } := by
  unfold addType
  split
  · next i hi =>
    obtain ⟨hlt, hp, -⟩ := Array.findIdx?_eq_some_iff_getElem.1 hi
    refine ⟨.refl m, ?_, m.types, rfl⟩
    rw [Array.getElem?_eq_getElem hlt, of_decide_eq_true hp]
  · exact ⟨⟨fun _ f hf => ⟨f, hf, .refl f⟩, fun _ _ h => h, fun _ _ h => h, fun _ _ h => getElem?_push h t, fun h => h⟩,
      Array.getElem?_push_size, _, rfl⟩

theorem importIndex?_spec {i id : Nat} (h : m.importIndex? id = some i) : m.imports[i]? = some id := by
  obtain ⟨hlt, hp, -⟩ := Array.findIdx?_eq_some_iff_getElem.1 h
  rw [Array.getElem?_eq_getElem hlt, of_decide_eq_true hp]

/-- A visible module is imported. -/
theorem importVisible_spec (m : Module) (id : Nat) : m.Extends (m.importVisible id).1 ∧
    (∃ imports, (m.importVisible id).1 = { m with imports := imports } ∧
      ∀ r ∈ imports, r ∈ m.imports ∨ r ∈ m.visible) ∧
    ∀ i, (m.importVisible id).2 = some i → (m.importVisible id).1.imports[i]? = some id := by
  unfold importVisible
  split
  · next i hi =>
    refine ⟨.refl m, ⟨m.imports, rfl, fun r hr => .inl hr⟩, fun j hj => ?_⟩
    cases hj
    exact importIndex?_spec hi
  · split
    · next hv =>
      refine ⟨⟨fun _ f hf => ⟨f, hf, .refl f⟩, fun _ _ h => getElem?_push h id, fun _ _ h => h, fun _ _ h => h,
        fun h => h⟩, ⟨_, rfl, fun r hr => ?_⟩, fun j hj => ?_⟩
      · rcases Array.mem_push.1 hr with hr | rfl
        · exact .inl hr
        · exact .inr (by simpa using hv)
      · cases hj
        exact Array.getElem?_push_size
    · exact ⟨.refl m, ⟨m.imports, rfl, fun r hr => .inl hr⟩, nofun⟩

end Module

/-! ### One module of a library -/

namespace Library

variable {l : Library} {id : Nat} {m m' : Module}

/-- The library with another module at a number. -/
def put (l : Library) (id : Nat) (m : Module) : Library := ⟨l.modules.setIfInBounds id m⟩

theorem update_eq {α : Type} [Inhabited α] (h : l.modules[id]? = some m) (f : Module → Module × α) :
    l.update id f = (l.put id (f m).1, (f m).2) := by
  simp only [update, h, put]

theorem get_eq (h : l.modules[id]? = some m) : l.get id = m := by
  rw [get, Array.getD_eq_getD_getElem?, h]
  rfl

theorem modules_put_self (h : l.modules[id]? = some m) : (l.put id m').modules[id]? = some m' :=
  Array.getElem?_setIfInBounds_self_of_lt (Array.getElem?_eq_some_iff.1 h).1

theorem modules_put_ne {j : Nat} (h : id ≠ j) : (l.put id m').modules[j]? = l.modules[j]? :=
  Array.getElem?_setIfInBounds_ne h

theorem put_self (h : l.modules[id]? = some m) : l.put id m = l := by
  obtain ⟨modules⟩ := l
  obtain ⟨hlt, rfl⟩ := Array.getElem?_eq_some_iff.1 h
  rw [put, Library.mk.injEq]
  refine Array.ext (by simp) fun i hi hi' => ?_
  rw [Array.getElem_setIfInBounds hi']
  by_cases e : id = i
  · subst e
    exact if_pos rfl
  · exact if_neg e

theorem modules_put {n : Module} {j : Nat} (h : l.modules[id]? = some m) (hn : (l.put id m').modules[j]? = some n) :
    id = j ∧ n = m' ∨ id ≠ j ∧ l.modules[j]? = some n := by
  by_cases e : id = j
  · subst e
    exact .inl ⟨rfl, Option.some.inj (hn.symm.trans (modules_put_self h))⟩
  · exact .inr ⟨e, (modules_put_ne e).symm.trans hn⟩

theorem get_put_self (h : l.modules[id]? = some m) : (l.put id m').get id = m' :=
  get_eq (modules_put_self h)

theorem get_put_ne {j : Nat} (h : id ≠ j) : (l.put id m').get j = l.get j := by
  rw [get, get, Array.getD_eq_getD_getElem?, Array.getD_eq_getD_getElem?, modules_put_ne h]

@[simp] theorem size_put : (l.put id m').modules.size = l.modules.size := by
  simp [put]

theorem function?_put_self {i : Nat} (h : l.modules[id]? = some m) :
    (l.put id m').function? ⟨id, i⟩ = m'.functions[i]? := by
  rw [function?_eq, get_put_self h]

theorem function?_put_ne {f : FunctionRef} (h : id ≠ f.module) : (l.put id m').function? f = l.function? f := by
  rw [function?_eq, function?_eq, get_put_ne h]

theorem function?_of_module {f : FunctionRef} (h : l.modules[f.module]? = some m) :
    l.function? f = m.functions[f.index]? := by
  rw [function?_eq, get_eq h]

theorem exists_module {f : FunctionRef} {g : Function} (h : l.function? f = some g) :
    ∃ m, l.modules[f.module]? = some m ∧ m.functions[f.index]? = some g := by
  unfold function? at h
  cases hm : l.modules[f.module]? with
  | none => simp [hm] at h
  | some m => exact ⟨m, rfl, by simpa [hm] using h⟩

/-- Only one module is replaced. -/
theorem toList_put (h : l.modules[id]? = some m) (m' : Module) : ∃ before after : List Module,
    l.modules.toList = before ++ m :: after ∧ (l.put id m').modules.toList = before ++ m' :: after := by
  obtain ⟨hlt, rfl⟩ := Array.getElem?_eq_some_iff.1 h
  have hlt' : id < l.modules.toList.length := by simpa using hlt
  refine ⟨l.modules.toList.take id, l.modules.toList.drop (id + 1), ?_, ?_⟩
  · rw [← Array.getElem_toList hlt, List.getElem_cons_drop, List.take_append_drop]
  · rw [put, Array.toList_setIfInBounds, List.set_eq_take_append_cons_drop, if_pos hlt']

theorem statics_put (h : l.modules[id]? = some m) (m' : Module) : ∃ a b : List Handle,
    l.statics = a ++ (m.values.toList.flatMap Value.handles ++ b) ∧
      (l.put id m').statics = a ++ (m'.values.toList.flatMap Value.handles ++ b) := by
  obtain ⟨before, after, e, e'⟩ := toList_put h m'
  refine ⟨before.flatMap fun m => m.values.toList.flatMap Value.handles,
    after.flatMap fun m => m.values.toList.flatMap Value.handles, ?_, ?_⟩
  · rw [statics, e, List.flatMap_append, List.flatMap_cons]
  · rw [statics, e', List.flatMap_append, List.flatMap_cons]

/-- A static value that is added holds the references in it. -/
theorem perm_statics_addValue (h : l.modules[id]? = some m) (x : Value) :
    (l.put id (m.addValue x).1).statics.Perm (x.handles ++ l.statics) := by
  obtain ⟨a, b, e, e'⟩ := statics_put h (m.addValue x).1
  rw [e, e', List.perm_iff_count]
  intro r
  simp only [Module.addValue, Array.toList_push, List.flatMap_append, List.flatMap_singleton, List.count_append]
  omega

theorem statics_put_eq (h : l.modules[id]? = some m) (hv : m'.values = m.values) :
    (l.put id m').statics = l.statics := by
  obtain ⟨a, b, e, e'⟩ := statics_put h m'
  rw [e', e, hv]

end Library

/-! ### Libraries -/

namespace View

variable {v w : View} {waits waits' : FunctionRef → Prop} {id : Nat} {m m' : Module} {f : FunctionRef}
  {g : Function}

structure Lawful (v : View) (waits : FunctionRef → Prop) (f : FunctionRef) (g : Function) : Prop where
  captures : g.captures.length = g.signature.nonlocals.length
  unreserved : Plain.reserved ∉ g.captures
  nonlocals : Ty.AllKnown g.signature.nonlocals
  bound : Ty.AllKnown g.signature.bound
  params : g.body.isGeneric = false → g.body ≠ .native .listLength → Ty.AllKnown g.signature.params
  result : g.signature.effectiveResult.Known
  generic : ∀ decl scope, g.body = .generic decl scope →
    decl.isPlain ∧ scope < (v.library.get f.module).scopes.size
  fragment : ∀ op, g.body = .fragment op → op ∈ Builtin.opcodes ∧ g.signature = op.signature
  listLength : g.body = .native .listLength → g.signature = Native.listLength.signature
  undefined : g.body = .undefined → waits f ∨ v.dead f
  fits : v.BodyFits f g

/-- A function with code can be called with its frame. -/
theorem Lawful.callee {v : View} {waits : FunctionRef → Prop} {f : FunctionRef} {g : Function} {b : Nat}
    (h : v.Lawful waits f g) (hg : v.library.function? f = some g) (alive : (v.library.get f.module).alive)
    (hc : g.body.code?.isSome) (below : f.module ≤ b) :
    v.Callee b f (Draft.frameTypes g.signature) g.signature.effectiveResult := by
  have body : g.body.isGeneric = false ∧ g.body ≠ .native .listLength ∧ g.body.isUndefined = false := by
    cases hb : g.body with
    | code bytes | fragment op => exact ⟨rfl, nofun, rfl⟩
    | undefined | generic | native =>
      rw [hb] at hc
      cases hc
  refine ⟨below, alive, g, hg, .inr (.inr ⟨body.1, body.2.1, rfl, rfl, h.result, fun hu => ?_⟩)⟩
  rw [body.2.2] at hu
  cases hu

/-- A module refers to living ones of smaller numbers. -/
structure Houses (v : View) (waits : FunctionRef → Prop) (id : Nat) (m : Module) : Prop where
  references : ∀ r ∈ Library.references m, r < id ∧ (v.library.get r).alive
  first : id ≠ 0 → m.imports[0]? = some 0
  sane : m.Sane
  functions : ∀ (i : Nat) (g : Function), m.functions[i]? = some g → v.Lawful waits ⟨id, i⟩ g

structure Consistent (v : View) (waits : FunctionRef → Prop) : Prop where
  builtin : v.library.modules[0]? = some Builtin.module
  modules : ∀ (id : Nat) (m : Module), v.library.modules[id]? = some m → m.alive → v.Houses waits id m
  retired : ∀ (id : Nat) (m : Module), v.library.modules[id]? = some m → m.alive = false →
    m.values = #[] ∧ Library.references m = []
  dead : ∀ f, v.dead f → ∃ g, v.library.function? f = some g

theorem Lawful.extends (h : v.Lawful waits f g) (e : v.Extends f.module w)
    (scopes : (v.library.get f.module).scopes.size ≤ (w.library.get f.module).scopes.size)
    (hw : g.body = .undefined → waits f → waits' f ∨ w.dead f) : w.Lawful waits' f g :=
  { h with
    generic := fun decl scope hb =>
      ⟨(h.generic decl scope hb).1, Nat.lt_of_lt_of_le (h.generic decl scope hb).2 scopes⟩
    undefined := fun hu => (h.undefined hu).elim (hw hu) fun hd => .inr (e.dead f (Nat.le_refl _) hd).1
    fits := h.fits.extends e }

theorem Houses.extends (h : v.Houses waits id m) (e : v.Extends id w)
    (scopes : (v.library.get id).scopes.size ≤ (w.library.get id).scopes.size)
    (hw : ∀ i g, m.functions[i]? = some g → g.body = .undefined → waits ⟨id, i⟩ → waits' ⟨id, i⟩ ∨ w.dead ⟨id, i⟩) :
    w.Houses waits' id m :=
  ⟨fun r hr => ⟨(h.references r hr).1, (e.modules r (Nat.le_of_lt (h.references r hr).1)).alive (h.references r hr).2⟩,
    h.first, h.sane, fun i g hg => (h.functions i g hg).extends e scopes (hw i g hg)⟩

/-- Another module at a number extends the library if it extends the one before. -/
theorem extends_put (hm : v.library.modules[id]? = some m) (e : m.Extends m')
    (hd : ∀ i, v.dead ⟨id, i⟩ → m'.functions[i]? = m.functions[i]?) (k : Nat) :
    v.Extends k ⟨v.library.put id m', v.dead⟩ := by
  refine ⟨fun j _ => ?_, fun f _ hf => ⟨hf, ?_⟩⟩
  · by_cases h : id = j
    · subst h
      rw [Library.get_put_self hm, Library.get_eq hm]
      exact e
    · rw [Library.get_put_ne h]
      exact .refl _
  · by_cases h : id = f.module
    · subst h
      rw [Library.function?_of_module hm, ← hd f.index hf]
      exact Library.function?_put_self hm
    · exact Library.function?_put_ne h

namespace Consistent

theorem houses (h : v.Consistent waits) (hm : v.library.modules[id]? = some m) (ha : (v.library.get id).alive) :
    v.Houses waits id m :=
  h.modules id m hm (by rwa [Library.get_eq hm] at ha)

theorem lawful (h : v.Consistent waits) (hg : v.library.function? f = some g) (ha : (v.library.get f.module).alive) :
    v.Lawful waits f g := by
  obtain ⟨m, hm, hf⟩ := Library.exists_module hg
  exact (h.houses hm ha).functions f.index g hf

theorem fits (h : v.Consistent waits) : v.Fits :=
  fun _ _ ha hg => (h.lawful hg ha).fits

/-- What waits may change if nothing is forgotten. -/
theorem waiting (h : v.Consistent waits) (hw : ∀ f g, v.library.function? f = some g → g.body = .undefined →
    waits f → waits' f) : v.Consistent waits' := by
  refine ⟨h.builtin, fun id m hm ha => (h.modules id m hm ha).extends (.refl id v) (Nat.le_refl _)
    fun i g hg hu hi => .inl (hw _ g ?_ hu hi), h.retired, h.dead⟩
  exact (Library.function?_of_module hm).trans hg

theorem put (h : v.Consistent waits) (hm : v.library.modules[id]? = some m) (ha : m.alive) (hid : id ≠ 0)
    (e : m.Extends m') (hd : ∀ i, v.dead ⟨id, i⟩ → m'.functions[i]? = m.functions[i]?) (sane : m'.Sane)
    (references : ∀ r ∈ Library.references m', r ∈ Library.references m)
    (scopes : m.scopes.size ≤ m'.scopes.size)
    (functions : ∀ (i : Nat) (g : Function), m'.functions[i]? = some g → m.functions[i]? = some g ∨
      View.Lawful ⟨v.library.put id m', v.dead⟩ waits' ⟨id, i⟩ g)
    (hw : ∀ f g, (v.library.put id m').function? f = some g → g.body = .undefined → waits f → waits' f) :
    View.Consistent ⟨v.library.put id m', v.dead⟩ waits' := by
  have hext := extends_put hm e hd
  have old := h.modules id m hm ha
  have hsize : (v.library.get id).scopes.size ≤ ((v.library.put id m').get id).scopes.size := by
    rwa [Library.get_eq hm, Library.get_put_self hm]
  refine ⟨(Library.modules_put_ne hid).trans h.builtin, fun j n hn hna => ?_, fun j n hn hna => ?_, fun f hf => ?_⟩
  · rcases Library.modules_put hm hn with ⟨rfl, rfl⟩ | ⟨hj, hn'⟩
    · refine ⟨fun r hr => ?_, fun h0 => e.imports 0 0 (old.first h0), sane, fun i g hg => ?_⟩
      · obtain ⟨hlt, hra⟩ := old.references r (references r hr)
        exact ⟨hlt, ((hext r).modules r (Nat.le_refl r)).alive hra⟩
      · rcases functions i g hg with hg' | hl
        · refine (old.functions i g hg').extends (hext id) hsize fun hu hi => .inl (hw _ g ?_ hu hi)
          exact (Library.function?_put_self hm).trans hg
        · exact hl
    · refine (h.modules j n hn' hna).extends (hext j) ?_ fun i g hg hu hi => .inl (hw _ g ?_ hu hi)
      · exact Nat.le_of_eq (by rw [Library.get_put_ne hj])
      · rw [Library.function?_put_ne hj]
        exact (Library.function?_of_module hn').trans hg
  · rcases Library.modules_put hm hn with ⟨rfl, rfl⟩ | ⟨-, hn'⟩
    · rw [e.alive ha] at hna
      cases hna
    · exact h.retired j n hn' hna
  · obtain ⟨g, hg⟩ := h.dead f hf
    obtain ⟨g', hg', -⟩ := (hext f.module).function (Nat.le_refl _) hg
    exact ⟨g', hg'⟩

/-- A module that gains no functions. -/
theorem put_same (h : v.Consistent waits) (hm : v.library.modules[id]? = some m) (ha : m.alive) (hid : id ≠ 0)
    (e : m.Extends m') (hf : m'.functions = m.functions) (sane : m'.Sane)
    (references : ∀ r ∈ Library.references m', r ∈ Library.references m)
    (scopes : m.scopes.size ≤ m'.scopes.size) : View.Consistent ⟨v.library.put id m', v.dead⟩ waits :=
  h.put hm ha hid e (fun i _ => by rw [hf]) sane references scopes (fun i g hg => .inl (hf ▸ hg)) fun _ _ _ _ hw => hw

end Consistent

/-! ### Heaps -/

section

variable {Ψ : Typing} {h : Heap} {roots : List Handle} {x : Value}

theorem Sound.put (hs : v.Sound Ψ h roots) (hm : v.library.modules[id]? = some m) (e : m.Extends m')
    (hd : ∀ i, v.dead ⟨id, i⟩ → m'.functions[i]? = m.functions[i]?) (hv : m'.values = m.values)
    (ha : m'.alive = m.alive) : View.Sound ⟨v.library.put id m', v.dead⟩ Ψ h roots := by
  refine hs.extends (extends_put hm e hd) (Library.statics_put_eq hm hv) (fun j => ?_) fun j hj => ?_
  · by_cases hij : id = j
    · subst hij
      rw [Library.get_put_self hm, Library.get_eq hm, hv]
    · rw [Library.get_put_ne hij]
  · by_cases hij : id = j
    · subst hij
      rw [Library.get_put_self hm, ha] at hj
      rwa [Library.get_eq hm]
    · rwa [Library.get_put_ne hij] at hj

/-- A static value takes over the references in it. -/
theorem Sound.addValue (hs : v.Sound Ψ h (x.handles ++ roots)) (hm : v.library.modules[id]? = some m)
    (hx : Ψ.Describes id x) : View.Sound ⟨v.library.put id (m.addValue x).1, v.dead⟩ Ψ h roots := by
  have hext := extends_put hm (m.extends_addValue x) fun _ _ => rfl
  refine ⟨hs.balanced.congr fun r _ => ?_, fun r y t n hy ht => (hs.contents r y t n hy ht).extends (hext n),
    fun j y ha hy => ?_⟩
  · simp only [List.count_append, (Library.perm_statics_addValue hm x).count_eq r]
    omega
  · by_cases hij : id = j
    · subst hij
      rw [Library.get_put_self hm] at ha hy
      rcases Array.mem_push.1 hy with hy | rfl
      · exact hs.statics id y (by rwa [Library.get_eq hm]) (by rwa [Library.get_eq hm])
      · exact hx
    · rw [Library.get_put_ne hij] at ha hy
      exact hs.statics j y ha hy

end

end View

end StackScript
