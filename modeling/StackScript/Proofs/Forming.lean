import StackScript.Proofs.Assembly
import StackScript.Proofs.Calling

/-!
Operands that name something. A function, a static value, a type or an import keeps its number while modules are compiled,
so code that names only what is there goes on doing so. The actions that write code write whole instructions of that kind.
-/
namespace StackScript

/-! ### Modules and libraries that widen -/

/-- Every number that stands for something still does. -/
structure Module.Widens (m n : Module) : Prop where
  alive : n.alive = m.alive
  functions : m.functions.size ≤ n.functions.size
  values : m.values.size ≤ n.values.size
  types : m.types.size ≤ n.types.size
  imports : ∀ i id : Nat, m.imports[i]? = some id → n.imports[i]? = some id

namespace Module

variable {m n p : Module}

theorem Widens.refl (m : Module) : m.Widens m :=
  ⟨rfl, Nat.le_refl _, Nat.le_refl _, Nat.le_refl _, fun _ _ h => h⟩

theorem Widens.trans (h : m.Widens n) (k : n.Widens p) : m.Widens p :=
  ⟨k.alive.trans h.alive, Nat.le_trans h.functions k.functions, Nat.le_trans h.values k.values, Nat.le_trans h.types k.types,
    fun i id hi => k.imports i id (h.imports i id hi)⟩

theorem size_addType (m : Module) (t : Ty) : (m.addType t).2 < (m.addType t).1.types.size :=
  (Array.getElem?_eq_some_iff.1 (m.addType_spec t).2.1).1

theorem widens_addType (m : Module) (t : Ty) : m.Widens (m.addType t).1 ∧ (m.addType t).1.functions = m.functions := by
  unfold addType
  split
  · exact ⟨.refl m, rfl⟩
  · exact ⟨⟨rfl, Nat.le_refl _, Nat.le_refl _, by simp, fun _ _ h => h⟩, rfl⟩

theorem widens_addValue (m : Module) (x : Value) : m.Widens (m.addValue x).1 :=
  ⟨rfl, Nat.le_refl _, by simp [addValue], Nat.le_refl _, fun _ _ h => h⟩

theorem size_addValue (m : Module) (x : Value) : (m.addValue x).2 < (m.addValue x).1.values.size := by
  simp [addValue]

theorem widens_internValue (m : Module) (x : Value) : m.Widens (m.internValue x).1 ∧
    (m.internValue x).1.functions = m.functions ∧ (m.internValue x).2 < (m.internValue x).1.values.size := by
  unfold internValue
  split
  · next i hi => exact ⟨.refl m, rfl, (Array.findIdx?_eq_some_iff_getElem.1 hi).1⟩
  · exact ⟨m.widens_addValue x, rfl, m.size_addValue x⟩

theorem widens_importVisible (m : Module) (id : Nat) : m.Widens (m.importVisible id).1 ∧
    (m.importVisible id).1.functions = m.functions := by
  obtain ⟨hext, ⟨imports, e, -⟩, -⟩ := m.importVisible_spec id
  have same : (m.importVisible id).1.functions = m.functions := by rw [e]
  have values : (m.importVisible id).1.values = m.values := by rw [e]
  have types : (m.importVisible id).1.types = m.types := by rw [e]
  exact ⟨⟨by rw [e], same ▸ Nat.le_refl _, values ▸ Nat.le_refl _, types ▸ Nat.le_refl _, hext.imports⟩, same⟩

theorem widens_addFunction (m : Module) (g : Function) : m.Widens (m.addFunction g).1 :=
  ⟨rfl, by simp [addFunction], Nat.le_refl _, Nat.le_refl _, fun _ _ h => h⟩

theorem widens_setFunction (m : Module) (i : Nat) (g : Function) : m.Widens (m.setFunction i g) :=
  ⟨rfl, by simp [setFunction], Nat.le_refl _, Nat.le_refl _, fun _ _ h => h⟩

/-- Names and instances are not what operands stand for. -/
theorem widens_of_eq (alive : n.alive = m.alive) (functions : n.functions = m.functions) (values : n.values = m.values)
    (types : n.types = m.types) (imports : n.imports = m.imports) : m.Widens n :=
  ⟨alive, functions ▸ Nat.le_refl _, values ▸ Nat.le_refl _, types ▸ Nat.le_refl _, fun _ _ h => imports ▸ h⟩

end Module

namespace Library

structure Widens (l l' : Library) : Prop where
  size : l'.modules.size = l.modules.size
  modules : ∀ (id : Nat) (m : Module), l.modules[id]? = some m → ∃ n, l'.modules[id]? = some n ∧ m.Widens n

/-- Operands that say a number of something name something that is there. -/
def Covers (l : Library) (m : Module) : Opcode → Nat → Nat → Prop
  | .loadStatic, x, _ => x < m.values.size
  | .invoke, x, _ | .subscript, x, _ => x < m.types.size
  | .makeList, _, y => y < m.types.size
  | .loadFunction, x, _ | .makeClosure, x, _ | .call0, x, _ => x < m.functions.size
  | .call1, x, _ => ∃ id, m.imports[0]? = some id ∧ x < (l.get id).functions.size
  | .call, x, y => ∃ id, m.imports[x]? = some id ∧ y < (l.get id).functions.size
  | _, _, _ => True

/-- Code of a module that something refers to is whole and names what is there. What is inlined has no operands. -/
def Admits (l : Library) (m : Module) : Body → Prop
  | .code bytes => m.alive → Code.WellFormed (l.Covers m) bytes
  | .fragment op => op.arity = 0
  | _ => True

/-- All code that is installed is well formed. -/
def Formed (l : Library) : Prop :=
  ∀ (id : Nat) (m : Module), l.modules[id]? = some m → ∀ g ∈ m.functions, l.Admits m g.body

/-- An instruction of a module that names what is there. -/
def Names (l : Library) (k : Nat) (op : Opcode) (x y : Nat) : Prop :=
  ∀ m, l.modules[k]? = some m → m.alive → l.Covers m op x y

def AdmitsAt (l : Library) (k : Nat) (b : Body) : Prop := ∀ m, l.modules[k]? = some m → l.Admits m b

def HasFunction (l : Library) (f : FunctionRef) : Prop := ∃ m, l.modules[f.module]? = some m ∧ f.index < m.functions.size

variable {l l' l'' : Library} {m n m' : Module} {id k : Nat} {op : Opcode} {x y : Nat} {b : Body} {f : FunctionRef} {g : Function}

theorem Widens.refl (l : Library) : l.Widens l := ⟨rfl, fun _ m hm => ⟨m, hm, .refl m⟩⟩

theorem Widens.trans (h : l.Widens l') (h' : l'.Widens l'') : l.Widens l'' := by
  refine ⟨h'.size.trans h.size, fun id m hm => ?_⟩
  obtain ⟨n, hn, hmn⟩ := h.modules id m hm
  obtain ⟨p, hp, hnp⟩ := h'.modules id n hn
  exact ⟨p, hp, hmn.trans hnp⟩

theorem Widens.back (h : l.Widens l') (hn : l'.modules[id]? = some n) : ∃ m, l.modules[id]? = some m ∧ m.Widens n := by
  have hlt : id < l.modules.size := h.size ▸ (Array.getElem?_eq_some_iff.1 hn).1
  obtain ⟨p, hp, hmp⟩ := h.modules id _ (Array.getElem?_eq_getElem hlt)
  obtain rfl := Option.some.inj (hn.symm.trans hp)
  exact ⟨_, Array.getElem?_eq_getElem hlt, hmp⟩

theorem Widens.functions_size (h : l.Widens l') (id : Nat) : (l.get id).functions.size ≤ (l'.get id).functions.size := by
  cases hn : l'.modules[id]? with
  | none =>
    have hm : l.modules[id]? = none := by
      rw [Array.getElem?_eq_none_iff] at hn ⊢
      exact h.size ▸ hn
    have same : l.get id = l'.get id := by
      rw [get, get, Array.getD_eq_getD_getElem?, Array.getD_eq_getD_getElem?, hm, hn]
    exact Nat.le_of_eq (congrArg (fun m : Module => m.functions.size) same)
  | some n =>
    obtain ⟨m, hm, hmn⟩ := h.back hn
    rw [get_eq hm, get_eq hn]
    exact hmn.functions

theorem widens_put (hm : l.modules[id]? = some m) (h : m.Widens m') : l.Widens (l.put id m') := by
  refine ⟨size_put, fun j n hn => ?_⟩
  by_cases e : id = j
  · subst e
    obtain rfl := Option.some.inj (hm.symm.trans hn)
    exact ⟨m', modules_put_self hm, h⟩
  · exact ⟨n, (modules_put_ne e).trans hn, .refl n⟩

theorem HasFunction.mono (h : l.HasFunction f) (w : l.Widens l') : l'.HasFunction f := by
  obtain ⟨m, hm, hf⟩ := h
  obtain ⟨n, hn, hmn⟩ := w.modules _ m hm
  exact ⟨n, hn, Nat.lt_of_lt_of_le hf hmn.functions⟩

/-- What is named stays named, wherever functions are only added. -/
theorem Covers.mono (h : l.Covers m op x y) (hm : m.Widens n)
    (functions : ∀ id, (l.get id).functions.size ≤ (l'.get id).functions.size) : l'.Covers n op x y := by
  cases op with
  | loadStatic => exact Nat.lt_of_lt_of_le h hm.values
  | invoke | subscript | makeList => exact Nat.lt_of_lt_of_le h hm.types
  | loadFunction | makeClosure | call0 => exact Nat.lt_of_lt_of_le h hm.functions
  | call1 | call =>
    obtain ⟨id, hid, hx⟩ := h
    exact ⟨id, hm.imports _ _ hid, Nat.lt_of_lt_of_le hx (functions id)⟩
  | _ => trivial

theorem covers_of_arity (h : op.arity = 0) : l.Covers m op x y := by
  cases op <;> trivial

theorem covers_of_isJump (h : op.isJump) : l.Covers m op x y := by
  cases op <;> trivial

theorem Admits.mono (h : l.Admits m b) (hm : m.Widens n)
    (functions : ∀ id, (l.get id).functions.size ≤ (l'.get id).functions.size) : l'.Admits n b := by
  cases b with
  | code bytes => exact fun ha => (h (hm.alive ▸ ha)).mono fun _ _ _ hc => hc.mono hm functions
  | fragment op => exact h
  | _ => trivial

theorem AdmitsAt.mono (h : l.AdmitsAt k b) (w : l.Widens l') : l'.AdmitsAt k b := fun n hn => by
  obtain ⟨m, hm, hmn⟩ := w.back hn
  exact (h m hm).mono hmn w.functions_size

theorem Names.mono (h : l.Names k op x y) (w : l.Widens l') : l'.Names k op x y := fun n hn ha => by
  obtain ⟨m, hm, hmn⟩ := w.back hn
  exact (h m hm (hmn.alive ▸ ha)).mono hmn w.functions_size

/-- A module is changed whose new functions are admitted. -/
theorem Formed.put (h : l.Formed) (hm : l.modules[id]? = some m) (hw : m.Widens m')
    (hf : ∀ g ∈ m'.functions, g ∈ m.functions ∨ l.AdmitsAt id g.body) : (l.put id m').Formed := by
  have w := widens_put hm hw
  intro j n hn g hg
  rcases modules_put hm hn with ⟨rfl, rfl⟩ | ⟨-, hn⟩
  · rcases hf g hg with hg | hg
    · exact (h id m hm g hg).mono hw w.functions_size
    · exact (hg m hm).mono hw w.functions_size
  · exact (h j n hn g hg).mono (.refl n) w.functions_size

theorem hasFunction (h : l.function? f = some g) : l.HasFunction f := by
  obtain ⟨m, hm, hg⟩ := exists_module h
  exact ⟨m, hm, (Array.getElem?_eq_some_iff.1 hg).1⟩

theorem Formed.admits (h : l.Formed) (hg : l.function? f = some g) : l.AdmitsAt f.module g.body := fun m hm => by
  rw [function?_of_module hm] at hg
  exact h _ m hm g (Array.mem_of_getElem? hg)

/-! ### Calls -/

theorem HasFunction.lt (h : l.HasFunction f) (hm : l.modules[f.module]? = some m) : f.index < m.functions.size := by
  obtain ⟨n, hn, hf⟩ := h
  obtain rfl := Option.some.inj (hm.symm.trans hn)
  exact hf

theorem HasFunction.lt_get (h : l.HasFunction f) : f.index < (l.get f.module).functions.size := by
  obtain ⟨m, hm, hf⟩ := h
  rwa [get_eq hm]

theorem HasFunction.call0 (h : l.HasFunction f) : l.Names f.module .call0 f.index 0 := fun _ hm _ => h.lt hm

/-- The number of an import. -/
def Imports (l : Library) (k i id : Nat) : Prop := ∀ m, l.modules[k]? = some m → m.imports[i]? = some id

theorem HasFunction.call1 (h : l.HasFunction f) (hi : l.Imports k 0 f.module) : l.Names k .call1 f.index 0 :=
  fun m hm _ => ⟨f.module, hi m hm, h.lt_get⟩

theorem HasFunction.call {i : Nat} (h : l.HasFunction f) (hi : l.Imports k i f.module) : l.Names k .call i f.index :=
  fun m hm _ => ⟨f.module, hi m hm, h.lt_get⟩

/-- One instruction is a body. -/
theorem admitsAt_single (it : Code.Item) (hj : it.op.isJump = false) (h : l.Names k it.op it.first it.second)
    {bytes : Array UInt8} (hb : bytes.toList = it.bytes) : l.AdmitsAt k (.code bytes) :=
  fun m hm ha => Code.wellFormed_single it hj (h m hm ha) hb

end Library

/-! ### Actions -/

namespace Compilation

/-- The library is well formed, and the draft consists of whole instructions that name what is there. -/
structure Shaped (c : Compilation) : Prop where
  formed : c.library.Formed
  valid : c.draft.code.Valid
  draft : ∀ m, c.library.modules[c.draft.target.module]? = some m → m.alive → c.draft.code.Drafted (c.library.Covers m)

/-- The same function is written on. -/
structure Onward (c d : Compilation) : Prop where
  library : c.library.Widens d.library
  target : d.draft.target = c.draft.target
  code : c.draft.code.Follows d.draft.code

variable {c d e : Compilation} {l : Library} {id : Nat} {m m' : Module}

theorem Onward.refl (c : Compilation) : c.Onward c := ⟨.refl _, rfl, .refl _⟩

theorem Onward.trans (h : c.Onward d) (k : d.Onward e) : c.Onward e :=
  ⟨h.library.trans k.library, k.target.trans h.target, h.code.trans k.code⟩

/-- The draft goes on in a library that is wider. -/
theorem Shaped.widen (h : c.Shaped) (formed : l.Formed) (w : c.library.Widens l) :
    ({ c with library := l } : Compilation).Shaped := by
  refine ⟨formed, h.valid, fun n hn ha => ?_⟩
  obtain ⟨m, hm, hmn⟩ := w.back hn
  exact (h.draft m hm (hmn.alive ▸ ha)).mono fun _ _ _ hc => hc.mono hmn w.functions_size

theorem Shaped.put (h : c.Shaped) (hm : c.library.modules[id]? = some m) (hw : m.Widens m')
    (hf : ∀ g ∈ m'.functions, g ∈ m.functions ∨ c.library.AdmitsAt id g.body) :
    ({ c with library := c.library.put id m' } : Compilation).Shaped :=
  h.widen (h.formed.put hm hw hf) (Library.widens_put hm hw)

/-- The draft goes on. -/
theorem Shaped.code (h : c.Shaped) {d : Draft} (target : d.target = c.draft.target) (follows : c.draft.code.Follows d.code)
    (valid : d.code.Valid) (hd : ∀ ok, (∀ m, c.library.modules[c.draft.target.module]? = some m → m.alive →
      c.library.Covers m = ok → c.draft.code.Drafted ok → d.code.Drafted ok)) :
    ({ c with draft := d } : Compilation).Shaped ∧ c.Onward { c with draft := d } := by
  refine ⟨⟨h.formed, valid, fun m hm ha => ?_⟩, .refl _, target, follows⟩
  change c.library.modules[d.target.module]? = some m at hm
  rw [target] at hm
  exact hd _ m hm ha rfl (h.draft m hm ha)

end Compilation

namespace Compile

/-- An action that writes code for a module, given what is known of the library, and what is then known of it. -/
def Forms {α : Type} (l : Library) (k : Nat) (x : Compile α) (post : α → Library → Prop) : Prop :=
  ∀ c : Compilation, c.Shaped → l.Widens c.library → c.draft.target.module = k →
    Meets x c (fun a d => d.Shaped ∧ c.Onward d ∧ post a d.library) fun _ d => d.library.Formed ∧ c.library.Widens d.library

/-- Nothing more is known. -/
def Any {α : Type} (_ : α) (_ : Library) : Prop := True

namespace Forms

variable {l : Library} {k id : Nat} {α β : Type} {x : Compile α} {post : α → Library → Prop} {post' : β → Library → Prop}
  {f : FunctionRef} {g : Function} {span : Span} {t : Ty} {op : Opcode} {a b : Nat}

/-! ### Ways to combine actions -/

theorem pure {a : α} (h : ∀ l', l.Widens l' → post a l') : Forms l k (Pure.pure a) post :=
  fun c hc w _ => ⟨hc, .refl c, h _ w⟩

theorem done (a : α) : Forms l k (Pure.pure a : Compile α) Any := pure fun _ _ => trivial

theorem fail (cause : CompileError.Cause) (span : Span) : Forms l k (Compile.fail cause span) post :=
  fun c hc _ _ => ⟨hc.formed, .refl c.library⟩

theorem throw (e : CompileError) : Forms l k (MonadExcept.throw e : Compile α) post :=
  fun c hc _ _ => ⟨hc.formed, .refl c.library⟩

theorem fails (cause : CompileError.Cause) (span : Span) : Forms l k (Compile.fail cause span : Compile α) Any := fail cause span

theorem throws (e : CompileError) : Forms l k (MonadExcept.throw e : Compile α) Any := throw e

theorem lift (r : Except CompileError α) : Forms l k (Compile.lift r) Any := fun c hc _ _ => by
  cases r with
  | ok a => exact ⟨hc, .refl c, trivial⟩
  | error e => exact ⟨hc.formed, .refl c.library⟩

theorem widen {l' : Library} (h : Forms l k x post) (w : l.Widens l') : Forms l' k x post :=
  fun c hc hw hk => h c hc (w.trans hw) hk

theorem forget (h : Forms l k x post) : Forms l k x Any := fun c hc w hk =>
  (h c hc w hk).imp (fun _ _ hd => ⟨hd.1, hd.2.1, trivial⟩) fun _ _ h => h

theorem bind {y : α → Compile β} (hx : Forms l k x post) (hy : ∀ a l', l.Widens l' → post a l' → Forms l' k (y a) post') :
    Forms l k (x >>= y) post' := fun c hc w hk => by
  refine (hx c hc w hk).seq fun a d hd => ?_
  obtain ⟨hd, on, ha⟩ := hd
  refine (hy a d.library (w.trans on.library) ha d hd (.refl _) (on.target ▸ hk)).imp (fun b e he => ?_) fun _ e he => ?_
  · exact ⟨he.1, on.trans he.2.1, he.2.2⟩
  · exact ⟨he.1, on.library.trans he.2⟩

/-- Nothing is learnt from the first action. -/
theorem seq {y : α → Compile β} (hx : Forms l k x Any) (hy : ∀ a, Forms l k (y a) post') : Forms l k (x >>= y) post' :=
  hx.bind fun a _ w _ => (hy a).widen w

theorem get {y : Compilation → Compile β} (hy : ∀ c : Compilation, l.Widens c.library → c.Shaped →
    c.draft.target.module = k → Forms c.library k (y c) post') : Forms l k (MonadState.get >>= y) post' :=
  fun c hc w hk => hy c w hc hk c hc (.refl _) hk

theorem guarded {p : Prop} [Decidable p] {y : PUnit → Compile α} {cause : CompileError.Cause}
    (hy : ¬p → Forms l k (y ⟨⟩) post) : Forms l k (if p then Compile.fail cause span >>= y else y ⟨⟩) post := by
  split
  · exact fun c hc _ _ => meets_bind.2 ⟨hc.formed, .refl c.library⟩
  · next h => exact hy h

theorem forM {y : α → Compile PUnit} (hy : ∀ a, Forms l k (y a) Any) : ∀ as : List α, Forms l k (as.forM y) Any
  | [] => done _
  | a :: as => (hy a).seq fun _ => forM hy as

/-! ### The draft -/

theorem modifyDraft {y : Draft → Draft} (target : ∀ d, (y d).target = d.target) (code : ∀ d, (y d).code = d.code) :
    Forms l k (Compile.modifyDraft y) Any := fun c hc _ _ => by
  have same := code c.draft
  obtain ⟨shaped, on⟩ := hc.code (target c.draft) (same ▸ .refl _) (same ▸ hc.valid) fun _ _ _ _ _ hd => same ▸ hd
  exact ⟨shaped, on, trivial⟩

/-- Code is written. -/
theorem onCode {y : Code → Code} (goes : ∀ c : Code, c.Follows (y c) ∧ (c.Valid → (y c).Valid))
    (drafted : ∀ l' : Library, l.Widens l' → ∀ m, l'.modules[k]? = some m → m.alive → ∀ c : Code,
      c.Drafted (l'.Covers m) → (y c).Drafted (l'.Covers m)) : Forms l k (Compile.onCode y) Any := fun c hc w hk => by
  obtain ⟨shaped, on⟩ := hc.code (d := { c.draft with code := y c.draft.code }) rfl (goes _).1 ((goes _).2 hc.valid)
    fun _ m hm ha e hd => e ▸ drafted _ w m (hk ▸ hm) ha _ (e ▸ hd)
  exact ⟨shaped, on, trivial⟩

theorem setDepth (n : Nat) : Forms l k (Compile.setDepth n) Any := modifyDraft (fun _ => rfl) fun _ => rfl

theorem sink (n : Nat) : Forms l k (Compile.sink n) Any := modifyDraft (fun _ => rfl) fun _ => rfl

theorem emit (h : op.arity = 0) : Forms l k (Compile.emit op) Any :=
  onCode (fun _ => ⟨(Code.extends_opcode _ op).follows, fun hv => hv.opcode op⟩)
    fun _ _ _ _ _ _ hd => hd.opcode h (Library.covers_of_arity h)

theorem operand (op : Opcode) (n : Nat) (span : Span) :
    Forms l k (Compile.operand op n span) fun b _ => b.toNat = n := by
  unfold Compile.operand
  split
  · next h => exact pure fun _ _ => UInt8.toNat_ofNat_of_lt' h
  · exact fail _ _

theorem emit1 (h : op.arity = 1) (hj : op.isJump = false) (hn : l.Names k op a 0) : Forms l k (Compile.emit1 op a span) Any := by
  refine (operand op a span).bind fun x l' w hx => ?_
  refine onCode (fun _ => ⟨?_, fun hv => (hv.opcode op).byte x⟩) fun l'' w' m hm ha _ hd => ?_
  · exact ((Code.extends_opcode _ op).trans (Code.extends_byte _ x)).follows
  · refine hd.opcode1 h hj ?_
    rw [hx]
    exact hn.mono (w.trans w') m hm ha

theorem emit2 (h : op.arity = 2) (hn : l.Names k op a b) : Forms l k (Compile.emit2 op a b span) Any := by
  refine (operand op a span).bind fun x l' w hx => (operand op b span).bind fun y l'' w' hy => ?_
  refine onCode (fun _ => ⟨?_, fun hv => ((hv.opcode op).byte x).byte y⟩) fun l₃ w'' m hm ha _ hd => ?_
  · exact ((Code.extends_opcode _ op).trans ((Code.extends_byte _ x).trans (Code.extends_byte _ y))).follows
  · refine hd.opcode2 h ?_
    rw [hx, hy]
    exact hn.mono ((w.trans w').trans w'') m hm ha

theorem jump (h : op.isJump) : Forms l k (Compile.jump op) Any := fun c hc _ _ => by
  obtain ⟨shaped, on⟩ := hc.code (d := { c.draft with code := (c.draft.code.jump op).1 }) rfl (c.draft.code.extends_jump op).follows
    (hc.valid.jump op) fun _ _ _ _ e hd => hd.jump h (e ▸ Library.covers_of_isJump h)
  exact ⟨shaped, on, trivial⟩

theorem bindLabel (n : Nat) : Forms l k (Compile.bindLabel n) Any :=
  onCode (fun c => ⟨c.follows_bind n, fun hv => hv.bind n⟩) fun _ _ _ _ _ _ hd => hd.bind n

theorem decRef (n : Nat) (span : Span) : Forms l k (Compile.emit1 .decRef n span) Any := emit1 rfl rfl fun _ _ _ => trivial

theorem incRef (n : Nat) (span : Span) : Forms l k (Compile.emit1 .incRef n span) Any := emit1 rfl rfl fun _ _ _ => trivial

theorem releaseAt (distances : List Nat) (span : Span) : Forms l k (Compile.releaseAt distances span) Any :=
  forM (fun n => decRef n span) distances

theorem retain (t : Ty) (span : Span) : Forms l k (Compile.retain t span) Any :=
  forM (fun n => incRef n span) t.distances

theorem drop (a b : Nat) (span : Span) : Forms l k (Compile.emit2 .drop a b span) Any := emit2 rfl fun _ _ _ => trivial

theorem discard (t : Ty) (span : Span) : Forms l k (Compile.discard t span) Any := by
  refine (releaseAt _ span).seq fun _ => ?_
  split
  · exact (drop _ _ _).seq fun _ => sink _
  · exact sink _

theorem leaving {x : Compile Ty} (hx : Forms l k x Any) : Forms l k (Compile.leaving x) Any :=
  get fun _ w _ _ => (hx.widen w).seq fun _ => (setDepth _).seq fun _ => done _

/-! ### Instructions that name something -/

theorem loadStatic (h : ∀ m, l.modules[k]? = some m → a < m.values.size) :
    Forms l k (Compile.emit1 .loadStatic a span) Any := emit1 rfl rfl fun m hm _ => h m hm

theorem loadFunction (h : ∀ m, l.modules[k]? = some m → a < m.functions.size) :
    Forms l k (Compile.emit1 .loadFunction a span) Any := emit1 rfl rfl fun m hm _ => h m hm

theorem makeClosure (h : ∀ m, l.modules[k]? = some m → a < m.functions.size) :
    Forms l k (Compile.emit1 .makeClosure a span) Any := emit1 rfl rfl fun m hm _ => h m hm

theorem invoke (h : ∀ m, l.modules[k]? = some m → a < m.types.size) :
    Forms l k (Compile.emit1 .invoke a span) Any := emit1 rfl rfl fun m hm _ => h m hm

theorem subscript (h : ∀ m, l.modules[k]? = some m → a < m.types.size) :
    Forms l k (Compile.emit1 .subscript a span) Any := emit1 rfl rfl fun m hm _ => h m hm

theorem makeList (h : ∀ m, l.modules[k]? = some m → b < m.types.size) :
    Forms l k (Compile.emit2 .makeList a b span) Any := emit2 rfl fun m hm _ => h m hm

/-! ### The library -/

theorem onHeap (y : Heap → Heap × α) : Forms l k (Compile.onHeap y) Any := fun _ hc _ _ =>
  ⟨⟨hc.formed, hc.valid, hc.draft⟩, ⟨.refl _, rfl, .refl _⟩, trivial⟩

/-- A module is changed. What is known of the result is known of the changed module. -/
theorem onModule [Inhabited α] {y : Module → Module × α} (id : Nat) (hw : ∀ m : Module, m.Widens (y m).1)
    (hf : ∀ m : Module, ∀ g ∈ (y m).1.functions, g ∈ m.functions ∨ l.AdmitsAt id g.body)
    {P : α → Module → Prop} (ha : ∀ m : Module, P (y m).2 (y m).1) :
    Forms l k (Compile.onModule id y) fun a l' => ∀ m, l'.modules[id]? = some m → P a m := fun c hc w _ => by
  cases hm : c.library.modules[id]? with
  | none =>
    unfold Compile.onModule Meets Library.update
    simp only [hm]
    exact ⟨hc, .refl c, nofun⟩
  | some m =>
    refine (Compilation.meets_onModule hm).2 ⟨hc.put hm (hw m) fun g hg => (hf m g hg).imp_right fun h => h.mono w,
      ⟨Library.widens_put hm (hw m), rfl, .refl _⟩, fun n hn => ?_⟩
    obtain rfl := Option.some.inj ((Library.modules_put_self hm).symm.trans hn)
    exact ha m

theorem addFunction (id : Nat) (hg : l.AdmitsAt id g.body) :
    Forms l k (Compile.addFunction id g) fun i l' => ∀ m, l'.modules[id]? = some m → i < m.functions.size := by
  refine onModule id (fun m => m.widens_addFunction g) (fun m g' hg' => ?_) (P := fun i m => i < m.functions.size)
    fun m => by simp [Module.addFunction]
  exact (Array.mem_push.1 hg').imp_right fun e => by rwa [e]

theorem addValue (id : Nat) (v : Value) :
    Forms l k (Compile.addValue id v) fun i l' => ∀ m, l'.modules[id]? = some m → i < m.values.size :=
  onModule id (fun m => m.widens_addValue v) (fun _ _ hg => .inl hg) (P := fun i m => i < m.values.size)
    fun m => m.size_addValue v

theorem bindIn (id i : Nat) (name : String) (symbol : Symbol) : Forms l k (Compile.bindIn id i name symbol) Any :=
  (onModule id (fun _ => Module.widens_of_eq rfl rfl rfl rfl rfl) (fun _ _ hg => .inl hg) (P := fun _ _ => True)
    fun _ => trivial).forget

theorem addScope (id parent : Nat) (kind : ScopeKind) (label : String) :
    Forms l k (Compile.addScope id parent kind label) Any :=
  (onModule id (fun _ => Module.widens_of_eq rfl rfl rfl rfl rfl) (fun _ _ hg => .inl hg) (P := fun _ _ => True)
    fun _ => trivial).forget

theorem here : Forms l k Compile.here fun id _ => id = k :=
  get fun _ _ _ hk => pure fun _ _ => hk

theorem getDraft : Forms l k Compile.getDraft Any := get fun _ _ _ _ => done _

theorem resolve (name : String) (span : Span) : Forms l k (Compile.resolve name span) Any := get fun _ w _ _ =>
  (lift _).widen w

theorem hint? (e : Expr) : Forms l k (Compile.hint? e) Any := get fun _ _ _ _ => done _

theorem getFunction (f : FunctionRef) (span : Span) :
    Forms l k (Compile.getFunction f span) fun g l' => l'.HasFunction f ∧ l'.AdmitsAt f.module g.body := by
  refine get fun c _ hc _ => ?_
  dsimp only
  split
  · next g hg => exact pure fun _ w => ⟨(Library.hasFunction hg).mono w, (hc.formed.admits hg).mono w⟩
  · exact fail _ _

theorem callResult (f : FunctionRef) (span : Span) : Forms l k (Compile.callResult f span) Any :=
  (getFunction f span).forget.seq fun _ => get fun _ _ _ _ => guarded fun _ => done _

theorem typeOperand (t : Ty) :
    Forms l k (Compile.typeOperand t) fun i l' => ∀ m, l'.modules[k]? = some m → i < m.types.size :=
  here.bind fun _ l' _ e => by
    subst e
    exact onModule _ (fun m => (m.widens_addType t).1) (fun m g hg => .inl ((m.widens_addType t).2 ▸ hg))
      (P := fun i m => i < m.types.size) fun m => m.size_addType t

/-- A module that is called is imported by then. -/
theorem importIndex (id : Nat) (span : Span) :
    Forms l k (Compile.importIndex id span) fun i l' => l'.Imports k i id ∧ i < CompileError.importLimit := by
  refine here.bind fun importer l' _ e => ?_
  subst e
  refine get fun c _ _ _ => (onModule importer (fun m => (m.widens_importVisible id).1)
    (fun m g hg => .inl ((m.widens_importVisible id).2 ▸ hg)) (P := fun i? m => ∀ i, i? = some i → m.imports[i]? = some id)
    fun m => (m.importVisible_spec id).2.2).bind fun i? l' _ hi => ?_
  split
  · exact fail _ _
  · next i =>
    split
    · next hlt =>
      refine pure fun l'' w => ⟨fun n hn => ?_, hlt⟩
      obtain ⟨m, hm, hmn⟩ := w.back hn
      exact hmn.imports _ _ (hi m hm i rfl)
    · exact fail _ _

/-! ### Calls -/

theorem emitCall (f : FunctionRef) (span : Span) : Forms l k (Compile.emitCall f span) Any := by
  refine (getFunction f span).bind fun g l' _ hg => ?_
  obtain ⟨has, admits⟩ := hg
  split
  · next op hb =>
    obtain ⟨m, hm, -⟩ := has
    have := admits m hm
    rw [hb] at this
    exact emit this
  · refine here.bind fun id l'' w e => ?_
    subst e
    split
    · next hid => exact emit1 rfl rfl (hid ▸ (has.mono w).call0)
    · refine (importIndex f.module span).bind fun i l₃ w' hi => ?_
      split
      · exact emit1 rfl rfl (((has.mono w).mono w').call1 hi.1)
      · exact emit2 rfl (((has.mono w).mono w').call hi.1)

end Forms

end Compile

end StackScript
