import StackScript.Proofs.Course
import StackScript.Proofs.Registering

/-!
Writing code without calls. The module that takes it only gains types and static values, the scopes around it stay as
they are, and what is written takes a pile of data to the next one.
-/
namespace StackScript

namespace ScopeTable

variable {t u w : ScopeTable} {n n' a : Nat} {name other : String} {symbol : Symbol}

/-- Scopes are added, and those below a number stay. -/
structure Spares (n : Nat) (t u : ScopeTable) : Prop where
  size : t.size ≤ u.size
  scopes : ∀ i < n, u.scopes[i]? = t.scopes[i]?

theorem Spares.refl (n : Nat) (t : ScopeTable) : Spares n t t := ⟨Nat.le_refl _, fun _ _ => rfl⟩

theorem Spares.trans (h : Spares n t u) (k : Spares n' u w) (hn : n ≤ n') : Spares n t w :=
  ⟨Nat.le_trans h.size k.size, fun i hi => (k.scopes i (Nat.lt_of_lt_of_le hi hn)).trans (h.scopes i hi)⟩

theorem Spares.below (h : Spares n t u) (hn : n' ≤ n) : Spares n' t u :=
  ⟨h.size, fun i hi => h.scopes i (Nat.lt_of_lt_of_le hi hn)⟩

theorem spares_add (t : ScopeTable) (parent : Nat) (kind : ScopeKind) (label : String) :
    Spares t.size t (t.add parent kind label).1 :=
  ⟨by simp, fun _ hi => scopes_add_lt hi⟩

theorem spares_bind (t : ScopeTable) (a : Nat) (name : String) (symbol : Symbol) : Spares a t (t.bind a name symbol) :=
  ⟨by simp, fun i hi => by simp [bind, Array.getElem?_modify, Nat.ne_of_gt hi]⟩

/-- Looking up a name from a scope only meets scopes of smaller numbers. -/
theorem resolveFrom_spares (ht : t.Ordered) (h : Spares n t u) {stop : Option Nat} : ∀ (fuel fuel' : Nat) {a : Nat}
    (crossed : Bool), a < n → a < fuel → a < fuel' →
      u.resolveFrom name stop fuel' a crossed = t.resolveFrom name stop fuel a crossed
  | 0, _, _, _, _, hf, _ => absurd hf (Nat.not_lt_zero _)
  | _ + 1, 0, _, _, _, _, hf => absurd hf (Nat.not_lt_zero _)
  | fuel + 1, fuel' + 1, a, crossed, hn, hf, hf' => by
    unfold resolveFrom
    rw [h.scopes a hn]
    split
    · rfl
    · cases hs : t.scopes[a]? with
      | none => rfl
      | some sc =>
        dsimp only
        cases sc.get? name with
        | some symbol => rfl
        | none =>
          dsimp only
          cases hp : sc.parent with
          | none => rfl
          | some p =>
            have hlt := ht a sc p hs hp
            exact resolveFrom_spares ht h fuel fuel' _ (Nat.lt_trans hlt hn) (by omega) (by omega)

theorem resolve?_spares (ht : t.Ordered) (h : Spares n t u) (ha : a < n) (hn : a < t.size) :
    u.resolve? a name = t.resolve? a name :=
  resolveFrom_spares ht h _ _ _ ha hn (Nat.lt_of_lt_of_le hn h.size)

theorem scopes_bind (t : ScopeTable) (a i : Nat) (name : String) (symbol : Symbol) :
    (t.bind a name symbol).scopes[i]? = (t.scopes[i]?).map fun sc => if a = i then sc.bind name symbol else sc := by
  rw [bind, Array.getElem?_modify]
  split <;> simp

theorem resolveFrom_bind_ne (hn : other ≠ name) {stop : Option Nat} : ∀ (fuel i : Nat) (crossed : Bool),
    (t.bind a name symbol).resolveFrom other stop fuel i crossed = t.resolveFrom other stop fuel i crossed
  | 0, _, _ => rfl
  | fuel + 1, i, crossed => by
    have same (sc : Scope) : (if a = i then sc.bind name symbol else sc).get? other = sc.get? other ∧
        (if a = i then sc.bind name symbol else sc).parent = sc.parent ∧
        (if a = i then sc.bind name symbol else sc).kind = sc.kind := by
      split
      · exact ⟨Scope.lookup_put_ne hn symbol _, rfl, rfl⟩
      · exact ⟨rfl, rfl, rfl⟩
    unfold resolveFrom
    rw [scopes_bind]
    split
    · rfl
    · cases t.scopes[i]? with
      | none => rfl
      | some sc =>
        simp only [Option.map_some, same sc, resolveFrom_bind_ne hn fuel]

/-- Another name is looked up as before. -/
theorem resolve?_bind_ne (hn : other ≠ name) : (t.bind a name symbol).resolve? n other = t.resolve? n other := by
  unfold resolve?
  rw [size_bind]
  exact resolveFrom_bind_ne hn _ _ _

theorem resolve?_bind_self (ha : a < t.size) : (t.bind a name symbol).resolve? a name = some ⟨a, symbol, false⟩ := by
  obtain ⟨fuel, hf⟩ := Nat.exists_eq_add_of_lt ha
  have hs : t.scopes[a]? = some t.scopes[a] := Array.getElem?_eq_getElem ha
  unfold resolve?
  rw [size_bind, hf]
  unfold resolveFrom
  simp [bind, Array.getElem?_modify, hs, Scope.get?, Scope.bind, Scope.lookup_put]

/-- A block sees what is seen around it. -/
theorem resolve?_addBlock (ht : t.Ordered) (ha : a < t.size) (label : String) :
    (t.add a .block label).1.resolve? t.size name = t.resolve? a name := by
  have hs := scopes_add_self t a .block label
  unfold resolve?
  rw [size_add, resolveFrom]
  simp only [hs, Scope.get?, List.lookup_nil, reduceCtorEq, if_false, decide_false, Bool.or_false]
  exact resolveFrom_spares ht (spares_add t a .block label) _ _ _ ha ha ha

end ScopeTable

theorem Heap.retains_alloc {h : Heap} (tidy : h.cells.size ≤ capacity → h.Tidy) (x : Content) :
    h.Retains (h.alloc x).1 := by
  refine ⟨size_le_alloc h x, fun hcap r y hy => ?_⟩
  have allocates := allocates (tidy (Nat.le_trans (size_le_alloc h x) hcap)) x hcap
  have hne : r ≠ (h.alloc x).2 := by
    rintro rfl
    rw [filled?, allocates.fresh] at hy
    cases hy
  rwa [filled?, allocates.others r hne]

namespace Compilation

variable {n n' : Nat} {c d e : Compilation} {m m' : Module} {s u : Pile} {out : Except Fault Pile} {op : Opcode}
  {a b : Nat} {span : Span}

/-! ### The draft and its module -/

/-- What the code of the draft refers to. -/
def store (c : Compilation) : Store := ⟨c.library, c.heap⟩

/-- The scopes of the module of the draft. -/
def table (c : Compilation) : ScopeTable := (c.library.get c.draft.target.module).scopes

/-- A module that can take code without calls. -/
structure Hosts (c : Compilation) : Prop where
  here : ∃ m, c.library.modules[c.draft.target.module]? = some m
  imports : (c.library.get c.draft.target.module).imports[0]? = some 0
  builtin : c.library.modules[0]? = some Builtin.module
  user : c.draft.target.module ≠ 0
  ordered : c.table.Ordered
  scope : c.draft.scope < c.table.size
  code : c.draft.code.Valid
  heap : c.heap.cells.size ≤ Heap.capacity → c.heap.Tidy

/-- The references to cells are those of the roots and of the static values. -/
def Accounts (roots : List Handle) (c : Compilation) : Prop :=
  c.heap.cells.size ≤ Heap.capacity → c.heap.Balanced (roots ++ c.library.statics)

/-- The static values stay. -/
theorem Accounts.put {roots : List Handle} {k : Nat} (ha : c.Accounts roots) (hm : c.library.modules[k]? = some m)
    (library : d.library = c.library.put k m') (hv : m'.values = m.values) (heap : d.heap = c.heap) : d.Accounts roots := by
  intro hcap
  rw [heap] at hcap ⊢
  rw [library, Library.statics_put_eq hm hv]
  exact ha hcap

/-- The draft is written further. What its code refers to stays, and so do the scopes below a number. -/
structure Proceeds (n : Nat) (c d : Compilation) : Prop where
  hosts : d.Hosts
  store : c.store.Extends c.draft.target.module d.store
  scopes : ScopeTable.Spares n c.table d.table
  writes : c.draft.Writes d.draft
  functions : (d.library.get c.draft.target.module).functions = (c.library.get c.draft.target.module).functions
  accounts : ∀ {roots}, c.Accounts roots → d.Accounts roots

theorem Proceeds.refl (hc : c.Hosts) (n : Nat) : c.Proceeds n c :=
  ⟨hc, .refl _ _, .refl _ _, .refl _, rfl, fun h => h⟩

theorem Proceeds.table_eq (h : c.Proceeds n d) : d.table = (d.library.get c.draft.target.module).scopes := by
  rw [table, h.writes.target]

theorem Proceeds.trans (h : c.Proceeds n d) (k : d.Proceeds n' e) (hn : n ≤ n') : c.Proceeds n e := by
  have target := h.writes.target
  refine ⟨k.hosts, h.store.trans (target ▸ k.store), h.scopes.trans k.scopes hn, h.writes.trans k.writes, ?_,
    fun ha => k.accounts (h.accounts ha)⟩
  rw [← target, k.functions, target, h.functions]

theorem Proceeds.below (h : c.Proceeds n d) (hn : n' ≤ n) : c.Proceeds n' d := { h with scopes := h.scopes.below hn }

/-- All scopes stay. -/
abbrev Grows (c d : Compilation) : Prop := c.Proceeds c.table.size d

theorem Grows.trans (h : c.Grows d) (k : d.Grows e) : c.Grows e := Proceeds.trans h k h.scopes.size

/-! ### Code -/

/-- What was written between two states makes of a pile. -/
def Converts (c d : Compilation) (s : Pile) (out : Except Fault Pile) : Prop :=
  ∀ w code, d.store.Extends c.draft.target.module w → d.draft.code.Fits code →
    w.Carries c.draft.target.module code c.draft.code.size d.draft.code.size s out

/-- What an instruction makes of a pile, whatever is added to what it refers to. -/
def Does (c : Compilation) (op : Opcode) (a b : Nat) (s : Pile) (out : Except Fault Pile) : Prop :=
  ∀ w, c.store.Extends c.draft.target.module w → w.Moves c.draft.target.module op a b s out

theorem converts_refl (c : Compilation) (s : Pile) : c.Converts c s (.ok s) := fun w code _ _ => .refl w _ code _ s

/-- What follows does not change what was written. -/
theorem Converts.carries (h : c.Converts d s out) (hcd : c.Proceeds n d) (hde : d.Proceeds n' e) {w : Store}
    {code : Array UInt8} (hw : e.store.Extends c.draft.target.module w) (hfit : e.draft.code.Fits code) :
    w.Carries c.draft.target.module code c.draft.code.size d.draft.code.size s out := by
  have later := hde.store
  rw [hcd.writes.target] at later
  exact h w code (later.trans hw) (hfit.of_extends hde.writes.code)

theorem Converts.trans (h : c.Converts d s (.ok u)) (k : d.Converts e u out) (hcd : c.Proceeds n d) (hde : d.Proceeds n' e) :
    c.Converts e s out := fun w code hw hfit => by
  have next := k w code
  rw [hcd.writes.target] at next
  exact (h.carries hcd hde hw hfit).trans (next hw hfit)

/-- After a fault nothing follows. -/
theorem Converts.bind {α : Type} {x : Except Fault α} {f : α → Pile} {g : α → Except Fault Pile}
    (h : c.Converts d s (x.map f)) (k : ∀ y, x = .ok y → d.Converts e (f y) (g y)) (hcd : c.Proceeds n d)
    (hde : d.Proceeds n' e) : c.Converts e s (x >>= g) := fun w code hw hfit =>
  (h.carries hcd hde hw hfit).bind fun y hy => by
    have next := k y hy w code
    rw [hcd.writes.target] at next
    exact next hw hfit

/-! ### The module -/

/-- The module gains what its code refers to, and scopes. -/
structure Gains (n : Nat) (m m' : Module) : Prop where
  values : ∀ (i : Nat) (v : Value), m.values[i]? = some v → m'.values[i]? = some v
  types : ∀ (i : Nat) (t : Ty), m.types[i]? = some t → m'.types[i]? = some t
  imports : m'.imports = m.imports
  functions : m'.functions = m.functions
  scopes : ScopeTable.Spares n m.scopes m'.scopes
  ordered : m.scopes.Ordered → m'.scopes.Ordered

theorem Gains.refl (n : Nat) (m : Module) : Gains n m m :=
  ⟨fun _ _ h => h, fun _ _ h => h, rfl, rfl, .refl n _, fun h => h⟩

theorem Hosts.table_eq (hm : c.library.modules[c.draft.target.module]? = some m) : c.table = m.scopes := by
  rw [table, Library.get_eq hm]

theorem Hosts.put (hc : c.Hosts) (hm : c.library.modules[c.draft.target.module]? = some m) (g : Gains n m m') {h : Heap}
    (hh : c.heap.Retains h) (tidy : h.cells.size ≤ Heap.capacity → h.Tidy)
    (accounts : ∀ {roots}, c.Accounts roots →
      Accounts roots { c with library := c.library.put c.draft.target.module m', heap := h }) :
    c.Proceeds n { c with library := c.library.put c.draft.target.module m', heap := h } := by
  have get : (c.library.put c.draft.target.module m').get c.draft.target.module = m' := Library.get_put_self hm
  have old := Library.get_eq hm
  have table := Hosts.table_eq hm
  have table' : ({ c with library := c.library.put c.draft.target.module m', heap := h } : Compilation).table = m'.scopes := by
    rw [Compilation.table, get]
  refine ⟨⟨⟨m', Library.modules_put_self hm⟩, ?_, ?_, hc.user, ?_, ?_, hc.code, tidy⟩, ⟨?_, ?_, ?_, ?_, hh⟩, ?_, .refl _, ?_,
    accounts⟩
  · rw [get, g.imports, ← old]
    exact hc.imports
  · exact (Library.modules_put_ne hc.user).trans hc.builtin
  · rw [table']
    exact g.ordered (table ▸ hc.ordered)
  · rw [table']
    exact Nat.lt_of_lt_of_le (table ▸ hc.scope) g.scopes.size
  · intro i v hv
    change ((c.library.put _ _).get _).values[i]? = some v
    rw [get]
    exact g.values i v (old ▸ hv)
  · intro i t ht
    change ((c.library.put _ _).get _).types[i]? = some t
    rw [get]
    exact g.types i t (old ▸ ht)
  · change ((c.library.put _ _).get _).imports = _
    rw [get, g.imports, ← old]
    rfl
  · exact Library.get_put_ne hc.user
  · rw [table, table']
    exact g.scopes
  · rw [get, g.functions, old]

/-- The module gains no static values. -/
theorem Hosts.tune (hc : c.Hosts) (hm : c.library.modules[c.draft.target.module]? = some m) (g : Gains n m m')
    (hv : m'.values = m.values) : c.Proceeds n { c with library := c.library.put c.draft.target.module m' } :=
  hc.put hm g (.refl _) hc.heap fun ha => ha.put hm rfl hv rfl

/-! ### Instructions -/

/-- Another draft of the same function in the same scope. -/
theorem Hosts.redraft (hc : c.Hosts) {k : Draft} (target : k.target = c.draft.target) (scope : k.scope = c.draft.scope)
    (hv : k.code.Valid) : ({ c with draft := k } : Compilation).Hosts := by
  refine ⟨?_, ?_, hc.builtin, ?_, ?_, ?_, hv, hc.heap⟩
  · exact target ▸ hc.here
  · exact target ▸ hc.imports
  · exact target ▸ hc.user
  · change (c.library.get k.target.module).scopes.Ordered
    rw [target]
    exact hc.ordered
  · change k.scope < (c.library.get k.target.module).scopes.size
    rw [target, scope]
    exact hc.scope

theorem Proceeds.redraft (h : c.Proceeds n d) {k : Draft} (hk : c.draft.Writes k) (hv : k.code.Valid) :
    c.Proceeds n { d with draft := k } := by
  have target := h.writes.target
  refine ⟨h.hosts.redraft (hk.target.trans target.symm) (hk.scope.trans h.writes.scope.symm) hv, h.store, ?_, hk, h.functions,
    h.accounts⟩
  change ScopeTable.Spares _ _ (d.library.get k.target.module).scopes
  rw [hk.target, ← h.table_eq]
  exact h.scopes

theorem Hosts.draft (hc : c.Hosts) {k : Draft} (hd : c.draft.Writes k) (hv : k.code.Valid) : c.Grows { c with draft := k } :=
  (Proceeds.refl hc _).redraft hd hv

/-- An instruction was written. -/
structure Adds (op : Opcode) (a b : Nat) (c d : Compilation) : Prop where
  grows : c.Grows d
  depth : d.draft.depth = c.draft.depth
  converts : ∀ {s out}, c.Does op a b s out → c.Converts d s out

theorem Hosts.onCode (hc : c.Hosts) (k : Code → Code) (hd : c.draft.code.Extends (k c.draft.code))
    (hv : (k c.draft.code).Valid) (hsize : (k c.draft.code).size = c.draft.code.size + op.length)
    (fetch : ∀ code, (k c.draft.code).Fits code → Fetches code c.draft.code.size op a b) :
    Meets (Compile.onCode k) c (fun _ d => Adds op a b c d) fun _ _ => True := by
  refine ⟨hc.draft ⟨rfl, rfl, rfl, rfl, rfl, hd⟩ hv, rfl, fun does w code hw hfit => ?_⟩
  change w.Carries _ code _ (k c.draft.code).size _ _
  rw [hsize]
  exact .step (fetch code hfit) (does w hw)

theorem Hosts.emit (hc : c.Hosts) (hop : op.arity = 0) :
    Meets (Compile.emit op) c (fun _ d => Adds op 0 0 c d) fun _ _ => True :=
  hc.onCode (fun code => code.opcode op) (Code.extends_opcode _ op) (hc.code.opcode op)
    (by rw [Code.size_opcode, Opcode.length, hop]) fun _ hfit => hfit.fetches hc.code hop (.refl _)

theorem meets_operandOf {v : Nat} {ok : UInt8 → Compilation → Prop} (hok : v < 256 → ok (.ofNat v) c) :
    Meets (Compile.operand op v span) c ok fun _ _ => True := by
  unfold Compile.operand
  split
  · next h => exact hok h
  · trivial

theorem Hosts.emit1 (hc : c.Hosts) (hop : op.arity = 1) (a : Nat) (span : Span) :
    Meets (Compile.emit1 op a span) c (fun _ d => Adds op a 0 c d) fun _ _ => True := by
  refine meets_bind.2 (meets_operandOf fun ha => ?_)
  refine hc.onCode (fun code => (code.opcode op).byte _) ((Code.extends_opcode _ op).trans (Code.extends_byte _ _))
    ((hc.code.opcode op).byte _) (by rw [Code.size_byte, Code.size_opcode, Opcode.length, hop]) fun code hfit => ?_
  have fetch := hfit.fetches1 hc.code hop (.refl _)
  rwa [UInt8.toNat_ofNat_of_lt' ha] at fetch

theorem Hosts.emit2 (hc : c.Hosts) (hop : op.arity = 2) (a b : Nat) (span : Span) :
    Meets (Compile.emit2 op a b span) c (fun _ d => Adds op a b c d) fun _ _ => True := by
  refine meets_bind.2 (meets_operandOf fun ha => meets_bind.2 (meets_operandOf fun hb => ?_))
  refine hc.onCode (fun code => ((code.opcode op).byte _).byte _)
    ((Code.extends_opcode _ op).trans ((Code.extends_byte _ _).trans (Code.extends_byte _ _)))
    (((hc.code.opcode op).byte _).byte _)
    (by rw [Code.size_byte, Code.size_byte, Code.size_opcode, Opcode.length, hop]) fun code hfit => ?_
  have fetch := hfit.fetches2 hc.code hop (.refl _)
  rwa [UInt8.toNat_ofNat_of_lt' ha, UInt8.toNat_ofNat_of_lt' hb] at fetch

end Compilation

end StackScript
