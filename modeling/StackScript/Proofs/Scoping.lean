import StackScript.Proofs.Layout
import StackScript.Scope

/-!
Scopes while code is written. A scope that is waiting only gains functions, so that the variables that are seen
from it keep their places on the stack.
-/
namespace StackScript

/-- Where a variable lies: in a frame of the given size or above it. -/
def Symbol.Placed (frame : Nat) (s : Shape) : Symbol → Prop
  | slot offset t => ∃ top below, s = top ++ Shape.ofTy t ++ below ∧ below.size = frame + offset
  | parameter _ offset t | nonlocal _ offset t =>
    ∃ top below, s = top ++ Shape.ofTy t ++ below ∧ below.size + (offset + t.size) = frame
  | _ => True

theorem Symbol.Placed.push {frame : Nat} {s : Shape} {symbol : Symbol} (h : symbol.Placed frame s) (u : Shape) :
    symbol.Placed frame (u ++ s) := by
  cases symbol with
  | slot _ _ | parameter _ _ _ | nonlocal _ _ _ =>
    obtain ⟨top, below, rfl, hb⟩ := h
    exact ⟨u ++ top, below, by simp only [List.append_assoc], hb⟩
  | _ => trivial

namespace Scope

theorem lookup_put_ne {name other : String} (h : other ≠ name) (symbol : Symbol) (l : List (String × Symbol)) :
    (put name symbol l).lookup other = l.lookup other := by
  induction l with
  | nil =>
    have h' : (other == name) = false := by simpa using h
    simp [put, List.lookup_cons, h']
  | cons p l ih =>
    obtain ⟨n, s⟩ := p
    by_cases hn : n = name
    · subst hn
      have h' : (other == n) = false := by simpa using h
      simp [put, List.lookup_cons, h']
    · simp [put, hn, List.lookup_cons, ih]

end Scope

namespace ScopeTable

variable {t u w : ScopeTable} {a b i frame : Nat} {x : Option Nat} {name : String} {symbol : Symbol} {s : Shape}

/-! ### Adding and binding -/

theorem get?_bind_self {sc : Scope} (h : t.scopes[i]? = some sc) (name : String) (symbol : Symbol) :
    (t.bind i name symbol).get? i name = some symbol := by
  simp [get?, bind, Array.getElem?_modify, h, Scope.get?, Scope.bind, Scope.lookup_put]

theorem get?_bind_ne {other : String} (h : i ≠ a ∨ other ≠ name) (symbol : Symbol) :
    (t.bind a name symbol).get? i other = t.get? i other := by
  simp only [get?, bind, Array.getElem?_modify]
  split
  · rename_i e
    have hn : other ≠ name := h.resolve_left fun h' => h' e.symm
    cases t.scopes[i]? with
    | none => rfl
    | some sc => simp [Scope.get?, Scope.bind, Scope.lookup_put_ne hn]
  · rfl

theorem get?_bind {other : String} {sym : Symbol} (h : (t.bind a name symbol).get? i other = some sym) :
    (i = a ∧ other = name ∧ sym = symbol) ∨ t.get? i other = some sym := by
  by_cases hi : i = a
  · by_cases hn : other = name
    · subst hi hn
      cases hs : t.scopes[i]? with
      | none =>
        rw [get?, bind, Array.getElem?_modify, if_pos rfl, hs] at h
        cases h
      | some sc =>
        rw [get?_bind_self hs] at h
        exact .inl ⟨rfl, rfl, (Option.some.inj h).symm⟩
    · exact .inr (by rwa [get?_bind_ne (.inr hn)] at h)
  · exact .inr (by rwa [get?_bind_ne (.inl hi)] at h)

@[simp] theorem size_bind (t : ScopeTable) (i : Nat) (name : String) (symbol : Symbol) :
    (t.bind i name symbol).size = t.size := by
  simp [bind, size]

@[simp] theorem size_add (t : ScopeTable) (parent : Nat) (kind : ScopeKind) (name : String) :
    (t.add parent kind name).1.size = t.size + 1 := by
  simp [add, size]

theorem lt_size_of_scope {sc : Scope} (h : t.scopes[i]? = some sc) : i < t.size :=
  (Array.getElem?_eq_some_iff.1 h).1

theorem scopes_add_lt {parent : Nat} {kind : ScopeKind} (h : i < t.size) :
    (t.add parent kind name).1.scopes[i]? = t.scopes[i]? :=
  Array.getElem?_push_lt h |>.trans (Array.getElem?_eq_getElem h).symm

theorem scopes_add_self (t : ScopeTable) (parent : Nat) (kind : ScopeKind) (name : String) :
    (t.add parent kind name).1.scopes[t.size]? = some { kind := kind, parent := some parent, name := name } :=
  Array.getElem?_push_size

theorem get?_eq_none (h : t.size ≤ i) : t.get? i name = none := by
  rw [get?, Array.getElem?_eq_none h, Option.bind_none]

theorem get?_add (t : ScopeTable) (parent : Nat) (kind : ScopeKind) (label : String) (i : Nat) (name : String) :
    (t.add parent kind label).1.get? i name = t.get? i name := by
  rcases Nat.lt_trichotomy i t.size with h | h | h
  · rw [get?, scopes_add_lt h, get?]
  · subst h
    rw [get?_eq_none (Nat.le_refl _), get?, scopes_add_self]
    rfl
  · rw [get?_eq_none (t := (t.add ..).1) (by rw [size_add]; exact h), get?_eq_none (Nat.le_of_lt h)]

/-! ### Order -/

/-- Parents have smaller numbers. -/
def Ordered (t : ScopeTable) : Prop :=
  ∀ (i : Nat) (sc : Scope) (p : Nat), t.scopes[i]? = some sc → sc.parent = some p → p < i

theorem Ordered.bind (h : t.Ordered) (a : Nat) (name : String) (symbol : Symbol) : (t.bind a name symbol).Ordered := by
  intro i sc p hs hp
  simp only [ScopeTable.bind, Array.getElem?_modify] at hs
  split at hs
  · cases hsc : t.scopes[i]? with
    | none => simp [hsc] at hs
    | some sc' =>
      rw [hsc, Option.map_some, Option.some.injEq] at hs
      subst hs
      exact h i sc' p hsc hp
  · exact h i sc p hs hp

theorem Ordered.add (h : t.Ordered) {parent : Nat} (hp : parent < t.size) (kind : ScopeKind) (name : String) :
    (t.add parent kind name).1.Ordered := by
  intro i sc p hs hp'
  rcases Nat.lt_trichotomy i t.size with hi | hi | hi
  · exact h i sc p (scopes_add_lt hi ▸ hs) hp'
  · subst hi
    rw [scopes_add_self] at hs
    cases hs
    cases hp'
    exact hp
  · have hs' := lt_size_of_scope hs
    rw [size_add] at hs'
    omega

/-! ### Looking up -/

/-- The second scope is around the first one in the same function. -/
inductive Inside (t : ScopeTable) : Nat → Nat → Prop
  | refl {a : Nat} : Inside t a a
  | up {a p b : Nat} {sc : Scope} (scope : t.scopes[a]? = some sc) (kind : sc.kind ≠ .function)
    (parent : sc.parent = some p) (outer : Inside t p b) : Inside t a b

theorem resolveFrom_spec {stop : Option Nat} : ∀ {fuel a : Nat} {crossed : Bool} {found : Lookup},
    t.resolveFrom name stop fuel a crossed = some found →
      t.get? found.scope name = some found.symbol ∧ (found.crossed = false → crossed = false ∧ t.Inside a found.scope)
  | 0, _, _, _, h => by cases h
  | fuel + 1, a, crossed, found, h => by
    unfold resolveFrom at h
    split at h
    · cases h
    · cases hs : t.scopes[a]? with
      | none => simp [hs] at h
      | some sc =>
        simp only [hs] at h
        cases hg : sc.get? name with
        | some symbol =>
          simp only [hg] at h
          cases h
          exact ⟨by simp [get?, hs, hg], fun hc => ⟨hc, .refl⟩⟩
        | none =>
          simp only [hg] at h
          cases hp : sc.parent with
          | none => simp [hp] at h
          | some p =>
            simp only [hp] at h
            obtain ⟨hget, hin⟩ := resolveFrom_spec h
            refine ⟨hget, fun hc => ?_⟩
            obtain ⟨hc', hin⟩ := hin hc
            rw [Bool.or_eq_false_iff, decide_eq_false_iff_not] at hc'
            exact ⟨hc'.1, .up hs hc'.2 hp hin⟩

theorem resolve?_get {stop : Option Nat} {found : Lookup} (h : t.resolve? a name stop = some found) :
    t.get? found.scope name = some found.symbol :=
  (resolveFrom_spec h).1

theorem resolve?_inside {stop : Option Nat} {found : Lookup} (h : t.resolve? a name stop = some found)
    (hc : found.crossed = false) : t.Inside a found.scope :=
  ((resolveFrom_spec h).2 hc).2

/-! ### Growing -/

/-- Scopes stay, but functions may be bound in them, and in one of them anything. -/
structure Grows (x : Option Nat) (t u : ScopeTable) : Prop where
  size : t.size ≤ u.size
  scopes : ∀ (i : Nat) (sc : Scope), t.scopes[i]? = some sc →
    ∃ sc', u.scopes[i]? = some sc' ∧ sc'.kind = sc.kind ∧ sc'.parent = sc.parent
  names : ∀ (i : Nat) (name : String) (symbol : Symbol), i < t.size → x ≠ some i → u.get? i name = some symbol →
    (∃ j, symbol = .function j) ∨ t.get? i name = some symbol

theorem Grows.refl (x : Option Nat) (t : ScopeTable) : Grows x t t :=
  ⟨Nat.le_refl _, fun _ sc h => ⟨sc, h, rfl, rfl⟩, fun _ _ _ _ _ h => .inr h⟩

theorem Grows.trans (h : Grows x t u) (k : Grows x u w) : Grows x t w := by
  refine ⟨Nat.le_trans h.size k.size, fun i sc hs => ?_, fun i name symbol hi hx hg => ?_⟩
  · obtain ⟨sc', hs', hk, hp⟩ := h.scopes i sc hs
    obtain ⟨sc'', hs'', hk', hp'⟩ := k.scopes i sc' hs'
    exact ⟨sc'', hs'', hk'.trans hk, hp'.trans hp⟩
  · rcases k.names i name symbol (Nat.lt_of_lt_of_le hi h.size) hx hg with hf | hg
    · exact .inl hf
    · exact h.names i name symbol hi hx hg

theorem Grows.open (h : Grows none t u) (x : Option Nat) : Grows x t u :=
  ⟨h.size, h.scopes, fun i name symbol hi _ => h.names i name symbol hi nofun⟩

theorem Grows.close (h : Grows (some a) t u) (ha : t.size ≤ a) : Grows none t u :=
  ⟨h.size, h.scopes, fun i name symbol hi _ =>
    h.names i name symbol hi fun e => absurd (Option.some.inj e) (by omega)⟩

theorem grows_add (t : ScopeTable) (parent : Nat) (kind : ScopeKind) (name : String) :
    Grows none t (t.add parent kind name).1 := by
  refine ⟨by simp, fun i sc hs => ⟨sc, ?_, rfl, rfl⟩, fun i other symbol _ _ hg => .inr (by rwa [get?_add] at hg)⟩
  rwa [scopes_add_lt (lt_size_of_scope hs)]

theorem grows_bind (t : ScopeTable) (a : Nat) (name : String) (symbol : Symbol)
    (hx : x = some a ∨ (∃ j, symbol = .function j) ∨ t.size ≤ a) : Grows x t (t.bind a name symbol) := by
  refine ⟨by simp, fun i sc hs => ?_, fun i other sym hi hxi hg => ?_⟩
  · simp only [bind, Array.getElem?_modify]
    split
    · exact ⟨sc.bind name symbol, by simp [hs], rfl, rfl⟩
    · exact ⟨sc, hs, rfl, rfl⟩
  · rcases get?_bind hg with ⟨rfl, rfl, rfl⟩ | hg
    · rcases hx with hx | hx | hx
      · exact absurd hx hxi
      · exact .inl hx
      · omega
    · exact .inr hg

theorem Inside.of_grows (h : Grows x t u) (ht : t.Ordered) (hi : u.Inside a b) (ha : a < t.size) :
    t.Inside a b ∧ b < t.size := by
  induction hi with
  | refl => exact ⟨.refl, ha⟩
  | @up a p b sc hs hk hp _ ih =>
    obtain ⟨sc', hs'⟩ : ∃ sc', t.scopes[a]? = some sc' := ⟨_, Array.getElem?_eq_getElem ha⟩
    obtain ⟨sc'', hs'', hk', hp'⟩ := h.scopes a sc' hs'
    obtain rfl := Option.some.inj (hs''.symm.trans hs)
    have hpar : sc'.parent = some p := hp'.symm.trans hp
    obtain ⟨hin, hb⟩ := ih (Nat.lt_trans (ht a sc' p hs' hpar) ha)
    exact ⟨.up hs' (hk' ▸ hk) hpar hin, hb⟩

theorem Inside.le (ht : t.Ordered) (h : t.Inside a b) : b ≤ a := by
  induction h with
  | refl => exact Nat.le_refl _
  | up hs _ hp _ ih => exact Nat.le_trans ih (Nat.le_of_lt (ht _ _ _ hs hp))

/-! ### Places -/

/-- The variables that are seen from a scope lie where their symbols say. -/
def Placed (t : ScopeTable) (a frame : Nat) (s : Shape) : Prop :=
  ∀ b name symbol, t.Inside a b → t.get? b name = some symbol → symbol.Placed frame s

theorem Placed.push (h : t.Placed a frame s) (u : Shape) : t.Placed a frame (u ++ s) :=
  fun b name symbol hi hg => (h b name symbol hi hg).push u

theorem Placed.grows (h : t.Placed a frame s) (ht : t.Ordered) (ha : a < t.size) (hg : Grows x t u)
    (hx : ∀ b, x = some b → a < b) : u.Placed a frame s := by
  intro c name symbol hi hc
  obtain ⟨hi, hlt⟩ := hi.of_grows hg ht ha
  have hle := hi.le ht
  rcases hg.names c name symbol hlt (fun e => absurd (hx c e) (by omega)) hc with ⟨j, rfl⟩ | hc
  · trivial
  · exact h c name symbol hi hc

theorem Placed.bind (h : t.Placed a frame s) (ht : t.Ordered) (ha : a < t.size) (hs : symbol.Placed frame s) :
    (t.bind a name symbol).Placed a frame s := by
  intro b other sym hi hg
  have hi := (hi.of_grows (grows_bind t a name symbol (.inl rfl)) ht ha).1
  rcases get?_bind hg with ⟨rfl, rfl, rfl⟩ | hg
  · exact hs
  · exact h b other sym hi hg

/-- A block sees what is seen around it. -/
theorem Placed.addBlock (h : t.Placed a frame s) (ht : t.Ordered) (ha : a < t.size) (label : String) :
    (t.add a .block label).1.Placed t.size frame s := by
  intro b other sym hi hg
  rw [get?_add] at hg
  cases hi with
  | refl =>
    rw [get?_eq_none (Nat.le_refl _)] at hg
    cases hg
  | up hs hk hp hi =>
    rw [scopes_add_self] at hs
    cases hs
    cases hp
    exact h b other sym (hi.of_grows (grows_add t a .block label) ht ha).1 hg

/-- A function sees none of the variables around it. -/
theorem placed_addFunction (t : ScopeTable) (a : Nat) (label : String) (frame : Nat) (s : Shape) :
    (t.add a .function label).1.Placed t.size frame s := by
  intro b other sym hi hg
  rw [get?_add] at hg
  cases hi with
  | refl =>
    rw [get?_eq_none (Nat.le_refl _)] at hg
    cases hg
  | up hs hk =>
    rw [scopes_add_self] at hs
    cases hs
    exact absurd rfl hk

end ScopeTable

end StackScript
