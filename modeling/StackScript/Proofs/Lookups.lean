import StackScript.Proofs.Scoping

/-!
How a name is found: in the scope at hand, or from its parent. What is found stays found while scopes are added and names
are bound in the scope of the draft.
-/
namespace StackScript

namespace ScopeTable

variable {t u w : ScopeTable} {a b i p : Nat} {own : Option Nat} {name other : String} {symbol : Symbol} {r r' : Lookup}
  {sc : Scope} {fuel : Nat} {crossed : Bool}

/-! ### Finding -/

/-- From a scope outwards, a name is first bound in some scope. -/
inductive Finds (t : ScopeTable) (name : String) : Nat → Lookup → Prop
  | here {a : Nat} {sc : Scope} {symbol : Symbol} (scope : t.scopes[a]? = some sc) (bound : sc.get? name = some symbol) :
    Finds t name a ⟨a, symbol, false⟩
  | outer {a p : Nat} {sc : Scope} {r : Lookup} (scope : t.scopes[a]? = some sc) (free : sc.get? name = none)
    (parent : sc.parent = some p) (found : Finds t name p r) :
    Finds t name a ⟨r.scope, r.symbol, r.crossed || sc.kind = .function⟩

/-- A name is bound in the function of a scope. -/
def Holds (t : ScopeTable) (a : Nat) (name : String) : Prop := ∃ r, t.Finds name a r ∧ r.crossed = false

theorem finds_of_resolveFrom : ∀ {fuel a : Nat} {crossed : Bool} {r : Lookup},
    t.resolveFrom name none fuel a crossed = some r →
      ∃ r', t.Finds name a r' ∧ r = ⟨r'.scope, r'.symbol, crossed || r'.crossed⟩
  | 0, _, _, _, h => by cases h
  | fuel + 1, a, crossed, r, h => by
    unfold resolveFrom at h
    rw [if_neg (Option.some_ne_none a)] at h
    cases hs : t.scopes[a]? with
    | none => simp [hs] at h
    | some sc =>
      simp only [hs] at h
      cases hg : sc.get? name with
      | some symbol =>
        simp only [hg, Option.some.injEq] at h
        exact ⟨_, .here hs hg, by rw [← h, Bool.or_false]⟩
      | none =>
        simp only [hg] at h
        cases hp : sc.parent with
        | none => simp [hp] at h
        | some p =>
          simp only [hp] at h
          obtain ⟨r', found, rfl⟩ := finds_of_resolveFrom h
          exact ⟨_, .outer hs hg hp found, by rw [Bool.or_assoc, Bool.or_comm r'.crossed]⟩

/-- A chain of parents is found to its end, as each of them has a smaller number. -/
theorem resolveFrom_of_finds (ht : t.Ordered) (h : t.Finds name a r) : ∀ {fuel : Nat} {crossed : Bool}, a < fuel →
    t.resolveFrom name none fuel a crossed = some ⟨r.scope, r.symbol, crossed || r.crossed⟩ := by
  induction h with
  | here scope bound =>
    intro fuel crossed hf
    obtain ⟨fuel, rfl⟩ := Nat.exists_eq_add_one_of_ne_zero (Nat.ne_of_gt (Nat.zero_lt_of_lt hf))
    unfold resolveFrom
    rw [if_neg (Option.some_ne_none _)]
    simp only [scope, bound, Bool.or_false]
  | @outer a p sc r scope free parent _ ih =>
    intro fuel crossed hf
    obtain ⟨fuel, rfl⟩ := Nat.exists_eq_add_one_of_ne_zero (Nat.ne_of_gt (Nat.zero_lt_of_lt hf))
    have below := ht a sc p scope parent
    unfold resolveFrom
    rw [if_neg (Option.some_ne_none _)]
    simp only [scope, free, parent]
    rw [ih (by omega), Bool.or_assoc, Bool.or_comm (decide _)]

theorem Finds.lt_size (h : t.Finds name a r) : a < t.size := by
  cases h with
  | here scope _ => exact lt_size_of_scope scope
  | outer scope _ _ _ => exact lt_size_of_scope scope

theorem resolve?_eq_some (ht : t.Ordered) : t.resolve? a name = some r ↔ t.Finds name a r := by
  refine ⟨fun h => ?_, fun h => ?_⟩
  · obtain ⟨r', found, rfl⟩ := finds_of_resolveFrom h
    rwa [Bool.false_or]
  · rw [resolve?, resolveFrom_of_finds ht h h.lt_size, Bool.false_or]

theorem Finds.unique (h : t.Finds name a r) (k : t.Finds name a r') : r = r' := by
  induction h generalizing r' with
  | here scope bound =>
    cases k with
    | here scope' bound' =>
      obtain rfl := Option.some.inj (scope.symm.trans scope')
      obtain rfl := Option.some.inj (bound.symm.trans bound')
      rfl
    | outer scope' free _ _ =>
      obtain rfl := Option.some.inj (scope.symm.trans scope')
      cases bound.symm.trans free
  | outer scope free parent _ ih =>
    cases k with
    | here scope' bound =>
      obtain rfl := Option.some.inj (scope.symm.trans scope')
      cases bound.symm.trans free
    | outer scope' _ parent' found' =>
      obtain rfl := Option.some.inj (scope.symm.trans scope')
      obtain rfl := Option.some.inj (parent.symm.trans parent')
      rw [ih found']

theorem Finds.get? (h : t.Finds name a r) : t.get? r.scope name = some r.symbol := by
  induction h with
  | here scope bound => simp [ScopeTable.get?, scope, bound]
  | outer _ _ _ _ ih => exact ih

theorem finds_self (h : t.get? a name = some symbol) : t.Finds name a ⟨a, symbol, false⟩ := by
  obtain ⟨sc, scope, bound⟩ := Option.bind_eq_some_iff.1 h
  exact .here scope bound

theorem Finds.inside (h : t.Finds name a r) (hc : r.crossed = false) : t.Inside a r.scope := by
  induction h with
  | here => exact .refl
  | outer scope _ parent _ ih =>
    obtain ⟨uncrossed, kind⟩ := Bool.or_eq_false_iff.1 hc
    exact .up scope (of_decide_eq_false kind) parent (ih uncrossed)

/-- From the outermost scope nothing else is found. -/
theorem Finds.scope_root (ht : t.Ordered) (h : t.Finds name root r) : r.scope = root := by
  cases h with
  | here => rfl
  | outer scope _ parent _ => exact absurd (ht _ _ _ scope parent) (Nat.not_lt_zero _)

theorem holds_self (h : t.get? a name = some symbol) : t.Holds a name := ⟨_, finds_self h, rfl⟩

/-- What is bound around a scope in its function is bound there. -/
theorem Holds.inner (h : t.Holds b name) (inside : t.Inside a b) : t.Holds a name := by
  induction inside with
  | refl => exact h
  | @up a p b sc scope kind parent _ ih =>
    obtain ⟨r, found, uncrossed⟩ := ih h
    cases hg : sc.get? name with
    | some symbol => exact ⟨_, .here scope hg, rfl⟩
    | none => exact ⟨_, .outer scope hg parent found, by simp [uncrossed, kind]⟩

/-! ### Going on -/

/-- Scopes are added, and names are bound in one of those that were there. -/
structure Prolongs (own : Option Nat) (t u : ScopeTable) : Prop where
  size : t.size ≤ u.size
  scopes : ∀ (i : Nat) (sc : Scope), t.scopes[i]? = some sc → ∃ sc', u.scopes[i]? = some sc' ∧ sc'.kind = sc.kind ∧
    sc'.parent = sc.parent ∧ (∀ n, sc'.get? n = none → sc.get? n = none) ∧ (own ≠ some i → sc' = sc)

theorem Prolongs.refl (own : Option Nat) (t : ScopeTable) : Prolongs own t t :=
  ⟨Nat.le_refl _, fun _ sc h => ⟨sc, h, rfl, rfl, fun _ h => h, fun _ => rfl⟩⟩

theorem Prolongs.trans (h : Prolongs own t u) (k : Prolongs own u w) : Prolongs own t w := by
  refine ⟨Nat.le_trans h.size k.size, fun i sc hs => ?_⟩
  obtain ⟨sc', hs', kind, parent, free, same⟩ := h.scopes i sc hs
  obtain ⟨sc'', hs'', kind', parent', free', same'⟩ := k.scopes i sc' hs'
  exact ⟨sc'', hs'', kind'.trans kind, parent'.trans parent, fun n hn => free n (free' n hn),
    fun ho => (same' ho).trans (same ho)⟩

theorem Prolongs.open (h : Prolongs none t u) (own : Option Nat) : Prolongs own t u := by
  refine ⟨h.size, fun i sc hs => ?_⟩
  obtain ⟨sc', hs', kind, parent, free, same⟩ := h.scopes i sc hs
  exact ⟨sc', hs', kind, parent, free, fun _ => same nofun⟩

/-- Names that are bound in a later scope are no change of those before. -/
theorem Prolongs.close (h : Prolongs (some a) t u) (later : t.size ≤ a) : Prolongs none t u := by
  refine ⟨h.size, fun i sc hs => ?_⟩
  obtain ⟨sc', hs', kind, parent, free, same⟩ := h.scopes i sc hs
  exact ⟨sc', hs', kind, parent, free, fun _ => same fun e =>
    Nat.not_lt.2 later (Option.some.inj e ▸ lt_size_of_scope hs)⟩

theorem prolongs_add (t : ScopeTable) (parent : Nat) (kind : ScopeKind) (label : String) :
    Prolongs none t (t.add parent kind label).1 :=
  ⟨by simp, fun _ sc hs => ⟨sc, (scopes_add_lt (lt_size_of_scope hs)).trans hs, rfl, rfl, fun _ h => h, fun _ => rfl⟩⟩

theorem prolongs_bind (t : ScopeTable) (a : Nat) (name : String) (symbol : Symbol) :
    Prolongs (some a) t (t.bind a name symbol) := by
  refine ⟨by simp, fun i sc hs => ?_⟩
  simp only [bind, Array.getElem?_modify]
  split
  · refine ⟨sc.bind name symbol, by simp [hs], rfl, rfl, fun n hn => ?_, fun ho => absurd (congrArg some ‹a = i›) ho⟩
    by_cases e : n = name
    · subst e
      rw [Scope.get?, Scope.bind, Scope.lookup_put] at hn
      cases hn
    · rwa [Scope.get?, Scope.bind, Scope.lookup_put_ne e] at hn
  · exact ⟨sc, hs, rfl, rfl, fun _ h => h, fun _ => rfl⟩

theorem Holds.prolong (h : t.Holds a name) (on : Prolongs own t u) : u.Holds a name := by
  obtain ⟨r, found, uncrossed⟩ := h
  induction found with
  | here scope bound =>
    obtain ⟨sc', hs', -, -, free, -⟩ := on.scopes _ _ scope
    cases hg : sc'.get? name with
    | some symbol => exact ⟨_, .here hs' hg, rfl⟩
    | none => cases bound.symm.trans (free name hg)
  | outer scope _ parent _ ih =>
    obtain ⟨sc', hs', kind, parent', -, -⟩ := on.scopes _ _ scope
    obtain ⟨uncrossed, other⟩ := Bool.or_eq_false_iff.1 uncrossed
    obtain ⟨r, found, uncrossed⟩ := ih uncrossed
    cases hg : sc'.get? name with
    | some symbol => exact ⟨_, .here hs' hg, rfl⟩
    | none => exact ⟨_, .outer hs' hg (parent'.trans parent) found, by rw [kind, uncrossed, other]; rfl⟩

/-- Around the scope in which names are bound, nothing new is found. -/
theorem Finds.before (h : u.Finds name a r) (ht : t.Ordered) (on : Prolongs own t u) (ha : a < t.size)
    (outside : ∀ i, own = some i → a < i) : t.Finds name a r := by
  have same {a : Nat} {sc : Scope} (ha : a < t.size) (outside : ∀ i, own = some i → a < i) (hs : u.scopes[a]? = some sc) :
      t.scopes[a]? = some sc := by
    obtain ⟨sc', hs', -, -, -, same⟩ := on.scopes a _ (Array.getElem?_eq_getElem ha)
    obtain rfl := Option.some.inj (hs.symm.trans hs')
    rw [same fun e => Nat.lt_irrefl a (outside a e)]
    exact Array.getElem?_eq_getElem ha
  induction h with
  | here scope bound => exact .here (same ha outside scope) bound
  | outer scope free parent _ ih =>
    have scope := same ha outside scope
    have below := ht _ _ _ scope parent
    exact .outer scope free parent (ih (Nat.lt_trans below ha) fun i e => Nat.lt_trans below (outside i e))

/-- Other names are found as if a name was not bound. -/
theorem Finds.unbind (h : (t.bind b name symbol).Finds other a r) (hn : other ≠ name) : t.Finds other a r := by
  have same {a : Nat} {sc : Scope} (hs : (t.bind b name symbol).scopes[a]? = some sc) :
      ∃ sc', t.scopes[a]? = some sc' ∧ sc'.kind = sc.kind ∧ sc'.parent = sc.parent ∧ sc'.get? other = sc.get? other := by
    simp only [bind, Array.getElem?_modify] at hs
    split at hs
    · obtain ⟨sc', hs', rfl⟩ := Option.map_eq_some_iff.1 hs
      exact ⟨sc', hs', rfl, rfl, (Scope.lookup_put_ne hn symbol sc'.symbols).symm⟩
    · exact ⟨sc, hs, rfl, rfl, rfl⟩
  induction h with
  | here scope bound =>
    obtain ⟨sc', hs', -, -, get⟩ := same scope
    exact .here hs' (get.trans bound)
  | outer scope free parent _ ih =>
    obtain ⟨sc', hs', kind, parent', get⟩ := same scope
    rw [← kind]
    exact .outer hs' (get.trans free) (parent'.trans parent) ih

end ScopeTable

end StackScript
