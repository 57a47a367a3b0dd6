import StackScript.Proofs.Adhering

/-!
Functions inside others, while modules stay regular. What a function captures is what its free names stand for around it:
variables, and what functions capture in turn. So all of it is bound where the function is declared, and all that its body
may use is in its frame or passes on nothing that is not.
-/
namespace StackScript

open FreeNames (paramNames)

/-! ### Captures -/

namespace Captures

variable {m : Module} {a : Nat} {name : String} {p : String × Ty} {ps qs : List (String × Ty)} {decl : FunctionDecl}

/-- A use of a name captures the variable that is meant, or what the function captures that is meant. -/
theorem mem_ofName (ordered : m.scopes.Ordered) : p ∈ ofName m a name ↔
    ∃ r, m.scopes.Finds name a r ∧ r.scope ≠ ScopeTable.root ∧ ((∃ t, r.symbol.ty? = some t ∧ p = (name, t)) ∨
      ∃ j g, r.symbol = .function j ∧ m.functions[j]? = some g ∧ p ∈ g.captures.zip g.signature.nonlocals) := by
  constructor
  · intro h
    unfold ofName at h
    split at h
    · cases h
    · next r hr =>
      refine ⟨r, (ScopeTable.resolve?_eq_some ordered).1 hr, ?_⟩
      split at h
      · cases h
      · next outer =>
        refine ⟨outer, ?_⟩
        split at h
        · next t symbol => exact .inl ⟨t, by rw [symbol]; rfl, List.mem_singleton.1 h⟩
        · next t symbol => exact .inl ⟨t, by rw [symbol]; rfl, List.mem_singleton.1 h⟩
        · next t symbol => exact .inl ⟨t, by rw [symbol]; rfl, List.mem_singleton.1 h⟩
        · next j symbol =>
          split at h
          · next g hg => exact .inr ⟨j, g, symbol, hg, h⟩
          · cases h
        · cases h
        · cases h
  · rintro ⟨r, found, outer, h⟩
    unfold ofName
    rw [(ScopeTable.resolve?_eq_some ordered).2 found]
    dsimp only
    rw [if_neg outer]
    rcases h with ⟨t, ht, rfl⟩ | ⟨j, g, symbol, hg, h⟩
    · cases symbol : r.symbol with
      | parameter | slot | nonlocal =>
        rw [symbol] at ht
        cases ht
        exact List.mem_singleton.2 rfl
      | function | computed | value =>
        rw [symbol] at ht
        cases ht
    · simpa only [symbol, hg] using h

/-- A name is captured once, with the type that was found first. -/
theorem mem_foldl_note {k : String} (h : k ∈ ps.map (·.1) ∨ k ∈ qs.map (·.1)) :
    k ∈ (ps.foldl (fun acc c => note c acc) qs).map (·.1) := by
  induction ps generalizing qs with
  | nil => exact h.resolve_left List.not_mem_nil
  | cons p ps ih =>
    refine @ih (note p qs) ?_
    rw [List.map_cons, List.mem_cons] at h
    unfold note
    split
    · next known =>
      rcases h with (rfl | h) | h
      · obtain ⟨q, hq, e⟩ := List.any_eq_true.1 known
        exact .inr (List.mem_map.2 ⟨q, hq, of_decide_eq_true e⟩)
      · exact .inl h
      · exact .inr h
    · rw [List.map_append, List.mem_append, List.map_singleton, List.mem_singleton]
      rcases h with (h | h) | h
      · exact .inr (.inr h)
      · exact .inl h
      · exact .inr (.inl h)

theorem mem_of_ofName (free : name ∈ decl.freeNames) (h : p ∈ ofName m a name) : p.1 ∈ (decl.captures m a).map (·.1) :=
  mem_foldl_note (.inl (List.mem_map_of_mem (List.mem_flatMap.2 ⟨name, free, h⟩)))

end Captures

namespace Module.Regular

variable {strict : Bool} {m : Module} {a : Nat} {name : String} {p : String × Ty} {decl : FunctionDecl}
  (h : m.Regular strict)
include h

theorem solid_captures (hp : p ∈ decl.captures m a) : p.2.isSolid := by
  obtain ⟨name, -, hp⟩ := Compilation.mem_captures hp
  obtain ⟨r, found, -, ⟨t, ht, rfl⟩ | ⟨j, g, -, hg, among⟩⟩ := (Captures.mem_ofName h.ordered).1 hp
  · exact h.bindings _ _ _ t found.get? ht
  · exact Ty.allSolid_iff.1 (h.nonlocals g (Array.mem_of_getElem? hg)) _ (List.of_mem_zip among).2

/-- What is captured is bound where it is captured, if all free names can be used there. -/
theorem holds_captured (strictly : strict) (served : ∀ n ∈ decl.freeNames, m.Serves a n) {k : String}
    (hk : k ∈ (decl.captures m a).map (·.1)) : m.scopes.Holds a k := by
  obtain ⟨p, hp, rfl⟩ := List.mem_map.1 hk
  obtain ⟨name, free, hp⟩ := Compilation.mem_captures hp
  obtain ⟨r, found, outer, ⟨t, ht, rfl⟩ | ⟨j, g, symbol, hg, among⟩⟩ := (Captures.mem_ofName h.ordered).1 hp
  · cases crossed : r.crossed with
    | false => exact ⟨r, found, crossed⟩
    | true =>
      obtain ⟨j, g, symbol, -⟩ := served name free r found crossed outer
      rw [symbol] at ht
      cases ht
  · obtain ⟨g', hg', -, holds⟩ := h.holds_captures strictly (served name free) found symbol
    obtain rfl := Option.some.inj (hg.symm.trans hg')
    exact holds _ (List.of_mem_zip among).1

/-- What a free name stands for is captured: a variable, or for a function whatever that one captures. -/
theorem covers (strictly : strict) (free : name ∈ decl.freeNames) {r : Lookup} (found : m.scopes.Finds name a r)
    (outer : r.scope ≠ ScopeTable.root) : (∀ t, r.symbol.ty? = some t → name ∈ (decl.captures m a).map (·.1)) ∧
      ∀ j g, r.symbol = .function j → m.functions[j]? = some g → ∀ k ∈ g.captures, k ∈ (decl.captures m a).map (·.1) := by
  refine ⟨fun t ht => ?_, fun j g symbol hg k hk => ?_⟩
  · exact Captures.mem_of_ofName (p := (name, t)) free ((Captures.mem_ofName h.ordered).2 ⟨r, found, outer, .inl ⟨t, ht, rfl⟩⟩)
  · have fits := h.fits strictly _ _ _ found.get?
    rw [symbol] at fits
    obtain ⟨g', hg', -, length, -⟩ := fits
    obtain rfl := Option.some.inj (hg.symm.trans hg')
    rw [← List.map_fst_zip length] at hk
    obtain ⟨p, hp, rfl⟩ := List.mem_map.1 hk
    exact Captures.mem_of_ofName free ((Captures.mem_ofName h.ordered).2 ⟨r, found, outer, .inr ⟨j, g, symbol, hg, hp⟩⟩)

/-- A free name of a function can be used in it, as what it stands for is captured. -/
theorem supplied (strictly : strict) {frame : List String} (captured : ∀ k ∈ (decl.captures m a).map (·.1), k ∈ frame)
    (free : name ∈ decl.freeNames) : Regime.Regular.Supplied m a frame name := by
  by_cases among : name ∈ frame
  · exact .inl among
  · refine .inr fun r found outer => ?_
    have fits := h.fits strictly _ _ _ found.get?
    obtain ⟨own, passed⟩ := h.covers strictly free found outer
    cases symbol : r.symbol with
    | parameter _ _ t | slot _ t | nonlocal _ _ t =>
      exact absurd (captured _ (own t (by rw [symbol]; rfl))) among
    | computed | value =>
      rw [symbol] at fits
      exact absurd fits outer
    | function j =>
      rw [symbol] at fits
      obtain ⟨g, hg, -⟩ := fits
      exact ⟨j, g, rfl, hg, fun k hk => captured k (passed j g symbol hg k hk)⟩

end Module.Regular

/-! ### Functions that are declared -/

/-- What a function in the body of another one is declared as, in a scope. -/
def FunctionDecl.closure (decl : FunctionDecl) (m : Module) (a : Nat) (s : Signature) : Function where
  name := if decl.header.name.isEmpty then "lambda" else decl.header.name
  signature := { s with nonlocals := (decl.captures m a).map (·.2) }
  body := if s.isGeneric then .generic decl a else .undefined
  captures := (decl.captures m a).map (·.1)

/-- A name is bound in a scope, unless it is empty. -/
structure ScopeTable.Names (t u : ScopeTable) (a : Nat) (name : String) (symbol : Symbol) : Prop where
  bound : name ≠ "" → u.get? a name = some symbol
  others : ∀ n r, name = "" ∨ n ≠ name → u.Finds n a r → t.Finds n a r

theorem ScopeTable.names_empty (t : ScopeTable) (a : Nat) (symbol : Symbol) : Names t t a "" symbol :=
  ⟨fun h => absurd rfl h, fun _ _ _ found => found⟩

theorem ScopeTable.names_bind {t : ScopeTable} {a : Nat} {name : String} (inside : a < t.size) (named : name ≠ "")
    (symbol : Symbol) : Names t (t.bind a name symbol) a name symbol :=
  ⟨fun _ => get?_bind_self (Array.getElem?_eq_getElem inside) name symbol,
    fun _ _ other found => found.unbind (other.resolve_left named)⟩

theorem Draft.names_place (make : Nat → Nat → Ty → Symbol) : ∀ (i offset : Nat) {names : List String} {ts : List Ty},
    names.length = ts.length → (place make i offset names ts).map (·.1) = names
  | _, _, [], [], _ => rfl
  | i, offset, n :: names, t :: ts, h => by
    rw [place, List.map_cons, names_place make (i + 1) (offset + t.size) (Nat.succ.inj h)]

theorem Draft.names_frameSymbols {s : Signature} {captures params : List String}
    (nonlocals : captures.length = s.nonlocals.length) (length : params.length = s.params.length) : (frameSymbols s captures params).map (·.1) = captures ++ params := by
  rw [frameSymbols, List.map_append, names_place _ _ _ nonlocals, names_place _ _ _ length]

namespace Module.Regular

variable {strict : Bool} {m : Module} {a : Nat} {name : String} {decl : FunctionDecl} {s : Signature} {u : ScopeTable}
  (h : m.Regular strict)
include h

theorem solid_closure : Ty.allSolid (decl.closure m a s).signature.nonlocals :=
  Ty.allSolid_iff.2 fun t ht => by
    obtain ⟨p, hp, rfl⟩ := List.mem_map.1 ht
    exact h.solid_captures hp

theorem fits_closure (inside : a ≠ ScopeTable.root) (strictly : strict) (served : ∀ n ∈ decl.freeNames, m.Serves a n) :
    (Symbol.function m.functions.size).Fits (m.addFunction (decl.closure m a s)).1 a := by
  refine ⟨decl.closure m a s, Array.getElem?_push_size, fun e => absurd e inside, Nat.le_of_eq ?_,
    fun k hk => h.holds_captured strictly served hk⟩
  rw [FunctionDecl.closure, List.length_map, List.length_map]

/-- Whatever the body of a function uses can be used in it: parameters, the function itself, and what it captures. -/
theorem supplied_closure (strictly : strict) (length : decl.header.params.length = s.params.length)
    (names : ScopeTable.Names m.scopes u a decl.header.name (.function m.functions.size)) {n : String} (used : decl.body.Uses n) :
    Regime.Regular.Supplied { (m.addFunction (decl.closure m a s)).1 with scopes := u } a
      (Regime.Regular.frameNames (decl.closure m a s) (paramNames decl.header)) n := by
  have frame : Regime.Regular.frameNames (decl.closure m a s) (paramNames decl.header) =
      (decl.captures m a).map (·.1) ++ paramNames decl.header := by
    refine Draft.names_frameSymbols ?_ ?_
    · rw [FunctionDecl.closure, List.length_map, List.length_map]
    · rw [paramNames, List.length_map]
      exact length
  have captured (k : String) (hk : k ∈ (decl.captures m a).map (·.1)) :
      k ∈ Regime.Regular.frameNames (decl.closure m a s) (paramNames decl.header) := frame ▸ List.mem_append_left _ hk
  by_cases param : n ∈ paramNames decl.header
  · exact .inl (frame ▸ List.mem_append_right _ param)
  · by_cases own : decl.header.name = "" ∨ n ≠ decl.header.name
    · -- other names are found as before
      refine (h.supplied strictly captured (FunctionDecl.mem_freeNames.2 ⟨used, param, own⟩)).imp_right
        fun around r found outer => ?_
      obtain ⟨j, g, symbol, hg, holds⟩ := around r (names.others n r own found) outer
      exact ⟨j, g, symbol, getElem?_push hg _, holds⟩
    · obtain ⟨named, rfl⟩ := not_or.1 own |>.imp_right Decidable.of_not_not
      refine .inr fun r found _ => ⟨m.functions.size, decl.closure m a s, ?_, Array.getElem?_push_size, captured⟩
      rw [found.unique (ScopeTable.finds_self (names.bound named))]

end Module.Regular

theorem Header.isAdmitted_spec {h : Header} {s : Signature} {strict : Bool} (admitted : h.isAdmitted strict) (strictly : strict)
    (hs : h.signature = .ok s) : s.isGeneric = false ∧ h.name ≠ "" := by
  subst strictly
  simpa [isAdmitted, isSpecific, hs] using admitted

namespace Regime.Regular

variable {strict : Bool} {c d : Compilation} {m : Module} {decl : FunctionDecl} {s : Signature}
  {body : Option Ty → Compile Ty}

/-- The name of a function is bound where it is declared. -/
theorem nameFunction {i : Nat} {name : String} {α : Type} {k : Unit → Compile α} {ok : α → Compilation → Prop}
    {bad : CompileError → Compilation → Prop} (hc : c.Regular strict)
    (hm : c.library.modules[c.draft.target.module]? = some m) (inside : c.draft.scope < m.scopes.size)
    (fits : strict → (Symbol.function i).Fits m c.draft.scope)
    (hk : ∀ u : ScopeTable, ScopeTable.Names m.scopes u c.draft.scope name (.function i) →
      let d := { c with library := c.library.put c.draft.target.module { m with scopes := u } }
      d.Regular strict → c.Prolongs d → (name ≠ "" → Sees strict d name) → Meets (k ()) d ok bad) :
    Meets (if (!name.isEmpty) = true then Compile.bindIn c.draft.target.module c.draft.scope name (.function i) >>= k else k ())
      c ok bad := by
  by_cases named : name = ""
  · subst named
    have := hk m.scopes (ScopeTable.names_empty _ _ _)
    rw [Library.put_self hm] at this
    exact this hc (.refl c) fun h => absurd rfl h
  · rw [if_pos (by simpa [String.isEmpty_iff] using named)]
    refine meets_bind.2 ((Compilation.meets_onModule hm).2 ?_)
    obtain ⟨hd, on⟩ := bound (.function i) hc hm (own_here c) name nofun fits
    exact hk _ (ScopeTable.names_bind inside named _) hd on fun _ => sees_bound hm inside name _

theorem awaits_closure (here : c.draft.scope < m.scopes.size)
    (generic : s.isGeneric → decl.body.nests (Header.isAdmitted strict) ∧ ¬ strict) :
    m.Awaits strict (decl.closure m c.draft.scope s) := fun decl' scope e => by
  change (if s.isGeneric then Body.generic decl c.draft.scope else .undefined) = _ at e
  split at e
  · next open_ =>
    cases e
    exact ⟨here, (generic open_).1, fun strictly => absurd strictly (generic open_).2⟩
  · cases e

/-- A function may be used where it is declared, as what it captures is bound there. -/
theorem callable_closure (regular : m.Regular strict) (hm : c.library.modules[c.draft.target.module]? = some m)
    (served : strict → ∀ n ∈ decl.freeNames, m.Serves c.draft.scope n) :
    let l := c.library.put c.draft.target.module (m.addFunction (decl.closure m c.draft.scope s)).1
    Callable strict { c with library := l } ⟨c.draft.target.module, m.functions.size⟩ := fun strictly => by
  let g := decl.closure m c.draft.scope s
  have hm' : (c.library.put c.draft.target.module (m.addFunction g).1).modules[c.draft.target.module]? =
      some (m.addFunction g).1 := Library.modules_put_self hm
  refine ⟨g, ?_, fun k hk => sees_of_holds hm' (regular.holds_captured strictly (served strictly) hk)⟩
  rw [Library.function?_of_module (f := ⟨c.draft.target.module, m.functions.size⟩) hm']
  exact Array.getElem?_push_size

/-- Once it is named, a function without open parameters is ready to be written. -/
theorem ready_closure {u : ScopeTable} (regular : m.Regular strict) (hd : d.Regular strict)
    (hm : d.library.modules[d.draft.target.module]? =
      some { (m.addFunction (decl.closure m d.draft.scope s)).1 with scopes := u })
    (names : ScopeTable.Names m.scopes u d.draft.scope decl.header.name (.function m.functions.size))
    (length : decl.header.params.length = s.params.length) (specific : s.isGeneric = false) :
    Ready strict d ⟨d.draft.target.module, m.functions.size⟩ (paramNames decl.header) d.draft.scope
      (fun n => decl.body.Uses n) := by
  obtain ⟨m', hm', here⟩ := hd.here
  obtain rfl := Option.some.inj (hm.symm.trans hm')
  exact ⟨_, decl.closure m d.draft.scope s, hm, Array.getElem?_push_size, here, Ty.allSolid_of_known specific,
    fun strictly n used => regular.supplied_closure strictly length names used⟩

/-- A function in the body of another one is declared, and is written unless it is generic. -/
theorem declareNested (hc : c.Regular strict) (inside : c.draft.scope ≠ ScopeTable.root) (result : s.result.IsResult)
    (length : decl.header.params.length = s.params.length)
    (generic : s.isGeneric → decl.body.nests (Header.isAdmitted strict) ∧ ¬ strict)
    (sees : strict → ∀ n ∈ decl.freeNames, Sees strict c n)
    (hbody : (Regime.regular strict).Embodies (fun n => decl.body.Uses n) body) :
    Meets (Compile.declareNested decl s body) c (fun i d => d.Regular strict ∧ c.Prolongs d ∧
      Callable strict d ⟨c.draft.target.module, i⟩ ∧ (decl.header.name ≠ "" → Sees strict d decl.header.name))
      (Spoils strict) := by
  obtain ⟨m, hm, here⟩ := hc.here
  have regular := hc.library _ m hm
  have served (strictly : strict) (n : String) (free : n ∈ decl.freeNames) := sees strictly n free strictly m hm
  refine meets_bind.2 (Compilation.meets_getDraft.2 (meets_bind.2 (Compilation.meets_getDraft.2 (meets_bind.2 (meets_bind.2
    (meets_get.2 (meets_pure.2 ?_)))))))
  rw [Library.get_eq hm]
  refine meets_bind.2 ((Compilation.meets_onModule hm).2 ?_)
  let g := decl.closure m c.draft.scope s
  obtain ⟨hc₁, on₁⟩ := added hc hm (g := g) result regular.solid_closure (awaits_closure here generic)
  have hm₁ : (c.library.put c.draft.target.module (m.addFunction g).1).modules[c.draft.target.module]? =
      some (m.addFunction g).1 := Library.modules_put_self hm
  refine nameFunction (c := { c with library := c.library.put c.draft.target.module (m.addFunction g).1 }) hc₁ hm₁ here
    (fun strictly => regular.fits_closure inside strictly (served strictly)) ?_
  intro u names d hd on₂ named
  have callable : Callable strict d ⟨c.draft.target.module, m.functions.size⟩ :=
    (callable_closure regular hm served).prolong hc₁ on₂
  change Meets (if (!s.isGeneric) = true then Compile.writeFunction ⟨c.draft.target.module, m.functions.size⟩
    (paramNames decl.header) c.draft.scope decl.header.span decl.body.span body >>= fun _ => pure m.functions.size
    else pure m.functions.size) d _ _
  split
  · next specific =>
    have ready := ready_closure regular hd (Library.modules_put_self hm₁) names length (Bool.not_eq_eq_eq_not.1 specific)
    refine (writeFunction ready hbody hd).seq fun _ e he => ?_
    obtain ⟨he, ⟨-, on₃⟩, -⟩ := he
    exact meets_pure.2 ⟨he, (on₁.trans on₂).trans on₃, callable.prolong hd on₃, fun h => (named h).prolong hd on₃⟩
  · exact meets_pure.2 ⟨hd, on₁.trans on₂, callable, named⟩

/-! ### Declarations of the module -/

/-- A function is declared and bound in the module. It may wait to be written. -/
theorem enter {g : Function} {symbol : Symbol} (pending : List (Nat × FunctionDecl)) (name : String)
    (hc : c.Regular strict) (rests : c.Resting) (hm : c.library.modules[c.module]? = some m)
    (result : g.signature.result.IsResult) (nonlocals : Ty.allSolid g.signature.nonlocals) (awaits : m.Awaits strict g) (untyped : symbol.ty? = none)
    (fits : symbol.Fits (m.addFunction g).1 ScopeTable.root)
    (waits : ∀ p ∈ pending, p ∈ c.pending ∨ p.1 = m.functions.size ∧ p.2.body.nests (Header.isAdmitted strict) ∧
      Ty.allSolid g.signature.params) :
    Meets (Compile.bindIn c.module ScopeTable.root name symbol)
      { c with library := c.library.put c.module (m.addFunction g).1, pending := pending }
      (fun _ d => (Regime.regular strict).Holds d ∧ (Regime.regular strict).Onward c d ∧ Any () d) (Spoils strict) := by
  have hm₁ : (c.library.put c.module (m.addFunction g).1).modules[c.module]? = some (m.addFunction g).1 :=
    Library.modules_put_self hm
  obtain ⟨hc₁, on₁⟩ := added hc hm result nonlocals awaits
  have listed : ({ c with library := c.library.put c.module (m.addFunction g).1, pending := pending } : Compilation).Regular
      strict := by
    refine ⟨hc₁.library, hc₁.here, hc₁.home, fun p hp => ?_⟩
    rcases waits p hp with old | ⟨index, nests, solid⟩
    · exact hc₁.pending p old
    · refine ⟨nests, g, ?_, solid⟩
      rw [Library.function?_of_module (f := ⟨c.module, p.1⟩) hm₁, index]
      exact Array.getElem?_push_size
  obtain ⟨hd, on₂⟩ := bound symbol listed hm₁ (own_eq_some.2 ⟨rests.target.symm, rests.scope⟩) name
    (fun t ht => by rw [untyped] at ht; cases ht) fun _ => fits
  exact (Compilation.meets_onModule hm₁).2 ⟨hd, ⟨hc, ⟨on₂.draft, on₂.module, on₁.library.trans (on₁.own ▸ on₂.library)⟩⟩, trivial⟩

theorem fits_function {g : Function} (captures : g.captures = []) :
    (Symbol.function m.functions.size).Fits (m.addFunction g).1 ScopeTable.root := by
  refine ⟨g, Array.getElem?_push_size, fun _ => captures, ?_, fun k hk => ?_⟩
  · rw [captures]
    exact Nat.zero_le _
  · rw [captures] at hk
    cases hk

theorem declareFunction (rests : c.Resting) (nests : decl.body.nests (Header.isAdmitted strict)) :
    (Regime.regular strict).Keeps c (Compile.declareFunction decl) Any := by
  refine Keeps.get (Keeps.lift (basic strict) (.signature _) fun s hs hc => ?_)
  obtain ⟨m, hm⟩ := hc.home
  have regular := hc.library _ m hm
  obtain ⟨declares, -⟩ := Header.signature_spec hs
  have result : s.result.IsResult := (Signature.known_effectiveResult.1 declares.result).imp_right Ty.isSolid_of_known
  have nonlocals : Ty.allSolid s.nonlocals := by
    rw [declares.nonlocals]
    rfl
  let g : Function := {
    name := decl.header.name
    signature := s
    body := if s.isGeneric then .generic decl ScopeTable.root else .undefined }
  have awaits : m.Awaits strict g := fun decl' scope e => by
    change (if s.isGeneric then Body.generic decl ScopeTable.root else .undefined) = _ at e
    split at e
    · cases e
      exact ⟨regular.root, nests, fun _ => ⟨rfl, rfl⟩⟩
    · cases e
  have entered (pending : List (Nat × FunctionDecl)) := enter (g := g) pending decl.header.name hc rests hm result nonlocals
    awaits rfl (fits_function rfl)
  refine meets_bind.2 ((Compilation.meets_onModule hm).2 ?_)
  let named := Compile.bindIn c.module ScopeTable.root decl.header.name (.function m.functions.size)
  change Meets (if (!s.isGeneric) = true then
      (modify fun c : Compilation => { c with pending := c.pending ++ [(m.functions.size, decl)] }) >>= fun _ => named else named)
    { c with library := c.library.put c.module (m.addFunction g).1 } _ _
  split
  · next specific =>
    refine meets_bind.2 (meets_modify.2 (entered _ fun p hp => (List.mem_append.1 hp).imp_right fun hp => ?_))
    rw [List.mem_singleton.1 hp]
    exact ⟨rfl, nests, Ty.allSolid_of_known (Bool.not_eq_eq_eq_not.1 specific)⟩
  · exact entered c.pending fun p hp => .inl hp

theorem declareComputed {name : String} {written : Option TypeExpr} {init : Expr} {span : Span} (rests : c.Resting)
    (nests : init.nests (Header.isAdmitted strict)) :
    (Regime.regular strict).Keeps c (Compile.declareComputed name written init span) Any := by
  refine Keeps.get (Keeps.lift (basic strict) (.resolve? _) fun t ht hc => ?_)
  obtain ⟨m, hm⟩ := hc.home
  refine meets_bind.2 ((Compilation.meets_onModule hm).2 (meets_bind.2 (meets_modify.2 ?_)))
  refine enter (g := { name := name, signature := { result := t } }) _ name hc rests hm
    ((Header.known_resolve? ht).imp_right Ty.isSolid_of_known) rfl (Module.awaits_of_body rfl rfl) rfl rfl
    fun p hp => (List.mem_append.1 hp).imp_right fun hp => ?_
  rw [List.mem_singleton.1 hp]
  exact ⟨rfl, nests, rfl⟩

theorem declareStatic (rests : c.Resting) (name : String) (i : Nat) :
    (Regime.regular strict).Keeps c (Compile.bindIn c.module ScopeTable.root name (.value i)) Any := fun hc => by
  obtain ⟨m, hm⟩ := hc.home
  obtain ⟨hd, on⟩ := bound (.value i) hc hm (own_eq_some.2 ⟨rests.target.symm, rests.scope⟩) name nofun fun _ => rfl
  exact (Compilation.meets_onModule hm).2 ⟨hd, ⟨hc, on⟩, trivial⟩

theorem addMain : (Regime.regular strict).Keeps c (Compile.addFunction c.module { name := "main", signature := {} })
    fun i d => Ready strict d ⟨c.module, i⟩ [] ScopeTable.root fun _ => True := fun hc => by
  obtain ⟨m, hm⟩ := hc.home
  have regular := hc.library _ m hm
  obtain ⟨hd, on⟩ := added hc hm (g := { name := "main", signature := {} }) (.inl rfl) rfl (Module.awaits_of_body rfl rfl)
  have hm' : (c.library.put c.module (m.addFunction { name := "main", signature := {} }).1).modules[c.module]? = some _ :=
    Library.modules_put_self hm
  refine (Compilation.meets_onModule hm).2 ⟨hd, ⟨hc, on⟩, _, _, hm', Array.getElem?_push_size, regular.root, rfl, fun _ n _ => ?_⟩
  exact supplied_root (hd.library _ _ hm') _ n

/-- Modules stay regular while programs are compiled. -/
theorem lawful (strict : Bool) : (Regime.regular strict).Lawful where
  toBasic := basic strict
  slot _ name offset _ inside ht := slot inside ht name offset
  block _ _ _ _ _ hx := block hx
  call _ f span := Keeps.emitCall (basic strict) importVisible spoiled fragment f span
  forward c f g g' span _ hg captures nonlocals result adds hc := by
    obtain ⟨m, -, -, regular, among⟩ := hc.library.function hg
    refine Keeps.forward (basic strict) adds ((Keeps.forwardingBody (basic strict) importVisible spoiled f span).imp fun body d hd => ?_) hc
    refine addFunction hd ?_ (nonlocals ▸ regular.nonlocals g among) _
    exact result.elim (fun e => e ▸ regular.results g among) .inr
  function _ _ _ _ _ _ _ _ ready hbody := writeFunction ready hbody
  pending c i decl hc waiting := by
    obtain ⟨hd, on, nests, ready⟩ := pending hc waiting
    exact ⟨hd, ⟨hc, on⟩, nests, ready⟩
  generic _ _ _ _ _ hw _ known := (instantiate hw known).imp fun _ _ h => h.1
  declared c decl s body hs admitted nests reads hbody hc := by
    obtain ⟨declares, length⟩ := Header.signature_spec hs
    have admits (strictly : strict) := Header.isAdmitted_spec admitted strictly hs
    refine (declareNested hc reads.inside ((Signature.known_effectiveResult.1 declares.result).imp_right Ty.isSolid_of_known)
      length.symm (fun open_ => ⟨nests, fun strictly => ?_⟩) (fun strictly n free => ?_) hbody).imp (fun i d hd => ?_)
      fun _ _ h => h
    · rw [(admits strictly).1] at open_
      cases open_
    · obtain ⟨-, -, other⟩ := FunctionDecl.mem_freeNames.1 free
      exact reads.sees n ⟨free, other.resolve_left (admits strictly).2⟩
    · exact ⟨hd.1, ⟨hc, hd.2.1⟩, fun strictly => hd.2.2.2 (admits strictly).2 strictly⟩
  lambda c decl s body specific result length reads hbody hc := by
    refine (declareNested hc reads.inside result length.symm (fun open_ => ?_) (fun _ n free => reads.sees n free) hbody).imp
      (fun i d hd => ⟨hd.1, ⟨hc, hd.2.1⟩, hd.2.2.1⟩) fun _ _ h => h
    rw [specific] at open_
    cases open_
  global _ _ rests nests _ := declareFunction rests nests
  computed _ _ _ _ _ rests nests _ := declareComputed rests nests
  static _ name i rests _ := declareStatic rests name i
  main _ := addMain

end Regime.Regular

end StackScript
