import StackScript.Proofs.Assembly
import StackScript.Proofs.Growing

/-!
Imports that are called. A module imports another one when code of it is to call a function there. So whatever is imported
besides is called in code that is installed, or in a draft.
-/
namespace StackScript

/-! ### Code that calls through an import -/

namespace Code

/-- An instruction calls a function of the import of that number. -/
def CallsImport (bytes : Array UInt8) (i : Nat) : Prop :=
  ∃ a ∈ addressesFrom bytes bytes.size 0, ∃ y, Instruction.read bytes a (bytes.getD a 0) = .ofOpcode .call i y

/-- Code under construction of which one instruction does. -/
def Draws (c : Code) (i : Nat) : Prop := ∃ is, Consists is c ∧ ∃ it ∈ is, it.op = .call ∧ it.first = i

variable {c d : Code} {is : List Item} {it : Item} {i : Nat} {bytes : Array UInt8}

theorem Draws.continues (h : c.Draws i) (on : c.Continues d) : d.Draws i := by
  obtain ⟨is, hc, it, among, called⟩ := h
  obtain ⟨new, hd⟩ := on is hc
  exact ⟨is ++ new, hd, it, List.mem_append_left _ among, called⟩

theorem draws_call (hc : Consists is c) (a b : UInt8) : (((c.opcode .call).byte a).byte b).Draws a.toNat :=
  ⟨_, hc.opcode2 rfl trivial, _, List.mem_append_right _ (.head _), rfl, rfl⟩

theorem Assembles.callsImport {ok : Opcode → Nat → Nat → Prop} (h : Assembles ok is bytes) (among : it ∈ is)
    (call : it.op = .call) : CallsImport bytes it.first := by
  obtain ⟨k, hk⟩ := List.mem_iff_getElem?.1 among
  refine ⟨offset is k, (mem_addressesFrom h.bytes).2 ⟨k, (List.getElem?_eq_some_iff.1 hk).1, rfl⟩, it.second, ?_⟩
  rw [read_assemble h.bytes hk, call]

/-- What is drawn on is called when the code is installed. -/
theorem Draws.resolved (h : c.Draws i) (hr : c.resolve = (d, none)) : CallsImport d.bytes i := by
  obtain ⟨is, hc, it, among, call, rfl⟩ := h
  obtain ⟨is', hd, kept⟩ := hc.resolved (fun _ _ _ => trivial) hr
  exact hd.callsImport (kept it among (by rw [call]; rfl)) call

theorem callsImport_call (a b : UInt8) : CallsImport #[Opcode.call.toByte, a, b] a.toNat := by
  have whole : Assembles (fun _ _ _ => True) [⟨.call, [a, b], rfl⟩] #[Opcode.call.toByte, a, b] :=
    ⟨rfl, fun _ _ => trivial, fun k it hit hj => by
      obtain rfl := List.mem_singleton.1 (List.mem_of_getElem? hit)
      cases hj⟩
  exact whole.callsImport (.head _) rfl

end Code

namespace Module

/-- Code that is installed in the module calls through an import. -/
def Employs (m : Module) (i : Nat) : Prop := ∃ g ∈ m.functions, ∃ bytes, g.body = .code bytes ∧ Code.CallsImport bytes i

/-- A module goes on with its imports and its code. What it imports besides is called, or its call is owed. -/
structure Recruits (m n : Module) (owed : Nat → Prop) : Prop where
  imports : ∀ i id : Nat, m.imports[i]? = some id → n.imports[i]? = some id
  distinct : m.imports.toList.Nodup → n.imports.toList.Nodup
  employs : ∀ i, m.Employs i → n.Employs i
  recruits : ∀ i, i ≠ 0 → m.imports.size ≤ i → i < n.imports.size → n.Employs i ∨ owed i
  fragments : ∀ g ∈ n.functions, g ∈ m.functions ∨ ∀ op, g.body ≠ .fragment op

/-- What is still to be written stays so. -/
structure Carries (m n : Module) (owed : Nat → Prop) : Prop extends m.Recruits n owed where
  undefined : ∀ (i : Nat) (g : Function), m.functions[i]? = some g → g.body = .undefined →
    ∃ g', n.functions[i]? = some g' ∧ g'.body = .undefined

variable {m n p : Module} {g : Function} {i j id : Nat} {owed owed' : Nat → Prop}

theorem Employs.of_eq (h : m.Employs i) (functions : n.functions = m.functions) : n.Employs i := by
  unfold Employs
  rwa [functions]

/-- What is owed may be paid on the way. -/
theorem Recruits.trans (h : m.Recruits n owed) (k : n.Recruits p owed') (pays : ∀ i, i ≠ 0 → owed i → p.Employs i ∨ owed' i) :
    m.Recruits p owed' := by
  refine ⟨fun i id hi => k.imports i id (h.imports i id hi), fun hm => k.distinct (h.distinct hm),
    fun i hi => k.employs i (h.employs i hi), fun i hi old new => ?_, fun g hg => ?_⟩
  · by_cases inside : i < n.imports.size
    · exact (h.recruits i hi old inside).elim (fun called => .inl (k.employs i called)) (pays i hi)
    · exact k.recruits i hi (Nat.not_lt.1 inside) new
  · exact (k.fragments g hg).elim (h.fragments g) .inr

theorem recruits_of_eq (imports : n.imports = m.imports) (functions : n.functions = m.functions) : m.Recruits n owed :=
  ⟨fun _ _ h => imports ▸ h, fun h => imports ▸ h, fun _ h => h.of_eq functions,
    fun _ _ old new => absurd (imports ▸ new) (Nat.not_lt.2 old), fun _ hg => .inl (functions ▸ hg)⟩

theorem carries_of_eq (imports : n.imports = m.imports) (functions : n.functions = m.functions) : m.Carries n owed :=
  ⟨recruits_of_eq imports functions, fun _ g hg hb => ⟨g, functions ▸ hg, hb⟩⟩

theorem Recruits.refl (m : Module) : m.Recruits m owed := recruits_of_eq rfl rfl

theorem Recruits.imp (h : m.Recruits n owed) (sub : ∀ i, i ≠ 0 → owed i → owed' i) : m.Recruits n owed' :=
  h.trans (.refl n) fun i hi owes => .inr (sub i hi owes)

theorem Carries.imp (h : m.Carries n owed) (sub : ∀ i, i ≠ 0 → owed i → owed' i) : m.Carries n owed' :=
  ⟨h.toRecruits.imp sub, h.undefined⟩

theorem recruits_addFunction (m : Module) (hg : ∀ op, g.body ≠ .fragment op) : m.Recruits (m.addFunction g).1 owed := by
  refine ⟨fun _ _ h => h, fun h => h, fun i hi => ?_, fun i _ old new => absurd new (Nat.not_lt.2 old), fun f hf => ?_⟩
  · obtain ⟨f, among, called⟩ := hi
    exact ⟨f, Array.mem_push_of_mem _ among, called⟩
  · exact (Array.mem_push.1 hf).imp_right (by rintro rfl; exact hg)

/-- Calls that are owed may be written in functions that are added. -/
theorem Carries.addFunction (h : m.Carries n owed) (hg : ∀ op, g.body ≠ .fragment op)
    (pays : ∀ i, owed i → (n.addFunction g).1.Employs i ∨ owed' i) : m.Carries (n.addFunction g).1 owed' := by
  refine ⟨h.toRecruits.trans (n.recruits_addFunction hg) fun i _ => pays i, fun i f hf hb => ?_⟩
  obtain ⟨f', hf', hb'⟩ := h.undefined i f hf hb
  exact ⟨f', Module.getElem?_push hf' g, hb'⟩

theorem carries_addFunction (m : Module) (hg : ∀ op, g.body ≠ .fragment op) : m.Carries (m.addFunction g).1 owed :=
  (carries_of_eq rfl rfl : m.Carries m fun _ => False).addFunction hg nofun

theorem employs_addFunction (m : Module) {bytes : Array UInt8} (hb : g.body = .code bytes) (called : Code.CallsImport bytes i) :
    (m.addFunction g).1.Employs i := ⟨g, Array.mem_push_self, bytes, hb, called⟩

/-- A module that is imported for a call is called by the number that it then has. -/
theorem carries_importVisible (m : Module) (id : Nat) :
    m.Carries (m.importVisible id).1 fun i => (m.importVisible id).2 = some i := by
  unfold importVisible
  cases hi : m.importIndex? id with
  | some i => exact carries_of_eq rfl rfl
  | none =>
    dsimp only
    split
    · refine ⟨⟨fun i j hj => Module.getElem?_push hj id, fun distinct => ?_, fun _ h => h, fun i _ old new => .inr ?_,
        fun _ hg => .inl hg⟩, fun _ g hg hb => ⟨g, hg, hb⟩⟩
      · change (m.imports.push id).toList.Nodup
        rw [Array.toList_push]
        refine List.nodup_append.2 ⟨distinct, List.nodup_cons.2 ⟨List.not_mem_nil, List.nodup_nil⟩, fun a ha b hb e => ?_⟩
        obtain rfl := List.mem_singleton.1 hb
        -- it is added only when no import was found to be it
        have other := Array.findIdx?_eq_none_iff.1 hi a (Array.mem_toList_iff.1 ha)
        simp [e] at other
      · change i < (m.imports.push id).size at new
        rw [Array.size_push] at new
        exact congrArg some (Nat.le_antisymm old (Nat.le_of_lt_succ new))
    · exact carries_of_eq rfl rfl

/-- Code is installed where a function is still to be written. -/
theorem recruits_setFunction {f : Function} (hf : m.functions[j]? = some f) (hb : f.body = .undefined)
    (hg : ∀ op, g.body ≠ .fragment op) : m.Recruits (m.setFunction j g) owed := by
  refine ⟨fun _ _ h => h, fun h => h, fun i hi => ?_, fun i _ old new => absurd new (Nat.not_lt.2 old), fun h hh => ?_⟩
  · obtain ⟨g', among, bytes, body, called⟩ := hi
    obtain ⟨k, hk⟩ := Array.mem_iff_getElem?.1 among
    refine ⟨g', Array.mem_of_getElem? (i := k) ?_, bytes, body, called⟩
    change (m.functions.setIfInBounds j g)[k]? = _
    rw [Array.getElem?_setIfInBounds_ne, hk]
    -- code that is called through is not replaced, since what is replaced has none
    rintro rfl
    obtain rfl := Option.some.inj (hf.symm.trans hk)
    rw [hb] at body
    cases body
  · exact (Array.mem_or_eq_of_mem_setIfInBounds hh).imp_right (by rintro rfl; exact hg)

theorem employs_setFunction {bytes : Array UInt8} (hj : j < m.functions.size) (hb : g.body = .code bytes)
    (called : Code.CallsImport bytes i) : (m.setFunction j g).Employs i :=
  ⟨g, Array.mem_of_getElem? (Array.getElem?_setIfInBounds_self_of_lt hj), bytes, hb, called⟩

end Module

namespace Library

variable {l : Library} {id : Nat} {m n : Module} {f : FunctionRef}

theorem get_put (hm : l.modules[id]? = some m) (j : Nat) : (l.put id n).get j = if j = id then n else l.get j := by
  split
  · next e => rw [e, get_put_self hm]
  · next e => exact get_put_ne (Ne.symm e)

theorem Undefined.carries {owed : Nat → Prop} (h : l.Undefined f) (hm : l.modules[id]? = some m) (carries : m.Carries n owed) :
    (l.put id n).Undefined f := by
  obtain ⟨g, hg, hb⟩ := h
  by_cases e : id = f.module
  · subst e
    rw [function?_of_module hm] at hg
    obtain ⟨g', hg', hb'⟩ := carries.undefined _ g hg hb
    exact ⟨g', (function?_of_module (modules_put_self hm)).trans hg', hb'⟩
  · exact ⟨g, (function?_put_ne e).trans hg, hb⟩

/-- What is written out in place has no operands. -/
def Inlines (l : Library) : Prop := ∀ id, ∀ g ∈ (l.get id).functions, ∀ op, g.body = .fragment op → op.arity = 0

/-- One module goes on, and the others stay. -/
theorem recruits_put {owed owed' : Nat → Prop} (hm : l.modules[id]? = some m) (h : m.Recruits n owed) (j : Nat)
    (owes : ∀ i, i ≠ 0 → j = id → owed i → owed' i) : (l.get j).Recruits ((l.put id n).get j) owed' := by
  rw [get_put hm]
  split
  · next e =>
    rw [e, get_eq hm]
    exact h.imp fun i hi => owes i hi e
  · exact .refl _

/-- No other function is written. -/
theorem Undefined.setFunction {r : FunctionRef} (h : l.Undefined f) (hm : l.modules[r.module]? = some m) (other : f ≠ r)
    (g : Function) : (l.put r.module (m.setFunction r.index g)).Undefined f := by
  obtain ⟨g', hg, hb⟩ := h
  by_cases e : r.module = f.module
  · rw [e] at hm ⊢
    refine ⟨g', (function?_of_module (modules_put_self hm)).trans ?_, hb⟩
    rw [function?_of_module hm] at hg
    change (m.functions.setIfInBounds r.index g)[f.index]? = _
    rwa [Array.getElem?_setIfInBounds_ne]
    intro same
    obtain ⟨module, index⟩ := f
    obtain ⟨module', index'⟩ := r
    obtain rfl : module' = module := e
    obtain rfl : index' = index := same
    exact other rfl
  · exact ⟨g', (function?_put_ne e).trans hg, hb⟩

end Library

/-! ### Compilations -/

namespace Compilation

/-- An import of a module is called through in the draft. -/
def Draws (c : Compilation) (id i : Nat) : Prop := id = c.draft.target.module ∧ c.draft.code.Draws i

/-- The same function is written on, and what is imported besides is called. -/
structure Recruits (c d : Compilation) : Prop where
  target : d.draft.target = c.draft.target
  module : d.module = c.module
  unfinished : d.unfinished = c.unfinished
  count : d.library.modules.size = c.library.modules.size
  code : c.draft.code.Continues d.draft.code
  modules : ∀ id, (c.library.get id).Recruits (d.library.get id) (d.Draws id)

/-- An import of a module is called through in the draft, or may be in one that waits. The module that receives the program
is left out of account. -/
def Owes (k : Nat) (c : Compilation) (id i : Nat) : Prop :=
  id = k ∨ c.Draws id i ∨ ∃ f ∈ c.unfinished, f.module = id ∧ f ≠ c.draft.target

/-- Against the library that the compilation of a module starts from: what other modules import besides is called, or its
call is owed. -/
structure Staffed (l : Library) (k : Nat) (c : Compilation) : Prop where
  module : c.module = k
  home : k < c.library.modules.size
  here : c.draft.target.module < c.library.modules.size
  whole : ∃ is, Code.Consists is c.draft.code
  begun : c.draft.target.module = k ∨ c.draft.target ∈ c.unfinished
  unfinished : ∀ f ∈ c.unfinished, c.library.Undefined f
  pending : ∀ p ∈ c.pending, c.library.Undefined ⟨k, p.1⟩ ∧ ⟨k, p.1⟩ ∉ c.unfinished
  modules : ∀ id, (l.get id).Recruits (c.library.get id) (c.Owes k id)

/-- A function is still to be written, and neither begun nor due. -/
structure Unbegun (k : Nat) (c : Compilation) (f : FunctionRef) : Prop where
  undefined : c.library.Undefined f
  unbegun : f ∉ c.unfinished
  undue : ∀ p ∈ c.pending, (⟨k, p.1⟩ : FunctionRef) ≠ f

/-- The receiving module, or one in which a function is left unwritten. -/
def Unsettled (k : Nat) (c : Compilation) (id : Nat) : Prop := id = k ∨ ∃ f, f.module = id ∧ c.library.Undefined f

/-- After a failure the call may be missing where a function is left unwritten. -/
def Deserted (l : Library) (k : Nat) (c : Compilation) : Prop :=
  ∀ id, (l.get id).Recruits (c.library.get id) fun _ => c.Unsettled k id

variable {l : Library} {k id i : Nat} {c d e : Compilation} {m n : Module} {f : FunctionRef}

theorem Draws.recruits (h : c.Draws id i) (on : c.Recruits d) : d.Draws id i := ⟨on.target ▸ h.1, h.2.continues on.code⟩

theorem Recruits.refl (c : Compilation) : c.Recruits c := ⟨rfl, rfl, rfl, rfl, .refl _, fun _ => .refl _⟩

theorem Recruits.trans (h : c.Recruits d) (g : d.Recruits e) : c.Recruits e :=
  ⟨g.target.trans h.target, g.module.trans h.module, g.unfinished.trans h.unfinished, g.count.trans h.count,
    h.code.trans g.code, fun id => (h.modules id).trans (g.modules id) fun _ _ draws => .inr (draws.recruits g)⟩

theorem Staffed.drafting (h : c.Staffed l k) : ∃ m, c.library.modules[c.draft.target.module]? = some m :=
  ⟨_, Array.getElem?_eq_getElem h.here⟩

theorem Staffed.unsettled (h : c.Staffed l k) : c.Unsettled k c.draft.target.module :=
  h.begun.imp_right fun begun => ⟨_, rfl, h.unfinished _ begun⟩

theorem Staffed.deserted (h : c.Staffed l k) : c.Deserted l k := fun id => (h.modules id).imp fun i _ owes => by
  rcases owes with receives | ⟨rfl, -⟩ | ⟨f, begun, waits, -⟩
  · exact .inl receives
  · exact h.unsettled
  · exact .inr ⟨f, waits, h.unfinished f begun⟩

/-- What is imported on the way is called, so it is enough that nothing else is disturbed. -/
theorem Staffed.onward (h : c.Staffed l k) (on : c.Recruits d) (unfinished : ∀ f ∈ d.unfinished, d.library.Undefined f)
    (pending : ∀ p ∈ d.pending, d.library.Undefined ⟨k, p.1⟩ ∧ ⟨k, p.1⟩ ∉ d.unfinished) : d.Staffed l k := by
  refine ⟨on.module.trans h.module, on.count ▸ h.home, ?_, ?_, ?_, unfinished, pending, fun id => (h.modules id).trans
    ((on.modules id).imp fun i _ draws => (.inr (.inl draws) : d.Owes k id i)) fun i _ owes => .inr ?_⟩
  · rw [on.target, on.count]
    exact h.here
  · obtain ⟨is, hc⟩ := h.whole
    obtain ⟨new, hd⟩ := on.code is hc
    exact ⟨is ++ new, hd⟩
  · rw [on.target, on.unfinished]
    exact h.begun
  · refine owes.imp_right (.imp (·.recruits on) fun waits => ?_)
    rwa [on.unfinished, on.target]

/-- A module is changed that goes on as before, and its calls that are owed are written in the draft. -/
theorem Staffed.put {owed : Nat → Prop} (h : c.Staffed l k) (hm : c.library.modules[id]? = some m) (carries : m.Carries n owed)
    (draft : Draft) (target : draft.target = c.draft.target) (code : c.draft.code.Continues draft.code)
    (pays : ∀ i, owed i → id = c.draft.target.module ∧ draft.code.Draws i) :
    ({ c with library := c.library.put id n, draft := draft } : Compilation).Staffed l k ∧
      c.Recruits { c with library := c.library.put id n, draft := draft } := by
  have on : c.Recruits { c with library := c.library.put id n, draft := draft } :=
    ⟨target, rfl, rfl, Library.size_put, code, fun j => Library.recruits_put hm carries.toRecruits j fun i _ e owes =>
      ⟨e.trans ((pays i owes).1.trans (congrArg FunctionRef.module target.symm)), (pays i owes).2⟩⟩
  exact ⟨h.onward on (fun f hf => (h.unfinished f hf).carries hm carries)
    fun p hp => ⟨(h.pending p hp).1.carries hm carries, (h.pending p hp).2⟩, on⟩

/-- A module is changed after a failure, or for a call that one then prevents. -/
theorem Deserted.put {owed : Nat → Prop} (h : c.Deserted l k) (hm : c.library.modules[id]? = some m)
    (carries : m.Carries n owed) (left : ∀ i, owed i → c.Unsettled k id) :
    ({ c with library := c.library.put id n } : Compilation).Deserted l k := by
  have stays {j : Nat} (unsettled : c.Unsettled k j) : ({ c with library := c.library.put id n } : Compilation).Unsettled k j :=
    unsettled.imp_right fun ⟨f, hf, undefined⟩ => ⟨f, hf, undefined.carries hm carries⟩
  exact fun j => (h j).trans (Library.recruits_put hm carries.toRecruits j fun i _ e owes => e ▸ stays (left i owes))
    fun _ _ unsettled => .inr (stays unsettled)

end Compilation

end StackScript
