import StackScript.Proofs.Calling
import StackScript.Proofs.Widens

/-!
Names in code. A name that resolves stands for a variable that lies on the stack, or for something of a module that
the code can refer to.
-/
namespace StackScript

namespace Compilation

variable {o : Surroundings} {c d e : Compilation} {s u : Shape} {span : Span} {t : Ty} {name : String}
  {m : Module} {id : Nat}

/-- A module that the code of the draft may refer to. -/
structure Reachable (c : Compilation) (id : Nat) : Prop where
  below : id ≤ c.draft.target.module
  alive : (c.library.get id).alive

/-- What a meaning promises where the stack has a shape. -/
def Means (c : Compilation) (s : Shape) (name : String) : Meaning → Prop
  | .stored op offset t => name ≠ Plain.reserved ∧ t.Known ∧ ∃ top below, s = top ++ Shape.ofTy t ++ below ∧
      (op = .copyVariable ∧ below.size = c.draft.frame + offset ∨
        op = .copyArgument ∧ below.size + (offset + t.size) = c.draft.frame)
  | .function f => c.Reachable f.module ∧ ∃ g, c.library.function? f = some g ∧ g.signature.bound = [] ∧
      (g.body = .native .listLength ↔ name = Plain.reserved)
  | .computed f => name ≠ Plain.reserved ∧ c.Reachable f.module ∧ ∃ g, c.library.function? f = some g ∧
      Draft.frameTypes g.signature = [] ∧ g.body.isGeneric = false ∧ g.body ≠ .native .listLength
  | .value id _ => name ≠ Plain.reserved ∧ c.Reachable id

theorem means_global {symbol : Symbol} {meaning : Meaning} (hm : c.library.modules[id]? = some m)
    (hr : c.Reachable id) (hb : m.Binds name symbol) (h : Meaning.ofGlobal? id symbol = some meaning) :
    c.Means s name meaning := by
  have hfun (i : Nat) : c.library.function? ⟨id, i⟩ = m.functions[i]? := Library.function?_of_module hm
  cases symbol with
  | function i =>
    cases h
    obtain ⟨g, hg, h⟩ := hb
    exact ⟨hr, g, (hfun i).trans hg, h⟩
  | computed i =>
    cases h
    obtain ⟨hn, g, hg, h⟩ := hb
    exact ⟨hn, hr, g, (hfun i).trans hg, h⟩
  | value i =>
    cases h
    exact ⟨hb, hr⟩
  | _ => cases h

theorem Ready.reachable (hc : c.Ready o) : c.Reachable c.draft.target.module := ⟨Nat.le_refl _, hc.alive⟩

theorem Ready.module_of_lt (hc : c.Ready o) (h : id ≤ c.draft.target.module) : ∃ m, c.library.modules[id]? = some m := by
  obtain ⟨n, hn, -⟩ := hc.here
  have := (Array.getElem?_eq_some_iff.1 hn).1
  exact ⟨_, Array.getElem?_eq_getElem (Nat.lt_of_le_of_lt h this)⟩

theorem Ready.references (hc : c.Ready o)
    (h : id ∈ Library.references (c.library.get c.draft.target.module)) : c.Reachable id := by
  obtain ⟨m, hm, -⟩ := hc.here
  rw [Library.get_eq hm] at h
  obtain ⟨hlt, ha⟩ := (hc.houses hm).references id h
  exact ⟨Nat.le_of_lt hlt, ha⟩

theorem Ready.resolve {meaning : Meaning} (hc : c.Ready o) (hs : c.Sees s)
    (h : c.draft.resolve c.library name span = .ok meaning) : c.Means s name meaning := by
  obtain ⟨m, hm, ha⟩ := hc.here
  have houses := hc.houses hm
  have placed := hs.placed
  simp only [Draft.resolve, Library.get_eq hm] at h placed
  split at h
  · next found hfound =>
    have hget := ScopeTable.resolve?_get hfound
    have hb := houses.sane.binds _ _ _ hget
    unfold Meaning.ofLookup at h
    split at h
    · next meaning' hg =>
      cases h
      exact means_global hm hc.reachable hb hg
    · split at h
      · cases h
      · next hcross =>
        have hin := ScopeTable.resolve?_inside hfound (by simpa using hcross)
        have hplace := placed _ _ _ hin hget
        split at h
        · next offset t hsym =>
          cases h
          rw [hsym] at hb hplace
          obtain ⟨top, below, e, hbelow⟩ := hplace
          exact ⟨hb.2, hb.1, top, below, e, .inl ⟨rfl, hbelow⟩⟩
        · next i offset t hsym =>
          cases h
          rw [hsym] at hb hplace
          obtain ⟨top, below, e, hbelow⟩ := hplace
          exact ⟨hb.2, hb.1, top, below, e, .inr ⟨rfl, hbelow⟩⟩
        · next i offset t hsym =>
          cases h
          rw [hsym] at hb hplace
          obtain ⟨top, below, e, hbelow⟩ := hplace
          exact ⟨hb.2, hb.1, top, below, e, .inr ⟨rfl, hbelow⟩⟩
        · cases h
  · split at h
    · next meaning' hfind =>
      cases h
      obtain ⟨id, hid, hid'⟩ := List.exists_of_findSome?_eq_some hfind
      obtain ⟨symbol, hlook, hg⟩ := Option.bind_eq_some_iff.1 hid'
      have hreach : c.Reachable id := hc.references (by
        rw [Library.get_eq hm]
        simp only [Module.surroundings, List.mem_append, List.mem_reverse] at hid
        exact List.mem_append.2 hid.symm)
      obtain ⟨n, hn⟩ := hc.module_of_lt hreach.below
      rw [Library.get_eq hn] at hlook
      have hb := (hc.good.consistent.houses hn hreach.alive).sane.binds _ _ _ hlook
      exact means_global hn hreach hb hg
    · cases h

theorem meets_lift {α : Type} {r : Except CompileError α} {ok : α → Compilation → Prop} (hc : c.Failed o)
    (hok : ∀ a, r = .ok a → ok a c) : Meets (Compile.lift r) c ok fun _ => Failed o :=
  meets_lifted hok fun _ => hc

theorem Ready.meets_resolve {ok : Meaning → Compilation → Prop} (hc : c.Ready o) (hs : c.Sees s)
    (hok : ∀ meaning, c.Means s name meaning → ok meaning c) :
    Meets (Compile.resolve name span) c ok fun _ => Failed o := by
  refine meets_bind.2 (meets_get.2 (meets_lift hc.failed fun meaning h => hok meaning ?_))
  exact hc.resolve hs h

/-! ### Variables and values -/

/-- A copy of a variable with references of its own. -/
theorem Ready.pushStored {op : Opcode} {offset : Nat} (hc : c.Ready o) (h : c.Means s name (.stored op offset t)) :
    Meets (do
      if 0 < t.size then
        Compile.emit2 op offset t.size span
        Compile.retain t span
      return t) c (fun r d => r.Known ∧ c.Reaches o (fun _ => none) d s (Shape.ofTy r ++ s)) fun _ => Failed o := by
  obtain ⟨-, hk, top, below, rfl, hop⟩ := h
  split
  · have copies : Meets (Compile.emit2 op offset t.size span) c (fun _ d => c.Emits o d (top ++ Shape.ofTy t ++ below)
        ((Shape.ofTy t).map Slot.lend ++ (top ++ Shape.ofTy t ++ below))) fun _ => Failed o := by
      rcases hop with ⟨rfl, hb⟩ | ⟨rfl, hb⟩
      · exact hc.emit2 rfl fun w _ => .copyVariable hb (Shape.size_ofTy t) (Shape.settled_ofTy t)
      · exact hc.emit2 rfl fun w _ => .copyArgument hb (Shape.size_ofTy t) (Shape.settled_ofTy t)
    exact copies.seq fun _ d hd => meets_bind.2 (hd.reaches.ready.retain.imp
      (fun _ e he => meets_pure.2 ⟨hk, hd.reaches.trans he.reaches⟩) fun _ _ h => h)
  · next h0 =>
    refine meets_pure.2 ⟨hk, ?_⟩
    rw [Shape.ofTy_of_size (by omega)]
    exact .refl hc _ _

/-- A static value, or a copy of it in the module of the draft. -/
theorem Ready.pushStatic {index : Nat} (hc : c.Ready o) (hr : c.Reachable id) :
    Meets (Compile.pushStatic name id index span) c
      (fun r d => r.Known ∧ c.Reaches o (fun _ => none) d s (Shape.ofTy r ++ s)) fun _ => Failed o := by
  obtain ⟨m, hm, ha⟩ := hc.here
  obtain ⟨n, hn⟩ := hc.module_of_lt hr.below
  refine meets_bind.2 (meets_bind.2 (meets_get.2 (meets_pure.2 ?_)))
  rw [Library.get_eq hn]
  split
  · exact hc.failed
  · next v hv =>
    have hmem : v ∈ n.values := Array.mem_of_getElem? hv
    have hk := (hc.good.consistent.houses hn hr.alive).sane.values v hmem
    refine meets_bind.2 (meets_here.2 ?_)
    split
    · next hhere =>
      subst hhere
      refine (hc.loadStatic (v := v) ?_).seq fun _ d hd => meets_pure.2 ⟨hk, hd.reaches⟩
      rwa [Library.get_eq hn]
    · have sound (hcap : (v.incref c.heap).1.cells.size ≤ Heap.capacity) :
          (v.incref c.heap).2 = .ok () ∧ ∃ Ψ, (c.view o).Sound Ψ (v.incref c.heap).1 (v.handles ++ o.roots) ∧
            Ψ.Describes c.draft.target.module v := by
        obtain ⟨Ψ, hs⟩ := hc.good.heap (by rwa [Value.incref, Heap.size_increfs] at hcap)
        have hv' : v ∈ ((c.view o).library.get id).values := by
          change v ∈ (c.library.get id).values
          rwa [Library.get_eq hn]
        have held : ∀ r ∈ v.handles, r.isNull = false → c.heap.Holds r := fun r hr' hn' =>
          hs.holds_static (View.mem_statics hv' hr') hn'
        obtain ⟨h', e, hs', -⟩ := hs.increfs held
        have desc := hs.statics id v hr.alive hv'
        rw [Value.incref, e]
        exact ⟨rfl, Ψ, hs', desc.mono hr.below fun _ _ _ => rfl⟩
      refine meets_bind.2 (meets_onHeap.2 ?_)
      split
      · next fault he =>
        refine ⟨⟨_, hc.good.consistent⟩, fun hcap => ?_, hc.good.count, hc.good.living⟩
        rw [(sound hcap).1] at he
        cases he
      · refine meets_bind.2 ((meets_onModule (c := { c with heap := (v.incref c.heap).1 }) hm).2 ?_)
        have hadd : c.Reaches o (fun _ => none) { c with
            library := c.library.put c.draft.target.module (m.addValue v).1
            heap := (v.incref c.heap).1 } s s := .addStatic hc hm hk (fun hcap => (sound hcap).2) s
        refine meets_bind.2 ((hadd.ready.loadStatic (v := v) ?_).imp
          (fun _ d hd => meets_pure.2 ⟨hk, hadd.trans hd.reaches⟩) fun _ _ h => h)
        change ((c.library.put _ _).get _).values[_]? = _
        rw [Library.get_put_self hm]
        exact Array.getElem?_push_size

end Compilation

end StackScript
