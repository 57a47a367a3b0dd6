import StackScript.Proofs.Complying
import StackScript.Proofs.Importing
import StackScript.Proofs.Sessions
import StackScript.Proofs.Wording

/-!
Imports while a program is compiled. An action that imports a module writes the call next, or leaves that to the next one, and
a function whose draft calls through an import has the call in its code once it is installed.
-/
namespace StackScript

open FreeNames (paramNames)

/-! ### The regime -/

/-- More modules are imported than are addressable. -/
def Compilation.Crowded (c : Compilation) : Prop := ∃ id, CompileError.importLimit < (c.library.get id).imports.size

/-- What a failure leaves. One for which it takes too many imports leaves them. -/
structure Compilation.Lost (l : Library) (k : Nat) (e : CompileError) (c : Compilation) : Prop where
  deserted : c.Deserted l k
  crowded : e.crowds → c.Crowded

theorem Compilation.Staffed.lost {l : Library} {k : Nat} {c : Compilation} {e : CompileError} (h : c.Staffed l k)
    (other : e.crowds = false) : c.Lost l k e := ⟨h.deserted, fun crowds => absurd crowds (Bool.eq_false_iff.1 other)⟩

/-- Names that mean nothing are another matter. -/
theorem Draft.crowds_of_resolve {l : Library} {d : Draft} {name : String} {span : Span} {e : CompileError}
    (h : d.resolve l name span = .error e) : e.crowds = false := by
  unfold resolve at h
  dsimp only at h
  split at h
  · next found _ =>
    unfold Meaning.ofLookup at h
    split at h
    · cases h
    · split at h
      · cases h
        rfl
      · split at h
        · cases h
        · cases h
        · cases h
        · cases h
          rfl
  · split at h
    · cases h
    · cases h
      rfl

def Regime.importing (l : Library) (k : Nat) : Regime where
  Holds := Compilation.Staffed l k
  Onward c d := c.Recruits d ∧ d.draft.scope = c.draft.scope
  Spoils e c := c.Lost l k e
  Typed _ := True
  Inside _ := True
  Sees _ _ := True
  Callable _ _ := True
  Ready c f _ _ _ := c.Unbegun k f
  nested := Header.isAdmitted false
  Declares _ := True

namespace Regime.Importing

variable {l : Library} {k id : Nat} {c d e : Compilation} {f : FunctionRef} {g : Function} {m n : Module} {name : String}
  {span : Span} {t : Ty} {params : List String} {scope : Nat} {names : String → Prop} {α : Type}

/-! ### Changes of one module -/

/-- Only modules were changed, and what is to be written still is. -/
structure Restocks (l : Library) (k : Nat) (c d : Compilation) : Prop where
  staffed : d.Staffed l k
  on : c.Recruits d
  undefined : ∀ f, c.library.Undefined f → d.library.Undefined f
  rest : ∃ library, d = { c with library := library }

theorem Restocks.trans (h : Restocks l k c d) (g : Restocks l k d e) : Restocks l k c e := by
  obtain ⟨library, hd⟩ := h.rest
  obtain ⟨library', he⟩ := g.rest
  exact ⟨g.staffed, h.on.trans g.on, fun f hf => g.undefined f (h.undefined f hf), library', by rw [he, hd]⟩

theorem restock [Inhabited α] {y : Module → Module × α} (hc : c.Staffed l k)
    (carries : ∀ m, Module.Carries m (y m).1 fun _ => False) (id : Nat) {bad : CompileError → Compilation → Prop} :
    Meets (Compile.onModule id y) c (fun _ d => Restocks l k c d) bad := by
  cases hm : c.library.modules[id]? with
  | none =>
    unfold Compile.onModule Meets Library.update
    simp only [hm]
    exact ⟨hc, .refl c, fun _ hf => hf, c.library, rfl⟩
  | some m =>
    obtain ⟨hd, on⟩ := hc.put hm (carries m) c.draft rfl (.refl _) nofun
    exact (Compilation.meets_onModule hm).2 ⟨hd, on, fun f hf => hf.carries hm (carries m), _, rfl⟩

theorem Restocks.unbegun (h : Restocks l k c d) (ready : c.Unbegun k f) : d.Unbegun k f := by
  have undefined := h.undefined f ready.undefined
  obtain ⟨library, rfl⟩ := h.rest
  exact ⟨undefined, ready.unbegun, ready.undue⟩

theorem Restocks.onward (h : Restocks l k c d) : (Regime.importing l k).Onward c d := by
  obtain ⟨library, rfl⟩ := h.rest
  exact ⟨h.on, rfl⟩

theorem onModule [Inhabited α] {y : Module → Module × α} (carries : ∀ m, Module.Carries m (y m).1 fun _ => False) (id : Nat) :
    (Regime.importing l k).Keeps c (Compile.onModule id y) Any := fun hc =>
  (restock hc carries id).imp (fun _ _ hd => ⟨hd.staffed, hd.onward, trivial⟩) fun _ _ h => h

theorem bindIn (id scope : Nat) (name : String) (symbol : Symbol) :
    (Regime.importing l k).Keeps c (Compile.bindIn id scope name symbol) Any :=
  onModule (fun _ => Module.carries_of_eq rfl rfl) id

theorem addFunction (hg : ∀ op, g.body ≠ .fragment op) (id : Nat) :
    (Regime.importing l k).Keeps c (Compile.addFunction id g) Any := onModule (fun m => m.carries_addFunction hg) id

/-- A function is added that is to be written. -/
theorem addUndefined (hc : c.Staffed l k) (hb : g.body = .undefined) (hid : id < c.library.modules.size)
    {bad : CompileError → Compilation → Prop} :
    Meets (Compile.addFunction id g) c (fun i d => Restocks l k c d ∧ d.Unbegun k ⟨id, i⟩) bad := by
  obtain ⟨m, hm⟩ : ∃ m, c.library.modules[id]? = some m := ⟨_, Array.getElem?_eq_getElem hid⟩
  have carries : m.Carries (m.addFunction g).1 fun _ => False := m.carries_addFunction (by rw [hb]; nofun)
  have fresh {f : FunctionRef} (hf : c.library.Undefined f) : f ≠ ⟨id, m.functions.size⟩ := by
    rintro rfl
    obtain ⟨g, hg, -⟩ := hf
    rw [Library.function?_of_module hm] at hg
    exact absurd (Array.getElem?_eq_some_iff.1 hg).1 (Nat.lt_irrefl _)
  obtain ⟨hd, on⟩ := hc.put hm carries c.draft rfl (.refl _) nofun
  refine (Compilation.meets_onModule hm).2 ⟨⟨hd, on, fun f hf => hf.carries hm carries, _, rfl⟩,
    ⟨g, (Library.function?_of_module (Library.modules_put_self hm)).trans Array.getElem?_push_size, hb⟩, fun among => ?_,
    fun p hp => fresh (hc.pending p hp).1⟩
  exact fresh (hc.unfinished _ among) rfl

/-- A function is added that is declared, and is to be written if it is not generic. -/
theorem addDeclared {s : Signature} {decl : FunctionDecl} (hc : c.Staffed l k)
    (hb : g.body = if s.isGeneric then .generic decl scope else .undefined) (hid : id < c.library.modules.size)
    {bad : CompileError → Compilation → Prop} : Meets (Compile.addFunction id g) c
      (fun i d => Restocks l k c d ∧ (s.isGeneric = false → d.Unbegun k ⟨id, i⟩)) bad := by
  cases generic : s.isGeneric with
  | false =>
    rw [generic] at hb
    exact (addUndefined hc hb hid).imp (fun _ _ hd => ⟨hd.1, fun _ => hd.2⟩) fun _ _ h => h
  | true =>
    rw [generic] at hb
    refine (restock hc (fun m => m.carries_addFunction (by rw [hb]; nofun)) id).imp (fun _ _ hd => ⟨hd, nofun⟩) fun _ _ h => h

/-- The draft goes on. -/
theorem redraft (hc : c.Staffed l k) (d : Draft) (target : d.target = c.draft.target) (code : c.draft.code.Continues d.code) :
    ({ c with draft := d } : Compilation).Staffed l k ∧ c.Recruits { c with draft := d } := by
  have on : c.Recruits { c with draft := d } :=
    ⟨target, rfl, rfl, rfl, code, fun _ => .refl _⟩
  exact ⟨hc.onward on hc.unfinished hc.pending, on⟩

theorem basic (l : Library) (k : Nat) : (Regime.importing l k).Basic where
  types := ⟨fun _ _ => trivial, fun _ => trivial, fun _ => ⟨fun _ _ _ => trivial, fun _ => trivial⟩,
    fun _ _ => Iff.rfl, fun _ _ _ _ _ _ => trivial⟩
  refl c _ := ⟨.refl c, rfl⟩
  trans _ _ _ on on' := ⟨on.1.trans on'.1, on'.2.trans on.2⟩
  target _ _ on := on.1.target
  rests c d on rests := ⟨by rw [on.1.target, on.1.module, rests.target], by rw [on.2, rests.scope]⟩
  inside _ _ _ _ := trivial
  sees _ _ _ _ _ := trivial
  callable _ _ _ _ _ := trivial
  fails _ _ hc common := hc.lost (CompileError.isCommon_iff.1 common).2
  miscounts _ _ _ _ _ hc := hc.lost rfl
  releases _ _ _ hc common _ := ⟨hc.deserted, (hc.lost (CompileError.isCommon_iff.1 common).2).crowded⟩
  resolve c name span hc _ := by
    unfold Resolved
    split
    · next resolved => exact ⟨Draft.arity_of_resolve resolved, trivial⟩
    · trivial
    · trivial
    · next failed => exact hc.lost (Draft.crowds_of_resolve failed)
  captured _ _ _ _ _ _ _ _ := trivial
  result _ _ _ _ _ := trivial
  value _ _ _ _ _ _ := trivial
  write c code depth hc on := by
    obtain ⟨hd, on⟩ := redraft hc { c.draft with code := code, depth := depth } rfl on
    exact ⟨hd, on, rfl⟩
  heap c h hc _ := by
    have on : c.Recruits { c with heap := h } :=
      ⟨rfl, rfl, rfl, rfl, .refl _, fun _ => .refl _⟩
    exact ⟨hc.onward on hc.unfinished hc.pending, on, rfl⟩
  store c _ m types values hc hm _ := by
    have same : m.Carries { m with types := types, values := values } fun _ => False := Module.carries_of_eq rfl rfl
    obtain ⟨hd, on⟩ := hc.put hm same c.draft rfl (.refl _) nofun
    exact ⟨hd, on, rfl⟩

/-! ### Calls -/

/-- A module is imported that is to be called next. -/
theorem importIndex (hc : c.Staffed l k) (hm : c.library.modules[c.draft.target.module]? = some m) (id : Nat) (span : Span) :
    Meets (Compile.importIndex id span) c (fun i d => ∃ n, m.Carries n (fun j => j = i) ∧ i < CompileError.importLimit ∧
      d = { c with library := c.library.put c.draft.target.module n }) fun e d => d.Lost l k e := by
  have carries := m.carries_importVisible id
  have found := (m.importVisible_spec id).2.2
  refine meets_bind.2 (meets_bind.2 (meets_get.2 (meets_bind.2 (meets_get.2 (meets_bind.2
    ((Compilation.meets_onModule hm).2 ?_))))))
  generalize m.importVisible id = imported at carries found ⊢
  obtain ⟨n, i?⟩ := imported
  have left := hc.deserted.put hm carries fun _ _ => hc.unsettled
  cases i? with
  | none => exact ⟨left, nofun⟩
  | some i =>
    dsimp only
    split
    · next inside => exact ⟨n, carries.imp fun j _ e => (Option.some.inj e).symm, inside, rfl⟩
    · next outside =>
      refine ⟨left, fun _ => ⟨c.draft.target.module, Nat.lt_of_le_of_lt (Nat.not_lt.1 outside) ?_⟩⟩
      change i < ((c.library.put c.draft.target.module n).get _).imports.size
      rw [Library.get_put_self hm]
      exact (Array.getElem?_eq_some_iff.1 (found i rfl)).1

theorem operand (hc : c.Deserted l k) (op : Opcode) (i : Nat) (span : Span) :
    Meets (Compile.operand op i span) c (fun a d => a = .ofNat i ∧ i < 256 ∧ d = c) fun e d => d.Lost l k e := by
  unfold Compile.operand
  split
  · next inside => exact ⟨rfl, inside, rfl⟩
  · exact ⟨hc, nofun⟩

theorem emitCall (inlines : l.Inlines) (f : FunctionRef) (span : Span) :
    (Regime.importing l k).Keeps c (Compile.emitCall f span) Any := by
  have L := basic l k
  refine Keeps.getFunction L fun g hg => ?_
  split
  · next op hop =>
    intro hc
    obtain ⟨m, hm, hf⟩ := Library.exists_module hg
    have among : g ∈ (c.library.get f.module).functions := Library.get_eq hm ▸ Array.mem_of_getElem? hf
    -- no fragments are added on the way, so this one has been in the library from the start
    have before := ((hc.modules f.module).fragments g among).resolve_right fun none => none op hop
    exact Keeps.emit L (inlines f.module g before op hop) hc
  · refine Keeps.here ?_
    split
    · exact Keeps.emit1 L rfl rfl _ _
    · intro hc
      obtain ⟨m, hm⟩ := hc.drafting
      refine (importIndex hc hm f.module span).seq fun i d hd => ?_
      obtain ⟨n, carries, inside, rfl⟩ := hd
      have left := hc.deserted.put hm carries fun _ _ => hc.unsettled
      split
      · -- the first import is called by an opcode of its own, and no account is kept of it
        have paid : m.Carries n fun _ => False := carries.imp fun j hj e => hj e
        obtain ⟨hd, on⟩ := hc.put hm paid c.draft rfl (.refl _) nofun
        refine (Keeps.emit1 L rfl rfl _ _ hd).imp (fun _ e he => ?_) fun _ _ h => h
        exact ⟨he.1, L.trans _ _ _ ⟨on, rfl⟩ he.2.1, trivial⟩
      · refine (operand left _ _ _).seq fun a d hd => ?_
        obtain ⟨rfl, small, rfl⟩ := hd
        refine (operand left _ _ _).seq fun b d hd => meets_modify.2 ?_
        obtain ⟨rfl, -, rfl⟩ := hd
        obtain ⟨is, hc'⟩ := hc.whole
        have drawn := Code.draws_call hc' (.ofNat i) (.ofNat f.index)
        rw [UInt8.toNat_ofNat_of_lt' small] at drawn
        obtain ⟨hd, on⟩ := hc.put hm carries { c.draft with
          code := ((c.draft.code.opcode .call).byte (.ofNat i)).byte (.ofNat f.index) } rfl
          (Code.continues_opcode2 _ _ _ rfl) fun j e => ⟨rfl, e ▸ drawn⟩
        exact ⟨hd, ⟨on, rfl⟩, trivial⟩

/-- Code that passes a call on is still to be written where its module imports another one for it. -/
theorem forwardingCode (hc : c.Staffed l k) (hm : c.library.modules[c.draft.target.module]? = some m) (f : FunctionRef)
    (span : Span) : Meets (Compile.forwardingCode f span) c (fun bytes d => ∃ n, m.Carries n (Code.CallsImport bytes) ∧
      d = { c with library := c.library.put c.draft.target.module n }) fun e d => d.Lost l k e := by
  have unchanged (bytes : Array UInt8) : ∃ n, m.Carries n (Code.CallsImport bytes) ∧
      c = { c with library := c.library.put c.draft.target.module n } :=
    ⟨m, Module.carries_of_eq rfl rfl, by rw [Library.put_self hm]⟩
  unfold Compile.forwardingCode
  split
  · exact hc.lost rfl
  · refine meets_bind.2 (meets_bind.2 (meets_get.2 (meets_pure.2 ?_)))
    split
    · exact unchanged _
    · refine (importIndex hc hm f.module span).seq fun i d hd => ?_
      obtain ⟨n, carries, inside, rfl⟩ := hd
      split
      · exact ⟨n, carries.imp fun j hj e => absurd e hj, rfl⟩
      · refine ⟨n, carries.imp fun j _ e => ?_, rfl⟩
        have calls := Code.callsImport_call (.ofNat i) (.ofNat f.index)
        rw [UInt8.toNat_ofNat_of_lt' inside] at calls
        exact e ▸ calls

/-- What passes a call on to another module is added to the module that imports it. -/
theorem forward {add : Body → Compile Nat} (adds : AddsHere c g add) (f : FunctionRef) (span : Span) :
    (Regime.importing l k).Keeps c (Compile.forwardingBody f span >>= add) Any := by
  have L := basic l k
  -- a body that needs no import
  have plain (body : Body) (hb : ∀ op, body ≠ .fragment op) : (Regime.importing l k).Keeps c (pure body >>= add) Any := by
    unfold Regime.Keeps Meets
    rw [pure_bind, adds body c rfl]
    exact addFunction (g := { g with body := body }) hb _
  have code : (Regime.importing l k).Keeps c ((Compile.forwardingCode f span >>= fun bytes => pure (Body.code bytes)) >>= add)
      Any := by
    intro hc
    obtain ⟨m, hm⟩ := hc.drafting
    refine meets_bind.2 ((forwardingCode hc hm f span).seq fun bytes d hd => meets_pure.2 ?_)
    obtain ⟨n, carries, rfl⟩ := hd
    have paid : m.Carries (n.addFunction { g with body := .code bytes }).1 fun _ => False :=
      carries.addFunction (by rintro _ ⟨⟩) fun i calls => .inl (n.employs_addFunction rfl calls)
    have hm' : (c.library.put c.draft.target.module n).modules[c.draft.target.module]? = some n := Library.modules_put_self hm
    refine (adds.meets (d := { c with library := c.library.put c.draft.target.module n }) rfl _).2
      ((Compilation.meets_onModule hm').2 ?_)
    rw [Library.put_put]
    obtain ⟨hd, on⟩ := hc.put hm paid c.draft rfl (.refl _) fun _ => False.elim
    exact ⟨hd, ⟨on, rfl⟩, trivial⟩
  cases hf : c.library.function? f with
  | none =>
    unfold Compile.forwardingBody Compile.getFunction
    simp only [Regime.Keeps, meets_bind, meets_get, hf]
    exact fun hc => hc.lost rfl
  | some h =>
    refine fun hc => meets_bind.2 (meets_bind.2 ((Compilation.meets_getFunction hf).2 (meets_bind.1 ?_)))
    split
    · exact plain _ (by rintro _ ⟨⟩) hc
    · exact plain _ (by rintro _ ⟨⟩) hc
    · refine meets_bind.2 (meets_bind.2 (meets_bind.2 (meets_get.2 (meets_pure.2 (meets_bind.2 (meets_get.2
        (meets_bind.1 ?_)))))))
      split
      · exact plain _ (by rintro _ ⟨⟩) hc
      · exact code hc
    · exact code hc

/-! ### Functions -/

/-- The draft waits while something is written in a scope of its own. -/
theorem block {x : Compile α} {post : α → Prop} (hx : ∀ d, (Regime.importing l k).Keeps d x fun a _ => post a) :
    (Regime.importing l k).Keeps c (Compile.inBlock x) fun a _ => post a := fun hc => by
  refine meets_bind.2 (Compilation.meets_getDraft.2 ((restock hc (fun _ => Module.carries_of_eq rfl rfl) _).seq
    fun i d hd => ?_))
  obtain ⟨entered, on⟩ := redraft hd.staffed { d.draft with scope := i } rfl (.refl _)
  refine meets_bind.2 (meets_modify.2 ((hx _ entered).seq fun a e he => ?_))
  obtain ⟨he, ⟨on', -⟩, ha⟩ := he
  obtain ⟨left, on''⟩ := redraft he { e.draft with scope := c.draft.scope } rfl (.refl _)
  exact meets_bind.2 (meets_modify.2 (meets_pure.2 ⟨left, ⟨((hd.on.trans on).trans on').trans on'', rfl⟩, ha⟩))

/-- The draft of a function is begun. -/
theorem begun (hc : c.Staffed l k) (ready : c.Unbegun k f) (h : Restocks l k c d) (draft : Draft)
    (target : draft.target = f) (code : draft.code = {}) :
    ({ d with unfinished := f :: c.unfinished, draft := draft } : Compilation).Staffed l k := by
  obtain ⟨undefined, fresh, undue⟩ := ready
  obtain ⟨library, rfl⟩ := h.rest
  have later {g : FunctionRef} (hg : g ∈ c.unfinished) : g ≠ draft.target := by
    rintro rfl
    exact fresh (target ▸ hg)
  refine ⟨h.staffed.module, h.staffed.home, ?_, code ▸ Code.drafted_empty, .inr (target ▸ .head _), fun g hg => ?_,
    fun p hp => ⟨(h.staffed.pending p hp).1, fun among => ?_⟩, fun id => (h.staffed.modules id).imp fun i _ owes => ?_⟩
  · obtain ⟨g, hg, -⟩ := h.undefined f undefined
    obtain ⟨m, hm, -⟩ := Library.exists_module hg
    exact target ▸ (Array.getElem?_eq_some_iff.1 hm).1
  · rcases List.mem_cons.1 hg with rfl | hg
    · exact h.undefined _ undefined
    · exact h.staffed.unfinished g hg
  · exact (List.mem_cons.1 among).elim (undue p hp) (h.staffed.pending p hp).2
  · rcases owes with receives | ⟨rfl, -⟩ | ⟨g, hg, waits, -⟩
    · exact .inl receives
    · exact hc.begun.imp_right fun waits => .inr ⟨_, .tail _ waits, rfl, later waits⟩
    · exact .inr (.inr ⟨g, .tail _ hg, waits, later hg⟩)

theorem beginFunction (hc : c.Staffed l k) (undefined : c.library.Undefined f) {bad : CompileError → Compilation → Prop} :
    Meets (Compile.beginFunction f params scope span) c (fun _ d => ∃ e draft, Restocks l k c e ∧ draft.target = f ∧
      draft.code = {} ∧ d = { e with unfinished := f :: c.unfinished, draft := draft }) bad := by
  obtain ⟨g, hg, -⟩ := undefined
  refine meets_bind.2 ((Compilation.meets_getFunction hg).2 ((restock hc (fun _ => Module.carries_of_eq rfl rfl) _).seq
    fun i d hd => ?_))
  refine (Meets.forM (fun _ d => Restocks l k c d) (fun _ _ d hd => ?_) _ _ hd).seq fun _ e he => meets_modify.2 ?_
  · exact (restock hd.staffed (fun _ => Module.carries_of_eq rfl rfl) _).imp (fun _ _ he => hd.trans he) fun _ _ h => h
  · obtain ⟨library, rfl⟩ := he.rest
    exact ⟨_, _, he, rfl, rfl, rfl⟩

/-- The draft is installed: what is called in it is called in the code of its function, and no other function is written. -/
structure Installed (k : Nat) (c d : Compilation) : Prop where
  module : d.module = c.module
  unfinished : d.unfinished = c.unfinished.filter (· ≠ c.draft.target)
  count : d.library.modules.size = c.library.modules.size
  modules : ∀ id, (c.library.get id).Recruits (d.library.get id) fun _ => False
  draws : ∀ id i, c.Draws id i → (d.library.get id).Employs i
  undefined : ∀ f ∈ d.unfinished, d.library.Undefined f
  pending : ∀ p ∈ d.pending, d.library.Undefined ⟨k, p.1⟩ ∧ ⟨k, p.1⟩ ∉ d.unfinished

theorem installed (hc : c.Staffed l k) (own : c.draft.target ∈ c.unfinished)
    (hm : c.library.modules[c.draft.target.module]? = some m) {code : Code} (hr : c.draft.code.resolve = (code, none))
    (hg : g.body = .code code.bytes) : Installed k c { c with
      unfinished := c.unfinished.filter (· ≠ c.draft.target)
      library := c.library.put c.draft.target.module (m.setFunction c.draft.target.index g) } := by
  obtain ⟨g', hg', hb⟩ := hc.unfinished _ own
  rw [Library.function?_of_module hm] at hg'
  have waits {f : FunctionRef} (hf : c.library.Undefined f) (other : f ≠ c.draft.target) := hf.setFunction hm other g
  refine ⟨rfl, rfl, Library.size_put, fun id => ?_, fun id i draws => ?_, fun f hf => ?_, fun p hp => ?_⟩
  · exact Library.recruits_put hm (Module.recruits_setFunction hg' hb (by rw [hg]; nofun)) id fun _ _ _ h => h
  · obtain ⟨rfl, drawn⟩ := draws
    change ((c.library.put _ _).get _).Employs i
    rw [Library.get_put_self hm]
    exact Module.employs_setFunction (Array.getElem?_eq_some_iff.1 hg').1 hg (drawn.resolved hr)
  · obtain ⟨among, other⟩ := List.mem_filter.1 hf
    exact waits (hc.unfinished f among) (of_decide_eq_true other)
  · obtain ⟨undefined, unbegun⟩ := hc.pending p hp
    exact ⟨waits undefined fun e => unbegun (e ▸ own), fun among => unbegun (List.mem_filter.1 among).1⟩

theorem Installed.before (h : Installed k d e) (on : c.Recruits d) : Installed k c e :=
  ⟨h.module.trans on.module, by rw [h.unfinished, on.unfinished, on.target], h.count.trans on.count,
    fun id => (on.modules id).trans (h.modules id) fun i _ draws => .inl (h.draws id i draws),
    fun id i draws => h.draws id i (draws.recruits on), h.undefined, h.pending⟩

theorem endFunction (hc : c.Staffed l k) (own : c.draft.target ∈ c.unfinished) (t : Ty) (span : Span) :
    Meets (Compile.endFunction t span) c (fun _ d => Installed k c d) fun e d => d.Lost l k e := by
  have L := basic l k
  refine meets_bind.2 (Compilation.meets_getDraft.2 ?_)
  split
  · exact hc.lost rfl
  · next s _ =>
    have released : (Regime.importing l k).Keeps c (Compile.releaseFrame s t span) Any := by
      refine Keeps.seq L (Keeps.releaseAt L _ _) fun _ _ _ => ?_
      split
      · exact Keeps.emit2 L rfl _ _ _
      · exact Keeps.done L _
    refine (released hc).seq fun _ d hd => meets_bind.2 (Compilation.meets_getDraft.2 ?_)
    obtain ⟨hd, ⟨on, -⟩, -⟩ := hd
    cases hr : d.draft.code.resolve with
    | mk code far =>
    cases far with
    | some jump => exact hd.lost rfl
    | none =>
      obtain ⟨m, hm⟩ := hd.drafting
      rw [← on.target] at own ⊢
      refine meets_bind.2 (meets_modify.2 ?_)
      exact (Compilation.meets_onModule (c := { d with unfinished := d.unfinished.filter (· ≠ d.draft.target) }) hm).2
        ((installed hd (on.unfinished ▸ own) hm hr rfl).before on)

/-- A function is written while the draft waits. -/
theorem writeFunction {body : Option Ty → Compile Ty} {bodySpan : Span}
    (ready : c.Unbegun k f) (hbody : (Regime.importing l k).Embodies names body) :
    (Regime.importing l k).Keeps c (Compile.writeFunction f params scope span bodySpan body) Any := fun hc => by
  refine meets_bind.2 (Compilation.meets_getDraft.2 ((beginFunction hc ready.undefined).seq fun _ d hd => ?_))
  obtain ⟨b, draft, restocks, target, code, rfl⟩ := hd
  have begins := begun hc ready restocks draft target code
  obtain ⟨library, rfl⟩ := restocks.rest
  refine meets_bind.2 (Compilation.meets_getDraft.2 ((hbody _ _ ⟨trivial, fun _ _ => trivial⟩ begins).seq fun t e he => ?_))
  obtain ⟨he, ⟨on, -⟩, -⟩ := he
  refine (endFunction he (by rw [on.unfinished, on.target, target]; exact .head _) t bodySpan).seq fun _ w hw =>
    meets_modify.2 ?_
  have done := hw.before on
  -- the draft that waits is taken up again, and owes what it owed: the calls of the function are all in its code
  have unfinished : w.unfinished = c.unfinished := by
    rw [done.unfinished, target, List.filter_cons_of_neg (by simp), List.filter_eq_self]
    exact fun g hg => decide_eq_true fun e => ready.unbegun (e ▸ hg)
  have onward : c.Recruits { w with draft := c.draft } :=
    ⟨rfl, done.module, unfinished, done.count.trans restocks.on.count, .refl _, fun id =>
      (restocks.on.modules id).trans ((done.modules id).imp fun _ _ => False.elim) fun _ _ draws => .inr draws⟩
  exact ⟨hc.onward onward done.undefined done.pending, ⟨onward, rfl⟩, trivial⟩

/-- A function waits no longer. -/
theorem pending {i : Nat} {decl : FunctionDecl} (hc : c.Staffed l k) (waiting : c.pending.lookup i = some decl) :
    let d : Compilation := { c with pending := c.pending.filter fun p => p.1 ≠ i }
    d.Staffed l k ∧ c.Recruits d ∧ d.Unbegun k ⟨k, i⟩ := by
  obtain ⟨l₁, l₂, hl, -⟩ := List.lookup_eq_some_iff.1 waiting
  obtain ⟨undefined, unbegun⟩ := hc.pending (i, decl) (by simp [hl])
  have on : c.Recruits { c with pending := c.pending.filter fun p => p.1 ≠ i } :=
    ⟨rfl, rfl, rfl, rfl, .refl _, fun _ => .refl _⟩
  refine ⟨hc.onward on hc.unfinished fun p hp => hc.pending p (List.mem_filter.1 hp).1, on,
    undefined, unbegun, fun p hp e => ?_⟩
  exact of_decide_eq_true (List.mem_filter.1 hp).2 (congrArg FunctionRef.index e)

/-- A function begins to wait. -/
theorem enqueue {i : Nat} (ready : c.Unbegun k ⟨k, i⟩) (decl : FunctionDecl) : (Regime.importing l k).Keeps c
    (modify fun c : Compilation => { c with pending := c.pending ++ [(i, decl)] }) Any := fun hc => by
  have on : c.Recruits { c with pending := c.pending ++ [(i, decl)] } :=
    ⟨rfl, rfl, rfl, rfl, .refl _, fun _ => .refl _⟩
  refine ⟨hc.onward on hc.unfinished fun p hp => ?_, ⟨on, rfl⟩, trivial⟩
  rcases List.mem_append.1 hp with hp | hp
  · exact hc.pending p hp
  · obtain rfl := List.mem_singleton.1 hp
    exact ⟨ready.undefined, ready.unbegun⟩

/-- An instance that is forgotten leaves its code behind. -/
theorem removeInstance (h : c.Deserted l k) (id i : Nat) {bad : CompileError → Compilation → Prop} :
    Meets (Compile.onModule id fun m => (m.removeInstance i, ())) c (fun _ d => d.Deserted l k) bad := by
  cases hm : c.library.modules[id]? with
  | none =>
    unfold Compile.onModule Meets Library.update
    simp only [hm]
    exact h
  | some m =>
    have same : m.Carries (m.removeInstance i) fun _ => False := Module.carries_of_eq rfl rfl
    exact (Compilation.meets_onModule hm).2 (h.put hm same nofun)

theorem instantiate {deferred : Deferred} {ts : List Ty} (hw : (Regime.importing l k).Installs deferred) :
    (Regime.importing l k).Keeps c (Compile.instantiate deferred f ts span) Any := by
  have L := basic l k
  refine Keeps.getModule ?_
  split
  · exact Keeps.done L _
  · refine Keeps.getFunction L fun g hg => ?_
    split
    · next decl scope _ =>
      intro hc
      obtain ⟨m, hm, -⟩ := Library.exists_module hg
      refine (addUndefined hc rfl (Array.getElem?_eq_some_iff.1 hm).1).seq fun i d hd => ?_
      obtain ⟨restocks, ready⟩ := hd
      refine (restock restocks.staffed (fun _ => Module.carries_of_eq rfl rfl) f.module).seq fun _ d' hd' => ?_
      have restocks := restocks.trans hd'
      refine meets_bind.2 (meets_tryCatch.2 ((hw d' ⟨f.module, i⟩ decl scope (hd'.unbegun ready) decl.body.nests_lenient
        restocks.staffed).imp (fun _ e he => ?_) fun _ e he => ?_))
      · exact ⟨he.1, L.trans _ _ _ restocks.onward he.2.1, trivial⟩
      · -- the instance is no longer found, but its function is left unwritten
        exact (removeInstance he.deserted f.module i).seq fun _ w hw => ⟨hw, nofun⟩
    · exact Keeps.fail L rfl

theorem declareNested {decl : FunctionDecl} {s : Signature} {body : Option Ty → Compile Ty}
    (hbody : (Regime.importing l k).Embodies names body) :
    (Regime.importing l k).Keeps c (Compile.declareNested decl s body) Any := by
  have L := basic l k
  refine Keeps.getDraft (Keeps.getDraft (Keeps.getModule fun hc => ?_))
  refine (addDeclared hc rfl hc.here).seq fun i d hd => ?_
  have written (e : Compilation) (he : Restocks l k c e ∧ (s.isGeneric = false → e.Unbegun k ⟨c.draft.target.module, i⟩)) :
      Meets (do
        if !s.isGeneric then
          Compile.writeFunction ⟨c.draft.target.module, i⟩ (paramNames decl.header) c.draft.scope decl.header.span
            decl.body.span body
        return i) e (fun _ w => w.Staffed l k ∧ (Regime.importing l k).Onward c w ∧ Any i w) fun e w => w.Lost l k e := by
    split
    · next specific =>
      refine (writeFunction (he.2 (by simpa using specific)) hbody he.1.staffed).seq fun _ w hw => ?_
      exact ⟨hw.1, L.trans _ _ _ he.1.onward hw.2.1, trivial⟩
    · exact ⟨he.1.staffed, he.1.onward, trivial⟩
  dsimp only
  split
  · refine (restock hd.1.staffed (fun _ => Module.carries_of_eq rfl rfl) _).seq fun _ e he => ?_
    exact written e ⟨hd.1.trans he, fun specific => he.unbegun (hd.2 specific)⟩
  · exact written d hd

/-! ### Declarations of the module -/

theorem declareFunction (decl : FunctionDecl) : (Regime.importing l k).Keeps c (Compile.declareFunction decl) Any := by
  have L := basic l k
  refine Keeps.get (Keeps.lift L (.signature _) fun s _ hc => ?_)
  refine (addDeclared hc rfl (hc.module ▸ hc.home)).seq fun i d hd => ?_
  have named (e : Compilation) : (Regime.importing l k).Keeps e
      (Compile.bindIn c.module ScopeTable.root decl.header.name (.function i)) Any := bindIn _ _ _ _
  have declared : (Regime.importing l k).Keeps d (do
      if !s.isGeneric then modify fun c : Compilation => { c with pending := c.pending ++ [(i, decl)] }
      Compile.bindIn c.module ScopeTable.root decl.header.name (.function i)) Any := by
    split
    · next specific =>
      exact Keeps.seq L (enqueue (hc.module ▸ hd.2 (by simpa using specific)) decl) fun _ e _ => named e
    · exact named d
  exact (declared hd.1.staffed).imp (fun _ _ he => ⟨he.1, L.trans _ _ _ hd.1.onward he.2.1, trivial⟩) fun _ _ h => h

theorem declareComputed (written : Option TypeExpr) (init : Expr) :
    (Regime.importing l k).Keeps c (Compile.declareComputed name written init span) Any := by
  have L := basic l k
  refine Keeps.get (Keeps.lift L (.resolve? _) fun t _ hc => ?_)
  refine (addUndefined hc rfl (hc.module ▸ hc.home)).seq fun i d hd => ?_
  refine (Keeps.seq L (enqueue (hc.module ▸ hd.2) ⟨⟨name, [], written, span⟩, init⟩) (fun _ _ _ => bindIn _ _ _ _)
    hd.1.staffed).imp (fun _ _ he => ⟨he.1, L.trans _ _ _ hd.1.onward he.2.1, trivial⟩) fun _ _ h => h

/-- Nothing that a program is made of imports a module without calling it. -/
theorem lawful (inlines : l.Inlines) (k : Nat) : (Regime.importing l k).Lawful where
  toBasic := basic l k
  slot _ _ _ _ _ _ := (bindIn _ _ _ _).imp fun _ _ _ => trivial
  block _ _ _ _ _ hx := block fun d => hx d trivial fun _ _ => trivial
  call _ f span := emitCall inlines f span
  forward _ f _ _ span _ _ _ _ _ adds := forward adds f span
  function _ _ _ _ _ _ _ _ ready hbody := writeFunction ready hbody
  pending _ _ decl hc waiting := by
    obtain ⟨hd, on, ready⟩ := pending hc waiting
    exact ⟨hd, ⟨on, rfl⟩, decl.body.nests_lenient, hc.module ▸ ready⟩
  generic _ _ _ _ _ hw _ _ := (instantiate hw).imp fun _ _ _ => trivial
  declared _ _ _ _ _ _ _ _ hbody := (declareNested hbody).imp fun _ _ _ => trivial
  lambda _ _ _ _ _ _ _ _ hbody := (declareNested hbody).imp fun _ _ _ => trivial
  global _ decl _ _ _ := declareFunction decl
  computed _ _ _ _ _ _ _ _ := declareComputed _ _
  static _ _ _ _ _ := bindIn _ _ _ _
  main _ := fun hc => (addUndefined hc rfl (hc.module ▸ hc.home)).imp
    (fun _ _ hd => ⟨hd.1.staffed, hd.1.onward, hd.2⟩) fun _ _ h => h

end Regime.Importing

/-! ### Actions that leave the draft -/

/-- The draft is afterwards what it was. -/
def Compile.Steady {α : Type} (x : Compile α) : Prop := ∀ c, Meets x c (fun _ d => d.draft = c.draft) fun _ _ => True

namespace Compile.Steady

variable {α β : Type} {x : Compile α} {y : α → Compile β}

theorem bind (hx : Steady x) (hy : ∀ a, Steady (y a)) : Steady (x >>= y) := fun c =>
  (hx c).seq fun a d hd => (hy a d).imp (fun _ _ he => he.trans hd) fun _ _ h => h

theorem pure (a : α) : Steady (Pure.pure a : Compile α) := fun _ => rfl

theorem get {z : Compilation → Compile β} (hz : ∀ c, Steady (z c)) : Steady (MonadState.get >>= z) := fun c => hz c c

theorem fail (cause : CompileError.Cause) (span : Span) : Steady (Compile.fail cause span : Compile α) := fun _ => trivial

theorem lift (r : Except CompileError α) : Steady (Compile.lift r) := fun c => by
  unfold Compile.lift Meets
  cases r with
  | ok a => rfl
  | error e => trivial

theorem onModule [Inhabited α] (id : Nat) (z : Module → Module × α) : Steady (Compile.onModule id z) := fun _ => rfl

theorem onHeap (z : Heap → Heap × α) : Steady (Compile.onHeap z) := fun _ => rfl

theorem modify {z : Compilation → Compilation} (same : ∀ c, (z c).draft = c.draft) : Steady (modify z : Compile PUnit) := same

theorem forM {z : α → Compile PUnit} (hz : ∀ a, Steady (z a)) : ∀ as : List α, Steady (as.forM z)
  | [] => pure _
  | a :: as => bind (hz a) fun _ => forM hz as

/-- The draft waits while a function is written. -/
theorem writeFunction (f : FunctionRef) (params : List String) (scope : Nat) (span bodySpan : Span)
    (body : Option Ty → Compile Ty) : Steady (Compile.writeFunction f params scope span bodySpan body) := fun c => by
  have anyhow {γ : Type} (z : Compile γ) (d : Compilation) : Meets z d (fun _ _ => True) fun _ _ => True :=
    .mk (fun _ _ _ => trivial) fun _ _ _ => trivial
  refine meets_bind.2 (Compilation.meets_getDraft.2 ((anyhow _ c).seq fun _ d _ => meets_bind.2
    (Compilation.meets_getDraft.2 ?_)))
  exact (anyhow _ d).seq fun _ e _ => (anyhow _ e).seq fun _ _ _ => meets_modify.2 rfl

theorem writeDeferred (n : Nat) (f : FunctionRef) (decl : FunctionDecl) (scope : Nat) :
    Steady (Compile.writeDeferred n f decl scope) := by
  cases n with
  | zero => exact fail _ _
  | succ n => exact writeFunction _ _ _ _ _ _

theorem ensureWritten (n : Nat) (f : FunctionRef) : Steady (Compile.ensureWritten (Compile.writeDeferred n) f) := by
  refine fun c => meets_bind.2 (meets_get.2 ?_)
  split
  · split
    · exact meets_bind.2 (meets_set.2 (writeDeferred _ _ _ _ _))
    · exact pure _ c
  · exact pure _ c

theorem declareFunction (decl : FunctionDecl) : Steady (Compile.declareFunction decl) := by
  refine get fun c => bind (lift _) fun s => bind (onModule _ _) fun i => ?_
  split
  · exact bind (modify fun _ => rfl) fun _ => onModule _ _
  · exact onModule _ _

theorem declareComputed (name : String) (written : Option TypeExpr) (init : Expr) (span : Span) :
    Steady (Compile.declareComputed name written init span) :=
  get fun _ => bind (lift _) fun _ => bind (onModule _ _) fun _ => bind (modify fun _ => rfl) fun _ => onModule _ _

theorem declareLiteral (name : String) (v : Literal) (written : Option TypeExpr) (span : Span) :
    Steady (Compile.declareLiteral name v written span) := by
  refine get fun c => bind (lift _) fun t? => bind (onHeap _) fun y => ?_
  have bound : Steady (Compile.addValue c.module y >>= fun i => Compile.bindIn c.module ScopeTable.root name (.value i)) :=
    bind (onModule _ _) fun _ => onModule _ _
  split
  · split
    · exact bind (onHeap _) fun _ => fail _ _
    · exact bound
  · exact bound

theorem declare : ∀ s : Stmt, Steady (Compile.declare s) := by
  intro s
  unfold Compile.declare
  split
  · exact pure _
  · exact declareFunction _
  · exact bind (lift _) fun _ => declareFunction _
  · exact declareLiteral _ _ _ _
  · exact declareComputed _ _ _ _

theorem program (invoke : Bool) (p : Program) : Steady (Compile.program invoke p) :=
  get fun _ => bind (forM declare _) fun _ => get fun _ => bind (forM (fun _ => ensureWritten _ _) _) fun _ =>
    get fun _ => bind (onModule _ _) fun _ => bind (writeFunction _ _ _ _ _ _) fun _ => pure _

end Compile.Steady

/-! ### Programs -/

theorem Code.not_draws_empty {i : Nat} : ¬ Code.Draws {} i := by
  rintro ⟨is, hc, it, among, -⟩
  obtain ⟨before, after, rfl⟩ := List.append_of_mem among
  have empty := hc.bytes
  rw [Code.assemble_append, Code.assemble_cons] at empty
  simp [Code.Item.bytes] at empty

/-- A program that compiles imports what its code calls, into whatever module that is written. One that does not compile leaves
no import without a call but where something is left unwritten. -/
theorem Compilation.imports_program {w : World} {id : Nat} (inlines : w.library.Inlines) (hid : id < w.library.modules.size)
    (invoke : Bool) (p : Program) :
    Meets (Compile.program invoke p) (start w id) (fun _ c => ∀ j, (w.library.get j).Recruits (c.library.get j) fun _ => False)
      fun e c => c.Lost w.library id e := by
  have staffed : (start w id).Staffed w.library id :=
    ⟨rfl, hid, hid, Code.drafted_empty, .inl rfl, nofun, nofun, fun _ => .refl _⟩
  have met := Regime.Keeps.program (Regime.Importing.lawful inlines id) ⟨rfl, rfl⟩ invoke p.nests_lenient
    (fun _ _ _ _ => trivial) staffed
  refine (met.and (Compile.Steady.program invoke p _)).imp (fun _ c hc j => ?_) fun _ _ h => h.1
  obtain ⟨⟨-, ⟨on, -⟩, -⟩, draft⟩ := hc
  -- only a draft can owe a call, and the one there is at the end is the empty one of the start
  refine (on.modules j).imp fun i _ draws => Code.not_draws_empty (i := i) ?_
  have drawn := draws.2
  rwa [draft] at drawn

end StackScript
