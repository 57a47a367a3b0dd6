import StackScript.Proofs.Growing

/-!
All actions of the compiler settle: what they begin they finish, or they fail. Those that change one module or the draft
do, and it passes on to all that is made of them.
-/
namespace StackScript

namespace Compilation

/-- An action that leaves no more to be written than it finds, unless it fails. -/
def Settles {α : Type} (l : Library) (x : Compile α) : Prop :=
  ∀ c : Compilation, c.Settled l none → Meets x c (fun _ d => d.Settled l none ∧ c.Within d)
    fun e d => Spoiled l c c.draft.target.module e d

variable {l : Library} {α β : Type} {c : Compilation} {f : FunctionRef} {g : Function} {span : Span} {t : Ty}

namespace Settles

/-! ### Ways to combine actions -/

theorem pure (a : α) : Settles l (Pure.pure a : Compile α) := fun c hc => ⟨hc, .refl c⟩

theorem fail (cause : CompileError.Cause) (span : Span) : Settles l (Compile.fail cause span : Compile α) :=
  fun _ hc => hc.spoiled _ _

theorem throw (e : CompileError) : Settles l (MonadExcept.throw e : Compile α) := fun _ hc => hc.spoiled _ _

theorem lift (r : Except CompileError α) : Settles l (Compile.lift r) := fun c hc => by
  cases r with
  | ok a => exact ⟨hc, .refl c⟩
  | error e => exact hc.spoiled _ _

theorem bind {x : Compile α} {k : α → Compile β} (hx : Settles l x) (hk : ∀ a, Settles l (k a)) :
    Settles l (x >>= k) := fun c hc => by
  refine (hx c hc).seq fun a d hd => ?_
  obtain ⟨hd, w⟩ := hd
  refine (hk a d hd).imp (fun b e he => ⟨he.1, w.trans he.2⟩) fun e u hu => ?_
  rw [w.target] at hu
  exact hu.before w

theorem get {k : Compilation → Compile α} (hk : ∀ c, Settles l (k c)) : Settles l (MonadState.get >>= k) :=
  fun c hc => hk c c hc

/-- A check before what is done. -/
theorem guarded {p : Prop} [Decidable p] {k : PUnit → Compile α} {cause : CompileError.Cause} (hk : Settles l (k ⟨⟩)) :
    Settles l (if p then Compile.fail cause span >>= k else k ⟨⟩) := by
  split
  · exact fun _ hc => meets_bind.2 (hc.spoiled _ _)
  · exact hk

theorem forM {k : α → Compile PUnit} (hk : ∀ a, Settles l (k a)) : ∀ as : List α, Settles l (as.forM k)
  | [] => pure _
  | a :: as => (hk a).bind fun _ => forM hk as

/-! ### The draft -/

theorem modifyDraft {k : Draft → Draft} (target : ∀ d, (k d).target = d.target) (scope : ∀ d, (k d).scope = d.scope) :
    Settles l (Compile.modifyDraft k) := fun c hc =>
  ⟨hc.redraft (target c.draft) (scope c.draft), rfl, target c.draft, scope c.draft, fun _ h => h, fun _ h => h⟩

theorem setDepth (n : Nat) : Settles l (Compile.setDepth n) := modifyDraft (fun _ => rfl) fun _ => rfl

theorem sink (n : Nat) : Settles l (Compile.sink n) := modifyDraft (fun _ => rfl) fun _ => rfl

theorem onCode (k : Code → Code) : Settles l (Compile.onCode k) := modifyDraft (fun _ => rfl) fun _ => rfl

theorem emit (op : Opcode) : Settles l (Compile.emit op) := onCode _

theorem operand (op : Opcode) (n : Nat) (span : Span) : Settles l (Compile.operand op n span) := by
  unfold Compile.operand
  split
  · exact pure _
  · exact fail _ _

theorem emit1 (op : Opcode) (a : Nat) (span : Span) : Settles l (Compile.emit1 op a span) :=
  (operand op a span).bind fun _ => onCode _

theorem emit2 (op : Opcode) (a b : Nat) (span : Span) : Settles l (Compile.emit2 op a b span) :=
  (operand op a span).bind fun _ => (operand op b span).bind fun _ => onCode _

theorem jump (op : Opcode) : Settles l (Compile.jump op) := fun _ hc =>
  ⟨hc.redraft rfl rfl, rfl, rfl, rfl, fun _ h => h, fun _ h => h⟩

theorem bindLabel (n : Nat) : Settles l (Compile.bindLabel n) := onCode _

theorem releaseAt (distances : List Nat) (span : Span) : Settles l (Compile.releaseAt distances span) :=
  forM (fun n => emit1 _ n span) distances

theorem retain (t : Ty) (span : Span) : Settles l (Compile.retain t span) := forM (fun n => emit1 _ n span) t.distances

theorem discard (t : Ty) (span : Span) : Settles l (Compile.discard t span) := by
  refine (releaseAt _ span).bind fun _ => ?_
  split
  · exact (emit2 _ _ _ _).bind fun _ => sink _
  · exact sink _

theorem leaving {x : Compile Ty} (hx : Settles l x) : Settles l (Compile.leaving x) :=
  get fun _ => hx.bind fun _ => (setDepth _).bind fun _ => pure _

/-! ### The library -/

theorem onHeap (k : Heap → Heap × α) : Settles l (Compile.onHeap k) := fun _ hc =>
  ⟨⟨hc.grows, hc.instantiates, hc.undefined, hc.fresh⟩, rfl, rfl, rfl, fun _ h => h, fun _ h => h⟩

theorem onModule [Inhabited α] {k : Module → Module × α} (id : Nat) (hk : ∀ m : Module, m.Grows (k m).1) :
    Settles l (Compile.onModule id k) := fun c hc => by
  cases hm : c.library.modules[id]? with
  | none =>
    unfold Compile.onModule Meets Library.update
    simp only [hm]
    exact ⟨hc, .refl c⟩
  | some m => exact (meets_onModule hm).2 ⟨hc.grow hm (hk m), rfl, rfl, rfl, fun _ h => h, fun _ h => h⟩

theorem addFunction (id : Nat) (hg : g.body ≠ .undefined) : Settles l (Compile.addFunction id g) :=
  onModule id fun m => m.grows_addFunction hg

theorem addValue (id : Nat) (v : Value) : Settles l (Compile.addValue id v) := onModule id fun m => m.grows_addValue v

theorem typeOperand (t : Ty) : Settles l (Compile.typeOperand t) := get fun _ => onModule _ fun m => m.grows_addType t

theorem getModule (id : Nat) : Settles l (Compile.getModule id) := get fun _ => pure _

theorem getFunction (f : FunctionRef) (span : Span) : Settles l (Compile.getFunction f span) := by
  refine get fun c => ?_
  dsimp only
  split
  · exact pure _
  · exact fail _ _

theorem here : Settles l Compile.here := get fun _ => pure _

theorem getDraft : Settles l Compile.getDraft := get fun _ => pure _

theorem resolve (name : String) (span : Span) : Settles l (Compile.resolve name span) := get fun _ => lift _

theorem hint? (e : Expr) : Settles l (Compile.hint? e) := get fun _ => pure _

theorem callResult (f : FunctionRef) (span : Span) : Settles l (Compile.callResult f span) := by
  exact (getFunction f span).bind fun g => get fun c => guarded (pure _)

theorem importIndex (id : Nat) (span : Span) : Settles l (Compile.importIndex id span) := by
  refine here.bind fun importer => get fun c => (onModule importer fun m => m.grows_importVisible id).bind fun i => ?_
  split
  · exact fail _ _
  · split
    · exact pure _
    · exact fail _ _

theorem emitCall (f : FunctionRef) (span : Span) : Settles l (Compile.emitCall f span) := by
  refine (getFunction f span).bind fun g => ?_
  split
  · exact emit _
  · refine here.bind fun k => ?_
    split
    · exact emit1 _ _ _
    · refine (importIndex _ _).bind fun i => ?_
      split
      · exact emit1 _ _ _
      · exact emit2 _ _ _ _

theorem callNative (n : Native) (span : Span) : Settles l (Compile.callNative n span) := by
  refine get fun c => ?_
  dsimp only
  split
  · exact fail _ _
  · split
    · exact fail _ _
    · exact emitCall _ _

theorem forwardingCode (f : FunctionRef) (span : Span) : Settles l (Compile.forwardingCode f span) := by
  unfold Compile.forwardingCode
  refine guarded ?_
  refine here.bind fun k => ?_
  split
  · exact pure _
  · refine (importIndex _ _).bind fun i => ?_
    split <;> exact pure _

/-- A body that forwards is written already. -/
theorem forwarded {k : Body → Compile α} (f : FunctionRef) (span : Span)
    (hk : ∀ b : Body, b ≠ .undefined → Settles l (k b)) : Settles l (Compile.forwardingBody f span >>= k) := by
  have code : Settles l ((Compile.forwardingCode f span >>= fun bytes => Pure.pure (Body.code bytes)) >>= k) := by
    rw [bind_assoc]
    exact (forwardingCode f span).bind fun bytes => hk (.code bytes) (by simp)
  unfold Compile.forwardingBody
  rw [bind_assoc]
  refine (getFunction f span).bind fun g => ?_
  split
  · exact hk _ (by simp)
  · exact hk _ (by simp)
  · rw [bind_assoc]
    refine here.bind fun h => ?_
    rw [bind_assoc]
    refine get fun c => ?_
    split
    · exact hk _ (by simp)
    · exact code
  · exact code

end Settles

/-! ### Writing functions -/

variable {x : Option FunctionRef} {id i : Nat} {m : Module} {bad : CompileError → Compilation → Prop}

theorem Settled.sizes (h : c.Settled l x) (hm : c.library.modules[id]? = some m) :
    ∀ n, l.modules[id]? = some n → id ≠ c.module → n.functions.size ≤ m.functions.size ∧ n.scopes.size ≤ m.scopes.size := by
  intro n hn hid
  obtain ⟨p, hp, keeps⟩ := h.exists_module hm
  obtain rfl := Option.some.inj (hn.symm.trans hp)
  exact ⟨(keeps hid).functions_size, (keeps hid).scopes_size⟩

theorem Settled.bindIn (h : c.Settled l x) (hi : ∀ n, l.modules[id]? = some n → id ≠ c.module → n.scopes.size ≤ i)
    (name : String) (symbol : Symbol) : Meets (Compile.bindIn id i name symbol) c
      (fun _ d => d.Settled l x ∧ ∃ library, d = { c with library := library }) bad := by
  cases hm : c.library.modules[id]? with
  | none =>
    unfold Compile.bindIn Compile.onModule Meets Library.update
    simp only [hm]
    exact ⟨h, c.library, rfl⟩
  | some m => exact (meets_onModule hm).2 ⟨h.bind hm hi name symbol, _, rfl⟩

theorem Settled.bindAll (h : c.Settled l x) (hi : ∀ n, l.modules[id]? = some n → id ≠ c.module → n.scopes.size ≤ i)
    (symbols : List (String × Symbol)) : Meets (symbols.forM fun p => Compile.bindIn id i p.1 p.2) c
      (fun _ d => d.Settled l x ∧ ∃ library, d = { c with library := library }) bad := by
  refine Meets.forM (fun _ d => d.Settled l x ∧ ∃ library, d = { c with library := library }) (fun p _ d hd => ?_) symbols c
    ⟨h, c.library, rfl⟩
  obtain ⟨hd, library, rfl⟩ := hd
  exact (hd.bindIn hi p.1 p.2).imp (fun _ e he => ⟨he.1, he.2.imp fun _ e => e⟩) fun _ _ h => h

/-- A function that is begun is the one that is written. -/
structure Opened (l : Library) (c : Compilation) (f : FunctionRef) (d : Compilation) : Prop where
  settled : d.Settled l none
  module : d.module = c.module
  pending : d.pending = c.pending
  unfinished : d.unfinished = f :: c.unfinished
  target : d.draft.target = f

/-- A function is new to a module that is kept. -/
def New (l : Library) (c : Compilation) (f : FunctionRef) : Prop :=
  ∀ m, l.modules[f.module]? = some m → f.module ≠ c.module → m.functions.size ≤ f.index

theorem Settled.beginFunction (h : c.Settled l (some f)) (new : New l c f) (params : List String) (parent : Nat)
    (span : Span) : Meets (Compile.beginFunction f params parent span) c (fun _ d => Opened l c f d)
      fun e d => Spoiled l c f.module e d := by
  cases hg : c.library.function? f with
  | none =>
    unfold Compile.beginFunction Compile.getFunction
    simp only [meets_bind, meets_get, hg]
    exact h.spoiled_but _
  | some g =>
    obtain ⟨m, hm, -⟩ := Library.exists_module hg
    have sizes := h.sizes hm
    refine meets_bind.2 ((meets_getFunction hg).2 (meets_bind.2 ((meets_onModule hm).2 (meets_bind.2 ?_))))
    have added := h.grow hm (m.grows_addScope parent .function g.name)
    refine (added.bindAll (fun n hn hid => (sizes n hn hid).2) _).imp (fun _ d hd => ?_) fun _ _ h => h
    obtain ⟨hd, library, rfl⟩ := hd
    refine meets_modify.2 ⟨⟨hd.grows, hd.instantiates, fun r hr => ?_, fun n hn hid => ⟨new n hn hid, (sizes n hn hid).2⟩⟩,
      rfl, rfl, rfl, rfl⟩
    rcases hd.undefined r hr with (hp | hu) | e | hl
    · exact .inl (.inl hp)
    · exact .inl (.inr (.tail _ hu))
    · exact .inl (.inr (Option.some.inj e ▸ .head _))
    · exact .inr (.inr hl)

theorem Settles.releaseFrame (s : Signature) (t : Ty) (span : Span) : Settles l (Compile.releaseFrame s t span) := by
  refine (Settles.releaseAt _ span).bind fun _ => ?_
  split
  · exact .emit2 _ _ _ _
  · exact .pure _

theorem undefined_setFunction {library : Library} {r : FunctionRef} (hm : library.modules[f.module]? = some m)
    (hb : g.body ≠ .undefined) (h : (library.put f.module (m.setFunction f.index g)).Undefined r) :
    r ≠ f ∧ library.Undefined r := by
  obtain ⟨g', hg', hu⟩ := h
  by_cases hid : f.module = r.module
  · rw [Library.function?_eq, ← hid, Library.get_put_self hm] at hg'
    change (m.functions.setIfInBounds f.index g)[r.index]? = some g' at hg'
    rw [Array.getElem?_setIfInBounds] at hg'
    split at hg'
    · split at hg'
      · exact absurd hu (Option.some.inj hg' ▸ hb)
      · cases hg'
    · next hi =>
      exact ⟨fun e => hi (congrArg FunctionRef.index e).symm, g', (Library.function?_of_module (hid ▸ hm)).trans hg', hu⟩
  · exact ⟨fun e => hid (congrArg FunctionRef.module e).symm, g', (Library.function?_put_ne hid).symm.trans hg', hu⟩

/-- What was written does not wait any more. -/
theorem Settled.install (h : c.Settled l none) (hf : c.draft.target = f) (hm : c.library.modules[f.module]? = some m)
    {bytes : Array UInt8} (hb : g.body = .code bytes) :
    ({ c with
      library := c.library.put f.module (m.setFunction f.index g)
      unfinished := c.unfinished.filter (· ≠ f) } : Compilation).Settled l none := by
  subst hf
  refine ⟨h.grows.put hm rfl (fun _ h => h) fun n hn hid keeps => keeps.setFunction (h.fresh n hn hid).1 g,
    h.instantiates.put hm ((h.instantiates _ m hm).setFunction hb _), fun r hr => ?_, h.fresh⟩
  obtain ⟨hne, hr⟩ := undefined_setFunction hm (by simp [hb]) hr
  rcases h.undefined r hr with (hp | hu) | e | hl
  · exact .inl (.inl hp)
  · exact .inl (.inr (List.mem_filter.2 ⟨hu, by simpa using hne⟩))
  · cases e
  · exact .inr (.inr hl)

theorem Settled.finish (h : c.Settled l none) (hm : c.library.modules[f.module]? = none) :
    ({ c with unfinished := c.unfinished.filter (· ≠ f) } : Compilation).Settled l none := by
  refine ⟨h.grows, h.instantiates, fun r hr => ?_, h.fresh⟩
  rcases h.undefined r hr with (hp | hu) | e | hl
  · exact .inl (.inl hp)
  · refine .inl (.inr (List.mem_filter.2 ⟨hu, decide_eq_true fun e => ?_⟩))
    obtain ⟨g, hg, -⟩ := hr
    obtain ⟨m, hm', -⟩ := Library.exists_module hg
    rw [e, hm] at hm'
    cases hm'
  · cases e
  · exact .inr (.inr hl)

/-- The function that was written is defined. -/
theorem Settled.endFunction (h : c.Settled l none) (t : Ty) (span : Span) : Meets (Compile.endFunction t span) c
    (fun _ d => d.Settled l none ∧ c.Within d ∧ c.draft.target ∉ d.unfinished)
    fun e d => Spoiled l c c.draft.target.module e d := by
  unfold Compile.endFunction
  refine meets_bind.2 (meets_getDraft.2 ?_)
  split
  · exact h.spoiled _ _
  · next s _ =>
    refine (Settles.releaseFrame s t span c h).seq fun _ d hd => ?_
    obtain ⟨hd, w⟩ := hd
    refine meets_bind.2 (meets_getDraft.2 ?_)
    have within {library : Library} : c.Within { d with
        library := library
        unfinished := d.unfinished.filter (· ≠ c.draft.target) } :=
      ⟨w.module, w.target, w.scope, fun r hr => w.unfinished r (List.mem_filter.1 hr).1, w.pending⟩
    have unfinished : c.draft.target ∉ d.unfinished.filter (· ≠ c.draft.target) := fun hmem => by
      simpa using (List.mem_filter.1 hmem).2
    generalize d.draft.code.resolve = r
    obtain ⟨code, far⟩ := r
    cases far with
    | some jump => exact (hd.spoiled _ _).before w
    | none =>
      refine meets_bind.2 (meets_modify.2 ?_)
      cases hm : d.library.modules[c.draft.target.module]? with
      | none =>
        unfold Compile.onModule Meets Library.update
        simp only [hm]
        exact ⟨hd.finish hm, within, unfinished⟩
      | some m =>
        refine (meets_onModule (c := { d with unfinished := d.unfinished.filter (· ≠ c.draft.target) }) hm).2 ?_
        exact ⟨hd.install w.target hm rfl, within, unfinished⟩

/-- A function is begun, written and finished, while the draft that was written waits. -/
theorem Settled.writeFunction (h : c.Settled l (some f)) (new : New l c f) {body : Option Ty → Compile Ty}
    (hbody : ∀ t, Settles l (body t)) (params : List String) (parent : Nat) (span bodySpan : Span) :
    Meets (Compile.writeFunction f params parent span bodySpan body) c (fun _ d => d.Settled l none ∧ c.Within d)
      fun e d => Spoiled l c f.module e d := by
  refine meets_bind.2 (meets_getDraft.2 ((h.beginFunction new params parent span).seq fun _ d hd => ?_))
  have spoiled {d' e : Compilation} {err : CompileError} (hd' : Spoiled l d' f.module err e) (w : d.Within d') :
      Spoiled l c f.module err e := by
    have before := hd'.before w
    refine ⟨hd.module ▸ before.grows, before.instantiates, before.undefined.imp_right fun hu r hr => ?_⟩
    rcases hu r hr with hl | hk | hk | hk
    · exact .inl hl
    · exact .inr (.inl (hk.trans hd.module))
    · exact .inr (.inr (.inl hk))
    · rw [hd.unfinished] at hk
      rcases List.mem_cons.1 hk with rfl | hk
      · exact .inr (.inr (.inl rfl))
      · exact .inr (.inr (.inr hk))
  refine meets_bind.2 (meets_getDraft.2 (meets_bind.2 ((hbody _ d hd.settled).imp (fun t e he => ?_) fun err u hu => ?_)))
  · obtain ⟨he, w⟩ := he
    have target : e.draft.target = f := w.target.trans hd.target
    refine meets_bind.2 ((he.endFunction t bodySpan).imp (fun _ u hu => ?_) fun err u hu => ?_)
    · obtain ⟨hu, w', finished⟩ := hu
      have module : u.module = c.module := w'.module.trans (w.module.trans hd.module)
      refine meets_modify.2 ⟨⟨hu.grows, hu.instantiates, hu.undefined, ?_⟩, module, rfl, rfl, fun r hr => ?_, fun p hp => ?_⟩
      · change ∀ m, l.modules[c.draft.target.module]? = some m → c.draft.target.module ≠ u.module → _
        rw [module]
        exact h.fresh
      · have := w.unfinished r (w'.unfinished r hr)
        rw [hd.unfinished] at this
        rcases List.mem_cons.1 this with rfl | hr'
        · rw [target] at finished
          exact absurd hr finished
        · exact hr'
      · exact hd.pending ▸ w.pending p (w'.pending p hp)
    · rw [target] at hu
      exact spoiled hu w
  · rw [hd.target] at hu
    exact spoiled hu (.refl d)

/-! ### Functions whose bodies are elsewhere -/

/-- Functions are written like those whose bodies are at hand. -/
def Finishes (l : Library) (deferred : Deferred) : Prop :=
  ∀ (c : Compilation) (f : FunctionRef) (decl : FunctionDecl) (scope : Nat), c.Settled l (some f) → New l c f →
    Meets (deferred f decl scope) c (fun _ d => d.Settled l none ∧ c.Within d) fun e d => Spoiled l c f.module e d

variable {deferred : Deferred}

theorem lookup_none {β : Type} {ps : List (Nat × β)} {i : Nat} (h : ps.lookup i = none) : ∀ p ∈ ps, p.1 ≠ i := by
  rw [List.lookup_eq_none_iff] at h
  exact fun p hp e => by simpa [e] using h p hp

/-- A pending function is written, and does not pend any more. -/
theorem Settled.ensureWritten (hw : Finishes l deferred) (h : c.Settled l none) :
    Meets (Compile.ensureWritten deferred f) c
      (fun _ d => d.Settled l none ∧ c.Within d ∧ (f.module = c.module → ∀ p ∈ d.pending, p.1 ≠ f.index))
      fun e d => Spoiled l c c.draft.target.module e d := by
  refine meets_bind.2 (meets_get.2 ?_)
  split
  · next hid =>
    cases hl : c.pending.lookup f.index with
    | none => exact ⟨h, .refl c, fun _ => lookup_none hl⟩
    | some decl =>
      have settled : ({ c with pending := c.pending.filter fun p => p.1 ≠ f.index } : Compilation).Settled l (some f) := by
        refine ⟨h.grows, h.instantiates, fun r hr => ?_, h.fresh⟩
        rcases h.undefined r hr with (⟨hk, p, hp, e⟩ | hu) | e | hl
        · by_cases hi : p.1 = f.index
          · obtain ⟨k, i⟩ := f
            obtain ⟨k', i'⟩ := r
            obtain rfl : k = k' := hid.trans hk.symm
            obtain rfl : i = i' := hi.symm.trans e
            exact .inr (.inl rfl)
          · exact .inl (.inl ⟨hk, p, List.mem_filter.2 ⟨hp, decide_eq_true hi⟩, e⟩)
        · exact .inl (.inr hu)
        · cases e
        · exact .inr (.inr hl)
      have within : c.Within { c with pending := c.pending.filter fun p => p.1 ≠ f.index } :=
        ⟨rfl, rfl, rfl, fun _ h => h, fun p hp => (List.mem_filter.1 hp).1⟩
      refine meets_bind.2 (meets_set.2 ((hw _ f decl _ settled fun m _ hne => absurd hid hne).imp (fun _ d hd => ?_)
        fun e d hd => ?_))
      · refine ⟨hd.1, within.trans hd.2, fun _ p hp => ?_⟩
        exact of_decide_eq_true (List.mem_filter.1 (hd.2.pending p hp)).2
      · have before := hd.before within
        refine ⟨before.grows, before.instantiates, before.undefined.imp_right fun hu r hr => ?_⟩
        rcases hu r hr with hl | hk | hk | hk
        · exact .inl hl
        · exact .inr (.inl hk)
        · exact .inr (.inl (hk.trans hid))
        · exact .inr (.inr (.inr hk))
  · next hid => exact ⟨h, .refl c, fun e => absurd e hid⟩

theorem Settles.ensureWritten (hw : Finishes l deferred) (f : FunctionRef) : Settles l (Compile.ensureWritten deferred f) :=
  fun _ hc => (hc.ensureWritten hw).imp (fun _ _ h => ⟨h.1, h.2.1⟩) fun _ _ h => h

/-- An instance is forgotten again, and what it was made of left unwritten. -/
theorem Spoiled.removeInstance {e : CompileError} {d : Compilation} (h : Spoiled l c f.module e d) (hl : l.Instantiates)
    (new : New l c f) {failure : CompileError} (hf : failure.isInstantiation) (k : Nat) :
    Meets (Compile.onModule f.module fun m => (m.removeInstance f.index, ())) d
      (fun _ u => Spoiled l c k failure u) bad := by
  cases hm : d.library.modules[f.module]? with
  | none =>
    unfold Compile.onModule Meets Library.update
    simp only [hm]
    exact ⟨h.grows, h.instantiates, .inl hf⟩
  | some m =>
    refine (meets_onModule hm).2 ⟨?_, ?_, .inl hf⟩
    · exact h.grows.put hm rfl (fun _ h => h) fun n hn hid keeps => keeps.removeInstance (hl _ n hn) (new n hn hid)
    · exact h.instantiates.put hm ((h.instantiates _ m hm).removeInstance _)

theorem Settled.addInstance (h : c.Settled l x) (hm : c.library.modules[id]? = some m) {j : Instance}
    (hj : m.functions[j.function]? = some g) (hg : g.body = .undefined) :
    ({ c with library := c.library.put id (m.addInstance j) } : Compilation).Settled l x :=
  h.put hm rfl (fun _ h => h) (fun h => h.addInstance hj hg) (fun _ _ _ keeps => keeps.addInstance j)
    (fun _ _ hf _ => .inl hf) fun _ h => h

/-- An instance is written before it is used, or the failure says that it was not. -/
theorem Settles.instantiate (hl : l.Instantiates) (hw : Finishes l deferred) (f : FunctionRef) (types : List Ty) (span : Span) :
    Settles l (Compile.instantiate deferred f types span) := by
  refine (Settles.getModule f.module).bind fun m => ?_
  split
  · exact .pure _
  · intro c hc
    cases hg : c.library.function? f with
    | none =>
      unfold Compile.getFunction
      simp only [meets_bind, meets_get, hg]
      exact hc.spoiled _ _
    | some g =>
      obtain ⟨m, hm, -⟩ := Library.exists_module hg
      refine meets_bind.2 ((meets_getFunction hg).2 ?_)
      split
      · next decl scope _ =>
        refine meets_bind.2 ((meets_onModule hm).2 (meets_bind.2 ((meets_onModule (Library.modules_put_self hm)).2 ?_)))
        generalize hg₀ : (⟨_, _, _, _⟩ : Function) = g₀
        have added : (m.addFunction g₀).1.functions[m.functions.size]? = some g₀ := Array.getElem?_push_size
        have settled := (hc.addFunction (g := g₀) hm).addInstance (Library.modules_put_self hm)
          (j := ⟨f.index, types, m.functions.size⟩) added (by rw [← hg₀])
        have new : New l c ⟨f.module, m.functions.size⟩ := fun n hn hid => (hc.sizes hm n hn hid).1
        refine meets_bind.2 (meets_tryCatch.2 ((hw _ _ decl scope settled new).imp (fun _ d hd => ?_) fun e d hd => ?_))
        · exact ⟨hd.1, hd.2.module, hd.2.target, hd.2.scope, hd.2.unfinished, hd.2.pending⟩
        · refine meets_bind.2 ?_
          have spoiled : Spoiled l c f.module e d := ⟨hd.grows, hd.instantiates, hd.undefined⟩
          exact (spoiled.removeInstance (f := ⟨f.module, m.functions.size⟩) hl new rfl _)
      · exact hc.spoiled _ _

/-! ### Functions inside functions -/

theorem Settled.widen (h : c.Settled l none) (f : FunctionRef) : c.Settled l (some f) :=
  ⟨h.grows, h.instantiates, fun r hr => (h.undefined r hr).imp_right fun h => h.imp_left nofun, h.fresh⟩

/-- A function is added that may have to be written. -/
theorem Settled.declare (h : c.Settled l none) (id : Nat) (g : Function) : Meets (Compile.addFunction id g) c
    (fun i d => d.Settled l (some ⟨id, i⟩) ∧ New l c ⟨id, i⟩ ∧ ∃ library, d = { c with library := library }) bad := by
  cases hm : c.library.modules[id]? with
  | none =>
    unfold Compile.addFunction Compile.onModule Meets Library.update
    simp only [hm]
    refine ⟨h.widen _, fun n hn _ => ?_, c.library, rfl⟩
    have hlt := (Array.getElem?_eq_some_iff.1 hn).1
    rw [← h.grows.size] at hlt
    rw [Array.getElem?_eq_getElem hlt] at hm
    cases hm
  | some m => exact (meets_onModule hm).2 ⟨h.addFunction hm, fun n hn hid => (h.sizes hm n hn hid).1, _, rfl⟩

theorem Settled.addWritten (h : c.Settled l none) (id : Nat) (hg : g.body ≠ .undefined) : Meets (Compile.addFunction id g) c
    (fun _ d => d.Settled l none ∧ ∃ library, d = { c with library := library }) bad := by
  cases hm : c.library.modules[id]? with
  | none =>
    unfold Compile.addFunction Compile.onModule Meets Library.update
    simp only [hm]
    exact ⟨h, c.library, rfl⟩
  | some m => exact (meets_onModule hm).2 ⟨h.grow hm (m.grows_addFunction hg), _, rfl⟩

/-- The name of a function is bound, if it has one. -/
theorem Settled.named {ok : β → Compilation → Prop} {name : String} {symbol : Symbol} {k : PUnit → Compile β}
    (h : c.Settled l x) (hi : ∀ n, l.modules[id]? = some n → id ≠ c.module → n.scopes.size ≤ i)
    (hk : ∀ library, ({ c with library := library } : Compilation).Settled l x →
      Meets (k ⟨⟩) { c with library := library } ok bad) :
    Meets (if !name.isEmpty then Compile.bindIn id i name symbol >>= k else k ⟨⟩) c ok bad := by
  split
  · refine (h.bindIn hi name symbol).seq fun _ d hd => ?_
    obtain ⟨hd, library, rfl⟩ := hd
    exact hk library hd
  · exact hk c.library h

theorem Settles.declareNested (decl : FunctionDecl) (s : Signature) {body : Option Ty → Compile Ty}
    (hbody : ∀ t, Settles l (body t)) : Settles l (Compile.declareNested decl s body) := by
  intro c hc
  have inside (n : Module) (hn : l.modules[c.draft.target.module]? = some n) (hid : c.draft.target.module ≠ c.module) :
      n.scopes.size ≤ c.draft.scope := (hc.fresh n hn hid).2
  have within (library : Library) : c.Within { c with library := library } := ⟨rfl, rfl, rfl, fun _ h => h, fun _ h => h⟩
  unfold Compile.declareNested
  refine meets_bind.2 (meets_getDraft.2 (meets_bind.2 (meets_getDraft.2 (meets_bind.2 (meets_bind.2 (meets_get.2
    (meets_pure.2 ?_)))))))
  dsimp only
  generalize decl.captures (c.library.get c.draft.1.module) c.draft.scope = captures
  change Meets (Compile.addFunction c.draft.target.module _ >>= _) c _ _
  by_cases hs : s.isGeneric
  · have generic : ({ s with nonlocals := captures.map (·.2) } : Signature).isGeneric = true := hs
    simp only [generic, if_true, Bool.not_true, Bool.false_eq_true, if_false]
    refine (hc.addWritten c.draft.target.module (by simp)).seq fun i d hd => ?_
    obtain ⟨hd, library, rfl⟩ := hd
    exact hd.named inside fun library h => ⟨h, within library⟩
  · have plain : ({ s with nonlocals := captures.map (·.2) } : Signature).isGeneric = false := Bool.not_eq_true _ ▸ hs
    simp only [plain, Bool.false_eq_true, if_false, Bool.not_false, if_true]
    refine (hc.declare c.draft.target.module _).seq fun i d hd => ?_
    obtain ⟨hd, new, library, rfl⟩ := hd
    refine hd.named inside fun library h => meets_bind.2 ((h.writeFunction new hbody _ _ _ _).imp (fun _ e he => ?_)
      fun err e he => ?_)
    · exact ⟨he.1, (within library).trans he.2⟩
    · exact he.before (within library)

/-! ### Uses of functions -/

namespace Settles

section

variable (hl : l.Instantiates) (hw : Finishes l deferred)
include hl hw

theorem specialize (f : FunctionRef) (g : Function) (expected : Option Ty) (span : Span) :
    Settles l (Compile.specialize deferred f g expected span) := by
  unfold Compile.specialize
  split
  · exact pure _
  · split
    · exact guarded (guarded ((instantiate hl hw f _ span).bind fun _ => pure _))
    · exact fail _ _

omit hl in
theorem pushCaptures {push : Compile.Push} (hp : ∀ name t span, Settles l (push name t span)) (g : Function) (span : Span) :
    Settles l (Compile.pushCaptures push g span) := by
  refine forM (fun p => (hp _ _ _).bind fun t => getDraft.bind fun d => (setDepth _).bind fun _ => ?_) _
  split
  · exact fail _ _
  · exact pure _

theorem pushFunction {push : Compile.Push} (hp : ∀ name t span, Settles l (push name t span)) (f : FunctionRef)
    (expected : Option Ty) (span : Span) : Settles l (Compile.pushFunction deferred push f expected span) := by
  have closed (f : FunctionRef) (g : Function) (t : Ty) (i : Nat) : Settles l (if g.captures.isEmpty then
      Compile.emit1 .loadFunction i span >>= fun _ => Pure.pure (Ty.function g.signature.params t)
      else Compile.pushCaptures push g span >>= fun _ => Compile.emit1 .makeClosure i span >>= fun _ =>
        Pure.pure (Ty.function g.signature.params t)) := by
    split
    · exact (emit1 _ _ _).bind fun _ => pure _
    · exact (pushCaptures hw hp g span).bind fun _ => (emit1 _ _ _).bind fun _ => pure _
  refine (getFunction f span).bind fun g => (specialize hl hw f g expected span).bind fun f =>
    (ensureWritten hw f).bind fun _ => (callResult f span).bind fun t => (getFunction f span).bind fun g => here.bind fun k => ?_
  dsimp only
  split
  · exact closed f g t _
  · exact forwarded f span fun b hb => here.bind fun h => (addFunction h hb).bind fun i => closed f g t i

end

theorem pushStatic (name : String) (module index : Nat) (span : Span) :
    Settles l (Compile.pushStatic name module index span) := by
  refine (getModule module).bind fun m => ?_
  split
  · exact fail _ _
  · next v _ =>
    refine here.bind fun k => ?_
    split
    · exact (emit1 _ _ _).bind fun _ => pure _
    · refine (onHeap _).bind fun r => ?_
      split
      · exact (fail _ _).bind fun _ => pure _
      · exact (addValue _ _).bind fun i => (emit1 _ _ _).bind fun _ => pure _

section

variable (hl : l.Instantiates) (hw : Finishes l deferred)
include hl hw

theorem pushNested : ∀ (n : Nat) (name : String) (expected : Option Ty) (span : Span),
    Settles l (Compile.pushNested deferred n name expected span)
  | 0, _, _, span => fail _ span
  | n + 1, name, expected, span => by
    refine (resolve name span).bind fun meaning => ?_
    cases meaning with
    | stored op offset t =>
      dsimp only
      split
      · exact (emit2 _ _ _ _).bind fun _ => (retain _ _).bind fun _ => pure _
      · exact pure _
    | function f => exact pushFunction hl hw (pushNested n) f expected span
    | computed f =>
      exact (ensureWritten hw f).bind fun _ => (callResult f span).bind fun t => (emitCall f span).bind fun _ => pure _
    | value module index => exact pushStatic name module index span

theorem pushVariable (name : String) (expected : Option Ty) (span : Span) :
    Settles l (Compile.pushVariable deferred name expected span) := pushNested hl hw _ name expected span

/-! ### Calls -/

theorem callWritten (f : FunctionRef) (span : Span) : Settles l (Compile.callWritten deferred f span) :=
  (callResult f span).bind fun _ => (getFunction f span).bind fun g =>
    (pushCaptures hw (pushVariable hl hw) g span).bind fun _ => (emitCall f span).bind fun _ => pure _

theorem callGeneric (f : FunctionRef) (g : Function) {args : Compile.Arguments} (ha : ∀ ts, Settles l (args.push ts))
    (span : Span) : Settles l (Compile.callGeneric deferred f g args span) := by
  unfold Compile.callGeneric
  refine guarded ?_
  exact (ha _).bind fun _ => (lift _).bind fun types => (instantiate hl hw f types span).bind fun _ => callWritten hl hw _ span

theorem pushPartial (f : FunctionRef) (count : Nat) (span : Span) : Settles l (Compile.pushPartial deferred f count span) :=
  (getFunction f span).bind fun g => (callResult f span).bind fun _ => here.bind fun k =>
    forwarded f span fun _ hb => (addFunction k hb).bind fun _ =>
      (pushCaptures hw (pushVariable hl hw) g span).bind fun _ => (emit1 _ _ _).bind fun _ => pure _

theorem callFunction (f : FunctionRef) {args : Compile.Arguments} (ha : ∀ ts, Settles l (args.push ts)) (span : Span) :
    Settles l (Compile.callFunction deferred f args span) := by
  refine (getFunction f span).bind fun g => ?_
  split
  · exact callGeneric hl hw f g ha span
  · refine guarded ?_
    refine (ha _).bind fun _ => (ensureWritten hw f).bind fun _ => ?_
    split
    · exact pushPartial hl hw f _ span
    · exact callWritten hl hw f span

theorem callLambda (decl : FunctionDecl) {body : Option Ty → Compile Ty} (hbody : ∀ t, Settles l (body t))
    {args : Compile.Arguments} (ha : ∀ ts, Settles l (args.push ts)) (span : Span) :
    Settles l (Compile.callLambda deferred decl body args span) := by
  unfold Compile.callLambda
  refine guarded ?_
  refine (lift _).bind fun s => (ha _).bind fun found => ?_
  dsimp only
  split
  · exact (fail _ _).bind fun _ => (declareNested decl _ hbody).bind fun _ => here.bind fun _ => callWritten hl hw _ span
  · exact (declareNested decl _ hbody).bind fun _ => here.bind fun _ => callWritten hl hw _ span

end

theorem callValue (callee : Expr) {push : Option Ty → Compile Ty} (hp : ∀ t, Settles l (push t)) {args : Compile.Arguments}
    (ha : ∀ ts, Settles l (args.push ts)) (span : Span) : Settles l (Compile.callValue callee push args span) := by
  refine (hint? callee).bind fun hint => (ha _).bind fun found => (hp _).bind fun t => ?_
  split
  · refine guarded ?_
    dsimp only
    split
    · exact (throw _).bind fun _ => (emit _).bind fun _ => pure _
    · exact (emit _).bind fun _ => pure _
  · exact fail _ _

end Settles

end Compilation

end StackScript
