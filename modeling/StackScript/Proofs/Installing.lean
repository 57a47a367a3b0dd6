import StackScript.Compile.Program
import StackScript.Proofs.Forming

/-!
Functions are installed with code that is whole and names what is there: those that are written, those that pass a call on,
and those that are copies of others.
-/
namespace StackScript

variable {l : Library} {k id : Nat} {c : Compilation} {f : FunctionRef} {g : Function} {span : Span} {t : Ty}

namespace Compile

namespace Forms

/-! ### Functions that pass a call on -/

theorem forwardingCode (f : FunctionRef) (span : Span) (has : l.HasFunction f) :
    Forms l k (Compile.forwardingCode f span) fun bytes l' => l'.AdmitsAt k (.code bytes) := by
  unfold Compile.forwardingCode
  refine guarded fun hlt => ?_
  have index : (UInt8.ofNat f.index).toNat = f.index := UInt8.toNat_ofNat_of_lt' (Nat.not_le.1 hlt)
  refine here.bind fun id l' w e => ?_
  subst e
  split
  · next hid =>
    refine pure fun l'' w' => Library.admitsAt_single ⟨.call0, [.ofNat f.index], rfl⟩ rfl ?_ rfl
    have := ((has.mono w).mono w').call0
    rw [← hid]
    simpa [Code.Item.first, Code.Item.second, index] using this
  · refine (importIndex f.module span).bind fun i l'' w' hi => ?_
    split
    · refine pure fun l₃ w₃ => Library.admitsAt_single ⟨.call1, [.ofNat f.index], rfl⟩ rfl ?_ rfl
      have := (((has.mono w).mono w').call1 hi.1).mono w₃
      simpa [Code.Item.first, Code.Item.second, index] using this
    · refine pure fun l₃ w₃ => Library.admitsAt_single ⟨.call, [_, .ofNat f.index], rfl⟩ rfl ?_ rfl
      have := (((has.mono w).mono w').call hi.1).mono w₃
      have importer : (UInt8.ofNat i).toNat = i := UInt8.toNat_ofNat_of_lt' hi.2
      simpa [Code.Item.first, Code.Item.second, index, importer] using this

/-- A body that does what a function does is one that the module admits. -/
theorem forwardingBody (f : FunctionRef) (span : Span) :
    Forms l k (Compile.forwardingBody f span) fun b l' => l'.AdmitsAt k b := by
  unfold Compile.forwardingBody
  refine (getFunction f span).bind fun g l' _ hg => ?_
  obtain ⟨has, admits⟩ := hg
  have code (l'' : Library) (w : l'.Widens l'') : Forms l'' k (Compile.forwardingCode f span >>= fun bytes =>
      Pure.pure (Body.code bytes)) fun b l' => l'.AdmitsAt k b :=
    (forwardingCode f span (has.mono w)).bind fun bytes l₃ _ h => pure fun _ w => h.mono w
  split
  · exact pure fun _ _ _ _ => trivial
  · next op hb =>
    obtain ⟨m, hm, -⟩ := has
    have hop : op.arity = 0 := by
      have := admits m hm
      rwa [hb] at this
    exact pure fun l'' w => Library.admitsAt_single ⟨op, [], hop.symm⟩ (Opcode.not_isJump (by simp [hop]))
      (fun _ _ _ => Library.covers_of_arity hop) rfl
  · next bytes hb =>
    refine here.bind fun id l'' w e => get fun c w' _ _ => ?_
    subst e
    split
    · next h =>
      simp only [Bool.and_eq_true, decide_eq_true_eq] at h
      refine pure fun l₃ w₃ => h.1 ▸ hb ▸ ((admits.mono w).mono w').mono w₃
    · exact code _ (w.trans w')
  · exact code l' (.refl l')

/-! ### Functions that are written -/

theorem releaseFrame (s : Signature) (t : Ty) (span : Span) : Forms l k (Compile.releaseFrame s t span) Any := by
  refine (releaseAt _ span).seq fun _ => ?_
  split
  · exact drop _ _ _
  · exact done _

/-- What an action does before the draft changes hands. -/
theorem before {α β : Type} {x : Compile α} {y : α → Compile β} {post : α → Library → Prop}
    {ok : β → Compilation → Prop} (hx : Forms c.library c.draft.target.module x post) (hc : c.Shaped)
    (hy : ∀ a d, d.Shaped → c.Onward d → Meets (y a) d ok fun _ e => e.library.Formed ∧ d.library.Widens e.library) :
    Meets (x >>= y) c ok fun _ e => e.library.Formed ∧ c.library.Widens e.library :=
  ((hx c hc (.refl _) rfl).seq fun a d hd => (hy a d hd.1 hd.2.1).imp (fun _ _ h => h) fun _ _ he =>
    ⟨he.1, hd.2.1.library.trans he.2⟩)

/-- A function is begun with no code. -/
theorem begun (hc : c.Shaped) (params : List String) (parent : Nat) (span : Span) :
    Meets (Compile.beginFunction f params parent span) c
      (fun _ d => d.Shaped ∧ c.library.Widens d.library ∧ d.draft.target = f)
      fun _ d => d.library.Formed ∧ c.library.Widens d.library := by
  refine (getFunction f span).before hc fun g d hd on => (addScope _ _ _ _).before hd fun i e he on' =>
    (forM (fun p => bindIn _ _ _ _) _).before he fun _ u hu on'' => meets_modify.2 ⟨⟨hu.formed, Code.valid_empty, fun m _ _ => ?_⟩, ?_, rfl⟩
  · exact Code.drafted_empty
  · exact (on.library.trans on'.library).trans on''.library

theorem endFunction (t : Ty) (span : Span) : Forms l k (Compile.endFunction t span) Any := by
  intro c hc w hk
  refine meets_bind.2 (Compilation.meets_getDraft.2 ?_)
  split
  · exact ⟨hc.formed, .refl _⟩
  · next s _ =>
    subst hk
    refine (releaseFrame s t span).before hc fun _ d hd on => meets_bind.2 (Compilation.meets_getDraft.2 ?_)
    generalize hr : d.draft.code.resolve = r
    obtain ⟨code, far⟩ := r
    cases far with
    | some jump => exact ⟨hd.formed, .refl _⟩
    | none =>
      refine meets_bind.2 (meets_modify.2 ?_)
      cases hm : d.library.modules[c.draft.target.module]? with
      | none =>
        unfold Compile.onModule Meets Library.update
        simp only [hm]
        exact ⟨⟨hd.formed, hd.valid, hd.draft⟩, ⟨on.library, on.target, on.code⟩, trivial⟩
      | some m =>
        refine (Compilation.meets_onModule (c := { d with unfinished := d.unfinished.filter (· ≠ c.draft.target) }) hm).2
          ⟨?_, ⟨on.library.trans (Library.widens_put hm (m.widens_setFunction _ _)), on.target, on.code⟩, trivial⟩
        refine Compilation.Shaped.put (c := { d with unfinished := d.unfinished.filter (· ≠ c.draft.target) })
          ⟨hd.formed, hd.valid, hd.draft⟩ hm (m.widens_setFunction _ _) fun g hg => ?_
        rcases Array.mem_or_eq_of_mem_setIfInBounds hg with hg | rfl
        · exact .inl hg
        · refine .inr fun n hn ha => (hd.draft n ?_ ha).wellFormed (fun _ _ h => Library.covers_of_isJump h) hr
          rw [on.target]
          exact hn

/-- A function is begun, written and finished, while the draft that was written waits. -/
theorem writeFunction {body : Option Ty → Compile Ty} (hbody : ∀ t l, Forms l f.module (body t) Any) (params : List String)
    (parent : Nat) (span bodySpan : Span) : Forms l k (Compile.writeFunction f params parent span bodySpan body) Any := by
  intro c hc w hk
  refine meets_bind.2 (Compilation.meets_getDraft.2 ((begun hc params parent span).seq fun _ d hd => ?_))
  obtain ⟨hd, w', target⟩ := hd
  have rest : Meets (Compile.getDraft >>= fun x => body (if x.signature.result.isUnknown then none else some x.signature.result)
      >>= fun t => Compile.endFunction t bodySpan >>= fun _ => Compile.setDraft c.draft) d
      (fun _ e => e.library.Formed ∧ d.library.Widens e.library ∧ e.draft = c.draft)
      fun _ e => e.library.Formed ∧ d.library.Widens e.library := by
    refine meets_bind.2 (Compilation.meets_getDraft.2 ((target ▸ hbody _ d.library).before hd fun t e he on =>
      (endFunction t bodySpan).before he fun _ u hu on' => meets_modify.2 ⟨hu.formed, ?_, rfl⟩))
    exact on.library.trans on'.library
  refine rest.imp (fun _ e he => ?_) fun _ e he => ⟨he.1, w'.trans he.2⟩
  obtain ⟨formed, we, draft⟩ := he
  have widened := w'.trans we
  have shaped := hc.widen formed widened
  rw [← draft] at shaped
  exact ⟨⟨formed, shaped.valid, shaped.draft⟩, ⟨widened, congrArg _ draft, draft ▸ .refl _⟩, trivial⟩

/-! ### Functions whose bodies are elsewhere -/

end Forms

/-- Functions are written whose bodies are not at hand. -/
def Installs (deferred : Deferred) : Prop :=
  ∀ (f : FunctionRef) (decl : FunctionDecl) (scope : Nat) (l : Library) (k : Nat), Forms l k (deferred f decl scope) Any

namespace Forms

variable {deferred : Deferred}

theorem getModule (id : Nat) : Forms l k (Compile.getModule id) Any := get fun _ _ _ _ => done _

section

variable (hw : Installs deferred)
include hw

theorem ensureWritten (f : FunctionRef) : Forms l k (Compile.ensureWritten deferred f) Any := by
  intro c hc w hk
  refine meets_bind.2 (meets_get.2 ?_)
  split
  · split
    · next decl _ =>
      have shaped : ({ c with pending := c.pending.filter fun p => p.1 ≠ f.index } : Compilation).Shaped :=
        ⟨hc.formed, hc.valid, hc.draft⟩
      exact meets_bind.2 (meets_set.2 ((hw f decl _ l k _ shaped w hk).imp
        (fun _ _ h => ⟨h.1, ⟨h.2.1.library, h.2.1.target, h.2.1.code⟩, trivial⟩) fun _ _ h => h))
    · exact ⟨hc, .refl c, trivial⟩
  · exact ⟨hc, .refl c, trivial⟩

omit hw in
/-- An instance that could not be written is forgotten, and the failure goes on. -/
theorem forgotten (hc : c.library.Formed) (id : Nat) (i : Nat) (cause : CompileError.Cause) (span : Span)
    {ok : PUnit → Compilation → Prop} :
    Meets (Compile.onModule id (fun m => (m.removeInstance i, ())) >>= fun _ => Compile.fail cause span) c ok
      fun _ d => d.library.Formed ∧ c.library.Widens d.library := by
  refine meets_bind.2 ?_
  cases hm : c.library.modules[id]? with
  | none =>
    unfold Compile.onModule Meets Library.update
    simp only [hm]
    exact ⟨hc, .refl _⟩
  | some m =>
    have widens : m.Widens (m.removeInstance i) := Module.widens_of_eq rfl rfl rfl rfl rfl
    exact (Compilation.meets_onModule hm).2 ⟨hc.put hm widens fun _ hg => .inl hg, Library.widens_put hm widens⟩

theorem instantiate (f : FunctionRef) (types : List Ty) (span : Span) :
    Forms l k (Compile.instantiate deferred f types span) Any := by
  refine (getModule f.module).seq fun m => ?_
  split
  · exact done _
  · refine (getFunction f span).forget.seq fun g => ?_
    split
    · refine seq (addFunction f.module fun _ _ => ?_).forget fun i => ?_
      · trivial
      refine (onModule f.module (fun _ => Module.widens_of_eq rfl rfl rfl rfl rfl) (fun _ _ hg => .inl hg)
        (P := fun _ _ => True) fun _ => trivial).forget.seq fun _ => ?_
      refine seq (fun c hc w hk => meets_tryCatch.2 ((hw _ _ _ l k c hc w hk).imp (fun _ _ h => h) fun e d hd => ?_))
        fun _ => done _
      exact (forgotten hd.1 _ _ _ _).imp (fun _ _ h => h) fun _ _ h => ⟨h.1, hd.2.trans h.2⟩
    · exact fail _ _

end

/-! ### Functions inside functions -/

theorem declareNested (decl : FunctionDecl) (s : Signature) {body : Option Ty → Compile Ty}
    (hbody : ∀ t l k, Forms l k (body t) Any) : Forms l k (Compile.declareNested decl s body) Any := by
  unfold Compile.declareNested
  refine getDraft.seq fun d => getDraft.seq fun d' => (getModule _).seq fun m => ?_
  dsimp only
  have undefined : l.AdmitsAt d.target.module
    (if Signature.isGeneric { s with nonlocals := (decl.captures m d'.scope).map (·.2) } then .generic decl d'.scope else .undefined) :=
    fun _ _ => by split <;> trivial
  refine (addFunction _ undefined).forget.seq fun i => ?_
  have written : Forms l k (if (!Signature.isGeneric { s with nonlocals := (decl.captures m d'.scope).map (·.2) }) = true then
      Compile.writeFunction ⟨d.target.module, i⟩ (FreeNames.paramNames decl.header) d'.scope decl.header.span decl.body.span body
        >>= fun _ => Pure.pure i
      else Pure.pure i) Any := by
    split
    · exact (writeFunction (fun t l => hbody t l _) _ _ _ _).seq fun _ => done _
    · exact done _
  split
  · exact (bindIn _ _ _ _).seq fun _ => written
  · exact written

/-! ### Uses of functions -/

section

variable (hw : Installs deferred)
include hw

theorem specialize (f : FunctionRef) (g : Function) (expected : Option Ty) (span : Span) :
    Forms l k (Compile.specialize deferred f g expected span) Any := by
  unfold Compile.specialize
  split
  · exact done _
  · split
    · exact guarded fun _ => guarded fun _ => (instantiate hw f _ span).seq fun _ => done _
    · exact fail _ _

omit hw in
theorem pushCaptures {push : Compile.Push} (hp : ∀ name t span, Forms l k (push name t span) Any) (g : Function) (span : Span) :
    Forms l k (Compile.pushCaptures push g span) Any := by
  refine forM (fun p => (hp _ _ _).seq fun t => getDraft.seq fun d => (setDepth _).seq fun _ => ?_) _
  split
  · exact fail _ _
  · exact done _

theorem pushFunction {push : Compile.Push} (hp : ∀ name t span l, Forms l k (push name t span) Any) (f : FunctionRef)
    (expected : Option Ty) (span : Span) : Forms l k (Compile.pushFunction deferred push f expected span) Any := by
  have closed (l : Library) (g : Function) (t : Ty) (i : Nat) (hi : ∀ m, l.modules[k]? = some m → i < m.functions.size) :
      Forms l k (if g.captures.isEmpty then
        Compile.emit1 .loadFunction i span >>= fun _ => Pure.pure (Ty.function g.signature.params t)
        else Compile.pushCaptures push g span >>= fun _ => Compile.emit1 .makeClosure i span >>= fun _ =>
          Pure.pure (Ty.function g.signature.params t)) Any := by
    split
    · exact (loadFunction hi).seq fun _ => done _
    · exact (pushCaptures (fun name t span => hp name t span l) g span).seq fun _ =>
        (makeClosure hi).seq fun _ => done _
  refine (getFunction f span).forget.seq fun g => (specialize hw f g expected span).seq fun f =>
    (ensureWritten hw f).seq fun _ => (callResult f span).seq fun t => (getFunction f span).bind fun g l' _ hg =>
      here.bind fun id l'' w e => ?_
  subst e
  dsimp only
  split
  · next h =>
    simp only [Bool.and_eq_true, decide_eq_true_eq] at h
    exact closed _ g t _ fun m hm => (hg.1.mono w).lt (h.1 ▸ hm)
  · exact (forwardingBody f span).bind fun b l₃ _ hb => here.bind fun id l₄ w e => by
      subst e
      exact (addFunction id (hb.mono w)).bind fun i l₅ _ hi => closed l₅ g t i hi

end

theorem pushStatic (name : String) (module index : Nat) (span : Span) :
    Forms l k (Compile.pushStatic name module index span) Any := by
  refine get fun c _ _ _ => ?_
  split
  · exact fail _ _
  · next v hv =>
    refine here.bind fun id l' w e => ?_
    subst e
    split
    · next hid =>
      refine (loadStatic fun n hn => ?_).seq fun _ => done _
      obtain ⟨m, hm, hmn⟩ := w.back hn
      rw [hid, Library.get_eq hm] at hv
      exact Nat.lt_of_lt_of_le (Array.getElem?_eq_some_iff.1 hv).1 hmn.values
    · refine (onHeap _).seq fun r => ?_
      split
      · exact (fails _ _).seq fun _ => done _
      · exact (addValue _ _).bind fun i l'' _ hi => (loadStatic hi).seq fun _ => done _

/-- What reads a variable has two operands. -/
theorem resolve_stored (l : Library) (d : Draft) (name : String) (span : Span) {op : Opcode} {offset : Nat} {t : Ty}
    (h : d.resolve l name span = .ok (.stored op offset t)) : op = .copyVariable ∨ op = .copyArgument := by
  have global {id : Nat} {symbol : Symbol} : Meaning.ofGlobal? id symbol ≠ some (.stored op offset t) := by
    cases symbol <;> simp [Meaning.ofGlobal?]
  unfold Draft.resolve at h
  dsimp only at h
  split at h
  · next found _ =>
    unfold Meaning.ofLookup at h
    split at h
    · next hm => exact absurd (hm.trans (congrArg some (Except.ok.inj h))) global
    · split at h
      · cases h
      · split at h <;> cases h
        · exact .inl rfl
        · exact .inr rfl
        · exact .inr rfl
  · split at h
    · next m hm =>
      obtain ⟨id, -, hid⟩ := List.exists_of_findSome?_eq_some hm
      obtain ⟨symbol, -, hs⟩ := Option.bind_eq_some_iff.1 hid
      exact absurd (hs.trans (congrArg some (Except.ok.inj h))) global
    · cases h

theorem meaning (name : String) (span : Span) : Forms l k (Compile.resolve name span) fun m _ =>
    ∀ op offset t, m = .stored op offset t → op = .copyVariable ∨ op = .copyArgument := get fun c _ _ _ d hd _ _ => by
  unfold Compile.lift Meets
  cases h : c.draft.resolve c.library name span with
  | error e => exact ⟨hd.formed, .refl _⟩
  | ok m => exact ⟨hd, .refl d, fun op offset t e => resolve_stored c.library c.draft name span (e ▸ h)⟩

section

variable (hw : Installs deferred)
include hw

theorem pushNested : ∀ (n : Nat) (name : String) (expected : Option Ty) (span : Span) (l : Library),
    Forms l k (Compile.pushNested deferred n name expected span) Any
  | 0, _, _, span, _ => fail _ span
  | n + 1, name, expected, span, l => by
    refine (meaning name span).bind fun meaning l' _ hm => ?_
    cases meaning with
    | stored op offset t =>
      have copies : Forms l' k (Compile.emit2 op offset t.size span) Any := by
        rcases hm op offset t rfl with rfl | rfl <;> exact emit2 rfl fun _ _ _ => trivial
      dsimp only
      split
      · exact copies.seq fun _ => (retain _ _).seq fun _ => done _
      · exact done _
    | function f => exact pushFunction hw (pushNested n) f expected span
    | computed f =>
      exact (ensureWritten hw f).seq fun _ => (callResult f span).seq fun t => (emitCall f span).seq fun _ => done _
    | value module index => exact pushStatic name module index span

theorem pushVariable (name : String) (expected : Option Ty) (span : Span) :
    Forms l k (Compile.pushVariable deferred name expected span) Any := pushNested hw _ name expected span l

/-! ### Calls -/

theorem callWritten (f : FunctionRef) (span : Span) : Forms l k (Compile.callWritten deferred f span) Any :=
  (callResult f span).seq fun _ => (getFunction f span).forget.seq fun g =>
    (pushCaptures (pushVariable hw) g span).seq fun _ => (emitCall f span).seq fun _ => done _

theorem callGeneric (f : FunctionRef) (g : Function) {args : Compile.Arguments} (ha : ∀ ts l, Forms l k (args.push ts) Any)
    (span : Span) : Forms l k (Compile.callGeneric deferred f g args span) Any := by
  unfold Compile.callGeneric
  refine guarded fun _ => ?_
  exact (ha _ _).seq fun _ => (lift _).seq fun types => (instantiate hw f types span).seq fun _ => callWritten hw _ span

theorem pushPartial (f : FunctionRef) (count : Nat) (span : Span) :
    Forms l k (Compile.pushPartial deferred f count span) Any :=
  (getFunction f span).forget.seq fun g => (callResult f span).seq fun _ => here.bind fun id _ _ e => by
    subst e
    exact (forwardingBody f span).bind fun _ _ _ hb => (addFunction id hb).bind fun _ _ _ hi =>
      (pushCaptures (pushVariable hw) g span).seq fun _ => (makeClosure hi).seq fun _ => done _

theorem callFunction (f : FunctionRef) {args : Compile.Arguments} (ha : ∀ ts l, Forms l k (args.push ts) Any) (span : Span) :
    Forms l k (Compile.callFunction deferred f args span) Any := by
  refine (getFunction f span).forget.seq fun g => ?_
  split
  · exact callGeneric hw f g ha span
  · refine guarded fun _ => ?_
    refine (ha _ _).seq fun _ => (ensureWritten hw f).seq fun _ => ?_
    split
    · exact pushPartial hw f _ span
    · exact callWritten hw f span

theorem callLambda (decl : FunctionDecl) {body : Option Ty → Compile Ty} (hbody : ∀ t l k, Forms l k (body t) Any)
    {args : Compile.Arguments} (ha : ∀ ts l, Forms l k (args.push ts) Any) (span : Span) :
    Forms l k (Compile.callLambda deferred decl body args span) Any := by
  unfold Compile.callLambda
  refine guarded fun _ => ?_
  refine (lift _).seq fun s => (ha _ _).seq fun found => ?_
  dsimp only
  split
  · exact (fails _ _).seq fun _ => (declareNested decl _ hbody).seq fun _ => here.forget.seq fun _ =>
      callWritten hw _ span
  · exact (declareNested decl _ hbody).seq fun _ => here.forget.seq fun _ => callWritten hw _ span

end

theorem callValue (callee : Expr) {push : Option Ty → Compile Ty} (hp : ∀ t, Forms l k (push t) Any)
    {args : Compile.Arguments} (ha : ∀ ts l, Forms l k (args.push ts) Any) (span : Span) :
    Forms l k (Compile.callValue callee push args span) Any := by
  refine (hint? callee).seq fun hint => (ha _ _).seq fun found => (hp _).seq fun t => ?_
  split
  · refine guarded fun _ => ?_
    dsimp only
    split
    · exact (throws _).seq fun _ => (emit rfl).seq fun _ => done _
    · exact (emit rfl).seq fun _ => done _
  · exact fail _ _

end Forms

end Compile

end StackScript
