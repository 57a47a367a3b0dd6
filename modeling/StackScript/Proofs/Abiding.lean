import StackScript.Compile.Program
import StackScript.Proofs.Plain
import StackScript.Proofs.Regimes

/-!
Whatever is compiled keeps to a regime: uses of functions, expressions, statements, and the functions that wait to be
written.
-/
namespace StackScript

open FreeNames (paramNames)

/-- Arguments that are refined are known. -/
theorem Compile.known_refine {name : String} : ∀ {ps ts : List Ty} {spans : List Span} {us : List Ty},
    refine name ps ts spans = .ok us → Ty.anyGeneric us = false
  | [], _, _, us, h | _ :: _, [], _, us, h | _ :: _, _ :: _, [], us, h => by
    unfold refine at h
    cases h
    rfl
  | p :: ps, t :: ts, span :: spans, us, h => by
    unfold refine at h
    split at h
    · cases h
    · next u _ =>
      split at h
      · cases h
      · next known =>
        cases hr : refine name ps ts spans with
        | error e => rw [hr] at h; cases h
        | ok rest =>
          rw [hr] at h
          cases h
          rw [Ty.anyGeneric, known_refine hr, Bool.or_false, Bool.eq_false_iff.2 known]

theorem Compile.isCommon_mismatch : ∀ {ps ts : List Ty} {spans : List Span} {e : CompileError},
    mismatch? ps ts spans = some e → e.isCommon
  | [], _, _, _, h | _ :: _, [], _, _, h | _ :: _, _ :: _, [], _, h => by
    unfold mismatch? at h
    cases h
  | p :: ps, t :: ts, span :: spans, e, h => by
    unfold mismatch? at h
    split at h
    · exact isCommon_mismatch h
    · cases h
      rfl

theorem Literal.known_value (v : Literal) (h : Heap) : (v.value h).2.ty.isGeneric = false := by
  cases v <;> rfl

/-- A literal frees nothing. -/
theorem Literal.ages_value (v : Literal) (h : Heap) : h.Ages 0 (v.value h).1 := by
  cases v with
  | string s => exact h.ages_alloc (.string s)
  | _ => exact .refl h

theorem Header.length_signatureAs {h : Header} {s : Signature} {expected : Option Ty} (e : h.signatureAs expected = .ok s) :
    s.params.length = h.params.length := by
  simp only [signatureAs, bind, Except.bind] at e
  cases hs : h.signature with
  | error err => simp [hs] at e
  | ok s₀ =>
    obtain ⟨-, length⟩ := signature_spec hs
    simp only [hs] at e
    split at e
    · split at e
      · cases e
      · next same =>
        cases e
        rw [List.length_zipWith, Nat.min_eq_left (by simp_all), length]
    · cases e
      exact length

namespace Regime

variable {R : Regime} {c d : Compilation} {span : Span} {t : Ty} {f : FunctionRef} {g : Function} {deferred : Deferred}

/-- Gives the type of a value. -/
def Gives (R : Regime) (t : Ty) (_ : Compilation) : Prop := R.Typed t

/-- What pushes a name that is seen. -/
def Pushes (R : Regime) (push : Compile.Push) : Prop :=
  ∀ (c : Compilation) (name : String) (expected : Option Ty) (span : Span), R.Sees c name →
    R.Keeps c (push name expected span) R.Gives

/-- Arguments are pushed, one for each place. -/
def Supplies (R : Regime) (c : Compilation) (args : Compile.Arguments) : Prop :=
  ∀ ts, R.Keeps c (args.push ts) fun found _ => found.length = args.count

namespace Keeps

variable (L : R.Lawful)
include L

/-! ### Uses of functions -/

section

variable (hw : R.Installs deferred)
include hw

theorem ensureWritten (f : FunctionRef) : R.Keeps c (Compile.ensureWritten deferred f) Any := by
  refine get ?_
  split
  · next here =>
    split
    · next decl hp =>
      intro hc
      obtain ⟨holds, on, nests, ready⟩ := L.pending c f.index decl hc hp
      have same : (⟨c.module, f.index⟩ : FunctionRef) = f := by rw [← here]
      rw [same] at ready
      refine meets_bind.2 (meets_set.2 ((hw _ f decl _ ready nests holds).imp (fun _ e he => ?_) fun _ _ h => h))
      exact ⟨he.1, L.trans _ _ e on he.2.1, trivial⟩
    · exact done L _
  · exact done L _

theorem specialize (callable : R.Callable c f) (g : Function) (expected : Option Ty) (span : Span) :
    R.Keeps c (Compile.specialize deferred f g expected span) fun f' d => R.Callable d f' := by
  unfold Compile.specialize
  split
  · exact pure L callable
  · split
    · exact guarded L rfl fun known => guarded L rfl fun _ =>
        bind L (L.generic deferred c f _ span hw callable (Bool.eq_false_iff.2 known)) fun i d on hi => pure L hi
    · exact fail L rfl

omit hw in
theorem pushCaptures {push : Compile.Push} (hp : R.Pushes push) (hg : ∀ n ∈ g.captures, R.Sees c n) (span : Span) :
    R.Keeps c (Compile.pushCaptures push g span) Any := by
  refine forM L (k := fun d => ∀ n ∈ g.captures, R.Sees d n) (fun d e on h n hn => L.sees d e n on (h n hn)) _ hg
    fun p hp' d hd => ?_
  have among : p.1 ∈ g.captures := (List.of_mem_zip (List.mem_reverse.1 hp')).1
  refine seq L (hp d p.1 (some p.2) span (hd _ among)) fun t _ _ => getDraft (seq L (setDepth L _) fun _ _ _ => ?_)
  split
  · exact fail L rfl
  · exact done L _

omit hw in
/-- A function is added to the module that is written which passes calls on. -/
theorem forwarded (hg : c.library.function? f = some g) (g' : Function) (captures : g'.captures = g.captures)
    (nonlocals : g'.signature.nonlocals = g.signature.nonlocals)
    (result : g'.signature.result = g.signature.result ∨ R.Typed g'.signature.result) {add : Body → Compile Nat}
    (adds : AddsHere c g' add) {β : Type} {y : Nat → Compile β} {post : β → Compilation → Prop}
    (hy : ∀ i d, R.Onward c d → R.Keeps d (y i) post) :
    R.Keeps c (Compile.forwardingBody f span >>= fun body => add body >>= y) post := by
  rw [← bind_assoc]
  exact seq L (L.forward c f g g' span add hg captures nonlocals result adds) hy

omit hw in
theorem forwardHere (hg : c.library.function? f = some g) {β : Type} {y : Nat → Compile β} {post : β → Compilation → Prop}
    (hy : ∀ i d, R.Onward c d → R.Keeps d (y i) post) : R.Keeps c (Compile.forwardingBody f span >>= fun body =>
      Compile.here >>= fun k => Compile.addFunction k { g with body := body } >>= y) post := by
  have adds : AddsHere c g fun body => Compile.here >>= fun k => Compile.addFunction k { g with body := body } :=
    fun body d same => same ▸ rfl
  simp only [← bind_assoc Compile.here]
  exact forwarded L hg g rfl rfl (.inl rfl) adds hy

/-- A closure is pushed for a function that may be used. -/
theorem pushFunction {push : Compile.Push} (hp : R.Pushes push) (callable : R.Callable c f) (expected : Option Ty) (span : Span) :
    R.Keeps c (Compile.pushFunction deferred push f expected span) R.Gives := by
  have closed {e : Compilation} {g : Function} {t : Ty} (ht : R.Typed t) (hg : ∀ n ∈ g.captures, R.Sees e n) (i : Nat) :
      R.Keeps e (if g.captures.isEmpty then
        Compile.emit1 .loadFunction i span >>= fun _ => Pure.pure (Ty.function g.signature.params t)
        else Compile.pushCaptures push g span >>= fun _ => Compile.emit1 .makeClosure i span >>= fun _ =>
          Pure.pure (Ty.function g.signature.params t)) R.Gives := by
    have typed : R.Typed (.function g.signature.params t) := (L.types.function _ _).2 ht
    split
    · exact seq L (emit1 L rfl rfl _ _) fun _ _ _ => pure L typed
    · exact seq L (pushCaptures L hp hg span) fun _ _ _ => seq L (emit1 L rfl rfl _ _) fun _ _ _ => pure L typed
  refine getFunction L fun g hg => bind L (specialize L hw callable g expected span) fun f d _ callable =>
    seq L (ensureWritten L hw f) fun _ e on => callResult L fun t ht => getFunction L fun g hg => here ?_
  intro holds
  have sees : ∀ n ∈ g.captures, R.Sees e n := fun n hn => L.captured e f g n holds (L.callable _ _ _ on callable) hg hn
  revert holds
  dsimp only
  split
  · exact closed ht sees _
  · exact forwardHere L hg fun i u on => closed ht (fun n hn => L.sees _ _ n on (sees n hn)) i

omit hw in
theorem pushStatic (name : String) (module index : Nat) (span : Span) :
    R.Keeps c (Compile.pushStatic name module index span) R.Gives := getModule <| by
  split
  · exact fail L rfl
  · next v hv =>
    intro hc
    have typed := L.value c module index v hc hv
    refine here ?_ hc
    split
    · exact seq L (emit1 L rfl rfl _ _) fun _ _ _ => pure L typed
    · refine seq L (onHeap (p := fun _ => True) L (fun heap => heap.ages_increfs v.handles) fun _ => trivial) fun r _ _ => ?_
      split
      · exact failing L rfl
      · exact seq L (addValue L typed _) fun i _ _ => seq L (emit1 L rfl rfl _ _) fun _ _ _ => pure L typed

theorem pushNested : ∀ n : Nat, R.Pushes (Compile.pushNested deferred n)
  | 0, _, _, _, _, _ => fail L rfl
  | n + 1, c, name, expected, span, hs => by
    refine resolve L hs fun meaning hm => ?_
    cases meaning with
    | stored op offset t =>
      dsimp only
      split
      · exact seq L (emit2 L hm.1 _ _ _) fun _ _ _ => seq L (retain L _ _) fun _ _ _ => pure L hm.2
      · exact pure L hm.2
    | function f => exact pushFunction L hw (pushNested n) hm expected span
    | computed f =>
      exact seq L (ensureWritten L hw f) fun _ _ _ => callResult L fun t ht =>
        seq L (L.call _ f span) fun _ _ _ => pure L ht
    | value module index => exact pushStatic L name module index span

theorem pushVariable : R.Pushes (Compile.pushVariable deferred) := pushNested L hw _

/-! ### Calls -/

theorem callWritten (callable : R.Callable c f) (span : Span) : R.Keeps c (Compile.callWritten deferred f span) R.Gives := by
  refine callResult L fun t ht => getFunction L fun g hg hc => ?_
  have sees : ∀ n ∈ g.captures, R.Sees c n := fun n hn => L.captured c f g n hc callable hg hn
  exact seq L (pushCaptures L (pushVariable L hw) sees span) (fun _ _ _ => seq L (L.call _ f span) fun _ _ _ => pure L ht) hc

theorem callGeneric (callable : R.Callable c f) (g : Function) {args : Compile.Arguments}
    (ha : R.Supplies c args) (span : Span) : R.Keeps c (Compile.callGeneric deferred f g args span) R.Gives := by
  unfold Compile.callGeneric
  dsimp only
  split
  · exact fun hc => meets_bind.2 (L.miscounts c _ _ _ _ hc)
  · refine bind L (ha _) fun found d on _ => lift L (.refine _ _ _ _) fun ts hts => ?_
    exact bind L (L.generic deferred d f ts span hw (L.callable _ _ _ on callable) (Compile.known_refine hts))
      fun i u _ hi => callWritten L hw hi span

theorem pushPartial (callable : R.Callable c f) (count : Nat) (span : Span) :
    R.Keeps c (Compile.pushPartial deferred f count span) R.Gives := by
  refine getFunction L fun g hg hc => ?_
  have sees : ∀ n ∈ g.captures, R.Sees c n := fun n hn => L.captured c f g n hc callable hg hn
  refine callResult L (fun t ht => here <| forwarded L hg ⟨_, ⟨_, _, _, t⟩, .undefined, _⟩ rfl rfl (.inr ht) (fun _ _ _ => rfl)
    fun i d on => ?_) hc
  exact seq L (pushCaptures L (pushVariable L hw) (fun n hn => L.sees _ _ n on (sees n hn)) span) fun _ _ _ =>
    seq L (emit1 L rfl rfl _ _) fun _ _ _ => pure L ((L.types.function _ _).2 ht)

theorem callFunction (callable : R.Callable c f) {args : Compile.Arguments} (ha : R.Supplies c args) (span : Span) :
    R.Keeps c (Compile.callFunction deferred f args span) R.Gives := by
  refine getFunction L fun g hg => ?_
  split
  · exact callGeneric L hw callable g ha span
  · refine guarded L rfl fun _ => seq L (ha _) fun _ d on => seq L (ensureWritten L hw f) fun _ e on' => ?_
    have callable : R.Callable e f := L.callable _ _ _ (L.trans _ _ _ on on') callable
    split
    · exact pushPartial L hw callable _ span
    · exact callWritten L hw callable span

/-- A lambda is called where it is written. -/
theorem callLambda (decl : FunctionDecl) (hn : R.Reads c fun n => n ∈ decl.freeNames) {body : Option Ty → Compile Ty}
    (hbody : R.Embodies (fun n => decl.body.Uses n) body) {args : Compile.Arguments} (ha : R.Supplies c args) (span : Span) :
    R.Keeps c (Compile.callLambda deferred decl body args span) R.Gives := by
  unfold Compile.callLambda
  refine guarded L rfl fun count => lift L (.signature _) fun s hs => bind L (ha _) fun found d on length => ?_
  obtain ⟨declares, arity⟩ := Header.signature_spec hs
  dsimp only
  split
  · exact failing L rfl
  · next known =>
    refine bind L (L.lambda d decl _ body ?_ ?_ ?_ (hn.later L on) hbody)
      fun i e on' hi => here (callWritten L hw ?_ span)
    · exact Ty.anyGeneric_eq_false.2 (List.findIdx?_eq_none_iff.1 (Option.eq_none_iff_forall_ne_some.2 known))
    · exact (Signature.known_effectiveResult.1 declares.result).imp_right (L.types.known _)
    · change (List.zipWith _ s.params found).length = _
      rw [List.length_zipWith, arity, length, not_not.1 count, Nat.min_self]
    · rwa [L.target _ _ on']

omit hw in
theorem callValue (callee : Expr) {push : Option Ty → Compile Ty} (hp : ∀ d t, R.Onward c d → R.Keeps d (push t) R.Gives)
    {args : Compile.Arguments} (ha : R.Supplies c args) (span : Span) :
    R.Keeps c (Compile.callValue callee push args span) R.Gives := by
  refine hint? fun hint => bind L (ha _) fun found d on _ => bind L (hp d _ on) fun t e _ ht => ?_
  split
  · next ps r =>
    refine guarded L rfl fun _ => ?_
    dsimp only
    split
    · next err h => exact throwing L (Compile.isCommon_mismatch h)
    · exact seq L (emit L rfl) fun _ _ _ => pure L ((L.types.function ps r).1 ht)
  · exact fail L rfl

end

/-! ### Literals and operators -/

theorem pushLiteral (v : Literal) (expected : Option Ty) (span : Span) :
    R.Keeps c (Compile.pushLiteral v expected span) R.Gives := by
  refine here (bind L (onHeap (p := fun value : Value => R.Typed value.ty) L (v.adapt expected).ages_value fun heap =>
    L.types.known _ ((v.adapt expected).known_value heap)) fun value d _ typed => ?_)
  refine seq L (?_ : R.Keeps d _ Any) fun i _ _ => seq L (emit1 L rfl rfl _ _) fun _ _ _ => pure L typed
  cases v with
  | string s => exact addValue L typed _
  | _ => exact internValue L typed _

theorem callNative (n : Native) (span : Span) : R.Keeps c (Compile.callNative n span) Any := by
  refine get ?_
  dsimp only
  split
  · exact fail L rfl
  · split
    · exact fail L rfl
    · exact L.call _ _ _

theorem emitLowering {lowering? : Option Lowering} (plain : ∀ op, lowering? = some (.opcode op) → op.arity = 0) (sign : String)
    (t : Ty) (span : Span) :
    R.Keeps c (Compile.emitLowering lowering? sign t span) Any := by
  unfold Compile.emitLowering
  split
  · exact fail L rfl
  · exact emit L (plain _ rfl)
  · exact callNative L _ _
  · exact seq L (callNative L _ _) fun _ _ _ => emit L rfl

theorem operandHint (op : BinaryOp) (a b : Expr) (expected : Option Ty) :
    R.Keeps c (Compile.operandHint op a b expected) Any := by
  refine hint? fun x => hint? fun y => ?_
  split <;> exact done L _

/-! ### Control flow and blocks -/

theorem branch (test : Expr) (t : Ty) : R.Keeps c (Compile.branch test t) Any := by
  unfold Compile.branch
  exact guarded L rfl fun _ => seq L (jump L rfl) fun label _ _ => seq L (sink L 1) fun _ _ _ => done L label

theorem bindLocal (hi : R.Inside c) (name : String) (annotated : Option Ty) (offset : Nat) (t : Ty) (init : Expr) (span : Span) :
    R.Keeps c (Compile.bindLocal name annotated offset t init span) fun _ d => R.Sees d name := by
  have bound (t : Ty) : R.Keeps c (if t.isGeneric then Compile.fail (.cannotInfer ("variable '" ++ name ++ "'")) span >>= fun _ =>
        Compile.getDraft >>= fun d => Compile.bindIn d.target.module d.scope name (.slot offset t) >>= fun _ =>
          Pure.pure (offset, t)
      else Compile.getDraft >>= fun d => Compile.bindIn d.target.module d.scope name (.slot offset t) >>= fun _ =>
        Pure.pure (offset, t)) fun _ d => R.Sees d name :=
    guarded (y := fun _ => Compile.getDraft >>= fun d => Compile.bindIn d.target.module d.scope name (.slot offset t) >>= fun _ =>
        Pure.pure (offset, t)) L rfl fun known => getDraft (bind L (L.slot c name offset t hi (L.types.known t
          (Bool.eq_false_iff.2 known))) fun _ _ _ hs => pure L hs)
  unfold Compile.bindLocal
  split
  · exact bound t
  · split
    · exact bound _
    · exact failing L rfl

theorem releaseLocals (locals : List (Nat × Ty)) (value : Ty) (span : Span) :
    R.Keeps c (Compile.releaseLocals locals value span) Any := by
  refine getDraft (seq L (loop L (fun p _ => releaseAt L _ _) _) fun _ _ _ => ?_)
  dsimp only
  split
  · exact emit2 L rfl _ _ _
  · exact done L _

/-! ### Tuples and lists -/

theorem selectItem (object : Expr) (ht : R.Typed t) (i : Nat) (span : Span) :
    R.Keeps c (Compile.selectItem object t i span) R.Gives := by
  unfold Compile.selectItem
  split
  · next items =>
    split
    · exact fail L rfl
    · next item hi =>
      have typed : R.Typed item := (L.types.tuple items).1 ht item (List.mem_of_getElem? hi)
      have last {d : Compilation} (n : Nat) : R.Keeps d (if 0 < n then
          Compile.emit2 .drop item.size n span >>= fun _ => Pure.pure item else Pure.pure item) R.Gives := by
        split
        · exact seq L (emit2 L rfl _ _ _) fun _ _ _ => pure L typed
        · exact pure L typed
      refine seq L (releaseAt L _ _) fun _ _ _ => ?_
      dsimp only
      split
      · exact seq L (emit2 L rfl _ _ _) fun _ _ _ => last _
      · exact last _
  · exact fail L rfl

theorem emitSubscript (object : Expr) (t : Ty) (span : Span) : R.Keeps c (Compile.emitSubscript object t span) R.Gives := by
  unfold Compile.emitSubscript
  split
  · exact fail L rfl
  · next elem _ =>
    exact guarded L rfl fun known => seq L (typeOperand L elem) fun _ _ _ => seq L (emit1 L rfl rfl _ _) fun _ _ _ =>
      pure L (L.types.known elem (Bool.eq_false_iff.2 known))

theorem emitList (count : Nat) (elem : Option Ty) (span : Span) : R.Keeps c (Compile.emitList count elem span) R.Gives := by
  unfold Compile.emitList
  split
  · exact fail L rfl
  · next elem => exact seq L (typeOperand L elem) fun _ _ _ => seq L (emit2 L rfl _ _ _) fun _ _ _ => pure L (L.types.list elem)

end Keeps

end Regime

end StackScript
