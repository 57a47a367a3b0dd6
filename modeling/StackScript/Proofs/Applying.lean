import StackScript.Proofs.Pushing

/-!
Calls. The arguments are pushed last first, what the function captures comes on top of them, and the result takes
the place of both. Where there are fewer arguments than parameters, they are bound into a closure.
-/
namespace StackScript

namespace Compile

/-- The types of arguments agree with those of the parameters, as far as these are there. -/
def Suits : List Ty → List Ty → Prop
  | _, [] => True
  | ps, t :: ts => (ps.headD .unknown).agrees t ∧ Suits ps.tail ts

theorem Suits.eq_take : ∀ {ps ts : List Ty}, Suits ps ts → Ty.AllKnown ps → Ty.AllKnown ts → ts.length ≤ ps.length →
    ts = ps.take ts.length
  | _, [], _, _, _, _ => rfl
  | [], t :: ts, _, _, _, h => by simp at h
  | p :: ps, t :: ts, hs, hp, ht, h => by
    obtain ⟨hk, hps⟩ := Ty.allKnown_cons.1 hp
    obtain ⟨hk', hts⟩ := Ty.allKnown_cons.1 ht
    obtain rfl : p = t := Ty.eq_of_agrees hk hk' hs.1
    have rest : ts = ps.take ts.length := Suits.eq_take hs.2 hps hts (by simpa using h)
    rw [List.length_cons, List.take_succ_cons, ← rest]

theorem refine_eq {name : String} : ∀ {ps ts us : List Ty} {spans : List Span}, refine name ps ts spans = .ok us →
    Ty.AllKnown ts → ps.length = ts.length → spans.length = ts.length → us = ts
  | [], [], us, spans, h, _, _, _ => by
    cases spans <;> cases h <;> rfl
  | p :: ps, t :: ts, us, span :: spans, h, ht, hp, hs => by
    obtain ⟨hk, hts⟩ := Ty.allKnown_cons.1 ht
    unfold refine at h
    split at h
    · cases h
    · next u hu =>
      obtain rfl := Ty.unify?_eq_right hk hu
      split at h
      · cases h
      · cases hr : refine name ps ts spans with
        | error e =>
          rw [hr] at h
          cases h
        | ok vs =>
          rw [hr] at h
          cases h
          rw [refine_eq hr hts (by simpa using hp) (by simpa using hs)]
  | [], _ :: _, _, _, _, _, h, _ => by simp at h
  | _ :: _, [], _, _, _, _, h, _ => by simp at h
  | _ :: _, _ :: _, _, [], _, _, _, h => by simp at h

theorem eq_of_mismatch? : ∀ {ps ts : List Ty} {spans : List Span}, mismatch? ps ts spans = none → Ty.AllKnown ps →
    Ty.AllKnown ts → ps.length = ts.length → spans.length = ts.length → ps = ts
  | [], [], _, _, _, _, _, _ => rfl
  | p :: ps, t :: ts, span :: spans, h, hp, ht, hl, hs => by
    obtain ⟨hk, hps⟩ := Ty.allKnown_cons.1 hp
    obtain ⟨hk', hts⟩ := Ty.allKnown_cons.1 ht
    unfold mismatch? at h
    split at h
    · next hagree =>
      rw [Ty.eq_of_agrees hk hk' hagree, eq_of_mismatch? h hps hts (by simpa using hl) (by simpa using hs)]
    · cases h
  | [], _ :: _, _, _, _, _, h, _ => by simp at h
  | _ :: _, [], _, _, _, _, h, _ => by simp at h
  | _ :: _, _ :: _, [], _, _, _, _, h => by simp at h

end Compile

open Compile (Suits Arguments)

namespace Compilation

variable {o : Surroundings} {c d e : Compilation} {s : Shape} {f : FunctionRef} {g : Function} {span : Span}
  {deferred : Deferred} {t r : Ty} {ts : List Ty} {args : Arguments}

/-- Arguments that are pushed with the types that they are said to have. -/
def Suitable (o : Surroundings) (args : Arguments) : Prop :=
  ∀ (params : List Ty) (c : Compilation) (s : Shape), c.Ready o → c.Sees s → c.Level s → Meets (args.push params) c
    (fun ts d => Ty.AllKnown ts ∧ ts.length = args.count ∧ Suits params ts ∧
      c.Reaches o (fun _ => none) d s (Shape.ofTys ts ++ s) ∧ d.Level (Shape.ofTys ts ++ s)) fun _ => Failed o

/-- A function that can be called with arguments of the given types. -/
inductive Takes (c : Compilation) (f : FunctionRef) (ts : List Ty) : Prop
  | typed {g : Function} (usable : c.Usable f g) (params : g.signature.params = ts)
  | length {g : Function} {t : Ty} (function : c.library.function? f = some g) (body : g.body = .native .listLength)
      (types : ts = [.list t])

theorem Ready.callWritten (hw : Writes o deferred) (hc : c.Ready o) (hs : c.Sees (Shape.ofTys ts ++ s))
    (hr : c.Reachable f.module) (h : c.Takes f ts) :
    Meets (Compile.callWritten deferred f span) c
      (fun t d => t.Known ∧ c.Reaches o (fun _ => none) d (Shape.ofTys ts ++ s) (Shape.ofTy t ++ s))
      fun _ => Failed o := by
  have settled : s.Settled := (Shape.settled_append.1 hs.settled).2
  cases h with
  | @typed g usable params =>
    have lawful := hc.lawful usable.function hr.alive
    refine (hc.resultOf usable hr).seq fun t c₁ h₁ => ?_
    obtain ⟨rfl, known, -, callee⟩ := h₁
    refine meets_bind.2 ((meets_getFunction usable.function).2 (meets_bind.2
      (((pushes_pushVariable hw).captures hc hs lawful).imp (fun _ d hd => ?_) fun _ _ h => h)))
    have callee := hd.evolves.callee callee
    rw [Draft.frameTypes, usable.bound, params, List.append_nil, ← hd.writes.target] at callee
    have call := hd.ready.emitCall span settled callee
    rw [Shape.ofTys_append, List.append_assoc] at call
    exact call.seq fun _ e he => meets_pure.2 ⟨known, hd.trans he⟩
  | @length g t function body types =>
    subst types
    have lawful := hc.lawful function hr.alive
    have signature := lawful.listLength body
    have captures : g.captures = [] := List.length_eq_zero_iff.1 (by rw [lawful.captures, signature]; rfl)
    have result : g.signature.result.isUnknown = false := by
      rw [signature]
      rfl
    have callee : (c.view o).Callee c.draft.target.module f [.list t] .int32 :=
      ⟨hr.below, hr.alive, g, function, .inr (.inl ⟨body, ⟨t, rfl⟩, rfl⟩)⟩
    refine meets_bind.2 (meets_bind.2 ((meets_getFunction function).2 (meets_bind.2 (meets_get.2 ?_))))
    rw [result, Bool.and_false]
    refine meets_pure.2 (meets_bind.2 ((meets_getFunction function).2 (meets_bind.2 ?_)))
    rw [Compile.pushCaptures, captures]
    refine meets_pure.2 ((hc.emitCall span settled callee).seq fun _ e he => meets_pure.2 ?_)
    rw [signature]
    exact ⟨rfl, he⟩

/-! ### Named functions -/

theorem Ready.callGeneric (hw : Writes o deferred) (ha : Suitable o args) (hc : c.Ready o) (hs : c.Sees s)
    (hl : c.Level s) (hr : c.Reachable f.module) (hg : c.library.function? f = some g) :
    Meets (Compile.callGeneric deferred f g args span) c
      (fun t d => t.Known ∧ c.Reaches o (fun _ => none) d s (Shape.ofTy t ++ s)) fun _ => Failed o := by
  unfold Compile.callGeneric
  dsimp only
  split
  · exact hc.failed
  next hcount =>
  refine (ha _ c s hc hs hl).seq fun ts c₁ h₁ => ?_
  obtain ⟨known, hlen, -, h₁, -⟩ := h₁
  refine meets_bind.2 (meets_lift h₁.failed fun us hus => ?_)
  obtain rfl := Compile.refine_eq hus known (by omega) (by rw [hlen]; rfl)
  obtain ⟨g₁, hg₁, hext⟩ := h₁.evolves.function hg
  have hr₁ := hr.evolve h₁.evolves h₁.writes.target
  refine (h₁.ready.instantiate (s := Shape.ofTys us ++ s) hw hr₁ hg₁ known).seq fun i c₂ h₂ => ?_
  obtain ⟨h₂, -, g₂, usable, params⟩ := h₂
  have h := h₁.trans h₂
  have sees := hs.push hc h (Shape.settled_ofTys us)
  exact (h₂.ready.callWritten (f := ⟨f.module, i⟩) hw sees (hr.evolve h.evolves h.writes.target)
    (.typed usable params)).imp (fun t d hd => ⟨hd.1, h.trans hd.2⟩) fun _ _ h => h

/-- The first arguments are bound into a closure. -/
theorem Ready.pushPartial {n : Nat} (hw : Writes o deferred) (hc : c.Ready o)
    (hs : c.Sees (Shape.ofTys (g.signature.params.take n) ++ s)) (hr : c.Reachable f.module) (hu : c.Usable f g) :
    Meets (Compile.pushPartial deferred f n span) c (fun t d => t.Known ∧
      c.Reaches o (fun _ => none) d (Shape.ofTys (g.signature.params.take n) ++ s) (Shape.ofTy t ++ s))
      fun _ => Failed o := by
  have lawful := hc.lawful hu.function hr.alive
  have frame := lawful_frame lawful hu.generic hu.typed
  refine meets_bind.2 ((meets_getFunction hu.function).2 ((hc.resultOf hu hr).seq fun t c₁ h₁ => ?_))
  obtain ⟨rfl, known, rfl, callee⟩ := h₁
  dsimp only
  refine meets_bind.2 (meets_here.2 ((hc.forwardingBody
    (s := Shape.ofTys (g.signature.params.take n) ++ s) hu hr callee).seq fun body c₂ h₂ => ?_))
  obtain ⟨h₂, carries⟩ := h₂
  generalize hsg : (⟨g.signature.params.drop n, g.signature.nonlocals, g.signature.params.take n,
    g.signature.effectiveResult⟩ : Signature) = sg
  have hframe : Draft.frameTypes sg = Draft.frameTypes g.signature := by simp [← hsg, Draft.frameTypes, hu.bound]
  have hresult : sg.effectiveResult = g.signature.effectiveResult := by
    rw [← hsg]
    exact Signature.effectiveResult_of_known known
  have hclosure : sg.closureTypes = g.signature.nonlocals ++ g.signature.params.take n := by
    rw [← hsg]
    rfl
  have hparams : g.signature.params.drop n = sg.params := by rw [← hsg]
  rw [← hframe, ← hresult, ← h₂.writes.target] at carries
  rw [hparams, ← h₂.writes.target]
  refine (h₂.ready.addCarrier carries (by rw [lawful.captures, ← hsg]) lawful.unreserved
    (hframe ▸ frame) (hresult ▸ known) (Shape.ofTys (g.signature.params.take n) ++ s)).seq fun i c₃ h₃ => ?_
  obtain ⟨h₃, hfun, callee₃⟩ := h₃
  have h₃ := h₂.trans h₃
  have sees₃ := hs.push (u := []) hc h₃ Shape.settled_nil
  refine ((pushes_pushVariable hw).captures h₃.ready sees₃ lawful).seq fun _ c₄ h₄ => ?_
  have h := h₃.trans h₄
  obtain ⟨g₄, hg₄, hext⟩ := h₄.evolves.function hfun
  have callee₄ := h₄.evolves.callee callee₃
  rw [h₂.writes.target, ← h.writes.target] at hg₄ callee₄
  have frame : Draft.frameTypes sg = g₄.signature.closureTypes ++ sg.params := by
    rw [hext.closureTypes]
    rfl
  rw [frame] at callee₄
  have make := h.ready.makeClosure span s hg₄ callee₄
  rw [hext.closureTypes, hclosure, Shape.ofTys_append, List.append_assoc] at make
  refine make.seq fun _ d hd => meets_pure.2 ⟨?_, ?_⟩
  · refine Ty.known_function.2 ⟨fun t ht => ?_, known⟩
    rw [← hparams] at ht
    exact lawful.params hu.generic hu.typed t (List.mem_of_mem_drop ht)
  · rw [hresult] at hd
    exact h.trans hd.reaches

theorem Ready.callFunction {name : String} (hw : Writes o deferred) (ha : Suitable o args) (hc : c.Ready o)
    (hs : c.Sees s) (hl : c.Level s) (hm : c.Means s name (.function f)) :
    Meets (Compile.callFunction deferred f args span) c
      (fun t d => t.Known ∧ c.Reaches o (fun _ => none) d s (Shape.ofTy t ++ s)) fun _ => Failed o := by
  obtain ⟨hr, g, hg, hb, -⟩ := hm
  have lawful := hc.lawful hg hr.alive
  refine meets_bind.2 ((meets_getFunction hg).2 ?_)
  split
  · exact hc.callGeneric hw ha hs hl hr hg
  next hgen =>
  have hgen : g.body.isGeneric = false := by simpa [Function.isGeneric] using hgen
  dsimp only
  split
  · exact hc.failed
  next hcount =>
  simp only [Bool.or_eq_true, Bool.and_eq_true, decide_eq_true_eq, not_or, Nat.not_lt, not_and, Decidable.not_not] at hcount
  refine (ha _ c s hc hs hl).seq fun ts c₁ h₁ => ?_
  obtain ⟨known, hlen, suits, h₁, -⟩ := h₁
  have hr₁ := hr.evolve h₁.evolves h₁.writes.target
  by_cases ht : g.body = .native .listLength
  · have signature : g.signature.params = [.list .unknown] := by
      rw [lawful.listLength ht]
      rfl
    rw [signature] at hcount suits
    obtain ⟨t, rfl⟩ : ∃ t, ts = [t] := List.length_eq_one_iff.1 (by
      rw [hlen]
      simp only [List.length_singleton] at hcount
      omega)
    obtain ⟨elem, rfl⟩ := Ty.eq_list_of_agrees (Ty.allKnown_cons.1 known).1 suits.1
    refine (h₁.ready.good.ensureWritten hw).seq fun _ c₂ h₂ => ?_
    obtain ⟨good, hevolves, hdraft, -⟩ := h₂
    have h := h₁.trans (h₁.ready.evolve good hevolves hdraft _)
    obtain ⟨g₂, hg₂, hext⟩ := h.evolves.function hg
    rw [if_neg (by rw [signature, ← hlen]; simp)]
    exact (h.ready.callWritten hw (hs.push hc h (Shape.settled_ofTys _)) (hr.evolve h.evolves h.writes.target)
      (.length hg₂ ((hext.native _).2 ht) rfl)).imp (fun t d hd => ⟨hd.1, h.trans hd.2⟩) fun _ _ h => h
  obtain ⟨g₁, hg₁, hext₁⟩ := Specific.evolve ⟨hg, hgen, ht, hb⟩ h₁.evolves
  refine (h₁.ready.ensureWritten (s := Shape.ofTys ts ++ s) hw hg₁).seq fun _ c₂ h₂ => ?_
  obtain ⟨h₂, -, g₂, usable, hext₂⟩ := h₂
  have h := h₁.trans h₂
  have hr₂ := hr.evolve h.evolves h.writes.target
  have params : g₂.signature.params = g.signature.params := hext₂.params.trans hext₁.params
  have sees := hs.push hc h (Shape.settled_ofTys ts)
  have types := suits.eq_take (lawful.params hgen ht) known (by omega)
  rw [hlen, ← params] at types
  split
  · rw [types] at sees h
    exact (h.ready.pushPartial hw sees hr₂ usable).imp (fun t d hd => ⟨hd.1, h.trans hd.2⟩) fun _ _ h => h
  · next hless =>
    have hall : g₂.signature.params = ts := by
      rw [types, List.take_of_length_le (by rw [params]; omega)]
    exact (h.ready.callWritten hw sees hr₂ (.typed usable hall)).imp (fun t d hd => ⟨hd.1, h.trans hd.2⟩) fun _ _ h => h

/-! ### Lambdas and values -/

/-- Parameters take the types of the arguments. -/
theorem zipWith_unify : ∀ {ps ts : List Ty}, Ty.AllKnown ts → ps.length = ts.length →
    List.zipWith (fun (p t : Ty) => (p.unify? t).getD t) ps ts = ts
  | [], [], _, _ => rfl
  | p :: ps, t :: ts, ht, h => by
    obtain ⟨hk, hts⟩ := Ty.allKnown_cons.1 ht
    rw [List.zipWith_cons_cons, zipWith_unify hts (by simpa using h)]
    cases hu : p.unify? t with
    | none => rfl
    | some u => rw [Ty.unify?_eq_right hk hu, Option.getD_some]
  | [], _ :: _, _, h => by simp at h
  | _ :: _, [], _, h => by simp at h

theorem Ready.callLambda {decl : FunctionDecl} {body : Option Ty → Compile Ty} (hw : Writes o deferred)
    (ha : Suitable o args) (hd : decl.isPlain) (hbody : ∀ expected, Leaves o (body expected)) (hc : c.Ready o)
    (hs : c.Sees s) (hl : c.Level s) :
    Meets (Compile.callLambda deferred decl body args span) c
      (fun t d => t.Known ∧ c.Reaches o (fun _ => none) d s (Shape.ofTy t ++ s)) fun _ => Failed o := by
  unfold Compile.callLambda
  dsimp only
  split
  · exact hc.failed
  next hcount =>
  refine meets_bind.2 (meets_lift hc.failed fun sg hsg => ?_)
  obtain ⟨declares, hparams⟩ := Header.signature_spec hsg
  refine (ha _ c s hc hs hl).seq fun ts c₁ h₁ => ?_
  obtain ⟨known, hlen, -, h₁, -⟩ := h₁
  rw [zipWith_unify known (by omega)]
  split
  · exact h₁.failed
  have types : Signature.isGeneric { params := ts, result := sg.result } = false := Ty.anyGeneric_eq_false.2 known
  have applied : Header.Declares { params := ts, result := sg.result } := ⟨rfl, rfl, declares.result⟩
  have declared := h₁.ready.declareNested hd applied hbody (Shape.ofTys ts ++ s)
  refine declared.seq fun i c₂ h₂ => ?_
  obtain ⟨h₂, hdraft, g, hg, params, bound, hcode⟩ := h₂
  obtain ⟨bytes, hbytes⟩ := hcode types
  have h := h₁.trans h₂
  refine meets_bind.2 (meets_here.2 ?_)
  rw [← hdraft] at hg
  have usable : c₂.Usable ⟨c₂.draft.target.module, i⟩ g :=
    ⟨⟨hg, by rw [hbytes]; rfl, by rw [hbytes]; nofun, bound⟩, h.ready.good.not_pending hg (by rw [hbytes]; nofun)⟩
  exact (h.ready.callWritten (f := ⟨c₂.draft.target.module, i⟩) hw (hs.push hc h (Shape.settled_ofTys ts))
    h.ready.reachable (.typed usable params)).imp (fun t d hd => ⟨hd.1, h.trans hd.2⟩) fun _ _ h => h

theorem Ready.callValue {callee : Expr} {push : Option Ty → Compile Ty} (ha : Suitable o args)
    (hp : ∀ expected, Leaves o (push expected)) (hc : c.Ready o) (hs : c.Sees s) (hl : c.Level s) :
    Meets (Compile.callValue callee push args span) c
      (fun t d => t.Known ∧ c.Reaches o (fun _ => none) d s (Shape.ofTy t ++ s)) fun _ => Failed o := by
  refine meets_bind.2 (meets_bind.2 (meets_get.2 (meets_pure.2 ?_)))
  refine (ha _ c s hc hs hl).seq fun ts c₁ h₁ => ?_
  obtain ⟨known, hlen, -, h₁, hl₁⟩ := h₁
  refine (hp _ c₁ _ h₁.ready (hs.push hc h₁ (Shape.settled_ofTys ts)) hl₁).seq fun t c₂ h₂ => ?_
  obtain ⟨ht, h₂, -⟩ := h₂
  have h := h₁.trans h₂
  split
  · next params result =>
    obtain ⟨hparams, hresult⟩ := Ty.known_function.1 ht
    dsimp only
    split
    · exact h.failed
    next hcount =>
    split
    · exact h.failed
    next hmis =>
    obtain rfl := Compile.eq_of_mismatch? (Option.eq_none_iff_forall_ne_some.2 hmis) hparams known (by omega)
      (by rw [hlen]; rfl)
    rw [Shape.ofTy_of_isHeap rfl] at h
    exact meets_bind.2 ((h.ready.emit rfl fun w _ => .execute hs.settled).imp
      (fun _ d hd => meets_pure.2 ⟨hresult, h.trans hd.reaches⟩) fun _ _ h => h)
  · exact h.failed

end Compilation

end StackScript
