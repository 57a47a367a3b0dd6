import StackScript.Proofs.Instantiating

/-!
Names as values. A variable that stands for a function is pushed as a closure over what the function captures, and
a function of another module first gets one here that passes calls on.
-/
namespace StackScript

/-- A body that does what a function does. -/
inductive View.Carries (v : View) (k : Nat) (frame : List Ty) (r : Ty) : Body → Prop
  | code {bytes : Array UInt8} (flow : ∀ w, v.Extends k w →
      w.Flow k (Ty.sizes frame) bytes (Shape.ofTy r) 0 (Shape.ofTys frame)) : Carries v k frame r (.code bytes)
  | native {n : Native} (typed : n ≠ .listLength) (params : frame = n.signature.params)
      (result : r = n.signature.result) : Carries v k frame r (.native n)

namespace View

variable {v w : View} {k n : Nat} {frame : List Ty} {r : Ty} {body : Body} {f : FunctionRef} {g : Function}
  {waits waits' : FunctionRef → Prop}

theorem Carries.extends (h : v.Carries k frame r body) (e : v.Extends k w) : w.Carries k frame r body := by
  cases h with
  | code flow => exact .code fun u hu => flow u (e.trans hu)
  | native typed params result => exact .native typed params result

/-- A function with such a body can be called. -/
theorem Carries.callee (h : v.Carries k frame r body) (hb : g.body = body) (hk : f.module ≤ n)
    (ha : (v.library.get f.module).alive) (hg : v.library.function? f = some g)
    (hframe : frame = Draft.frameTypes g.signature) (hr : r = g.signature.effectiveResult) (known : r.Known) :
    v.Callee n f frame r := by
  cases h with
  | code flow => exact ⟨hk, ha, g, hg, .inr (.inr ⟨by rw [hb]; rfl, by rw [hb]; nofun, hframe, hr, known, by rw [hb]; nofun⟩)⟩
  | native typed params result =>
    exact ⟨hk, ha, g, hg, .inr (.inr ⟨by rw [hb]; rfl, by rw [hb]; exact fun e => typed (Body.native.inj e), hframe, hr,
      known, by rw [hb]; nofun⟩)⟩

theorem Carries.fits (h : v.Carries f.module (Draft.frameTypes g.signature) g.signature.effectiveResult body)
    (hb : g.body = body) : v.BodyFits f g := by
  cases h with
  | code flow =>
    refine ⟨fun bytes hc w hw => ?_, fun n hn => ?_⟩
    · rw [hb] at hc
      cases hc
      exact flow w hw
    · rw [hb] at hn
      cases hn
  | native typed params result =>
    refine ⟨fun bytes hc => ?_, fun n hn _ => ?_⟩
    · rw [hb] at hc
      cases hc
    · rw [hb] at hn
      cases hn
      exact ⟨params, result⟩

/-- A function that passes calls on is declared with the types of the one that is called. -/
theorem Carries.lawful {label : String} {captures : List String} {sg : Signature}
    (h : w.Carries f.module (Draft.frameTypes sg) sg.effectiveResult body) (hc : captures.length = sg.nonlocals.length)
    (hu : Plain.reserved ∉ captures) (known : Ty.AllKnown (Draft.frameTypes sg)) (hr : sg.effectiveResult.Known) :
    w.Lawful waits f ⟨label, sg, body, captures⟩ := by
  have hall : (Ty.AllKnown sg.nonlocals ∧ Ty.AllKnown sg.bound) ∧ Ty.AllKnown sg.params := by
    simpa only [Draft.frameTypes, Ty.allKnown_append] using known
  have fits : w.BodyFits f ⟨label, sg, body, captures⟩ := h.fits rfl
  cases h with
  | code flow =>
    exact ⟨hc, hu, hall.1.1, hall.1.2, fun _ _ => hall.2, hr, nofun, nofun, nofun, nofun, fits⟩
  | native typed params result =>
    exact ⟨hc, hu, hall.1.1, hall.1.2, fun _ _ => hall.2, hr, nofun, nofun,
      fun e => absurd (Body.native.inj e) typed, nofun, fits⟩

end View

namespace Compilation

variable {o : Surroundings} {x : Nat → Option Nat} {c d e : Compilation} {s : Shape} {m m' : Module}
  {f : FunctionRef} {g : Function} {span : Span} {deferred : Deferred} {push : Compile.Push} {r : Ty} {ts : List Ty}

/-! ### Passing calls on -/

theorem fetches_opcode {op : Opcode} (h : op.arity = 0) : Fetches #[op.toByte] 0 op 0 0 := by
  have first : #[op.toByte][0]? = some op.toByte := rfl
  simpa using fetches_of first h (by simp)

theorem fetches_operand {op : Opcode} (h : op.arity = 1) (a : UInt8) : Fetches #[op.toByte, a] 0 op a.toNat 0 := by
  have first : #[op.toByte, a][0]? = some op.toByte := rfl
  simpa using fetches_of first h (by simp)

theorem fetches_operands {op : Opcode} (h : op.arity = 2) (a b : UInt8) :
    Fetches #[op.toByte, a, b] 0 op a.toNat b.toNat := by
  have first : #[op.toByte, a, b][0]? = some op.toByte := rfl
  simpa using fetches_of first h (by simp)

/-- An opcode that is the whole body of a function. -/
theorem flow_opcode {w : View} {k : Nat} {op : Opcode} (h : op ∈ Builtin.opcodes) :
    w.Flow k (Ty.sizes (Draft.frameTypes op.signature)) #[op.toByte] (Shape.ofTy op.signature.effectiveResult) 0
      (Shape.ofTys (Draft.frameTypes op.signature)) := by
  have move : w.Moves k (Ty.sizes op.signature.params) op 0 0 (Shape.ofTys op.signature.params ++ [])
      (Shape.ofTy op.signature.result ++ []) := View.moves_opcode h
  rw [List.append_nil, List.append_nil] at move
  rw [op.signature_frame, Builtin.effectiveResult_of_mem h]
  exact .step (fetches_opcode (Builtin.arity_of_mem h)) move (.done (by simp [Opcode.length]))

/-- A call that is the whole body of a function. -/
theorem flow_call {w : View} {k a b : Nat} {code : Array UInt8} {op : Opcode} (fetch : Fetches code 0 op a b)
    (hsize : code.size = op.length) (calls : w.Calls k op a b f) (callee : w.Callee k f ts r) :
    w.Flow k (Ty.sizes ts) code (Shape.ofTy r) 0 (Shape.ofTys ts) := by
  have move : w.Moves k (Ty.sizes ts) op a b (Shape.ofTys ts ++ []) (Shape.ofTy r ++ []) :=
    .call calls callee Shape.settled_nil
  rw [List.append_nil, List.append_nil] at move
  exact .step fetch move (.done (by omega))

theorem Ready.forwardingCode (hc : c.Ready o) (callee : (c.view o).Callee c.draft.target.module f ts r) :
    Meets (Compile.forwardingCode f span) c (fun bytes d => c.Reaches o (fun _ => none) d s s ∧
      (d.view o).Carries c.draft.target.module ts r (.code bytes)) fun _ => Failed o := by
  unfold Compile.forwardingCode
  split
  · exact hc.failed
  next hindex =>
  have hf : (UInt8.ofNat f.index).toNat = f.index := UInt8.toNat_ofNat_of_lt' (Nat.lt_of_not_le hindex)
  refine meets_bind.2 (meets_here.2 ?_)
  split
  · next hhere =>
    refine meets_pure.2 ⟨.refl hc _ s, .code fun w hw => ?_⟩
    refine flow_call (hf ▸ fetches_operand rfl _) rfl ?_ (callee.extends hw (Nat.le_refl _))
    rw [← hhere]
    exact .here
  · refine (hc.importIndex s).seq fun i d ⟨hd, hi, hlt⟩ => ?_
    have himport {w : View} (hw : (d.view o).Extends c.draft.target.module w) :
        (w.library.get c.draft.target.module).imports[i]? = some f.module :=
      (hw.modules _ (Nat.le_refl _)).imports i _ hi
    have hcallee := hd.evolves.callee callee
    split
    · refine meets_pure.2 ⟨hd, .code fun w hw => ?_⟩
      exact flow_call (hf ▸ fetches_operand rfl _) rfl (.first (himport hw)) (hcallee.extends hw (Nat.le_refl _))
    · refine meets_pure.2 ⟨hd, .code fun w hw => ?_⟩
      have hi' : (UInt8.ofNat i).toNat = i := UInt8.toNat_ofNat_of_lt' hlt
      have fetch := fetches_operands (show Opcode.call.arity = 2 from rfl) (.ofNat i) (.ofNat f.index)
      rw [hf, hi'] at fetch
      exact flow_call fetch rfl (.any (himport hw)) (hcallee.extends hw (Nat.le_refl _))

/-- A function is passed on by its own body or by a call. -/
theorem Ready.forwardingBody (hc : c.Ready o) (hu : c.Usable f g) (hr : c.Reachable f.module)
    (callee : (c.view o).Callee c.draft.target.module f (Draft.frameTypes g.signature) g.signature.effectiveResult) :
    Meets (Compile.forwardingBody f span) c (fun body d => c.Reaches o (fun _ => none) d s s ∧
      (d.view o).Carries c.draft.target.module (Draft.frameTypes g.signature) g.signature.effectiveResult body)
      fun _ => Failed o := by
  have lawful := hc.lawful hu.function hr.alive
  have other : Meets (Compile.forwardingCode f span >>= fun code => pure (Body.code code)) c
      (fun body d => c.Reaches o (fun _ => none) d s s ∧
        (d.view o).Carries c.draft.target.module (Draft.frameTypes g.signature) g.signature.effectiveResult body)
      fun _ => Failed o :=
    (hc.forwardingCode callee).seq fun _ _ hd => hd
  refine meets_bind.2 ((meets_getFunction hu.function).2 ?_)
  split
  · next n hn =>
    have typed : n ≠ .listLength := fun e => hu.typed (e ▸ hn)
    obtain ⟨hp, hres⟩ := lawful.fits.native n hn typed
    exact meets_pure.2 ⟨.refl hc _ s, .native typed hp hres⟩
  · next op hop =>
    obtain ⟨hmem, hsig⟩ := lawful.fragment op hop
    refine meets_pure.2 ⟨.refl hc _ s, .code fun w hw => ?_⟩
    rw [hsig]
    exact flow_opcode hmem
  · next bytes hbytes =>
    refine meets_bind.2 (meets_here.2 (meets_bind.2 (meets_get.2 ?_)))
    split
    · next h =>
      simp only [Bool.and_eq_true, decide_eq_true_eq] at h
      refine meets_pure.2 ⟨.refl hc _ s, .code fun w hw => ?_⟩
      rw [← h.1] at hw ⊢
      exact lawful.fits.code bytes (by rw [hbytes]; rfl) w hw
    · exact other
  · exact other

/-! ### Functions of the module -/

/-- The type of a call. -/
theorem Ready.resultOf (hc : c.Ready o) (hu : c.Usable f g) (hr : c.Reachable f.module) :
    Meets (Compile.callResult f span) c (fun t d => d = c ∧ t.Known ∧ t = g.signature.effectiveResult ∧
      (c.view o).Callee c.draft.target.module f (Draft.frameTypes g.signature) t) fun _ => Failed o :=
  hc.callResult hu.function hu.generic hu.typed hu.begun hr.below hr.alive

/-- A function that passes calls on is added to the module of the draft. -/
theorem Ready.addCarrier {label : String} {sg : Signature} {body : Body} {captures : List String} (hc : c.Ready o)
    (h : (c.view o).Carries c.draft.target.module (Draft.frameTypes sg) sg.effectiveResult body)
    (hlen : captures.length = sg.nonlocals.length) (hu : Plain.reserved ∉ captures)
    (known : Ty.AllKnown (Draft.frameTypes sg)) (hr : sg.effectiveResult.Known) (s : Shape) :
    Meets (Compile.addFunction c.draft.target.module ⟨label, sg, body, captures⟩) c
      (fun i d => c.Reaches o (fun _ => none) d s s ∧
        d.library.function? ⟨c.draft.target.module, i⟩ = some ⟨label, sg, body, captures⟩ ∧
        (d.view o).Callee c.draft.target.module ⟨c.draft.target.module, i⟩ (Draft.frameTypes sg) sg.effectiveResult)
      fun _ => Failed o := by
  obtain ⟨m, hm, ha⟩ := hc.here
  refine (meets_onModule hm).2 ?_
  generalize hg : (⟨label, sg, body, captures⟩ : Function) = g
  have hevolves := Evolves.addFunction (x := fun _ => none) hc.good hm g
  have carries := h.extends (hevolves.library c.draft.target.module)
  have good := hc.good.addFunction (g := g) c.Waits hm ha hc.user (fun _ h => h) (by
    rw [← hg]
    rw [← hg] at carries
    exact carries.lawful (f := ⟨c.draft.target.module, m.functions.size⟩) hlen hu known hr)
  have function : (c.library.put c.draft.target.module (m.addFunction g).1).function?
      ⟨c.draft.target.module, m.functions.size⟩ = some g :=
    (Library.function?_put_self hm).trans Array.getElem?_push_size
  exact ⟨hc.evolve good hevolves rfl s, function, carries.callee (by rw [← hg]) (Nat.le_refl _) (hevolves.alive hc.alive)
    function (by rw [← hg]) (by rw [← hg]) hr⟩

theorem Ready.loadFunction {i : Nat} (hc : c.Ready o)
    (callee : (c.view o).Callee c.draft.target.module ⟨c.draft.target.module, i⟩ ts r) :
    Meets (Compile.emit1 .loadFunction i span) c
      (fun _ d => c.Emits o d s (Shape.ofTy (.function ts r) ++ s)) fun _ => Failed o := by
  rw [Shape.ofTy_of_isHeap rfl]
  exact hc.emit1 rfl fun w hw => .loadFunction (callee.extends hw (Nat.le_refl _))

theorem Ready.makeClosure {i : Nat} (hc : c.Ready o) (span : Span) (s : Shape)
    (hg : c.library.function? ⟨c.draft.target.module, i⟩ = some g)
    (callee : (c.view o).Callee c.draft.target.module ⟨c.draft.target.module, i⟩ (g.signature.closureTypes ++ ts) r) :
    Meets (Compile.emit1 .makeClosure i span) c
      (fun _ d => c.Emits o d (Shape.ofTys g.signature.closureTypes ++ s) (Shape.ofTy (.function ts r) ++ s))
      fun _ => Failed o := by
  rw [Shape.ofTy_of_isHeap rfl]
  refine hc.emit1 rfl fun w hw => ?_
  obtain ⟨g', hg', hext⟩ := hw.function (f := ⟨c.draft.target.module, i⟩) (Nat.le_refl _) hg
  rw [← hext.closureTypes]
  refine .makeClosure hg' ?_
  rw [hext.closureTypes]
  exact callee.extends hw (Nat.le_refl _)

/-! ### Captures -/

/-- Pushes a variable by name. -/
def Pushes (o : Surroundings) (push : Compile.Push) : Prop :=
  ∀ (name : String) (expected : Option Ty) (span : Span) (c : Compilation) (s : Shape), name ≠ Plain.reserved →
    c.Ready o → c.Sees s → Meets (push name expected span) c
      (fun t d => t.Known ∧ c.Reaches o (fun _ => none) d s (Shape.ofTy t ++ s)) fun _ => Failed o

theorem Pushes.each (hp : Pushes o push) (span : Span) : ∀ {l : List (String × Ty)} {c : Compilation} {s : Shape},
    (∀ q ∈ l, q.2.Known ∧ q.1 ≠ Plain.reserved) → c.Ready o → c.Sees s →
    Meets (l.forM fun (name, expected) => do
      let t ← push name (some expected) span
      Compile.setDepth ((← Compile.getDraft).depth + t.size)
      if !t.agrees expected then Compile.fail (.mismatch expected t) span) c
      (fun _ d => c.Reaches o (fun _ => none) d s (Shape.ofTys (l.map (·.2)).reverse ++ s)) fun _ => Failed o
  | [], c, s, _, hc, _ => .refl hc _ s
  | (name, expected) :: l, c, s, hl, hc, hs => by
    obtain ⟨hk, hn⟩ := hl _ (.head _)
    refine meets_bind.2 ((hp name _ span c s hn hc hs).seq fun t d hd => ?_)
    obtain ⟨ht, hd⟩ := hd
    refine meets_bind.2 (meets_getDraft.2 (meets_bind.2 (meets_modify.2 ?_)))
    have hdepth := hd.trans (.setDepth hd.ready (d.draft.depth + t.size) _)
    split
    · exact hdepth.failed
    · next hagree =>
      obtain rfl : t = expected := Ty.eq_of_agrees ht hk (by simpa using hagree)
      refine meets_pure.2 ((Pushes.each hp span (fun q hq => hl q (.tail _ hq)) hdepth.ready
        (hs.push hc hdepth (Shape.settled_ofTy t))).imp (fun _ e he => ?_) fun _ _ h => h)
      have := hdepth.trans he
      simpa using this

theorem Pushes.captures {v : View} {waits : FunctionRef → Prop} (hp : Pushes o push) (hc : c.Ready o) (hs : c.Sees s)
    (hg : v.Lawful waits f g) : Meets (Compile.pushCaptures push g span) c
      (fun _ d => c.Reaches o (fun _ => none) d s (Shape.ofTys g.signature.nonlocals ++ s)) fun _ => Failed o := by
  have known : ∀ q ∈ (g.captures.zip g.signature.nonlocals).reverse, q.2.Known ∧ q.1 ≠ Plain.reserved := by
    intro q hq
    obtain ⟨hn, ht⟩ := List.of_mem_zip (List.mem_reverse.1 hq)
    exact ⟨hg.nonlocals _ ht, fun e => hg.unreserved (e ▸ hn)⟩
  have names : ((g.captures.zip g.signature.nonlocals).reverse.map (·.2)).reverse = g.signature.nonlocals := by
    rw [← List.map_reverse, List.reverse_reverse]
    exact List.map_snd_zip (Nat.le_of_eq hg.captures.symm)
  have := hp.each span known hc hs
  rwa [names] at this

/-! ### Closures -/

/-- A generic function is used through an instance. -/
theorem Ready.specialize {expected : Option Ty} (hw : Writes o deferred) (hc : c.Ready o) (hr : c.Reachable f.module)
    (hg : c.library.function? f = some g) (hb : g.signature.bound = []) (ht : g.body ≠ .native .listLength) :
    Meets (Compile.specialize deferred f g expected span) c (fun f' d => c.Reaches o (fun _ => none) d s s ∧
      f'.module = f.module ∧ ∃ g', d.Specific f' g') fun _ => Failed o := by
  unfold Compile.specialize
  split
  · next h =>
    exact meets_pure.2 ⟨.refl hc _ s, rfl, g, hg, by simpa [Function.isGeneric] using h, ht, hb⟩
  · split
    · next params result =>
      dsimp only
      split
      · exact hc.failed
      next hknown =>
      split
      · exact hc.failed
      have known : Ty.AllKnown params := Ty.anyGeneric_eq_false.1 (by simpa using hknown)
      refine (hc.instantiate (s := s) hw hr hg known).seq fun i d hd => ?_
      obtain ⟨hd, -, g', hg', -⟩ := hd
      exact meets_pure.2 ⟨hd, rfl, g', hg'.toSpecific⟩
    · exact hc.failed

/-- A closure over a function of the module of the draft. -/
theorem Pushes.closure {v : View} {waits : FunctionRef → Prop} {i : Nat} {g₁ : Function} (hp : Pushes o push)
    (hc : c.Ready o) (hs : c.Sees s) (lawful : v.Lawful waits f g) (hb : g.signature.bound = [])
    (hg₁ : c.library.function? ⟨c.draft.target.module, i⟩ = some g₁) (hsig : g₁.signature = g.signature)
    (callee : (c.view o).Callee c.draft.target.module ⟨c.draft.target.module, i⟩ (Draft.frameTypes g.signature) r)
    (known : (Ty.function g.signature.params r).Known) :
    Meets (do
      if g.captures.isEmpty then Compile.emit1 .loadFunction i span
      else
        Compile.pushCaptures push g span
        Compile.emit1 .makeClosure i span
      return .function g.signature.params r) c
      (fun t d => t.Known ∧ c.Reaches o (fun _ => none) d s (Shape.ofTy t ++ s)) fun _ => Failed o := by
  have frame : Draft.frameTypes g.signature = g.signature.closureTypes ++ g.signature.params := rfl
  split
  · next hempty =>
    have hnil : g.signature.nonlocals = [] :=
      List.length_eq_zero_iff.1 (by rw [← lawful.captures, List.isEmpty_iff.1 hempty]; rfl)
    rw [Draft.frameTypes, hnil, hb] at callee
    exact (hc.loadFunction callee).seq fun _ d hd => meets_pure.2 ⟨known, hd.reaches⟩
  · refine (hp.captures hc hs lawful).seq fun _ d hd => ?_
    obtain ⟨g₂, hg₂, hext⟩ := hd.evolves.function hg₁
    have hclosure : g₂.signature.closureTypes = g.signature.nonlocals := by
      rw [hext.closureTypes, hsig, Signature.closureTypes, hb, List.append_nil]
    have callee := hd.evolves.callee callee
    rw [← hd.writes.target] at hg₂ callee
    rw [frame, ← hsig, ← hext.closureTypes] at callee
    have make := hd.ready.makeClosure span s hg₂ callee
    rw [hclosure, hsig] at make
    exact make.seq fun _ e he => meets_pure.2 ⟨known, hd.trans he.reaches⟩

theorem lawful_frame {v : View} {waits : FunctionRef → Prop} (h : v.Lawful waits f g)
    (hgen : g.body.isGeneric = false) (ht : g.body ≠ .native .listLength) :
    Ty.AllKnown (Draft.frameTypes g.signature) := by
  rw [Draft.frameTypes, Ty.allKnown_append, Ty.allKnown_append]
  exact ⟨⟨h.nonlocals, h.bound⟩, h.params hgen ht⟩

theorem Pushes.function {expected : Option Ty} (hw : Writes o deferred) (hp : Pushes o push) (hc : c.Ready o)
    (hs : c.Sees s) (hr : c.Reachable f.module) (hg : c.library.function? f = some g) (hb : g.signature.bound = [])
    (ht : g.body ≠ .native .listLength) :
    Meets (Compile.pushFunction deferred push f expected span) c
      (fun t d => t.Known ∧ c.Reaches o (fun _ => none) d s (Shape.ofTy t ++ s)) fun _ => Failed o := by
  refine meets_bind.2 ((meets_getFunction hg).2 (meets_bind.2 ((hc.specialize (s := s) hw hr hg hb ht).imp
    (fun f₁ c₁ h₁ => ?_) fun _ _ h => h)))
  obtain ⟨h₁, hmod, g₁, hg₁⟩ := h₁
  refine (h₁.ready.ensureWritten (s := s) hw hg₁).seq fun _ c₂ h₂ => ?_
  obtain ⟨h₂, -, g₂, usable, -⟩ := h₂
  have h₂ := h₁.trans h₂
  have hr₂ : c₂.Reachable f₁.module := hmod ▸ hr.evolve h₂.evolves h₂.writes.target
  refine (h₂.ready.resultOf usable hr₂).seq fun t c₃ h₃ => ?_
  obtain ⟨rfl, known, rfl, callee⟩ := h₃
  have lawful := h₂.ready.lawful usable.function hr₂.alive
  have frame := lawful_frame lawful usable.generic usable.typed
  have sees := hs.push (u := []) hc h₂ Shape.settled_nil
  have whole : (Ty.function g₂.signature.params g₂.signature.effectiveResult).Known :=
    Ty.known_function.2 ⟨lawful.params usable.generic usable.typed, known⟩
  refine meets_bind.2 ((meets_getFunction usable.function).2 (meets_bind.2 (meets_here.2 ?_)))
  dsimp only
  split
  · next hhere =>
    simp only [Bool.and_eq_true, decide_eq_true_eq] at hhere
    have hf : (⟨c₃.draft.target.module, f₁.index⟩ : FunctionRef) = f₁ := by rw [← hhere.1]
    refine meets_bind.2 (meets_pure.2 ((hp.closure h₂.ready sees lawful usable.bound ?_ rfl ?_ whole).imp
      (fun t d hd => ⟨hd.1, h₂.trans hd.2⟩) fun _ _ h => h))
    · rw [hf]
      exact usable.function
    · rw [hf]
      exact callee
  · refine (h₂.ready.forwardingBody (s := s) usable hr₂ callee).seq fun body c₄ h₄ => ?_
    obtain ⟨h₄, carries⟩ := h₄
    rw [← h₄.writes.target] at carries
    refine meets_bind.2 (meets_here.2 ((h₄.ready.addCarrier carries lawful.captures lawful.unreserved frame
      known s).seq fun i c₅ h₅ => ?_))
    obtain ⟨h₅, hfun, callee₅⟩ := h₅
    have h := h₂.trans (h₄.trans h₅)
    rw [← h₅.writes.target] at hfun callee₅
    exact (hp.closure h.ready (hs.push (u := []) hc h Shape.settled_nil) lawful usable.bound hfun rfl callee₅ whole).imp
      (fun t d hd => ⟨hd.1, h.trans hd.2⟩) fun _ _ h => h

/-! ### Variables -/

/-- A binding that is computed anew is a call without arguments. -/
theorem Ready.pushComputed {name : String} (hw : Writes o deferred) (hc : c.Ready o) (hs : c.Sees s)
    (hm : c.Means s name (.computed f)) :
    Meets (do
      Compile.ensureWritten deferred f
      let t ← Compile.callResult f span
      Compile.emitCall f span
      return t) c (fun t d => t.Known ∧ c.Reaches o (fun _ => none) d s (Shape.ofTy t ++ s)) fun _ => Failed o := by
  obtain ⟨-, hr, g, hg, hframe, hgen, ht⟩ := hm
  have hbound : g.signature.bound = [] := by
    simp only [Draft.frameTypes, List.append_eq_nil_iff] at hframe
    exact hframe.1.2
  refine (hc.ensureWritten (s := s) hw ⟨hg, hgen, ht, hbound⟩).seq fun _ c₁ h₁ => ?_
  obtain ⟨h₁, -, g₁, usable, hext⟩ := h₁
  refine (h₁.ready.resultOf usable (hr.evolve h₁.evolves h₁.writes.target)).seq fun t c₂ h₂ => ?_
  obtain ⟨rfl, known, -, callee⟩ := h₂
  rw [hext.frameTypes, hframe] at callee
  exact meets_bind.2 ((h₁.ready.emitCall span hs.settled callee).imp
    (fun _ d hd => meets_pure.2 ⟨known, h₁.trans hd⟩) fun _ _ h => h)

theorem pushes_pushNested (hw : Writes o deferred) : ∀ n, Pushes o (Compile.pushNested deferred n)
  | 0 => fun _ _ _ _ _ _ hc _ => hc.failed
  | n + 1 => fun name expected span c s hn hc hs => by
    refine meets_bind.2 (hc.meets_resolve hs fun meaning hm => ?_)
    cases meaning with
    | stored op offset t => exact hc.pushStored hm
    | function f =>
      obtain ⟨hr, g, hg, hb, ht⟩ := hm
      exact (pushes_pushNested hw n).function hw hc hs hr hg hb fun e => hn (ht.1 e)
    | computed f => exact hc.pushComputed hw hs hm
    | value id index => exact hc.pushStatic hm.2

theorem pushes_pushVariable (hw : Writes o deferred) : Pushes o (Compile.pushVariable deferred) :=
  pushes_pushNested hw Compile.nestingLimit

end Compilation

end StackScript
