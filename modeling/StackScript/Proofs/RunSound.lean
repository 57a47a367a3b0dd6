import StackScript.Proofs.ExecuteSound
import StackScript.Proofs.Extension
import StackScript.Proofs.Widens

/-!
Runs of typed code. A step keeps the innermost activation and the frames under it typed, so that a run either ends
with the result of the function that it began with, or breaks off with a fault that is allowed.
-/
namespace StackScript

namespace View

variable {v : View} {Ψ Ψ' : Typing} {b : Nat} {total final s : Shape} {others ext rs : List Handle}
  {bytes rest : Bytes} {frames : List Frame} {m : Machine} {a : Activation}

open Run

/-- What waits under an activation for a result of the given shape: functions that go on with it, and at the
bottom the host, for the shape of the whole. -/
inductive Awaits (v : View) (Ψ : Typing) (b : Nat) (total : Shape) :
    Shape → List Frame → Bytes → List Handle → Prop
  | host {f : Frame} (caller : f.caller = none) : Awaits v Ψ b total total [f] [] []
  | function {g : FunctionRef} {cursor base frame : Nat} {final final' s : Shape} {fs : List Frame}
    {bytes rest : Bytes} {rs rs' : List Handle} (below : g.module ≤ b) (alive : (v.library.get g.module).alive)
    (flow : v.Flow g.module frame (codeOf v.library g) final' cursor (final ++ s)) (settled : s.Settled)
    (lays : Ψ.Lays b s bytes rs []) (height : base = rest.length + frame)
    (tail : Awaits v Ψ b total final' fs rest rs') :
    Awaits v Ψ b total final (⟨some g, cursor, base⟩ :: fs) (bytes ++ rest) (rs ++ rs')

/-- An activation whose code flows with what lies on the stack. -/
structure Active (v : View) (b : Nat) (final : Shape) (rest : Bytes) (a : Activation) (s : Shape) : Prop where
  below : a.function.module ≤ b
  alive : (v.library.get a.function.module).alive
  code : a.code = codeOf v.library a.function
  flow : ∃ frame, a.base = rest.length + frame ∧ v.Flow a.function.module frame a.code final a.cursor s

/-- A machine in the middle of a run. -/
def Going (v : View) (b : Nat) (total : Shape) (ext : List Handle) (a : Activation) (m : Machine) : Prop :=
  ∃ Ψ final s fs rest rs, v.Active b final rest a s ∧ v.Awaits Ψ b total final fs rest rs ∧
    v.Holding Ψ b s (rs ++ ext) rest fs m

/-- A machine at the end of a run: nothing but the result is on the stack. -/
def Returned (v : View) (b : Nat) (total : Shape) (ext : List Handle) (m : Machine) : Prop :=
  ∃ Ψ, v.Holding Ψ b total ext [] [] m

theorem Awaits.mono (h : v.Awaits Ψ b total final frames rest rs) (e : Ψ.Agree rs Ψ') :
    v.Awaits Ψ' b total final frames rest rs := by
  induction h with
  | host caller => exact .host caller
  | function below alive flow settled lays height tail ih =>
    refine .function below alive flow settled (lays.mono (Nat.le_refl b) fun r hr hn => e r ?_ hn) height
      (ih fun r hr hn => e r (List.mem_append_right _ hr) hn)
    simpa using List.mem_append_left _ hr

theorem Agree.left {rs rs' : List Handle} (h : Ψ.Agree (rs ++ rs') Ψ') : Ψ.Agree rs Ψ' :=
  fun r hr hn => h r (List.mem_append_left _ hr) hn

/-- The outcome of a step: the run goes on, has returned or has broken off. -/
def Stepped (v : View) (b : Nat) (total : Shape) (ext : List Handle) : Option Activation → Machine → Prop
  | none, m => m.heap.cells.size ≤ Heap.capacity → v.Returned b total ext m
  | some a, m => m.heap.cells.size ≤ Heap.capacity → v.Going b total ext a m

/-- The result goes to what waits for it. -/
theorem Awaits.leave (hw : v.Awaits Ψ b total final frames rest rs)
    (h : v.Holding Ψ b final (rs ++ ext) rest frames m) :
    Meets (leave v.library a) m (v.Stepped b total ext) v.Broken := by
  obtain ⟨bytes, rs₁, ls, hm, lays, sound, hls⟩ := h
  refine meets_bind.2 (meets_notice hm fun m₁ hm₁ => meets_bind.2 ?_)
  cases hw with
  | @host f caller =>
    refine meets_popFrame hm₁ fun m₂ hm₂ => ?_
    rw [caller]
    exact fun _ => ⟨Ψ, bytes, rs₁, ls, hm₂.heap ▸ hm₂, lays, hm₂.heap ▸ sound, hm₂.heap ▸ hls⟩
  | @function g cursor base frame _ final' s fs bytes' rest rs rs' below alive flow settled lays' height tail =>
    refine meets_popFrame hm₁ fun m₂ hm₂ _ => ?_
    refine ⟨Ψ, final', final ++ s, fs, rest, rs', ⟨below, alive, rfl, frame, height, flow⟩, tail,
      bytes ++ bytes', rs₁ ++ rs, ls ++ [], ?_, lays.append lays', ?_, ?_⟩
    · rw [List.append_assoc]
      exact hm₂.heap ▸ hm₂
    · rw [hm₂.heap]
      simpa only [List.append_assoc] using sound
    · rw [List.append_nil, hm₂.heap]
      exact hls

/-- A function with code that was entered, with its frame on top. -/
structure Entered (v : View) (Ψ : Typing) (b : Nat) (ts : List Ty) (r : Ty) (s : Shape) (others : List Handle)
    (rest : Bytes) (frames : List Frame) (f : FunctionRef) (callee : Activation) (m : Machine) : Prop where
  function : callee.function = f
  code : callee.code = codeOf v.library f
  below : f.module ≤ b
  alive : (v.library.get f.module).alive
  flow : v.Flow f.module (Ty.sizes ts) callee.code (Shape.ofTy r) callee.cursor (Shape.ofTys ts)
  holding : v.Holding Ψ b (Shape.ofTys ts ++ s) others rest frames m

theorem Holding.notice {e : Event} {ok : Unit → Machine → Prop} {bad : Fault → Machine → Prop}
    (h : v.Holding Ψ b s others rest frames m)
    (hok : ∀ m', v.Holding Ψ b s others rest frames m' → ok () m') : Meets (notice e) m ok bad := by
  obtain ⟨bytes, rs, ls, hm, lays, sound, hls⟩ := h
  exact meets_notice hm fun m' hm' => hok m'
    ⟨bytes, rs, ls, hm'.heap ▸ hm', lays, hm'.heap ▸ sound, hm'.heap ▸ hls⟩

theorem Leads.notice {e : Event} (h : v.Leads Ψ b s others rest frames m) :
    Meets (notice e) m (fun _ => v.Leads Ψ b s others rest frames) v.Broken := by
  refine meets_notice m.at_self fun m' hm' hcap => ?_
  rw [hm'.heap] at hcap
  obtain ⟨Ψ', agree, bytes, rs, ls, hm, lays, sound, hls⟩ := h hcap
  exact ⟨Ψ', agree, bytes, rs, ls, ⟨hm'.bytes.trans hm.bytes, hm'.frames.trans hm.frames, rfl⟩, lays,
    hm'.heap ▸ sound, hm'.heap ▸ hls⟩

section

variable {f : FunctionRef} {g : Function} {ts : List Ty} {r : Ty}

/-- A native function runs in place. -/
theorem Callee.native {n : Native} (hv : v.Fits) (callee : v.Callee b f ts r)
    (hg : v.library.function? f = some g) (hb : g.body = .native n) (settled : s.Settled)
    (h : v.Holding Ψ b (Shape.ofTys ts ++ s) others rest frames m) :
    Meets (enter v.library f) m
      (fun o m' => o = none ∧ v.Leads Ψ b (Shape.ofTy r ++ s) others rest frames m') v.Broken := by
  obtain ⟨g', hg', cases⟩ := callee.known
  obtain rfl : g' = g := Option.some.inj (hg'.symm.trans hg)
  refine meets_bind.2 (meets_lift (Library.findFunction_eq hg) ?_)
  rw [hb]
  refine meets_bind.2 (h.notice fun m₁ h₁ => ?_)
  have run : Meets n.run m₁ (fun _ => v.Leads Ψ b (Shape.ofTy r ++ s) others rest frames) v.Broken := by
    rcases cases with ⟨-, hu⟩ | ⟨hl, ⟨e, rfl⟩, rfl⟩ | ⟨-, hlen, rfl, rfl, -, -⟩
    · rw [hb] at hu
      cases hu
    · obtain rfl := Body.native.inj (hb.symm.trans hl)
      exact h₁.listLength settled
    · have hn : n ≠ .listLength := fun e => hlen (by rw [hb, e])
      obtain ⟨hframe, hresult⟩ := (hv f g' callee.alive hg).native n hb hn
      rw [hframe] at h₁
      rw [hresult]
      exact h₁.native hn settled
  exact run.seq fun _ m₂ h₂ => (h₂.notice.seq fun _ _ h₃ => ⟨rfl, h₃⟩)

/-- A function with code is entered. -/
theorem Callee.code {code : Array UInt8} (hv : v.Fits) (callee : v.Callee b f ts r)
    (hg : v.library.function? f = some g) (hc : g.body.code? = some code)
    (h : v.Holding Ψ b (Shape.ofTys ts ++ s) others rest frames m) :
    Meets (enter v.library f) m
      (fun o m' => ∃ a, o = some a ∧ v.Entered Ψ b ts r s others rest frames f a m') v.Broken := by
  obtain ⟨g', hg', cases⟩ := callee.known
  obtain rfl : g' = g := Option.some.inj (hg'.symm.trans hg)
  have hcode : code = codeOf v.library f := by simp [codeOf, hg, hc]
  have entered : Meets (Run.notice (.entered f) >>= fun _ => pure (some (⟨f, code, 0, 0⟩ : Activation))) m
      (fun o m' => ∃ a, o = some a ∧ v.Entered Ψ b ts r s others rest frames f a m') v.Broken := by
    refine meets_bind.2 (h.notice fun m₁ h₁ => meets_pure.2 ⟨_, rfl, rfl, hcode, callee.below, callee.alive, ?_, h₁⟩)
    rcases cases with ⟨-, hu⟩ | ⟨hl, -, -⟩ | ⟨-, -, rfl, rfl, -, -⟩
    · rw [hu] at hc
      cases hc
    · rw [hl] at hc
      cases hc
    · exact (hv f g' callee.alive hg).code code hc v (.refl _ v)
  rw [enter_code v.library (Library.findFunction_eq hg) hc]
  exact entered

theorem Callee.not_generic (callee : v.Callee b f ts r) (hg : v.library.function? f = some g) :
    g.body.isGeneric = false := by
  obtain ⟨g', hg', cases⟩ := callee.known
  obtain rfl : g' = g := Option.some.inj (hg'.symm.trans hg)
  rcases cases with ⟨-, hu⟩ | ⟨hl, -, -⟩ | ⟨hgen, -⟩
  · rw [hu]
    rfl
  · rw [hl]
    rfl
  · exact hgen

end

/-- A function was entered, or has run in place. -/
def Began (v : View) (Ψ : Typing) (b : Nat) (u : Shape) (others : List Handle) (rest : Bytes)
    (frames : List Frame) (f : FunctionRef) : Option Activation → Machine → Prop
  | none, m => v.Leads Ψ b u others rest frames m
  | some a, m => ∃ ts r s, u = Shape.ofTy r ++ s ∧ s.Settled ∧ v.Entered Ψ b ts r s others rest frames f a m

theorem Entering.enter {u : Shape} {f : FunctionRef} (hv : v.Fits) (h : v.Entering Ψ b u others rest frames f m) :
    Meets (enter v.library f) m (v.Began Ψ b u others rest frames f) v.Broken := by
  obtain ⟨ts, r, s, rfl, callee, settled, h⟩ := h
  obtain ⟨g, hg, -⟩ := callee.known
  have began {code : Array UInt8} (hc : g.body.code? = some code) :
      Meets (Run.enter v.library f) m (v.Began Ψ b (Shape.ofTy r ++ s) others rest frames f) v.Broken :=
    (callee.code hv hg hc h).imp (fun _ _ ⟨_, e, h'⟩ => e ▸ ⟨ts, r, s, rfl, settled, h'⟩) fun _ _ h => h
  cases hb : g.body with
  | undefined =>
    refine meets_bind.2 (meets_lift (Library.findFunction_eq hg) ?_)
    rw [hb]
    exact h.broken ⟨f, g, callee.alive, hg, hb⟩
  | generic decl scope =>
    have := callee.not_generic hg
    rw [hb] at this
    cases this
  | native n => exact (callee.native hv hg hb settled h).imp (fun _ _ ⟨e, h'⟩ => e ▸ h') fun _ _ h => h
  | code bytes => exact began (by rw [hb]; rfl)
  | fragment op => exact began (by rw [hb]; rfl)

/-! ### Steps and runs -/

end View

namespace Run

theorem step_eq {l : Library} {a : Activation} {op : Opcode} {x y : Nat} (h : Fetches a.code a.cursor op x y) :
    ∃ byte, step l a = count l a byte >>= fun _ => perform l a op x y := by
  obtain ⟨byte, hb, hr⟩ := h
  refine ⟨byte, ?_⟩
  rw [step_some l hb, hr]
  rfl

end Run

namespace View

variable {v : View} {Ψ Ψ' : Typing} {b : Nat} {total final s u : Shape} {others ext rs : List Handle}
  {bytes rest : Bytes} {frames : List Frame} {m : Machine} {a : Activation}

open Run

theorem Moves.jumpDistance {k frame x y : Nat} {op : Opcode} (h : v.Moves k frame op x y s u) :
    Run.jumpDistance op x = pure 0 := by
  cases h with
  | call calls => cases calls <;> rfl
  | _ => rfl

theorem Holding.count {byte : UInt8} (h : v.Holding Ψ b s others rest frames m) {α : Type} {x : Run α}
    {ok : α → Machine → Prop}
    (hok : ∀ m', v.Holding Ψ b s others rest frames m' → Meets x m' ok v.Broken) :
    Meets (count v.library a byte >>= fun _ => x) m ok v.Broken := by
  obtain ⟨bytes, rs, ls, hm, lays, sound, hls⟩ := h
  have hm' {m' : Machine} (h' : m'.At m.stack.bytes m.frames m.heap) :
      v.Holding Ψ b s others rest frames m' :=
    ⟨bytes, rs, ls, ⟨h'.bytes.trans hm.bytes, h'.frames.trans hm.frames, rfl⟩, lays, h'.heap ▸ sound,
      h'.heap ▸ hls⟩
  refine meets_bind.2 ((meets_count v.library a byte m).imp (fun _ m' h' => hok m' (hm' h'.2)) ?_)
  rintro _ m' ⟨⟨n, rfl⟩, h'⟩
  exact (hm' h').broken trivial

theorem Leads.going {a' : Activation} (h : v.Leads Ψ b s (rs ++ ext) rest frames m)
    (awaits : v.Awaits Ψ b total final frames rest rs) (active : v.Active b final rest a' s) :
    v.Stepped b total ext (some a') m := fun hcap => by
  obtain ⟨Ψ', agree, h⟩ := h hcap
  exact ⟨Ψ', final, s, frames, rest, rs, active, awaits.mono (Agree.left agree), h⟩

/-- The activation of a function that was entered, with the height of the stack under its frame. -/
theorem Entered.active {f : FunctionRef} {ts : List Ty} {r : Ty} {base : Nat}
    (h : v.Entered Ψ b ts r s others rest frames f a m) (hbase : base = bytes.length + Ty.sizes ts) :
    v.Active b (Shape.ofTy r) bytes { a with base := base } (Shape.ofTys ts) := by
  obtain ⟨hf, hcode, hbelow, halive, flow, -⟩ := h
  subst hf
  exact ⟨hbelow, halive, hcode, Ty.sizes ts, hbase, flow⟩

/-- The caller of a function that was entered awaits its result. -/
theorem Entered.going {f : FunctionRef} {ts : List Ty} {r : Ty} {callee : Activation}
    (hf : v.Entered Ψ b ts r s (rs ++ ext) rest frames f callee m) (settled : s.Settled)
    (awaits : v.Awaits Ψ b total final frames rest rs) (active : v.Active b final rest a (Shape.ofTy r ++ s)) :
    Meets (do
      pushFrame ⟨some a.function, a.cursor, a.base⟩
      return some { callee with base := (← get).stack.size }) m (v.Stepped b total ext) v.Broken := by
  obtain ⟨xs, ys, rs₁, rs₂, ls, hm, h₁, h₂, sound, -⟩ := hf.holding.split (Shape.settled_ofTys ts)
  obtain rfl := h₂.lent_eq_nil settled
  refine meets_bind.2 (meets_pushFrame hm fun m' hm' => meets_bind.2 (meets_get.2 (meets_pure.2 fun _ => ?_)))
  obtain ⟨frame, hbase, hflow⟩ := active.flow
  have hsize : m'.stack.size = (ys ++ rest).length + Ty.sizes ts := by
    rw [Stack.size_append_eq hm'.bytes, h₁.length, Shape.size_ofTys]
    exact Nat.add_comm ..
  refine ⟨Ψ, _, _, _, _, _, hf.active hsize,
    .function active.below active.alive (active.code ▸ hflow) settled h₂ hbase awaits, xs, rs₁, [], hm'.heap ▸ hm',
    h₁, ?_, by simp⟩
  rw [hm'.heap, List.append_assoc]
  exact sound

theorem Going.step (hv : v.Fits) (h : v.Going b total ext a m) :
    Meets (step v.library a) m (v.Stepped b total ext) v.Broken := by
  obtain ⟨Ψ, final, s, fs, rest, rs, active, awaits, h⟩ := h
  obtain ⟨frame, hbase, flow⟩ := active.flow
  have active' {u : Shape} {pc : Nat} (next : v.Flow a.function.module frame a.code final pc u) :
      v.Active b final rest { a with cursor := pc } u :=
    ⟨active.below, active.alive, active.code, frame, hbase, next⟩
  cases flow with
  | done end_ =>
    unfold Run.step
    rw [Array.getElem?_eq_none end_]
    exact awaits.leave h
  | step fetch move next =>
    obtain ⟨byte, e⟩ := step_eq (l := v.library) fetch
    rw [e]
    refine h.count fun m₁ h₁ => ?_
    unfold perform
    rw [move.jumpDistance, pure_bind, Nat.add_zero]
    refine meets_bind.2 ((move.meets (a := { a with cursor := _ }) hbase active.below active.alive h₁).imp
      (fun o m₂ h₂ => ?_) fun _ _ h => h)
    cases o with
    | none => exact meets_pure.2 (Leads.going h₂ awaits (active' next))
    | some f =>
      refine (Entering.enter hv h₂).seq fun o m₃ h₃ => ?_
      cases o with
      | none => exact meets_pure.2 (Leads.going h₃ awaits (active' next))
      | some callee =>
        obtain ⟨ts, r, s', rfl, settled, hf⟩ := h₃
        exact hf.going (a := { a with cursor := _ }) settled awaits (active' next)
  | jump fetch next =>
    obtain ⟨byte, e⟩ := step_eq (l := v.library) fetch
    rw [e]
    exact h.count fun m₁ h₁ => Leads.going h₁.leads awaits (active' next)
  | branch fetch yes no =>
    obtain ⟨byte, e⟩ := step_eq (l := v.library) fetch
    rw [e]
    refine h.count fun m₁ h₁ => meets_bind.2 (meets_bind.2 (h₁.pullBool fun x m₂ h₂ => ?_))
    cases x with
    | true => exact Leads.going h₂.leads awaits (active' yes)
    | false => exact Leads.going h₂.leads awaits (active' no)

/-- A run that is not broken off returns. -/
theorem Going.steps (hv : v.Fits) (fuel : Nat) : ∀ {a : Activation} {m : Machine}, v.Going b total ext a m →
    Meets (steps v.library fuel a) m
      (fun _ m' => m'.heap.cells.size ≤ Heap.capacity → v.Returned b total ext m') v.Broken := by
  induction fuel with
  | zero =>
    intro a m ⟨Ψ, final, s, fs, rest, rs, active, awaits, h⟩
    exact meets_bind.2 (meets_get.2 (h.broken trivial))
  | succ fuel ih =>
    intro a m h
    unfold Run.steps
    refine (h.step hv).seq fun o m₁ h₁ => ?_
    cases o with
    | none => exact meets_pure.2 h₁
    | some a₁ =>
      by_cases hcap : m₁.heap.cells.size ≤ Heap.capacity
      · exact ih (h₁ hcap)
      · -- The arena has outgrown its handles, and does not shrink again.
        exact (Widens.steps v.library fuel a₁ m₁).imp (fun _ m₂ hw h₂ => absurd (Nat.le_trans hw h₂) hcap)
          fun e m₂ hw h₂ => absurd (Nat.le_trans hw h₂) hcap

theorem Leads.returned (h : v.Leads Ψ b total ext [] [] m) :
    m.heap.cells.size ≤ Heap.capacity → v.Returned b total ext m := fun hcap => by
  obtain ⟨Ψ', -, h⟩ := h hcap
  exact ⟨Ψ', h⟩

/-- A function with code is entered from outside, with nothing but its frame on the stack. -/
theorem Holding.begin {code : Array UInt8} {m' : Machine} (hv : v.Fits) {f : FunctionRef} {g : Function} {ts : List Ty} {r : Ty}
    (callee : v.Callee b f ts r) (hg : v.library.function? f = some g) (hc : g.body.code? = some code)
    (h : v.Holding Ψ b (Shape.ofTys ts) ext [] [] m) (hm' : m'.At m.stack.bytes [⟨none, 0, m.stack.size⟩] m.heap) :
    Meets (enter v.library f) m'
      (fun o n => ∃ a, o = some a ∧ v.Going b (Shape.ofTy r) ext { a with base := m.stack.size } n) v.Broken := by
  obtain ⟨bytes, rs, ls, hm, lays, sound, hls⟩ := h
  have hbase : m.stack.size = ([] : Bytes).length + Ty.sizes ts := by
    rw [Stack.size_append_eq hm.bytes, lays.length, Shape.size_ofTys]
    exact Nat.add_comm ..
  have h₂ : v.Holding Ψ b (Shape.ofTys ts ++ []) ([] ++ ext) [] [⟨none, 0, m.stack.size⟩] m' := by
    rw [List.append_nil]
    rw [hm.bytes] at hm'
    exact ⟨bytes, rs, ls, hm'.heap ▸ hm', lays, hm'.heap ▸ sound, hm'.heap ▸ hls⟩
  refine (callee.code hv hg hc h₂).imp (fun o m₃ ⟨a, e, hf⟩ => ?_) fun _ _ h => h
  have h₃ := hf.holding
  rw [List.append_nil] at h₃
  exact ⟨a, e, Ψ, _, _, _, [], [], hf.active hbase, .host rfl, h₃⟩

/-- A function with code is run from outside. -/
theorem Holding.launch {code : Array UInt8} (hv : v.Fits) {f : FunctionRef} {g : Function} {ts : List Ty} {r : Ty}
    (callee : v.Callee b f ts r) (hg : v.library.function? f = some g) (hc : g.body.code? = some code)
    (h : v.Holding Ψ b (Shape.ofTys ts) ext [] [] m) :
    Meets (launch v.library f) m
      (fun _ m' => m'.heap.cells.size ≤ Heap.capacity → v.Returned b (Shape.ofTy r) ext m') v.Broken := by
  refine meets_bind.2 (meets_get.2 (meets_bind.2 (meets_pushFrame h.at fun m₂ hm₂ => ?_)))
  refine (h.begin hv callee hg hc hm₂).seq fun o m₃ ⟨a, e, going⟩ => ?_
  subst e
  exact Going.steps hv ceiling going

theorem Holding.answer (hv : v.Fits) {f : FunctionRef} {g : Function} {ts : List Ty} {r : Ty}
    (callee : v.Callee b f ts r) (hg : v.library.function? f = some g) (h : v.Holding Ψ b (Shape.ofTys ts) ext [] [] m) :
    Meets (answer v.library f g) m
      (fun _ m' => m'.heap.cells.size ≤ Heap.capacity → v.Returned b (Shape.ofTy r) ext m') v.Broken := by
  unfold Run.answer
  cases hb : g.body with
  | undefined => exact h.broken ⟨f, g, callee.alive, hg, hb⟩
  | generic decl scope =>
    have := callee.not_generic hg
    rw [hb] at this
    cases this
  | native n =>
    have h' : v.Holding Ψ b (Shape.ofTys ts ++ []) ([] ++ ext) [] [] m := by rwa [List.append_nil]
    refine (callee.native hv hg hb (by simp) h').seq fun _ m₂ h₂ => meets_pure.2 ?_
    rw [List.append_nil] at h₂
    exact h₂.2.returned
  | code bytes => exact h.launch hv callee hg (by rw [hb]; rfl)
  | fragment op => exact h.launch hv callee hg (by rw [hb]; rfl)

/-- Steps are counted anew. -/
theorem Holding.anew (h : v.Holding Ψ b s others rest frames m) :
    v.Holding Ψ b s others rest frames (if m.frames.isEmpty then { m with steps := 0 } else m) := by
  obtain ⟨bytes, rs, ls, hm, lays, sound, hls⟩ := h
  split
  · exact ⟨bytes, rs, ls, ⟨hm.bytes, hm.frames, rfl⟩, lays, sound, hls⟩
  · exact ⟨bytes, rs, ls, hm, lays, sound, hls⟩

/-- A call from outside, with nothing but the frame of the function on the stack. -/
theorem Holding.call (hv : v.Fits) {f : FunctionRef} {ts : List Ty} {r : Ty} (callee : v.Callee b f ts r)
    (h : v.Holding Ψ b (Shape.ofTys ts) ext [] [] m) :
    Meets (call v.library f) m
      (fun _ m' => m'.heap.cells.size ≤ Heap.capacity → v.Returned b (Shape.ofTy r) ext m') v.Broken := by
  obtain ⟨g, hg, -⟩ := callee.known
  rw [call_eq]
  exact meets_bind.2 (meets_lift (Library.findFunction_eq hg) (meets_bind.2 (meets_modify.2 (h.anew.answer hv callee hg))))

end View

end StackScript
