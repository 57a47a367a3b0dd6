import StackScript.Proofs.Actions

/-!
The arena of the heap never shrinks, whatever is run, and a step that fails leaves the call frames as they are.
-/
namespace StackScript

/-- The arena has not shrunk, and the frames are the same. -/
structure Machine.Grows (m n : Machine) : Prop where
  size : m.heap.cells.size ≤ n.heap.cells.size
  frames : n.frames = m.frames

theorem Machine.Grows.refl (m : Machine) : m.Grows m := ⟨Nat.le_refl _, rfl⟩

theorem Machine.Grows.trans {m n p : Machine} (h : m.Grows n) (k : n.Grows p) : m.Grows p :=
  ⟨Nat.le_trans h.size k.size, k.frames.trans h.frames⟩

namespace Run

/-- The arena is at least as large after the action as before it, and the frames are the same. -/
def Stays {α : Type} (x : Run α) : Prop := ∀ m, Meets x m (fun _ => m.Grows) fun _ => m.Grows

namespace Stays

variable {α β : Type} {x : Run α}

theorem pure (a : α) : Stays (Pure.pure a) := fun m => .refl m

theorem throw (e : Fault) : Stays (MonadExcept.throw e : Run α) := fun m => .refl m

theorem get : Stays (MonadState.get : Run Machine) := fun m => .refl m

theorem bind {f : α → Run β} (hx : Stays x) (hf : ∀ a, Stays (f a)) : Stays (x >>= f) := by
  intro m
  refine (hx m).seq fun a n h => ?_
  exact ((hf a) n).imp (fun _ _ k => h.trans k) fun _ _ k => h.trans k

theorem change {f : Machine → Machine} (hh : ∀ m, (f m).heap = m.heap) (hf : ∀ m, (f m).frames = m.frames) :
    Stays (modify f) := fun m => meets_modify.2 ⟨Nat.le_of_eq (by rw [hh]), hf m⟩

theorem onStack (f : Stack → Except Fault (α × Stack)) : Stays (Run.onStack f) := fun m => by
  unfold Meets Run.onStack
  split <;> (next e => split at e <;> cases e; exact ⟨Nat.le_refl _, rfl⟩)

theorem onHeap {f : Heap → Outcome Heap α} (hf : ∀ h : Heap, h.cells.size ≤ (f h).1.cells.size) :
    Stays (Run.onHeap f) := fun m => by
  have := hf m.heap
  unfold Meets Run.onHeap
  cases hr : (f m.heap).2 <;> simpa only [hr] using ⟨this, rfl⟩

end Stays

theorem Basic.stays {α : Type} {x : Run α} (h : Basic x) : Stays x := by
  induction h with
  | pure a => exact .pure a
  | throw e => exact .throw e
  | bind _ _ hx hf => exact hx.bind hf
  | lift r => exact fun m => by cases r <;> exact .refl m
  | onStack => exact .onStack _
  | readHeap f =>
    intro m
    unfold Meets Run.readHeap
    split <;> (next e => split at e <;> cases e; exact .refl m)
  | onHeap hf => exact .onHeap hf
  | observe f _ hf => exact Stays.get.bind fun m => hf m.heap
  | record e => exact .change (fun _ => rfl) fun _ => rfl
  | notice e => exact .change (fun m => by split <;> rfl) fun m => by split <;> rfl

namespace Stays

variable (l : Library)

theorem execute (a : Activation) (op : Opcode) (first second : Nat) : Stays (Run.execute l a op first second) := by
  have copy (start size : Nat) : Stays (Run.setStack fun s => s.copy start size) := fun m => by
    unfold Meets Run.setStack
    split <;> (next e => split at e <;> cases e; exact ⟨Nat.le_refl _, rfl⟩)
  by_cases hv : op = .copyVariable
  · subst hv
    exact (copy _ _).bind fun _ => .pure _
  by_cases ha : op = .copyArgument
  · subst ha
    simp only [Run.execute]
    split
    · exact (throw _).bind fun _ => (copy _ _).bind fun _ => .pure _
    · exact (copy _ _).bind fun _ => .pure _
  exact (Basic.execute l a hv ha first second).stays

theorem count (a : Activation) (b : UInt8) : Stays (Run.count l a b) := fun m =>
  (meets_count l a b m).imp (fun _ _ h => ⟨Nat.le_of_eq (congrArg (·.cells.size) h.2.heap.symm), h.2.frames⟩) fun _ _ h =>
    ⟨Nat.le_of_eq (congrArg (·.cells.size) h.2.heap.symm), h.2.frames⟩

end Stays

/-- The arena is at least as large after the action as before it. -/
def Widens {α : Type} (x : Run α) : Prop :=
  ∀ m, Meets x m (fun _ n => m.heap.cells.size ≤ n.heap.cells.size) fun _ n => m.heap.cells.size ≤ n.heap.cells.size

theorem Stays.widens {α : Type} {x : Run α} (h : Stays x) : Widens x :=
  fun m => (h m).imp (fun _ _ k => k.size) fun _ _ k => k.size

namespace Widens

variable {α β : Type} {x : Run α} (l : Library)

theorem bind {f : α → Run β} (hx : Widens x) (hf : ∀ a, Widens (f a)) : Widens (x >>= f) := by
  intro m
  refine (hx m).seq fun a n h => ?_
  exact ((hf a) n).imp (fun _ _ k => Nat.le_trans h k) fun _ _ k => Nat.le_trans h k

theorem popFrame : Widens Run.popFrame := fun m => by
  unfold Meets Run.popFrame
  split <;> (next e => split at e <;> cases e; exact Nat.le_refl _)

theorem pushFrame (f : Frame) : Widens (Run.pushFrame f) := fun m => Nat.le_refl m.heap.cells.size

theorem leave (a : Activation) : Widens (Run.leave l a) := by
  refine (Basic.notice _).stays.widens.bind fun _ => popFrame.bind fun f => ?_
  split <;> exact (Stays.pure _).widens

theorem resume (a : Activation) : ∀ o, Widens (Run.resume a o)
  | none => (Stays.pure _).widens
  | some _ => (pushFrame _).bind fun _ => Stays.get.widens.bind fun _ => (Stays.pure _).widens

theorem dispatch (a : Activation) : ∀ o, Widens (Run.dispatch l a o)
  | none => (Stays.pure _).widens
  | some f => (Basic.enter l f).stays.widens.bind (resume a)

theorem perform (a : Activation) (op : Opcode) (x y : Nat) : Widens (Run.perform l a op x y) :=
  (Basic.jumpDistance op x).stays.widens.bind fun _ => (Stays.execute l _ op x y).widens.bind (dispatch l _)

theorem proceed (a : Activation) : ∀ i, Widens (Run.proceed l a i)
  | .unknown _ | .truncated _ => (Stays.throw _).widens
  | .ofOpcode op x y => perform l a op x y

theorem step (a : Activation) : Widens (Run.step l a) := by
  cases h : a.code[a.cursor]? with
  | none =>
    rw [step_none l h]
    exact leave l a
  | some b =>
    rw [step_some l h]
    exact (Stays.count l a b).widens.bind fun _ => proceed l a _

theorem steps (fuel : Nat) : ∀ a : Activation, Widens (Run.steps l fuel a) := by
  induction fuel with
  | zero => exact fun _ => Stays.get.widens.bind fun _ => (Stays.throw _).widens
  | succ fuel ih =>
    intro a
    unfold Run.steps
    refine (step l a).bind fun o => ?_
    split
    · exact (Stays.pure _).widens
    · exact ih _

theorem follow (base : Nat) : ∀ o, Widens (Run.follow l base o)
  | none => (Stays.pure _).widens
  | some _ => steps l _ _

theorem launch (f : FunctionRef) : Widens (Run.launch l f) :=
  Stays.get.widens.bind fun _ => (pushFrame _).bind fun _ => (Basic.enter l f).stays.widens.bind (follow l _)

theorem answer (f : FunctionRef) (g : Function) : Widens (Run.answer l f g) := by
  unfold Run.answer
  cases g.body with
  | native n => exact (Basic.enter l f).stays.widens.bind fun _ => (Stays.pure _).widens
  | undefined | generic => exact (Stays.throw _).widens
  | code | fragment => exact launch l f

theorem call (f : FunctionRef) : Widens (Run.call l f) := by
  rw [call_eq]
  refine (Basic.lift _).stays.widens.bind fun g => Widens.bind (fun m => ?_) fun _ => answer l f g
  refine meets_modify.2 ?_
  split <;> exact Nat.le_refl _

end Widens

/-! ### Calls return -/

/-- The frames of a run that was begun above others: callers over the host. -/
def Above (base frames : List Frame) : Prop :=
  ∃ inner host, frames = inner ++ host :: base ∧ host.caller = none ∧ ∀ f ∈ inner, f.caller.isSome

theorem Above.push {base frames : List Frame} (h : Above base frames) {f : Frame} (hf : f.caller.isSome) :
    Above base (f :: frames) := by
  obtain ⟨inner, host, rfl, hh, hi⟩ := h
  exact ⟨f :: inner, host, rfl, hh, List.forall_mem_cons.2 ⟨hf, hi⟩⟩

/-- The frames after a step: those of a run that goes on, or those that it was begun above. -/
def Settles (base : List Frame) : Option Activation → Machine → Prop
  | none, m => m.frames = base
  | some _, m => Above base m.frames

variable (l : Library)

theorem settles_leave (a : Activation) {base : List Frame} {m : Machine} (h : Above base m.frames) :
    Meets (leave l a) m (Settles base) fun _ _ => True := by
  refine meets_bind.2 (((Basic.notice (.exited a.function)).stays m).imp (fun _ n hn => meets_bind.2 ?_) fun _ _ _ => trivial)
  rw [← hn.frames] at h
  obtain ⟨inner, host, e, hh, hi⟩ := h
  unfold Meets popFrame
  rcases inner with - | ⟨f, inner⟩
  · rw [List.nil_append] at e
    simp only [e, hh]
    rfl
  · rw [List.cons_append] at e
    obtain ⟨g, hg⟩ := Option.isSome_iff_exists.1 (hi f (.head _))
    simp only [e, hg]
    exact ⟨inner, host, rfl, hh, fun f hf => hi f (.tail _ hf)⟩

theorem settles_perform (a : Activation) (op : Opcode) (x y : Nat) {base : List Frame} {m : Machine}
    (h : Above base m.frames) : Meets (perform l a op x y) m (Settles base) fun _ _ => True := by
  refine meets_bind.2 (((Basic.jumpDistance op x).stays m).imp (fun d p hp => ?_) fun _ _ _ => trivial)
  refine meets_bind.2 ((Stays.execute l _ op x y p).imp (fun o q hq => ?_) fun _ _ _ => trivial)
  rw [← hp.frames, ← hq.frames] at h
  cases o with
  | none => exact h
  | some f =>
    refine meets_bind.2 (((Basic.enter l f).stays q).imp (fun o r hr => ?_) fun _ _ _ => trivial)
    rw [← hr.frames] at h
    cases o with
    | none => exact h
    | some callee => exact h.push rfl

theorem settles_step (a : Activation) {base : List Frame} {m : Machine} (h : Above base m.frames) :
    Meets (step l a) m (Settles base) fun _ _ => True := by
  cases hb : a.code[a.cursor]? with
  | none =>
    rw [step_none l hb]
    exact settles_leave l a h
  | some b =>
    rw [step_some l hb]
    refine meets_bind.2 ((Stays.count l a b m).imp (fun _ n hn => ?_) fun _ _ _ => trivial)
    rw [← hn.frames] at h
    cases Instruction.read a.code a.cursor b with
    | unknown b => trivial
    | truncated op => trivial
    | ofOpcode op x y => exact settles_perform l a op x y h

theorem settles_steps (fuel : Nat) {base : List Frame} : ∀ (a : Activation) {m : Machine}, Above base m.frames →
    Meets (steps l fuel a) m (fun _ n => n.frames = base) fun _ _ => True := by
  induction fuel with
  | zero => exact fun _ _ _ => trivial
  | succ fuel ih =>
    intro a m h
    unfold steps
    refine meets_bind.2 ((settles_step l a h).imp (fun o n hn => ?_) fun _ _ _ => trivial)
    split
    · exact hn
    · exact ih _ hn

theorem enter_code {f : FunctionRef} {g : Function} {code : Array UInt8} (hf : l.findFunction f = .ok g)
    (hc : g.body.code? = some code) :
    enter l f = notice (.entered f) >>= fun _ => pure (some ⟨f, code, 0, 0⟩) := by
  have found : (lift (l.findFunction f) : Run Function) = pure g := by
    rw [hf]
    rfl
  unfold enter
  rw [found, pure_bind]
  cases hb : g.body <;> rw [hb] at hc <;> cases hc <;> rfl

theorem frames_launch {f : FunctionRef} {g : Function} {code : Array UInt8} (hf : l.findFunction f = .ok g)
    (hc : g.body.code? = some code) (m : Machine) :
    Meets (launch l f) m (fun _ n => n.frames = m.frames) fun _ _ => True := by
  unfold launch
  rw [enter_code l hf hc]
  refine meets_bind.2 (meets_get.2 (meets_bind.2 (meets_modify.2 (meets_bind.2 (meets_bind.2 (((Basic.notice _).stays _).imp
    (fun _ q hq => ?_) fun _ _ _ => trivial))))))
  exact settles_steps l ceiling _ (hq.frames ▸ ⟨[], _, rfl, rfl, nofun⟩)

theorem frames_answer {f : FunctionRef} {g : Function} (hf : l.findFunction f = .ok g) (m : Machine) :
    Meets (answer l f g) m (fun _ n => n.frames = m.frames) fun _ _ => True := by
  unfold answer
  cases hb : g.body with
  | native n => exact meets_bind.2 (((Basic.enter l f).stays m).imp (fun _ q hq => hq.frames) fun _ _ _ => trivial)
  | undefined => trivial
  | generic decl scope => trivial
  | code bytes => exact frames_launch l hf (by rw [hb]; rfl) m
  | fragment op => exact frames_launch l hf (by rw [hb]; rfl) m

/-- A call that returns leaves the frames as they were. -/
theorem frames_call (f : FunctionRef) (m : Machine) :
    Meets (call l f) m (fun _ n => n.frames = m.frames) fun _ _ => True := by
  rw [call_eq]
  cases hf : l.findFunction f with
  | error e => trivial
  | ok g =>
    have start : (if m.frames.isEmpty then { m with steps := 0 } else m).frames = m.frames := by split <;> rfl
    exact meets_bind.2 (meets_bind.2 (meets_modify.2 ((frames_answer l hf _).imp (fun _ _ h => h.trans start)
      fun _ _ h => h)))

end Run

end StackScript
