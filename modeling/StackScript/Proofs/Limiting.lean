import StackScript.Proofs.Widens

/-!
Runs under a limit. Only the counting of instructions reads the limit, so a run under a limit goes through the machines
that the run without one goes through, until one more instruction would exceed the limit.
-/
namespace StackScript

/-- What an action ends with. -/
abbrev Ending (α : Type) := EStateM.Result Fault Machine α

def Ending.change {α : Type} (g : Machine → Machine) : Ending α → Ending α
  | .ok a m => .ok a (g m)
  | .error e m => .error e (g m)

namespace Machine

/-- The machine with another limit and another count. -/
def metered (m : Machine) (limit : Option Nat) (count : Nat → Nat) : Machine :=
  { m with limit := limit, steps := count m.steps }

/-- The machine under another limit. -/
def within (m : Machine) (limit : Option Nat) : Machine := m.metered limit id

end Machine

/-- How many instructions the next step executes: one, or none at the end of the code. -/
def Activation.due (a : Activation) : Nat := if a.cursor < a.code.size then 1 else 0

namespace Run

variable {α β : Type} {x : Run α} {limit : Option Nat} {count : Nat → Nat}

/-! ### Actions that read neither limit nor count -/

/-- The action does the same on a machine with another limit and another count, and leaves both. -/
def Unmetered (limit : Option Nat) (count : Nat → Nat) (x : Run α) : Prop :=
  ∀ m, x (m.metered limit count) = Ending.change (·.metered limit count) (x m)

namespace Unmetered

theorem pure (a : α) : Unmetered limit count (Pure.pure a) := fun _ => rfl

theorem throw (e : Fault) : Unmetered limit count (MonadExcept.throw e : Run α) := fun _ => rfl

theorem bind {f : α → Run β} (hx : Unmetered limit count x) (hf : ∀ a, Unmetered limit count (f a)) :
    Unmetered limit count (x >>= f) := by
  intro m
  change EStateM.bind x f _ = Ending.change _ (EStateM.bind x f m)
  unfold EStateM.bind
  rw [hx m]
  cases x m with
  | ok a n => exact hf a n
  | error e n => rfl

theorem change {f : Machine → Machine} (h : ∀ m, f (m.metered limit count) = (f m).metered limit count) :
    Unmetered limit count (modify f : Run PUnit) := fun m => congrArg (EStateM.Result.ok PUnit.unit) (h m)

theorem lift (r : Except Fault α) : Unmetered limit count (Run.lift r) := fun _ => by cases r <;> rfl

theorem onStack (f : Stack → Except Fault (α × Stack)) : Unmetered limit count (Run.onStack f) := by
  intro m
  unfold Run.onStack Machine.metered
  cases f m.stack <;> rfl

theorem setStack (f : Stack → Except Fault Stack) : Unmetered limit count (Run.setStack f) := by
  rw [setStack_eq]
  exact onStack _

theorem pushFrame (f : Frame) : Unmetered limit count (Run.pushFrame f) := change fun _ => rfl

theorem popFrame : Unmetered limit count Run.popFrame := by
  rintro ⟨stack, frames, heap, steps, limit, watch, journal⟩
  cases frames <;> rfl

/-- An action made from a part of the machine that is not changed. -/
theorem read {γ : Type} (part : Machine → γ) (same : ∀ m, part (m.metered limit count) = part m) {f : γ → Run α}
    (hf : ∀ c, Unmetered limit count (f c)) : Unmetered limit count (MonadState.get >>= fun m => f (part m)) := by
  intro m
  change f (part (m.metered limit count)) _ = Ending.change _ (f (part m) m)
  rw [same]
  exact hf (part m) m

end Unmetered

theorem Basic.unmetered (h : Basic x) : Unmetered limit count x := by
  induction h with
  | pure a => exact .pure a
  | throw e => exact .throw e
  | bind _ _ hx hf => exact hx.bind hf
  | lift r => exact .lift r
  | onStack => exact .onStack _
  | readHeap f =>
    intro m
    unfold Run.readHeap Machine.metered
    cases f m.heap <;> rfl
  | @onHeap _ f _ =>
    intro m
    unfold Run.onHeap Machine.metered
    cases hr : (f m.heap).2 <;> simp only [hr, Ending.change]
  | observe f _ hf => exact .read (·.heap) (fun _ => rfl) hf
  | record e => exact .change fun _ => rfl
  | notice e =>
    refine .change ?_
    rintro ⟨stack, frames, heap, steps, limit, watch, journal⟩
    cases watch <;> rfl

namespace Unmetered

variable (l : Library)

theorem execute (a : Activation) (op : Opcode) (first second : Nat) :
    Unmetered limit count (Run.execute l a op first second) := by
  by_cases hv : op = .copyVariable
  · subst hv
    exact (setStack _).bind fun _ => .pure _
  by_cases ha : op = .copyArgument
  · subst ha
    simp only [Run.execute]
    split
    · exact (throw _).bind fun _ => (setStack _).bind fun _ => .pure _
    · exact (setStack _).bind fun _ => .pure _
  exact (Basic.execute l a hv ha first second).unmetered

theorem leave (a : Activation) : Unmetered limit count (Run.leave l a) := by
  refine (Basic.notice _).unmetered.bind fun _ => popFrame.bind fun f => ?_
  split <;> exact pure _

theorem resume (a : Activation) : ∀ o, Unmetered limit count (Run.resume a o)
  | none => pure _
  | some callee => (pushFrame _).bind fun _ =>
    read (f := fun size => Pure.pure (some { callee with base := size })) (·.stack.size) (fun _ => rfl) fun _ => pure _

theorem dispatch (a : Activation) : ∀ o, Unmetered limit count (Run.dispatch l a o)
  | none => pure _
  | some f => (Basic.enter l f).unmetered.bind (resume a)

theorem proceed (a : Activation) : ∀ i, Unmetered limit count (Run.proceed l a i)
  | .unknown _ => throw _
  | .truncated _ => throw _
  | .ofOpcode op _ _ => (Basic.jumpDistance op _).unmetered.bind fun _ => (execute l _ op _ _).bind (dispatch l _)

end Unmetered

/-- Such an action counts nothing. -/
theorem meets_unmetered (h : ∀ limit count, Unmetered limit count x) (m : Machine) :
    Meets x m (fun _ n => n.steps = m.steps ∧ n.limit = m.limit) fun _ n => n.steps = m.steps ∧ n.limit = m.limit := by
  have same : x m = Ending.change (·.metered m.limit fun _ => m.steps) (x m) := h m.limit (fun _ => m.steps) m
  refine .mk (fun a n e => ?_) fun f n e => ?_
  all_goals
    rw [e] at same
    injection same with _ same
    rw [same]
    exact ⟨rfl, rfl⟩

/-! ### Steps -/

variable (l : Library) {a b : Activation} {m n : Machine} {bound : Nat}

/-- What the watch does with an instruction once it is counted. -/
def observing (a : Activation) (byte : UInt8) (m : Machine) : Run Unit :=
  match m.watch with
  | none => pure ()
  | some w => do
    let listing :=
      if w.listed then (Listing.instruction l m.heap (l.get a.function.module) a.code a.cursor byte).1 else ""
    record (.stepped a.function a.cursor m.stack.size listing)
    modify fun m => { m with watch := some { w with seen := w.seen + 1 } }
    match w.breakAt with
    | some n => if n ≤ w.seen + 1 then throw (.aborted (m.steps - 1))
    | none => pure ()

theorem Unmetered.observing (a : Activation) (byte : UInt8) (m : Machine) :
    Unmetered limit count (Run.observing l a byte m) := by
  unfold Run.observing
  cases m.watch with
  | none => exact pure _
  | some w =>
    refine Basic.unmetered (.record _) |>.bind fun _ => (change fun _ => rfl : Unmetered limit count (modify _)).bind fun _ => ?_
    cases w.breakAt with
    | none => exact pure _
    | some n =>
      dsimp only
      split
      · exact throw _
      · exact pure _

theorem count_free (byte : UInt8) (free : m.limit = none) :
    Run.count l a byte m = observing l a byte (m.metered none (· + 1)) (m.metered none (· + 1)) := by
  obtain ⟨stack, frames, heap, steps, limit, watch, journal⟩ := m
  obtain rfl : limit = none := free
  rfl

/-- A count that exceeds the limit breaks off the run; another one is the same as without a limit. -/
theorem count_within (byte : UInt8) (free : m.limit = none) :
    Run.count l a byte (m.within (some bound)) =
      if bound < m.steps + 1 then .error (.aborted bound) (m.metered (some bound) (· + 1))
      else Ending.change (·.within (some bound)) (Run.count l a byte m) := by
  have rest : Unmetered (some bound) id (observing l a byte (m.metered none (· + 1))) := .observing l a byte _
  rw [count_free l byte free]
  refine Eq.trans ?_ (congrArg (fun r => if bound < m.steps + 1 then _ else r) (rest (m.metered none (· + 1))))
  unfold Run.count
  change (if bound < m.steps + 1 then _ else _ : Run Unit) _ = _
  split <;> rfl

/-- A counted instruction that is not broken off by a watch. -/
theorem steps_count (byte : UInt8) (free : m.limit = none) :
    Meets (Run.count l a byte) m (fun _ n => n.steps = m.steps + 1 ∧ n.limit = none) fun _ _ => True := by
  have rest := meets_unmetered (fun _ _ => .observing l a byte (m.metered none (· + 1))) (m.metered none (· + 1))
  unfold Meets at rest ⊢
  rw [count_free l byte free]
  cases h : observing l a byte (m.metered none (· + 1)) (m.metered none (· + 1)) with
  | ok u n =>
    rw [h] at rest
    exact rest
  | error e n => trivial

theorem due_eq_one {byte : UInt8} (h : a.code[a.cursor]? = some byte) : a.due = 1 := by
  obtain ⟨hlt, -⟩ := Array.getElem?_eq_some_iff.1 h
  exact if_pos hlt

theorem due_eq_zero (h : a.code[a.cursor]? = none) : a.due = 0 := by
  have := Array.getElem?_eq_none_iff.1 h
  exact if_neg (by omega)

/-- A step for which the limit leaves room is the one without a limit. -/
theorem step_within (free : m.limit = none) (room : m.steps + a.due ≤ bound) :
    step l a (m.within (some bound)) = Ending.change (·.within (some bound)) (step l a m) := by
  cases hb : a.code[a.cursor]? with
  | none =>
    have leave : Unmetered (some bound) id (Run.leave l a) := .leave l a
    rw [step_none l hb]
    exact leave m
  | some byte =>
    rw [due_eq_one hb] at room
    have proceed : Unmetered (some bound) id (Run.proceed l a (Instruction.read a.code a.cursor byte)) := .proceed l a _
    rw [step_some l hb]
    change EStateM.bind _ _ _ = Ending.change _ (EStateM.bind _ _ _)
    unfold EStateM.bind
    rw [count_within l byte free, if_neg (Nat.not_lt.2 room)]
    cases Run.count l a byte m with
    | ok u n => exact proceed n
    | error e n => rfl

/-- An instruction beyond the limit is not executed. -/
theorem step_beyond (free : m.limit = none) (due : a.cursor < a.code.size) (full : bound ≤ m.steps) :
    step l a (m.within (some bound)) = .error (.aborted bound) (m.metered (some bound) (· + 1)) := by
  have hb : a.code[a.cursor]? = some a.code[a.cursor] := Array.getElem?_eq_getElem due
  rw [step_some l hb]
  change EStateM.bind _ _ _ = _
  unfold EStateM.bind
  rw [count_within l _ free, if_pos (Nat.lt_succ_of_le full)]

theorem frames_popFrame (m : Machine) :
    Meets popFrame m (fun frame n => m.frames = frame :: n.frames) fun _ _ => True := by
  obtain ⟨stack, frames, heap, steps, limit, watch, journal⟩ := m
  cases frames <;> trivial

theorem frames_leave (a : Activation) (m : Machine) :
    Meets (leave l a) m (fun _ n => n.frames.length + 1 = m.frames.length) fun _ _ => True := by
  refine meets_bind.2 (((Basic.notice (.exited a.function)).stays m).imp (fun _ n hn => meets_bind.2 ?_)
    fun _ _ _ => trivial)
  refine (frames_popFrame n).imp (fun frame p hp => ?_) fun _ _ _ => trivial
  rw [← hn.frames, hp]
  cases frame.caller <;> rfl

theorem frames_perform (a : Activation) (op : Opcode) (x y : Nat) (m : Machine) :
    Meets (perform l a op x y) m (fun _ n => n.frames.length ≤ m.frames.length + 1) fun _ _ => True := by
  refine meets_bind.2 (((Basic.jumpDistance op x).stays m).imp (fun d p hp => ?_) fun _ _ _ => trivial)
  refine meets_bind.2 ((Stays.execute l _ op x y p).imp (fun o q hq => ?_) fun _ _ _ => trivial)
  rw [← hp.frames, ← hq.frames]
  cases o with
  | none => exact Nat.le_succ _
  | some f =>
    refine meets_bind.2 (((Basic.enter l f).stays q).imp (fun o r hr => ?_) fun _ _ _ => trivial)
    rw [← hr.frames]
    cases o with
    | none => exact Nat.le_succ _
    | some callee => exact Nat.le_refl _

/-- A step counts the instruction that it executes, if there is one. -/
theorem steps_step (a : Activation) (free : m.limit = none) :
    Meets (step l a) m (fun _ n => n.steps = m.steps + a.due ∧ n.limit = none) fun _ _ => True := by
  cases hb : a.code[a.cursor]? with
  | none =>
    rw [step_none l hb, due_eq_zero hb]
    exact (meets_unmetered (fun _ _ => .leave l a) m).imp (fun _ _ h => ⟨h.1, h.2.trans free⟩) fun _ _ _ => trivial
  | some byte =>
    rw [step_some l hb, due_eq_one hb]
    refine meets_bind.2 ((steps_count l byte free).imp (fun _ n hn => ?_) fun _ _ _ => trivial)
    exact (meets_unmetered (fun _ _ => .proceed l a _) n).imp (fun _ _ h => ⟨h.1.trans hn.1, h.2.trans hn.2⟩)
      fun _ _ _ => trivial

/-- Only an instruction puts a frame, and a return takes one. -/
theorem frames_step (a : Activation) (m : Machine) :
    Meets (step l a) m (fun _ n => n.frames.length + 1 ≤ m.frames.length + 2 * a.due) fun _ _ => True := by
  cases hb : a.code[a.cursor]? with
  | none =>
    rw [step_none l hb, due_eq_zero hb]
    exact (frames_leave l a m).imp (fun _ _ h => Nat.le_of_eq h) fun _ _ _ => trivial
  | some byte =>
    rw [step_some l hb, due_eq_one hb]
    refine meets_bind.2 ((Stays.count l a byte m).imp (fun _ n hn => ?_) fun _ _ _ => trivial)
    rw [← hn.frames]
    cases Instruction.read a.code a.cursor byte with
    | unknown b => trivial
    | truncated op => trivial
    | ofOpcode op x y => exact (frames_perform l a op x y n).imp (fun _ _ h => Nat.succ_le_succ h) fun _ _ _ => trivial

/-! ### Runs -/

/-- Enters a function that has code, above the frame of the host. -/
def descend (f : FunctionRef) (base : Nat) : Run (Option Activation) := do
  pushFrame ⟨none, 0, base⟩
  return (← enter l f).map fun a => { a with base := base }

/-- What a call does before its first step. Without anything to be run it is over. -/
def embark (f : FunctionRef) : Run (Option Activation) := do
  let function ← lift (l.findFunction f)
  modify fun m => if m.frames.isEmpty then { m with steps := 0 } else m
  match function.body with
  | .native _ =>
    let _ ← enter l f
    return none
  | .undefined | .generic _ _ => throw (.notCallable function.body.kind function.name)
  | .code _ | .fragment _ => descend l f (← get).stack.size

/-- Steps until the run is over. -/
def pursue (fuel : Nat) : Option Activation → Run Unit
  | none => pure ()
  | some a => steps l fuel a

theorem call_eq_embark (f : FunctionRef) : call l f = embark l f >>= pursue l ceiling := by
  rw [call_eq]
  unfold embark
  rw [bind_assoc]
  refine congrArg (lift (l.findFunction f) >>= ·) (funext fun g => ?_)
  rw [bind_assoc]
  refine congrArg (modify _ >>= ·) (funext fun _ => ?_)
  unfold answer
  cases g.body with
  | native n => rw [bind_assoc]; rfl
  | undefined | generic => rfl
  | code | fragment =>
    unfold launch descend
    simp only [bind_assoc]
    refine congrArg (MonadState.get >>= ·) (funext fun m => congrArg (pushFrame _ >>= ·) (funext fun _ =>
      congrArg (enter l f >>= ·) (funext fun o => ?_)))
    rw [pure_bind]
    cases o with
    | none => rfl
    | some a => simp only [follow, pursue, Option.map_some]

theorem Unmetered.embark (f : FunctionRef) : Unmetered limit id (Run.embark l f) := by
  refine (lift _).bind fun g => (change ?_ : Unmetered limit id (modify _)).bind fun _ => ?_
  · rintro ⟨stack, frames, heap, steps, limit, watch, journal⟩
    cases frames <;> rfl
  · cases g.body with
    | native n => exact (Basic.enter l f).unmetered.bind fun _ => pure _
    | undefined | generic => exact throw _
    | code | fragment =>
      exact read (f := Run.descend l f) (·.stack.size) (fun _ => rfl) fun _ => (pushFrame _).bind fun _ =>
        (Basic.enter l f).unmetered.bind fun _ => pure _

/-- A run from the host counts anew. -/
theorem steps_embark (f : FunctionRef) (idle : m.frames = []) (free : m.limit = none) :
    Meets (embark l f) m (fun o n => o.isSome → n.steps = 0 ∧ n.limit = none) fun _ _ => True := by
  unfold embark
  cases hf : l.findFunction f with
  | error e => trivial
  | ok g =>
    refine meets_bind.2 (meets_bind.2 (meets_modify.2 ?_))
    rw [if_pos (by rw [idle]; rfl)]
    cases g.body with
    | native n => exact meets_bind.2 (.mk (fun _ _ _ => nofun) fun _ _ _ => trivial)
    | undefined | generic => trivial
    | code | fragment =>
      refine meets_bind.2 (meets_get.2 (meets_bind.2 (meets_modify.2 (meets_bind.2 ?_))))
      exact (meets_unmetered (fun _ _ => (Basic.enter l f).unmetered) _).imp (fun _ _ h _ => ⟨h.1, h.2.trans free⟩)
        fun _ _ _ => trivial

theorem frames_embark (f : FunctionRef) (m : Machine) :
    Meets (embark l f) m (fun o n => o.isSome → n.frames.length = m.frames.length + 1) fun _ _ => True := by
  unfold embark
  refine meets_bind.2 (((Basic.lift _).stays m).imp (fun g n hn => ?_) fun _ _ _ => trivial)
  refine meets_bind.2 (meets_modify.2 ?_)
  generalize hp : (if n.frames.isEmpty then { n with steps := 0 } else n) = p
  have frames : p.frames = m.frames := by
    rw [← hp, ← hn.frames]
    split <;> rfl
  rw [← frames]
  cases g.body with
  | native n => exact meets_bind.2 (.mk (fun _ _ _ => nofun) fun _ _ _ => trivial)
  | undefined | generic => trivial
  | code | fragment =>
    refine meets_bind.2 (meets_get.2 (meets_bind.2 (meets_modify.2 (meets_bind.2 ?_))))
    exact ((Basic.enter l f).stays _).imp (fun _ _ h _ => by rw [h.frames]; rfl) fun _ _ _ => trivial

/-- A call has executed so many instructions when it comes to an activation. -/
inductive Arrives (l : Library) (f : FunctionRef) (m : Machine) : Nat → Activation → Machine → Prop
  | first {a : Activation} {n : Machine} (entered : embark l f m = .ok (some a) n) : Arrives l f m 0 a n
  | next {k : Nat} {a b : Activation} {n p : Machine} (before : Arrives l f m k a n)
    (stepped : step l a n = .ok (some b) p) : Arrives l f m (k + a.due) b p

/-- A call is over once so many instructions were executed, the last one perhaps in vain. -/
inductive Finishes (l : Library) (f : FunctionRef) (m : Machine) : Nat → Ending Unit → Prop
  | inPlace {n : Machine} (entered : embark l f m = .ok none n) : Finishes l f m 0 (.ok () n)
  | refused {e : Fault} {n : Machine} (entered : embark l f m = .error e n) : Finishes l f m 0 (.error e n)
  | returned {k : Nat} {a : Activation} {n p : Machine} (before : Arrives l f m k a n)
    (stepped : step l a n = .ok none p) : Finishes l f m (k + a.due) (.ok () p)
  | failed {k : Nat} {a : Activation} {n p : Machine} {e : Fault} (before : Arrives l f m k a n)
    (stepped : step l a n = .error e p) : Finishes l f m (k + a.due) (.error e p)

variable {f : FunctionRef} {k : Nat} {r : Ending Unit}

theorem Arrives.counted (h : Arrives l f m k a n) (idle : m.frames = []) (free : m.limit = none) :
    n.steps = k ∧ n.limit = none := by
  induction h with
  | first entered =>
    exact (steps_embark l f idle free).of_ok entered rfl
  | next before stepped ih =>
    obtain ⟨steps, limit⟩ := (steps_step l _ ih.2).of_ok stepped
    exact ⟨steps.trans (congrArg (· + _) ih.1), limit⟩

/-- What a call comes to without a limit, it comes to under a limit that is not exceeded yet. -/
theorem Arrives.within (h : Arrives l f m k a n) (idle : m.frames = []) (free : m.limit = none) (room : k ≤ bound) :
    Arrives l f (m.within (some bound)) k a (n.within (some bound)) := by
  induction h with
  | first entered =>
    have embark : Unmetered (some bound) id (embark l f) := .embark l f
    have same := embark m
    rw [entered] at same
    exact .first same
  | next before stepped ih =>
    obtain ⟨steps, limit⟩ := before.counted l idle free
    have same := step_within l limit (steps ▸ room)
    rw [stepped] at same
    exact .next (ih (Nat.le_trans (Nat.le_add_right _ _) room)) same

theorem Finishes.within (h : Finishes l f m k r) (idle : m.frames = []) (free : m.limit = none) (room : k ≤ bound) :
    Finishes l f (m.within (some bound)) k (Ending.change (·.within (some bound)) r) := by
  have embark : Unmetered (some bound) id (embark l f) := .embark l f
  cases h with
  | inPlace entered =>
    have same := embark m
    rw [entered] at same
    exact .inPlace same
  | refused entered =>
    have same := embark m
    rw [entered] at same
    exact .refused same
  | returned before stepped | failed before stepped =>
    obtain ⟨steps, limit⟩ := before.counted l idle free
    have same := step_within l limit (steps ▸ room)
    rw [stepped] at same
    have before := before.within l idle free (Nat.le_trans (Nat.le_add_right _ _) room)
    first
    | exact .returned before same
    | exact .failed before same

/-- A call goes on from where it has come to, or is over with the next step. -/
theorem Arrives.goes_on (h : Arrives l f m k a n) :
    (∃ b p, step l a n = .ok (some b) p ∧ Arrives l f m (k + a.due) b p) ∨ ∃ r, Finishes l f m (k + a.due) r := by
  cases hs : step l a n with
  | error e p => exact .inr ⟨_, .failed h hs⟩
  | ok o p =>
    cases o with
    | none => exact .inr ⟨_, .returned h hs⟩
    | some b => exact .inl ⟨b, p, rfl, .next h hs⟩

/-- From where a call has come to, it returns from activations until an instruction is due or it is over. -/
theorem Arrives.due_or_over (h : Arrives l f m k a n) :
    (∃ b p, Arrives l f m k b p ∧ b.cursor < b.code.size) ∨ ∃ r, Finishes l f m k r := by
  induction hn : n.frames.length using Nat.strongRecOn generalizing a n with
  | _ height ih =>
    subst hn
    by_cases due : a.cursor < a.code.size
    · exact .inl ⟨a, n, h, due⟩
    · have next := h.goes_on l
      rw [show a.due = 0 from if_neg due] at next
      rcases next with ⟨b, p, stepped, next⟩ | ended
      · have lower := (frames_step l a n).of_ok stepped
        rw [show a.due = 0 from if_neg due] at lower
        exact ih p.frames.length lower next rfl
      · exact .inr ended

/-- A call that is not over comes to every number of instructions. -/
theorem exists_arrives (endless : ∀ k r, Finishes l f m k r → bound < k) :
    ∀ j ≤ bound, ∃ a n, Arrives l f m j a n ∧ a.cursor < a.code.size := by
  have going {j : Nat} {a : Activation} {n : Machine} (hj : j ≤ bound) (h : Arrives l f m j a n) :
      ∃ a n, Arrives l f m j a n ∧ a.cursor < a.code.size := by
    rcases h.due_or_over l with h | ⟨r, h⟩
    · exact h
    · exact absurd (endless j r h) (Nat.not_lt.2 hj)
  intro j
  induction j with
  | zero =>
    intro hj
    cases he : embark l f m with
    | error e n => exact absurd (endless _ _ (.refused he)) (Nat.not_lt.2 hj)
    | ok o n =>
      cases o with
      | none => exact absurd (endless _ _ (.inPlace he)) (Nat.not_lt.2 hj)
      | some a => exact going hj (.first he)
  | succ j ih =>
    intro hj
    obtain ⟨a, n, h, due⟩ := ih (Nat.le_of_succ_le hj)
    have next := h.goes_on l
    rw [show a.due = 1 from if_pos due] at next
    rcases next with ⟨b, p, -, next⟩ | ⟨r, ended⟩
    · exact going hj next
    · exact absurd (endless _ r ended) (Nat.not_lt.2 hj)

/-- Every return takes a frame that an instruction has put, so there are hardly more returns than instructions. -/
theorem Arrives.pursued (h : Arrives l f m k a n) (idle : m.frames = []) : ∃ (j : Nat) (b : Activation) (p : Machine),
    embark l f m = .ok (some b) p ∧ j + n.frames.length ≤ 2 * k + 1 ∧
      ∀ fuel, steps l (fuel + j) b p = steps l fuel a n := by
  induction h with
  | @first a n entered =>
    refine ⟨0, a, n, entered, ?_, fun _ => rfl⟩
    rw [(frames_embark l f m).of_ok entered rfl, idle]
    exact Nat.le_refl _
  | @next k a b n p before stepped ih =>
    obtain ⟨j, c, q, entered, few, same⟩ := ih
    refine ⟨j + 1, c, q, entered, ?_, fun fuel => ?_⟩
    · have := (frames_step l a n).of_ok stepped
      omega
    · rw [← Nat.add_assoc, Nat.add_right_comm, same]
      change EStateM.bind _ _ _ = _
      unfold EStateM.bind
      rw [stepped]

/-- The outcome of a call, if there is one. -/
theorem Finishes.call_eq (h : Finishes l f m k r) (idle : m.frames = []) (room : 2 * k + 2 ≤ ceiling) :
    call l f m = r := by
  rw [call_eq_embark]
  change EStateM.bind _ _ _ = _
  unfold EStateM.bind
  generalize ceiling = fuel at room
  cases h with
  | inPlace entered =>
    rw [entered]
    rfl
  | refused entered => rw [entered]
  | @returned k a n p before stepped | @failed k a n p e before stepped =>
    obtain ⟨j, b, q, entered, few, same⟩ := before.pursued l idle
    obtain ⟨rest, rfl⟩ : ∃ rest, fuel = rest + 1 + j := ⟨fuel - (j + 1), by omega⟩
    rw [entered]
    refine (same (rest + 1)).trans ?_
    change EStateM.bind _ _ _ = _
    simp only [EStateM.bind, stepped, pure, EStateM.pure]

/-- A limit is not noticed unless the call executes more instructions. Then the call breaks off after as many as the
limit says, where it is without a limit before the next one. A call of the machine is such a run if it is short enough
to be counted. -/
theorem limit_transparent (f : FunctionRef) (idle : m.frames = []) (bound : Nat) :
    (∀ k r, Finishes l f (m.within none) k r → k ≤ bound →
      Finishes l f (m.within (some bound)) k (Ending.change (·.within (some bound)) r)) ∧
    ((∀ k r, Finishes l f (m.within none) k r → bound < k) → ∃ a n, Arrives l f (m.within none) bound a n ∧
      a.cursor < a.code.size ∧ Arrives l f (m.within (some bound)) bound a (n.within (some bound)) ∧
        Finishes l f (m.within (some bound)) (bound + 1) (.error (.aborted bound) (n.metered (some bound) (· + 1)))) ∧
    ∀ limit k r, Finishes l f (m.within limit) k r → 2 * k + 2 ≤ ceiling → call l f (m.within limit) = r := by
  refine ⟨fun k r h room => h.within l idle rfl room, fun endless => ?_, fun limit k r h room => h.call_eq l idle room⟩
  obtain ⟨a, n, h, due⟩ := exists_arrives l endless bound (Nat.le_refl bound)
  obtain ⟨steps, limit⟩ := h.counted l idle rfl
  have limited := h.within l idle rfl (Nat.le_refl bound)
  have broken := step_beyond l limit due (Nat.le_of_eq steps.symm)
  have one : bound + a.due = bound + 1 := by rw [Activation.due, if_pos due]
  have ended := Finishes.failed limited broken
  exact ⟨a, n, h, due, limited, one ▸ ended⟩

/-- A module with a function of two instructions that do nothing. -/
def resting : Library where
  modules := #[{ name := "resting", scopes := .ofModule "resting", functions := #[⟨"main", {}, .code #[0, 0], []⟩] }]

theorem limit_transparent_resting :
    Finishes resting ⟨0, 0⟩ (Machine.within {} (some 2)) 2 (.ok () { steps := 2, limit := some 2 }) := by
  have first : Arrives resting ⟨0, 0⟩ (Machine.within {} none) 0 ⟨⟨0, 0⟩, #[0, 0], 0, 0⟩ { frames := [⟨none, 0, 0⟩] } :=
    .first rfl
  have second : Arrives resting ⟨0, 0⟩ (Machine.within {} none) 1 ⟨⟨0, 0⟩, #[0, 0], 1, 0⟩
    { frames := [⟨none, 0, 0⟩], steps := 1 } := .next first rfl
  have third : Arrives resting ⟨0, 0⟩ (Machine.within {} none) 2 ⟨⟨0, 0⟩, #[0, 0], 2, 0⟩
    { frames := [⟨none, 0, 0⟩], steps := 2 } := .next second rfl
  exact (limit_transparent resting ⟨0, 0⟩ rfl 2).1 2 (.ok () { steps := 2 }) (.returned third rfl) (Nat.le_refl 2)

end Run

end StackScript
