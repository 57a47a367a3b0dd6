import StackScript.Proofs.Widens

/-!
Locality of runs. A run takes no notice of the bytes and frames that lie under those it was begun with: over others it
does the same, and leaves them as they are, unless it needs more than it has without them or finds no room over them.
-/
namespace StackScript

/-- A frame over more bytes. -/
def Frame.raised (k : Nat) (f : Frame) : Frame := { f with base := f.base + k }

/-- An activation over more bytes. -/
def Activation.raised (k : Nat) (a : Activation) : Activation := { a with base := a.base + k }

/-- A machine that is watched and bounded in some way, with other bytes and frames under those of one that is not. -/
structure Machine.Over (rest : Bytes) (under : List Frame) (m n : Machine) : Prop where
  stack : Stack.Over rest m.stack n.stack
  frames : n.frames = m.frames.map (Frame.raised rest.length) ++ under
  heap : n.heap = m.heap
  limit : m.limit = none
  watch : m.watch = none

namespace Run

variable {α β γ δ : Type} {rest : Bytes} {under : List Frame}

/-- Outcomes of which the second is the first over other bytes and frames, unless the second has met a limit, or the
first has reached below its own bytes and frames. -/
def Agree (rest : Bytes) (under : List Frame) (R : α → β → Prop) :
    EStateM.Result Fault Machine α → EStateM.Result Fault Machine β → Prop
  | .ok a m, .ok b n => R a b ∧ Machine.Over rest under m n
  | .ok _ _, .error e _ => e.isLimit
  | .error e m, .ok _ n => e.isUnderflow ∧ m.heap.cells.size ≤ n.heap.cells.size
  | .error _ _, .error _ _ => True

/-- The second action does over other bytes and frames what the first one does without. -/
structure Lifts (rest : Bytes) (under : List Frame) (R : α → β → Prop) (x : Run α) (y : Run β) : Prop where
  agree : ∀ m n, Machine.Over rest under m n → Agree rest under R (x m) (y n)
  widens : Widens y

namespace Lifts

theorem pure {R : α → β → Prop} {a : α} {b : β} (h : R a b) : Lifts rest under R (Pure.pure a) (Pure.pure b) :=
  ⟨fun _ _ lies => ⟨h, lies⟩, (Stays.pure b).widens⟩

theorem throw {R : α → β → Prop} (e : Fault) :
    Lifts rest under R (MonadExcept.throw e : Run α) (MonadExcept.throw e : Run β) :=
  ⟨fun _ _ _ => trivial, (Stays.throw e).widens⟩

theorem bind {R : α → β → Prop} {S : γ → δ → Prop} {x : Run α} {y : Run β} {f : α → Run γ} {g : β → Run δ}
    (h : Lifts rest under R x y) (k : ∀ a b, R a b → Lifts rest under S (f a) (g b)) (hg : ∀ b, Widens (g b)) :
    Lifts rest under S (x >>= f) (y >>= g) := by
  refine ⟨fun m n lies => ?_, h.widens.bind hg⟩
  have agree := h.agree m n lies
  change Agree rest under S (EStateM.bind x f m) (EStateM.bind y g n)
  unfold EStateM.bind
  generalize x m = r at agree ⊢
  generalize y n = q at agree ⊢
  cases r with
  | ok a m' =>
    cases q with
    | ok b n' => exact (k a b agree.1).agree m' n' agree.2
    | error e n' =>
      change Agree rest under S (f a m') (.error e n')
      cases f a m' with
      | ok c p => exact agree
      | error e' p => trivial
  | error e m' =>
    cases q with
    | ok b n' =>
      change Agree rest under S (.error e m') (g b n')
      cases hr : g b n' with
      | ok c p => exact ⟨agree.1, Nat.le_trans agree.2 ((hg b n').of_ok hr)⟩
      | error e' p => trivial
    | error e' n' => trivial

theorem get : Lifts rest under (Machine.Over rest under) (MonadState.get : Run Machine) MonadState.get :=
  ⟨fun _ _ lies => ⟨lies, lies⟩, Stays.get.widens⟩

theorem modify {f g : Machine → Machine} (h : ∀ m n, Machine.Over rest under m n → Machine.Over rest under (f m) (g n))
    (hg : ∀ n, (g n).heap = n.heap) : Lifts rest under Eq (modify f) (modify g) :=
  ⟨fun m n lies => ⟨rfl, h m n lies⟩, fun n => Nat.le_of_eq (congrArg (·.cells.size) (hg n).symm)⟩

theorem record (e : Event) : Lifts rest under Eq (Run.record e) (Run.record e) :=
  modify (fun _ _ h => ⟨h.stack, h.frames, h.heap, h.limit, h.watch⟩) fun _ => rfl

theorem onStack {f g : Stack → Except Fault (α × Stack)}
    (h : ∀ s t, Stack.Over rest s t → Stack.Agree rest (f s) (g t)) :
    Lifts rest under Eq (Run.onStack f) (Run.onStack g) := by
  refine ⟨fun m n lies => ?_, (Stays.onStack g).widens⟩
  have agree := h m.stack n.stack lies.stack
  unfold Run.onStack
  generalize f m.stack = r at agree ⊢
  generalize g n.stack = q at agree ⊢
  rcases r with e | ⟨a, s⟩
  · rcases q with e' | ⟨b, t⟩
    · trivial
    · exact ⟨agree, Nat.le_of_eq (congrArg (·.cells.size) lies.heap.symm)⟩
  · rcases q with e' | ⟨b, t⟩
    · exact agree
    · exact ⟨agree.1.symm, agree.2, lies.frames, lies.heap, lies.limit, lies.watch⟩

theorem setStack {f g : Stack → Except Fault Stack}
    (h : ∀ s t, Stack.Over rest s t → Stack.Agree rest (Stack.changing f s) (Stack.changing g t)) :
    Lifts rest under Eq (Run.setStack f) (Run.setStack g) := by
  rw [Run.setStack_eq, Run.setStack_eq]
  exact onStack h

end Lifts

theorem Basic.lifts {x : Run α} (h : Basic x) : Lifts rest under Eq x x := by
  induction h with
  | pure a => exact .pure rfl
  | throw e => exact .throw e
  | bind _ hf hx ihf => exact hx.bind (fun a b e => e ▸ ihf a) fun b => (hf b).stays.widens
  | lift r =>
    refine ⟨fun m n lies => ?_, (Basic.lift r).stays.widens⟩
    cases r with
    | ok a => exact ⟨rfl, lies⟩
    | error e => trivial
  | onStack hf => exact .onStack (hf rest)
  | readHeap f =>
    refine ⟨fun m n lies => ?_, (Basic.readHeap f).stays.widens⟩
    unfold Run.readHeap
    rw [lies.heap]
    cases f m.heap with
    | ok a => exact ⟨rfl, lies⟩
    | error e => trivial
  | @onHeap _ f hf =>
    refine ⟨?_, (Basic.onHeap hf).stays.widens⟩
    rintro ⟨s, fs, heap, steps, limit, watch, journal⟩ ⟨s', fs', heap', steps', limit', watch', journal'⟩
      ⟨stack, frames, rfl, none, unwatched⟩
    unfold Run.onHeap
    dsimp only
    cases (f heap').2 with
    | ok a => exact ⟨rfl, stack, frames, rfl, none, unwatched⟩
    | error e => trivial
  | observe f hf ih =>
    exact Lifts.get.bind (fun m n lies => lies.heap ▸ ih m.heap) fun n => (hf n.heap).stays.widens
  | record e => exact .record e
  | notice e =>
    refine .modify (fun m n h => ?_) fun n => by split <;> rfl
    split <;> split <;> exact ⟨h.stack, h.frames, h.heap, h.limit, h.watch⟩

namespace Lifts

variable (l : Library)

theorem underflow {R : α → β → Prop} {e : Fault} (he : e.isUnderflow) {y : Run β} (hy : Widens y) :
    Lifts rest under R (MonadExcept.throw e : Run α) y := by
  refine ⟨fun m n lies => ?_, hy⟩
  change Agree rest under R (.error e m) (y n)
  cases hr : y n with
  | ok b n' => exact ⟨he, lies.heap ▸ (hy n).of_ok hr⟩
  | error e' n' => trivial

theorem pushFrame (f : Frame) : Lifts rest under Eq (Run.pushFrame f) (Run.pushFrame (f.raised rest.length)) := by
  refine modify (fun m n h => ⟨h.stack, ?_, h.heap, h.limit, h.watch⟩) fun _ => rfl
  simp [h.frames]

theorem popFrame : Lifts rest under (fun f g => g = f.raised rest.length) Run.popFrame Run.popFrame := by
  refine ⟨fun m n h => ?_, Widens.popFrame⟩
  unfold Run.popFrame
  cases hm : m.frames with
  | nil =>
    cases hn : n.frames with
    | nil => trivial
    | cons g gs => exact ⟨rfl, Nat.le_of_eq (congrArg (·.cells.size) h.heap.symm)⟩
  | cons f fs =>
    have hn : n.frames = f.raised rest.length :: (fs.map (Frame.raised rest.length) ++ under) := by
      rw [h.frames, hm]
      rfl
    rw [hn]
    exact ⟨rfl, h.stack, rfl, h.heap, h.limit, h.watch⟩

/-- Steps are counted without an end, or to some end. -/
theorem count (a a' : Activation) (b : UInt8) : Lifts rest under Eq (Run.count l a b) (Run.count l a' b) := by
  refine ⟨fun m n h => ?_, (Stays.count l a' b).widens⟩
  have counted : Run.count l a b m = .ok () { m with steps := m.steps + 1 } := by
    obtain ⟨stack, frames, heap, steps, limit, watch, journal⟩ := m
    obtain ⟨-, -, -, rfl, rfl⟩ := h
    rfl
  rw [counted]
  cases hr : Run.count l a' b n with
  | ok u n' =>
    obtain ⟨stack, same⟩ := (meets_count l a' b n).of_ok hr
    have lies : Stack.Over rest m.stack n'.stack := stack ▸ h.stack
    exact ⟨rfl, lies, same.frames.trans h.frames, same.heap.trans h.heap, h.limit, h.watch⟩
  | error e n' =>
    obtain ⟨⟨k, rfl⟩, -⟩ := (meets_count l a' b n).of_error hr
    rfl

/-- What is copied from below the top is found from the base of the activation. -/
theorem copy {start start' : Nat} (h : start' = start + rest.length) (size : Nat) :
    Lifts rest under Eq (Run.setStack fun s => s.copy start size) (Run.setStack fun s => s.copy start' size) :=
  setStack fun _ _ lies => h ▸ lies.copy start size

theorem execute (a : Activation) (op : Opcode) (first second : Nat) :
    Lifts rest under Eq (Run.execute l a op first second) (Run.execute l (a.raised rest.length) op first second) := by
  by_cases hv : op = .copyVariable
  · subst hv
    exact (copy (by simp only [Activation.raised]; omega) second).bind (fun _ _ _ => pure rfl)
      fun _ => (Stays.pure _).widens
  by_cases ha : op = .copyArgument
  · subst ha
    have hbase : (a.raised rest.length).base = a.base + rest.length := rfl
    by_cases hb : a.base < first + second
    · have e : Run.execute l a .copyArgument first second =
          (MonadExcept.throw (.stackUnderflow (first + second) a.base) : Run (Option FunctionRef)) := by
        simp only [Run.execute, if_pos hb]
        rfl
      rw [e]
      exact underflow rfl (Stays.execute l _ _ _ _).widens
    · simp only [Run.execute]
      rw [if_neg hb, if_neg (by omega)]
      exact (copy (by omega) second).bind (fun _ _ _ => pure rfl) fun _ => (Stays.pure _).widens
  have same : Run.execute l (a.raised rest.length) op first second = Run.execute l a op first second := by
    cases op <;> first | rfl | exact absurd rfl hv | exact absurd rfl ha
  rw [same]
  exact (Basic.execute l a hv ha first second).lifts

theorem leave (a : Activation) :
    Lifts rest under (fun o p => p = o.map (Activation.raised rest.length)) (Run.leave l a)
      (Run.leave l (a.raised rest.length)) := by
  refine ⟨?_, Widens.leave l _⟩
  refine Lifts.agree ((Basic.notice _).lifts.bind (fun _ _ _ => popFrame.bind (fun f g hg => ?_) fun g => ?_)
    fun _ => Widens.popFrame.bind fun g => ?_)
  · subst hg
    cases hf : f.caller with
    | none =>
      simp only [Frame.raised, hf]
      exact pure rfl
    | some caller =>
      simp only [Frame.raised, hf]
      exact pure rfl
  all_goals split <;> exact (Stays.pure _).widens

theorem resume (a : Activation) (o : Option Activation) :
    Lifts rest under (fun o p => p = o.map (Activation.raised rest.length)) (Run.resume a o)
      (Run.resume (a.raised rest.length) o) := by
  cases o with
  | none => exact pure rfl
  | some callee =>
    refine (pushFrame _).bind (fun _ _ _ => get.bind (fun m n h => pure ?_) fun _ => (Stays.pure _).widens) fun _ =>
      Stays.get.widens.bind fun _ => (Stays.pure _).widens
    simp [Activation.raised, h.stack.size]

theorem dispatch (a : Activation) (o : Option FunctionRef) :
    Lifts rest under (fun o p => p = o.map (Activation.raised rest.length)) (Run.dispatch l a o)
      (Run.dispatch l (a.raised rest.length) o) := by
  cases o with
  | none => exact pure rfl
  | some f => exact (Basic.enter l f).lifts.bind (fun o _ ho => ho ▸ resume a o) (Widens.resume _)

theorem perform (a : Activation) (op : Opcode) (x y : Nat) :
    Lifts rest under (fun o p => p = o.map (Activation.raised rest.length)) (Run.perform l a op x y)
      (Run.perform l (a.raised rest.length) op x y) := by
  refine (Basic.jumpDistance op x).lifts.bind (fun d _ hd => ?_) fun d =>
    (Stays.execute l _ op x y).widens.bind (Widens.dispatch l _)
  subst hd
  exact (execute l _ op x y).bind (fun o _ ho => ho ▸ dispatch l _ o) (Widens.dispatch l _)

theorem step (a : Activation) :
    Lifts rest under (fun o p => p = o.map (Activation.raised rest.length)) (Run.step l a)
      (Run.step l (a.raised rest.length)) := by
  cases h : a.code[a.cursor]? with
  | none =>
    rw [step_none l h, step_none l (a := a.raised rest.length) h]
    exact leave l a
  | some b =>
    rw [step_some l h, step_some l (a := a.raised rest.length) h]
    refine (count l a _ b).bind (fun _ _ _ => ?_) fun _ => Widens.proceed l _ _
    change Lifts rest under _ (Run.proceed l a (Instruction.read a.code a.cursor b))
      (Run.proceed l (a.raised rest.length) (Instruction.read a.code a.cursor b))
    cases Instruction.read a.code a.cursor b with
    | unknown b => exact throw _
    | truncated op => exact throw _
    | ofOpcode op x y => exact perform l a op x y

theorem steps (fuel : Nat) : ∀ a : Activation,
    Lifts rest under Eq (Run.steps l fuel a) (Run.steps l fuel (a.raised rest.length)) := by
  induction fuel with
  | zero =>
    exact fun a => get.bind (fun _ _ _ => ⟨fun _ _ _ => trivial, (Stays.throw _).widens⟩) fun _ => (Stays.throw _).widens
  | succ fuel ih =>
    intro a
    unfold Run.steps
    refine (step l a).bind (fun o _ ho => ?_) fun o => ?_
    · subst ho
      cases o with
      | none => exact pure rfl
      | some a' => exact ih a'
    · cases o with
      | none => exact (Stays.pure _).widens
      | some a' => exact Widens.steps l fuel a'

end Lifts

/-! ### Calls -/

namespace Lifts

variable (l : Library)

theorem follow {base base' : Nat} (h : base' = base + rest.length) (o : Option Activation) :
    Lifts rest under Eq (Run.follow l base o) (Run.follow l base' o) := by
  subst h
  cases o with
  | none => exact pure rfl
  | some a => exact steps l ceiling { a with base := base }

theorem launch (f : FunctionRef) : Lifts rest under Eq (Run.launch l f) (Run.launch l f) := by
  refine get.bind (fun m n h => ?_) fun _ =>
    (Widens.pushFrame _).bind fun _ => (Basic.enter l f).stays.widens.bind (Widens.follow l _)
  have frame : (⟨none, 0, n.stack.size⟩ : Frame) = Frame.raised rest.length ⟨none, 0, m.stack.size⟩ := by
    rw [h.stack.size]
    rfl
  rw [frame]
  exact (pushFrame _).bind (fun _ _ _ => (Basic.enter l f).lifts.bind (fun o _ ho => ho ▸ follow l h.stack.size o)
    (Widens.follow l _)) fun _ => (Basic.enter l f).stays.widens.bind (Widens.follow l _)

theorem answer (f : FunctionRef) (g : Function) : Lifts rest under Eq (Run.answer l f g) (Run.answer l f g) := by
  unfold Run.answer
  cases g.body with
  | native n => exact (Basic.enter l f).lifts.bind (fun _ _ _ => pure rfl) fun _ => (Stays.pure _).widens
  | undefined | generic => exact throw _
  | code | fragment => exact launch l f

/-- A call does the same over whatever lies under the frame of the function. -/
theorem call (f : FunctionRef) : Lifts rest under Eq (Run.call l f) (Run.call l f) := by
  have anew (n : Machine) : (if n.frames.isEmpty then { n with steps := 0 } else n).heap = n.heap := by split <;> rfl
  rw [call_eq]
  refine (Basic.lift _).lifts.bind (fun g _ hg => ?_) fun g => ?_
  · subst hg
    refine (modify (fun m n h => ?_) anew).bind (fun _ _ _ => answer l f g) fun _ => Widens.answer l f g
    split <;> split <;> exact ⟨h.stack, h.frames, h.heap, h.limit, h.watch⟩
  · refine Widens.bind (fun n => ?_) fun _ => Widens.answer l f g
    exact meets_modify.2 (Nat.le_of_eq (congrArg (·.cells.size) (anew n).symm))

end Lifts

end Run

end StackScript
