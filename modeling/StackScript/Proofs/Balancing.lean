import StackScript.Proofs.Limiting

/-!
Calls as they are seen from outside. What is entered is exited in turn, every step belongs to the call that was entered
last, and a call that returns leaves the frames that it was begun above.
-/
namespace StackScript

/-! ### Open calls -/

namespace Event

variable {calls : List FunctionRef}

/-- The calls that are open after an event, the innermost first. It is the only one that is exited or makes a step. -/
def follow (calls : List FunctionRef) : Event → Option (List FunctionRef)
  | .entered f => some (f :: calls)
  | .exited f =>
    match calls with
    | g :: callers => if f = g then some callers else none
    | [] => none
  | .stepped f _ _ _ => if calls.head? = some f then some calls else none
  | .printed _ | .invoked _ _ => some calls

theorem follow_output {e : Event} (output : e.isOutput) : e.follow calls = some calls := by
  cases e with
  | printed | invoked => rfl
  | entered | exited | stepped => cases output

/-- The calls that are open after events, the first of which comes first. -/
def followAll (calls : List FunctionRef) (events : List Event) : Option (List FunctionRef) := events.foldlM follow calls

theorem followAll_append {calls' calls'' : List FunctionRef} {events events' : List Event}
    (first : followAll calls events = some calls') (second : followAll calls' events' = some calls'') :
    followAll calls (events ++ events') = some calls'' := by
  rw [followAll, List.foldlM_append]
  change (followAll calls events >>= fun c => followAll c events') = _
  rw [first]
  exact second

end Event

namespace Machine

variable {m n p : Machine} {calls before between after : List FunctionRef} {e : Event}

/-- The events between two machines lead from open calls to others. -/
def Turns (m : Machine) (before : List FunctionRef) (n : Machine) (after : List FunctionRef) : Prop :=
  ∃ events : List Event, n.journal = events.reverse ++ m.journal ∧ Event.followAll before events = some after

theorem Turns.same (h : n.journal = m.journal) : m.Turns calls n calls := ⟨[], h, rfl⟩

theorem Turns.event (h : n.journal = e :: m.journal) (follows : e.follow before = some after) :
    m.Turns before n after := by
  refine ⟨[e], h, ?_⟩
  change (e.follow before >>= fun c => some c) = some after
  rw [follows]
  rfl

theorem Turns.trans (h : m.Turns before n between) (k : n.Turns between p after) : m.Turns before p after := by
  obtain ⟨events, journal, follows⟩ := h
  obtain ⟨events', journal', follows'⟩ := k
  refine ⟨events ++ events', ?_, Event.followAll_append follows follows'⟩
  rw [journal', journal, List.reverse_append, List.append_assoc]

/-- Between the machines no call is begun or left, but those that have been over at once. -/
structure Hushed (m n : Machine) : Prop where
  frames : n.frames = m.frames
  watch : n.watch.isSome = m.watch.isSome
  turns : ∀ calls, m.Turns calls n calls

theorem Hushed.refl (m : Machine) : m.Hushed m := ⟨rfl, rfl, fun _ => .same rfl⟩

theorem Hushed.trans (h : m.Hushed n) (k : n.Hushed p) : m.Hushed p :=
  ⟨k.frames.trans h.frames, k.watch.trans h.watch, fun calls => (h.turns calls).trans (k.turns calls)⟩

end Machine

namespace Run

variable {α β : Type} {x : Run α}

/-! ### Actions between calls -/

/-- An action that tells of no calls. -/
def Quiet (x : Run α) : Prop := ∀ m, Meets x m (fun _ => m.Hushed) fun _ _ => True

namespace Quiet

theorem pure (a : α) : Quiet (Pure.pure a) := fun m => .refl m

theorem throw (e : Fault) : Quiet (MonadExcept.throw e : Run α) := fun _ => trivial

theorem bind {f : α → Run β} (hx : Quiet x) (hf : ∀ a, Quiet (f a)) : Quiet (x >>= f) := fun m =>
  (hx m).seq fun a n h => (hf a n).imp (fun _ _ k => h.trans k) fun _ _ k => k

theorem lift (r : Except Fault α) : Quiet (Run.lift r) := fun m => by
  cases r
  · trivial
  · exact .refl m

theorem onStack (f : Stack → Except Fault (α × Stack)) : Quiet (Run.onStack f) := fun m => by
  unfold Meets Run.onStack
  cases f m.stack
  · trivial
  · exact ⟨rfl, rfl, fun _ => .same rfl⟩

theorem setStack (f : Stack → Except Fault Stack) : Quiet (Run.setStack f) := by
  rw [setStack_eq]
  exact onStack _

theorem readHeap (f : Heap → Except Fault α) : Quiet (Run.readHeap f) := fun m => by
  unfold Meets Run.readHeap
  cases f m.heap
  · trivial
  · exact .refl m

theorem onHeap (f : Heap → Outcome Heap α) : Quiet (Run.onHeap f) := fun m => by
  unfold Meets Run.onHeap
  cases hr : (f m.heap).2 <;> simp only [hr]
  exact ⟨rfl, rfl, fun _ => .same rfl⟩

theorem get : Quiet (MonadState.get : Run Machine) := fun m => .refl m

theorem record {e : Event} (output : e.isOutput) : Quiet (Run.record e) := fun _ =>
  ⟨rfl, rfl, fun _ => .event rfl (Event.follow_output output)⟩

end Quiet

theorem Simple.quiet (h : Simple x) : Quiet x := by
  induction h with
  | pure a => exact .pure a
  | throw e => exact .throw e
  | bind _ _ hx hf => exact hx.bind hf
  | lift r => exact .lift r
  | onStack => exact .onStack _
  | readHeap f => exact .readHeap f
  | onHeap => exact .onHeap _
  | observe f _ hf => exact Quiet.get.bind fun m => hf m.heap
  | record e output => exact .record output

variable (l : Library)

theorem Quiet.execute (a : Activation) (op : Opcode) (first second : Nat) : Quiet (Run.execute l a op first second) := by
  by_cases hv : op = .copyVariable
  · subst hv
    exact (setStack _).bind fun _ => .pure _
  by_cases ha : op = .copyArgument
  · subst ha
    simp only [Run.execute]
    split
    · exact (throw _).bind fun _ => (setStack _).bind fun _ => .pure _
    · exact (setStack _).bind fun _ => .pure _
  exact (Simple.execute l a hv ha first second).quiet

end Run

/-! ### Calls of a run -/

/-- The frames of a call: those of the callers that are still to be returned to, above the one of the host and those that
were there before. -/
inductive Frame.Stacked (below : List Frame) : List FunctionRef → List Frame → Prop
  | host (cursor base : Nat) : Stacked below [] (⟨none, cursor, base⟩ :: below)
  | caller {f : FunctionRef} {callers : List FunctionRef} {frames : List Frame} (cursor base : Nat)
    (others : Stacked below callers frames) : Stacked below (f :: callers) (⟨some f, cursor, base⟩ :: frames)

namespace Machine

variable {m n p : Machine} {a b : Activation} {e : Event} {before after : List FunctionRef}

/-- What a call that began at a machine has come to: the open calls are the one that is running and its callers. -/
structure InCall (m : Machine) (a : Activation) (n : Machine) : Prop where
  watch : n.watch.isSome = m.watch.isSome
  calls : ∃ callers, Frame.Stacked m.frames callers n.frames ∧ (m.watch.isSome → m.Turns [] n (a.function :: callers))

/-- What a call goes on with, or how it has ended. -/
def Reaches (m : Machine) : Option Activation → Machine → Prop
  | some a, n => m.InCall a n
  | none, n => n.frames = m.frames ∧ (m.watch.isSome → m.Turns [] n [])

/-- Whatever is done between calls, and wherever the cursor goes, the open calls stay. -/
theorem InCall.hushed (h : m.InCall a n) (k : n.Hushed p) (same : b.function = a.function) : m.InCall b p := by
  obtain ⟨callers, stacked, turns⟩ := h.calls
  refine ⟨k.watch.trans h.watch, callers, k.frames ▸ stacked, fun watched => ?_⟩
  rw [same]
  exact (turns watched).trans (k.turns _)

/-- A call or a return was noticed if the run is watched. -/
structure Noticed (n : Machine) (e : Event) (p : Machine) : Prop where
  frames : p.frames = n.frames
  watch : p.watch = n.watch
  journal : p.journal = if n.watch.isSome then e :: n.journal else n.journal

theorem Noticed.turns (h : n.Noticed e p) (watched : n.watch.isSome) (follows : e.follow before = some after) :
    n.Turns before p after := .event (h.journal.trans (if_pos watched)) follows

theorem Noticed.hushed (h : n.Noticed e p) (unwatched : ¬ n.watch.isSome) : n.Hushed p :=
  ⟨h.frames, congrArg _ h.watch, fun _ => .same (h.journal.trans (if_neg unwatched))⟩

end Machine

namespace Run

variable (l : Library) {m n : Machine}

theorem meets_notice (e : Event) (n : Machine) : Meets (notice e) n (fun _ => n.Noticed e) fun _ _ => False := by
  refine meets_modify.2 ?_
  split
  · next watched => exact ⟨rfl, rfl, (if_pos watched).symm⟩
  · next unwatched => exact ⟨rfl, rfl, (if_neg unwatched).symm⟩

/-! ### Entering -/

/-- Runs a native function, and is done with it. -/
def inPlace (f : FunctionRef) (k : Native) : Run Unit := do
  notice (.entered f)
  k.run
  notice (.exited f)

theorem enter_found {f : FunctionRef} {g : Function} (found : l.findFunction f = .ok g) :
    enter l f = match g.body with
      | .native k => inPlace f k >>= fun _ => pure none
      | .code bytes => notice (.entered f) >>= fun _ => pure (some ⟨f, bytes, 0, 0⟩)
      | .fragment op => notice (.entered f) >>= fun _ => pure (some ⟨f, #[op.toByte], 0, 0⟩)
      | body => throw (.notCallable body.kind g.name) := by
  have lifted : (lift (l.findFunction f) : Run Function) = pure g := by
    rw [found]
    rfl
  unfold enter
  rw [lifted, pure_bind]
  cases g.body with
  | native k => simp only [inPlace, bind_assoc]
  | code | fragment | undefined | generic => rfl

/-- A native function is entered and exited at once, so no other call is open after it. -/
theorem quiet_inPlace (f : FunctionRef) (k : Native) : Quiet (inPlace f k) := by
  intro n
  refine meets_bind.2 ((meets_notice (.entered f) n).imp (fun _ p entered => ?_) nofun)
  refine meets_bind.2 ((Simple.native k).quiet p |>.imp (fun _ q ran => ?_) fun _ _ _ => trivial)
  refine (meets_notice (.exited f) q).imp (fun _ r exited => ?_) nofun
  have watch : q.watch.isSome = n.watch.isSome := ran.watch.trans (congrArg _ entered.watch)
  -- both are told of or neither is
  by_cases watched : n.watch.isSome
  · refine ⟨exited.frames.trans (ran.frames.trans entered.frames), (congrArg _ exited.watch).trans watch, fun calls => ?_⟩
    have opened : n.Turns calls p (f :: calls) := entered.turns watched rfl
    have closed : q.Turns (f :: calls) r calls := exited.turns (watch.trans watched) (if_pos rfl)
    exact (opened.trans (ran.turns _)).trans closed
  · exact ((entered.hushed watched).trans ran).trans (exited.hushed (watch ▸ watched))

/-! ### Steps -/

theorem inCall_observing (a : Activation) (byte : UInt8) (h : m.InCall a n) :
    Meets (observing l a byte n) n (fun _ => m.InCall a) fun _ _ => True := by
  obtain ⟨callers, stacked, turns⟩ := h.calls
  unfold observing
  cases hw : n.watch with
  | none => exact h
  | some w =>
    have stepped (listing : String) : m.InCall a { n with
        journal := .stepped a.function a.cursor n.stack.size listing :: n.journal
        watch := some { w with seen := w.seen + 1 } } := by
      refine ⟨?_, callers, stacked, fun watched => (turns watched).trans (.event rfl (if_pos rfl))⟩
      rw [← h.watch, hw]
      rfl
    simp only [meets_bind, record, meets_modify]
    split
    · split
      · trivial
      · exact stepped _
    · exact stepped _

/-- A step that is counted is one of the innermost call. -/
theorem inCall_count (a : Activation) (byte : UInt8) (h : m.InCall a n) :
    Meets (count l a byte) n (fun _ => m.InCall a) fun _ _ => True := by
  have counted : m.InCall a { n with steps := n.steps + 1 } := h.hushed ⟨rfl, rfl, fun _ => .same rfl⟩ rfl
  have observed := inCall_observing l a byte counted
  unfold count
  simp only [meets_bind, meets_modify, meets_get]
  split
  · split
    · trivial
    · exact observed
  · exact observed

/-- The innermost call is exited, and its caller is the innermost one after that. -/
theorem reaches_leave (a : Activation) (h : m.InCall a n) : Meets (leave l a) n m.Reaches fun _ _ => True := by
  obtain ⟨callers, stacked, turns⟩ := h.calls
  refine meets_bind.2 ((meets_notice (.exited a.function) n).imp (fun _ p exited => ?_) nofun)
  have turns (watched : m.watch.isSome) : m.Turns [] p callers :=
    (turns watched).trans (exited.turns (h.watch.trans watched) (if_pos rfl))
  have watch : p.watch.isSome = m.watch.isSome := (congrArg _ exited.watch).trans h.watch
  rw [← exited.frames] at stacked
  obtain ⟨stack, frames, heap, steps, limit, watch', journal⟩ := p
  -- the frame on top is the one of the host, or it tells who called
  cases stacked with
  | host cursor base => exact ⟨rfl, turns⟩
  | caller cursor base others => exact ⟨watch, _, others, turns⟩

/-- A function with code is entered above its caller. -/
theorem reaches_resume (a : Activation) (h : m.InCall a n) {f : FunctionRef} {code : Array UInt8} :
    Meets (notice (.entered f) >>= fun _ => resume a (some ⟨f, code, 0, 0⟩)) n m.Reaches fun _ _ => True := by
  obtain ⟨callers, stacked, turns⟩ := h.calls
  refine meets_bind.2 ((meets_notice (.entered f) n).imp (fun _ p entered => ?_) nofun)
  refine meets_bind.2 (meets_modify.2 (meets_bind.2 (meets_get.2 (meets_pure.2 ?_))))
  refine ⟨(congrArg _ entered.watch).trans h.watch, a.function :: callers, ?_, fun watched => ?_⟩
  · rw [← entered.frames] at stacked
    exact .caller a.cursor a.base stacked
  · have opened : n.Turns (a.function :: callers) p (f :: a.function :: callers) :=
      entered.turns (h.watch.trans watched) rfl
    exact (turns watched).trans opened

theorem reaches_dispatch (a : Activation) (h : m.InCall a n) (o : Option FunctionRef) :
    Meets (dispatch l a o) n m.Reaches fun _ _ => True := by
  cases o with
  | none => exact h
  | some f =>
    change Meets (enter l f >>= resume a) n _ _
    cases found : l.findFunction f with
    | error e =>
      unfold enter
      rw [found]
      trivial
    | ok g =>
      rw [enter_found l found]
      cases g.body with
      | native k =>
        refine meets_bind.2 (meets_bind.2 ((quiet_inPlace f k n).imp (fun _ p ran => ?_) fun _ _ _ => trivial))
        exact h.hushed ran rfl
      | undefined | generic => trivial
      | code | fragment => exact reaches_resume a h

/-- One step goes on with the innermost call, or with one that it has entered or returned to. -/
theorem reaches_step (a : Activation) (h : m.InCall a n) : Meets (step l a) n m.Reaches fun _ _ => True := by
  cases hb : a.code[a.cursor]? with
  | none =>
    rw [step_none l hb]
    exact reaches_leave l a h
  | some byte =>
    rw [step_some l hb]
    refine meets_bind.2 ((inCall_count l a byte h).imp (fun _ p counted => ?_) fun _ _ _ => trivial)
    cases Instruction.read a.code a.cursor byte with
    | unknown b => trivial
    | truncated op => trivial
    | ofOpcode op x y =>
      refine meets_bind.2 ((Simple.jumpDistance op x).quiet p |>.imp (fun d q jumped => ?_) fun _ _ _ => trivial)
      refine meets_bind.2 ((Quiet.execute l _ op x y q).imp (fun o r executed => ?_) fun _ _ _ => trivial)
      exact reaches_dispatch l { a with cursor := a.cursor + op.length + d } (counted.hushed (jumped.trans executed) rfl) o

theorem reaches_steps (fuel : Nat) : ∀ (a : Activation) {n : Machine}, m.InCall a n →
    Meets (steps l fuel a) n (fun _ => m.Reaches none) fun _ _ => True := by
  induction fuel with
  | zero => exact fun _ _ _ => trivial
  | succ fuel ih =>
    intro a n h
    unfold steps
    refine meets_bind.2 ((reaches_step l a h).imp (fun o p reached => ?_) fun _ _ _ => trivial)
    cases o with
    | none => exact reached
    | some b => exact ih b reached

/-! ### Whole calls -/

theorem reaches_embark (f : FunctionRef) (m : Machine) : Meets (embark l f) m m.Reaches fun _ _ => True := by
  unfold embark
  cases found : l.findFunction f with
  | error e => trivial
  | ok g =>
    refine meets_bind.2 (meets_bind.2 (meets_modify.2 ?_))
    generalize hp : (if m.frames.isEmpty then { m with steps := 0 } else m) = p
    have begun : m.Hushed p := by
      rw [← hp]
      split <;> exact ⟨rfl, rfl, fun _ => .same rfl⟩
    have descends (base : Nat) (code : Array UInt8) : Meets (pushFrame ⟨none, 0, base⟩ >>= fun _ =>
        notice (.entered f) >>= fun _ => pure (some ⟨f, code, 0, base⟩)) p m.Reaches fun _ _ => True := by
      refine meets_bind.2 (meets_modify.2 (meets_bind.2 ((meets_notice (.entered f) _).imp (fun _ q entered => ?_) nofun)))
      have watch : q.watch = p.watch := entered.watch
      refine ⟨(congrArg _ watch).trans begun.watch, [], ?_, fun watched => ?_⟩
      · rw [entered.frames, begun.frames]
        exact .host 0 base
      · have opened : p.Turns [] q [f] := entered.turns (begun.watch.trans watched) rfl
        exact (begun.turns []).trans opened
    simp only [descend, enter_found l found]
    cases g.body with
    | native k =>
      refine meets_bind.2 (meets_bind.2 ((quiet_inPlace f k p).imp (fun _ q ran => ?_) fun _ _ _ => trivial))
      have whole : m.Hushed q := begun.trans ran
      exact ⟨whole.frames, fun _ => whole.turns []⟩
    | undefined | generic => trivial
    | code | fragment => exact descends _ _

/-- A call that returns leaves the frames as they were. Of a run that is watched it tells of a whole number of calls: what
is entered is exited in turn, and every step belongs to the call that was entered last and not exited yet. -/
theorem call_balanced (f : FunctionRef) {m m' : Machine} (returns : call l f m = .ok () m') : m'.frames = m.frames ∧
    (m.watch.isSome → ∃ events : List Event, m'.journal = events.reverse ++ m.journal ∧
      Event.followAll [] events = some []) := by
  rw [call_eq_embark] at returns
  have ended : Meets (embark l f >>= pursue l ceiling) m (fun _ => m.Reaches none) fun _ _ => True := by
    refine meets_bind.2 ((reaches_embark l f m).imp (fun o n reached => ?_) fun _ _ _ => trivial)
    cases o with
    | none => exact reached
    | some a => exact reaches_steps l ceiling a reached
  exact ended.of_ok returns

/-- A module with a function that calls another one, which does nothing. -/
def nested : Library where
  modules := #[{ name := "nested", scopes := .ofModule "nested", functions := #[
    ⟨"main", {}, .code #[Opcode.call0.toByte, 1], []⟩, ⟨"inner", {}, .code #[Opcode.noop.toByte], []⟩] }]

theorem call_balanced_nested : ∃ m', call nested ⟨0, 0⟩ { watch := some {} } = .ok () m' ∧ m'.frames = [] ∧
    m'.journal.length = 6 ∧ ∃ events : List Event, m'.journal = events.reverse ++ [] ∧
      Event.followAll [] events = some [] := by
  let inner : List Event := [.entered ⟨0, 1⟩, .stepped ⟨0, 1⟩ 0 0 "", .exited ⟨0, 1⟩]
  let events : List Event := [.entered ⟨0, 0⟩, .stepped ⟨0, 0⟩ 0 0 ""] ++ inner ++ [.exited ⟨0, 0⟩]
  have returns : call nested ⟨0, 0⟩ { watch := some {} } =
    .ok () { steps := 2, watch := some { seen := 2 }, journal := events.reverse } := rfl
  have balanced := call_balanced nested ⟨0, 0⟩ returns
  exact ⟨_, returns, balanced.1, rfl, balanced.2 rfl⟩

end Run

end StackScript
