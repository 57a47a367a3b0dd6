import Mathlib.Algebra.Order.BigOperators.Group.List
import Mathlib.Algebra.Order.Group.Nat
import StackScript.Proofs.Balancing

/-!
The way through the code. Within an activation the cursor only moves forward, also across the calls that it makes, so
that no instruction is executed twice. A run has no more steps than the code of the activations that it enters has bytes.
-/
namespace StackScript

/-- An activation that was entered: its function, and the cursors of what was executed in it, the last one first. -/
structure Visit where
  function : FunctionRef
  cursors : List Nat := []

namespace Visit

variable (l : Library)

/-- The visit with one more instruction executed. -/
def moved (v : Visit) (cursor : Nat) : Visit := { v with cursors := cursor :: v.cursors }

/-- The instructions executed in visits. -/
def executed (vs : List Visit) : Nat := (vs.map (·.cursors.length)).sum

/-- The size of the code that the visit is to. -/
def extent (v : Visit) : Nat := (Run.codeOf l v.function).size

theorem executed_moved (v : Visit) (cursor : Nat) (vs : List Visit) :
    executed (v.moved cursor :: vs) = executed (v :: vs) + 1 := by
  simp only [executed, moved, List.map_cons, List.sum_cons, List.length_cons]
  omega

theorem executed_fresh (f : FunctionRef) (vs : List Visit) : executed (⟨f, []⟩ :: vs) = executed vs := Nat.zero_add _

theorem executed_returned (v w : Visit) (vs ws : List Visit) :
    executed (w :: (vs ++ v :: ws)) = executed (v :: (w :: vs ++ ws)) := by
  simp only [executed, List.map_append, List.map_cons, List.sum_append, List.sum_cons]
  omega

/-- What was executed in a visit that goes on at a cursor lies before that in the code, each behind what came before. -/
structure Before (v : Visit) (cursor : Nat) : Prop where
  rising : v.cursors.Pairwise (· > ·)
  behind : ∀ c ∈ v.cursors, c < cursor
  inside : ∀ c ∈ v.cursors, c < v.extent l

/-- The visits of the callers, each with the frame that tells where it goes on, above the frames that were there before
the call. -/
inductive Waiting (below : List Frame) : List Visit → List Frame → Prop
  | host (cursor base : Nat) : Waiting below [] (⟨none, cursor, base⟩ :: below)
  | caller {v : Visit} {vs : List Visit} {frames : List Frame} {cursor : Nat} (base : Nat) (passed : v.Before l cursor)
    (others : Waiting below vs frames) : Waiting below (v :: vs) (⟨some v.function, cursor, base⟩ :: frames)

variable {l} {v : Visit} {cursor next : Nat}

theorem Before.fresh {f : FunctionRef} : (⟨f, []⟩ : Visit).Before l cursor := ⟨.nil, nofun, nofun⟩

theorem Before.moved (h : v.Before l cursor) (inside : cursor < v.extent l) (ahead : cursor < next) :
    (v.moved cursor).Before l next :=
  ⟨h.rising.cons h.behind, List.forall_mem_cons.2 ⟨ahead, fun c hc => Nat.lt_trans (h.behind c hc) ahead⟩,
    List.forall_mem_cons.2 ⟨inside, h.inside⟩⟩

theorem length_le_of_rising {cs : List Nat} {n : Nat} (rising : cs.Pairwise (· > ·)) (below : ∀ c ∈ cs, c < n) :
    cs.length ≤ n := by
  induction cs generalizing n with
  | nil => exact Nat.zero_le n
  | cons c cs ih =>
    obtain ⟨first, others⟩ := List.pairwise_cons.1 rising
    exact Nat.lt_of_le_of_lt (ih others first) (below c (.head _))

theorem Before.length_le (h : v.Before l cursor) : v.cursors.length ≤ cursor := length_le_of_rising h.rising h.behind

theorem Before.length_le_extent (h : v.Before l cursor) : v.cursors.length ≤ v.extent l :=
  length_le_of_rising h.rising h.inside

theorem Waiting.passed {below frames : List Frame} {vs : List Visit} (h : Waiting l below vs frames) :
    ∀ v ∈ vs, ∃ cursor, v.Before l cursor := by
  induction h with
  | host cursor base => exact nofun
  | caller base passed others ih => exact List.forall_mem_cons.2 ⟨⟨_, passed⟩, ih⟩

theorem Waiting.stacked {below frames : List Frame} {vs : List Visit} (h : Waiting l below vs frames) :
    Frame.Stacked below (vs.map (·.function)) frames := by
  induction h with
  | host cursor base => exact .host cursor base
  | caller base passed others ih => exact .caller _ base ih

end Visit

namespace Run

variable (l : Library)

/-- What a step before the last one does to cursor and frames: it moves on, it enters a function above a frame that tells
where to go on, or it takes such a frame and goes on there. -/
inductive Advance (a : Activation) (n p : Machine) : Activation → Prop
  | within {cursor : Nat} (executed : a.cursor < a.code.size) (ahead : a.cursor < cursor) (frames : p.frames = n.frames) :
    Advance a n p { a with cursor := cursor }
  | into {f : FunctionRef} {cursor base : Nat} (executed : a.cursor < a.code.size) (ahead : a.cursor < cursor)
    (frames : p.frames = ⟨some a.function, cursor, a.base⟩ :: n.frames) : Advance a n p ⟨f, codeOf l f, 0, base⟩
  | back {f : FunctionRef} {cursor base : Nat} (ended : a.code.size ≤ a.cursor)
    (frames : n.frames = ⟨some f, cursor, base⟩ :: p.frames) : Advance a n p ⟨f, codeOf l f, cursor, base⟩

/-- A call has come to an activation. Its visit comes first, then those of its callers, the innermost first, and then the
ones that were returned from. -/
inductive Traced (f : FunctionRef) (m : Machine) : Visit → List Visit → List Visit → Activation → Machine → Prop
  | first {a : Activation} {n : Machine} (entered : embark l f m = .ok (some a) n) : Traced f m ⟨f, []⟩ [] [] a n
  | stays {v : Visit} {vs ws : List Visit} {a b : Activation} {n p : Machine} (before : Traced f m v vs ws a n)
    (executed : a.cursor < a.code.size) (stepped : step l a n = .ok (some b) p)
    (height : p.frames.length = n.frames.length) : Traced f m (v.moved a.cursor) vs ws b p
  | enters {v : Visit} {vs ws : List Visit} {a b : Activation} {n p : Machine} (before : Traced f m v vs ws a n)
    (executed : a.cursor < a.code.size) (stepped : step l a n = .ok (some b) p)
    (height : p.frames.length = n.frames.length + 1) : Traced f m ⟨b.function, []⟩ (v.moved a.cursor :: vs) ws b p
  | returns {v w : Visit} {vs ws : List Visit} {a b : Activation} {n p : Machine} (before : Traced f m v (w :: vs) ws a n)
    (ended : a.code.size ≤ a.cursor) (stepped : step l a n = .ok (some b) p) : Traced f m w vs (v :: ws) b p

/-- The visits belong to what the call has come to: the first one to the activation, and the other open ones to the frames
below it. -/
structure Follows (m : Machine) (v : Visit) (vs ws : List Visit) (a : Activation) (n : Machine) : Prop where
  function : v.function = a.function
  code : a.code = codeOf l a.function
  passed : v.Before l a.cursor
  waiting : Visit.Waiting l m.frames vs n.frames
  left : ∀ w ∈ ws, ∃ cursor, w.Before l cursor

variable {l} {a b : Activation} {m n p : Machine} {f : FunctionRef} {v : Visit} {vs ws : List Visit}

/-! ### One step -/

theorem codeOf_found {g : Function} {code : Array UInt8} (found : l.findFunction f = .ok g)
    (body : g.body.code? = some code) : codeOf l f = code := by
  rw [codeOf, Library.function?_of_find found, Option.bind_some, body, Option.getD_some]

/-- A function is entered at the start of its code. -/
theorem enter_start (f : FunctionRef) (n : Machine) :
    Meets (enter l f) n (fun o _ => ∀ b, o = some b → b = ⟨f, codeOf l f, 0, 0⟩) fun _ _ => True := by
  cases found : l.findFunction f with
  | error e =>
    unfold enter
    rw [found]
    trivial
  | ok g =>
    have started {code : Array UInt8} (body : g.body.code? = some code) (e : Event) :
        Meets (notice e >>= fun _ => pure (some (⟨f, code, 0, 0⟩ : Activation))) n
          (fun o _ => ∀ b, o = some b → b = ⟨f, codeOf l f, 0, 0⟩) fun _ _ => True := by
      refine meets_bind.2 ((meets_notice e n).imp (fun _ p _ b hb => ?_) nofun)
      rw [codeOf_found found body]
      exact (Option.some.inj hb).symm
    rw [enter_found l found]
    cases hb : g.body with
    | native k => exact meets_bind.2 (.mk (fun _ _ _ => nofun) fun _ _ _ => trivial)
    | undefined | generic => trivial
    | code bytes => exact started (congrArg Body.code? hb) _
    | fragment op => exact started (congrArg Body.code? hb) _

theorem advance_leave (ended : a.code.size ≤ a.cursor) (n : Machine) :
    Meets (leave l a) n (fun o p => ∀ b, o = some b → Advance l a n p b) fun _ _ => True := by
  refine meets_bind.2 ((meets_notice (.exited a.function) n).imp (fun _ p exited => meets_bind.2 ?_) nofun)
  refine (frames_popFrame p).imp (fun frame q popped => ?_) fun _ _ _ => trivial
  obtain ⟨caller, cursor, base⟩ := frame
  rw [exited.frames] at popped
  cases caller with
  | none => exact nofun
  | some f =>
    intro b hb
    cases hb
    exact .back ended popped

theorem advance_dispatch {cursor : Nat} (executed : a.cursor < a.code.size) (ahead : a.cursor < cursor)
    (frames : m.frames = n.frames) (o : Option FunctionRef) :
    Meets (dispatch l { a with cursor := cursor } o) m (fun o p => ∀ b, o = some b → Advance l a n p b)
      fun _ _ => True := by
  cases o with
  | none =>
    intro b hb
    cases hb
    exact .within executed ahead frames
  | some f =>
    refine meets_bind.2 (((enter_start f m).and ((Basic.enter l f).stays m)).imp (fun o p entered => ?_)
      fun _ _ _ => trivial)
    obtain ⟨start, stays⟩ := entered
    cases o with
    | none =>
      intro b hb
      cases hb
      exact .within executed ahead (stays.frames.trans frames)
    | some callee =>
      intro b hb
      cases hb
      rw [start callee rfl]
      refine .into executed ahead ?_
      rw [← frames, ← stays.frames]

/-- An instruction takes at least one byte, and jumps lead forward. -/
theorem advance_step (a : Activation) (n : Machine) :
    Meets (step l a) n (fun o p => ∀ b, o = some b → Advance l a n p b) fun _ _ => True := by
  cases hb : a.code[a.cursor]? with
  | none =>
    rw [step_none l hb]
    exact advance_leave (Array.getElem?_eq_none_iff.1 hb) n
  | some byte =>
    have executed : a.cursor < a.code.size := (Array.getElem?_eq_some_iff.1 hb).1
    rw [step_some l hb]
    refine meets_bind.2 ((Stays.count l a byte n).imp (fun _ p counted => ?_) fun _ _ _ => trivial)
    cases Instruction.read a.code a.cursor byte with
    | unknown b => trivial
    | truncated op => trivial
    | ofOpcode op x y =>
      refine meets_bind.2 (((Basic.jumpDistance op x).stays p).imp (fun d q jumped => ?_) fun _ _ _ => trivial)
      refine meets_bind.2 ((Stays.execute l _ op x y q).imp (fun o r ran => ?_) fun _ _ _ => trivial)
      have ahead : a.cursor < a.cursor + op.length + d := by
        unfold Opcode.length
        omega
      exact advance_dispatch executed ahead (ran.frames.trans (jumped.frames.trans counted.frames)) o

/-- A call begins above a frame of the host. -/
theorem first_embark (f : FunctionRef) (m : Machine) :
    Meets (embark l f) m (fun o n => ∀ a, o = some a → a.function = f ∧ a.code = codeOf l f ∧
      ∃ base, n.frames = ⟨none, 0, base⟩ :: m.frames) fun _ _ => True := by
  unfold embark
  refine meets_bind.2 (((Basic.lift _).stays m).imp (fun g n hn => ?_) fun _ _ _ => trivial)
  refine meets_bind.2 (meets_modify.2 ?_)
  generalize hp : (if n.frames.isEmpty then { n with steps := 0 } else n) = p
  have frames : p.frames = m.frames := by
    rw [← hp, ← hn.frames]
    split <;> rfl
  rw [← frames]
  cases g.body with
  | native n => exact meets_bind.2 (.mk (fun _ _ _ => nofun) fun _ _ _ => trivial)
  | undefined | generic => trivial
  | code | fragment =>
    refine meets_bind.2 (meets_get.2 (meets_bind.2 (meets_modify.2 (meets_bind.2 ?_))))
    refine ((enter_start f _).and ((Basic.enter l f).stays _)).imp (fun o q entered a ha => ?_) fun _ _ _ => trivial
    obtain ⟨start, stays⟩ := entered
    obtain ⟨b, hb, rfl⟩ := Option.map_eq_some_iff.1 ha
    rw [start b hb]
    exact ⟨rfl, rfl, _, stays.frames⟩

/-! ### The visits of a run -/

theorem Follows.first (function : a.function = f) (code : a.code = codeOf l f) {base : Nat}
    (frames : n.frames = ⟨none, 0, base⟩ :: m.frames) : Follows l m ⟨f, []⟩ [] [] a n := by
  subst function
  refine ⟨rfl, code, .fresh, ?_, nofun⟩
  rw [frames]
  exact .host 0 base

/-- A step that executes an instruction adds it to the visit, and one that returns leaves the visit for that of the
caller. -/
theorem Follows.advance (h : Follows l m v vs ws a n) (advance : Advance l a n p b) :
    (a.cursor < a.code.size ∧ p.frames.length = n.frames.length ∧ Follows l m (v.moved a.cursor) vs ws b p) ∨
    (a.cursor < a.code.size ∧ p.frames.length = n.frames.length + 1 ∧
      Follows l m ⟨b.function, []⟩ (v.moved a.cursor :: vs) ws b p) ∨
    (a.code.size ≤ a.cursor ∧ ∃ w others, vs = w :: others ∧ Follows l m w others (v :: ws) b p) := by
  have inside (executed : a.cursor < a.code.size) : a.cursor < v.extent l := by
    rwa [Visit.extent, h.function, ← h.code]
  cases advance with
  | within executed ahead frames =>
    exact .inl ⟨executed, congrArg _ frames, h.function, h.code, h.passed.moved (inside executed) ahead,
      frames ▸ h.waiting, h.left⟩
  | into executed ahead frames =>
    refine .inr (.inl ⟨executed, congrArg _ frames, rfl, rfl, .fresh, ?_, h.left⟩)
    rw [frames, ← h.function]
    exact .caller (v := v.moved a.cursor) _ (h.passed.moved (inside executed) ahead) h.waiting
  | @back g cursor base ended frames =>
    have waiting := h.waiting
    rw [frames] at waiting
    cases waiting with
    | caller _ passed others =>
      exact .inr (.inr ⟨ended, _, _, rfl, rfl, rfl, passed, others, List.forall_mem_cons.2 ⟨⟨a.cursor, h.passed⟩, h.left⟩⟩)

theorem Traced.follows (h : Traced l f m v vs ws a n) : Follows l m v vs ws a n := by
  induction h with
  | first entered =>
    obtain ⟨function, code, base, frames⟩ := (first_embark _ m).of_ok entered _ rfl
    exact .first function code frames
  | stays before executed stepped height ih =>
    rcases ih.advance ((advance_step _ _).of_ok stepped _ rfl) with ⟨-, -, next⟩ | ⟨-, higher, -⟩ | ⟨ended, -⟩
    · exact next
    · omega
    · omega
  | enters before executed stepped height ih =>
    rcases ih.advance ((advance_step _ _).of_ok stepped _ rfl) with ⟨-, same, -⟩ | ⟨-, -, next⟩ | ⟨ended, -⟩
    · omega
    · exact next
    · omega
  | returns before ended stepped ih =>
    rcases ih.advance ((advance_step _ _).of_ok stepped _ rfl) with ⟨executed, -⟩ | ⟨executed, -⟩ |
      ⟨-, w, others, same, next⟩
    · omega
    · omega
    · cases same
      exact next

theorem Traced.arrives (h : Traced l f m v vs ws a n) : Arrives l f m (Visit.executed (v :: (vs ++ ws))) a n := by
  induction h with
  | first entered => exact .first entered
  | stays before executed stepped height ih =>
    have next := Arrives.next ih stepped
    rwa [Activation.due, if_pos executed, ← Visit.executed_moved] at next
  | enters before executed stepped height ih =>
    have next := Arrives.next ih stepped
    rwa [Activation.due, if_pos executed, ← Visit.executed_moved, ← Visit.executed_fresh] at next
  | returns before ended stepped ih =>
    have next := Arrives.next ih stepped
    rwa [Activation.due, if_neg (Nat.not_lt.2 ended), Nat.add_zero, ← Visit.executed_returned] at next

/-- Every run has visits, in which its instructions were executed. -/
theorem Arrives.traced {k : Nat} (h : Arrives l f m k a n) :
    ∃ v vs ws, Traced l f m v vs ws a n ∧ k = Visit.executed (v :: (vs ++ ws)) := by
  induction h with
  | first entered => exact ⟨_, _, _, .first entered, rfl⟩
  | next before stepped ih =>
    obtain ⟨v, vs, ws, traced, rfl⟩ := ih
    rcases traced.follows.advance ((advance_step _ _).of_ok stepped _ rfl) with ⟨executed, height, -⟩ |
      ⟨executed, height, -⟩ | ⟨ended, w, others, rfl, -⟩
    · refine ⟨_, _, _, .stays traced executed stepped height, ?_⟩
      rw [Visit.executed_moved, Activation.due, if_pos executed]
    · refine ⟨_, _, _, .enters traced executed stepped height, ?_⟩
      rw [Visit.executed_fresh, List.cons_append, Visit.executed_moved, Activation.due, if_pos executed]
    · refine ⟨_, _, _, .returns traced ended stepped, ?_⟩
      rw [Visit.executed_returned, Activation.due, if_neg (Nat.not_lt.2 ended), Nat.add_zero]

/-- A step that is due finds room in the code. -/
theorem Follows.room (h : Follows l m v vs ws a n) : v.cursors.length + a.due ≤ v.extent l := by
  unfold Activation.due
  split
  next executed =>
    have inside : a.cursor < v.extent l := by
      rwa [Visit.extent, h.function, ← h.code]
    have := h.passed.length_le
    omega
  next => exact h.passed.length_le_extent

theorem Follows.passed_all (h : Follows l m v vs ws a n) : ∀ w ∈ v :: (vs ++ ws), ∃ cursor, w.Before l cursor := by
  refine List.forall_mem_cons.2 ⟨⟨a.cursor, h.passed⟩, fun w hw => ?_⟩
  rcases List.mem_append.1 hw with waiting | left
  · exact h.waiting.passed w waiting
  · exact h.left w left

theorem Follows.bounded (h : Follows l m v vs ws a n) :
    Visit.executed (v :: (vs ++ ws)) + a.due ≤ ((v :: (vs ++ ws)).map (Visit.extent l)).sum := by
  have others : ((vs ++ ws).map (·.cursors.length)).sum ≤ ((vs ++ ws).map (Visit.extent l)).sum := by
    refine List.sum_le_sum fun w hw => ?_
    obtain ⟨cursor, passed⟩ := h.passed_all w (.tail _ hw)
    exact passed.length_le_extent
  have first := h.room
  rw [Visit.executed, List.map_cons, List.map_cons, List.sum_cons, List.sum_cons]
  omega

theorem exists_extent (l : Library) : ∃ bound, ∀ f, (codeOf l f).size ≤ bound := by
  refine ⟨((l.modules.toList.flatMap fun k => k.functions.toList).map fun g => (g.body.code?.getD #[]).size).sum,
    fun f => ?_⟩
  unfold codeOf
  cases hg : l.function? f with
  | none => exact Nat.zero_le _
  | some g =>
    obtain ⟨k, hk, found⟩ := Option.bind_eq_some_iff.1 hg
    refine List.le_sum_of_mem (List.mem_map.2 ⟨g, List.mem_flatMap.2 ⟨k, ?_, ?_⟩, rfl⟩)
    · exact Array.mem_toList_iff.2 (Array.mem_of_getElem? hk)
    · exact Array.mem_toList_iff.2 (Array.mem_of_getElem? found)

/-- The visits of a run are those to its activation, to the callers on the frames, and to what was returned from. In each
the cursors rise, so that no instruction is executed twice, and those of the activation are behind the one at which it
goes on. Together the visits have executed every instruction of the run, so these are no more than the bytes of code that
were entered, and a run that does not enter ever more activations comes to an end. -/
theorem moves_forward (l : Library) (f : FunctionRef) (m : Machine) :
    (∀ v vs ws a n, Traced l f m v vs ws a n →
      v.function = a.function ∧ Frame.Stacked m.frames (vs.map (·.function)) n.frames ∧ (∀ c ∈ v.cursors, c < a.cursor) ∧
      (∀ w ∈ v :: (vs ++ ws), w.cursors.Pairwise (· > ·) ∧ w.cursors.Nodup ∧
        ∀ c ∈ w.cursors, c < (codeOf l w.function).size) ∧
      Arrives l f m (Visit.executed (v :: (vs ++ ws))) a n ∧
      Visit.executed (v :: (vs ++ ws)) + a.due ≤ ((v :: (vs ++ ws)).map fun w => (codeOf l w.function).size).sum) ∧
    (∀ k a n, Arrives l f m k a n → ∃ v vs ws, Traced l f m v vs ws a n ∧ k = Visit.executed (v :: (vs ++ ws))) ∧
    ∀ bound, (∀ v vs ws a n, Traced l f m v vs ws a n → (v :: (vs ++ ws)).length ≤ bound) →
      ∃ k r, Finishes l f m k r := by
  refine ⟨fun v vs ws a n traced => ?_, fun k a n h => h.traced, fun bound few => ?_⟩
  · have follows := traced.follows
    refine ⟨follows.function, follows.waiting.stacked, follows.passed.behind, fun w hw => ?_, traced.arrives,
      follows.bounded⟩
    obtain ⟨cursor, passed⟩ := follows.passed_all w hw
    exact ⟨passed.rising, passed.rising.imp Nat.ne_of_gt, passed.inside⟩
  · by_contra endless
    obtain ⟨extent, within⟩ := exists_extent l
    have going : ∀ k r, Finishes l f m k r → bound * extent < k := fun k r ended => absurd ⟨k, r, ended⟩ endless
    obtain ⟨a, n, arrives, due⟩ := exists_arrives l going (bound * extent) (Nat.le_refl _)
    obtain ⟨v, vs, ws, traced, executed⟩ := arrives.traced
    have room := traced.follows.bounded
    rw [← executed, Activation.due, if_pos due] at room
    have total : ((v :: (vs ++ ws)).map (Visit.extent l)).sum ≤ (v :: (vs ++ ws)).length * extent := by
      have each : ∀ i ∈ (v :: (vs ++ ws)).map (Visit.extent l), i ≤ extent := fun i hi => by
        obtain ⟨w, -, rfl⟩ := List.mem_map.1 hi
        exact within w.function
      have sum := List.sum_le_card_nsmul _ _ each
      rwa [List.length_map, Nat.nsmul_eq_mul] at sum
    have := Nat.mul_le_mul_right extent (few v vs ws a n traced)
    omega

/-- In a run of these two functions each is entered once, the second one by the call. -/
theorem nested_visits (h : Traced nested ⟨0, 0⟩ {} v vs ws a n) :
    (a = ⟨⟨0, 0⟩, #[Opcode.call0.toByte, 1], 0, 0⟩ ∧ n = { frames := [⟨none, 0, 0⟩] }) ∧ (vs ++ ws).length = 0 ∨
    ((a = ⟨⟨0, 1⟩, #[Opcode.noop.toByte], 0, 0⟩ ∧ n = { frames := [⟨some ⟨0, 0⟩, 2, 0⟩, ⟨none, 0, 0⟩], steps := 1 }) ∨
      (a = ⟨⟨0, 1⟩, #[Opcode.noop.toByte], 1, 0⟩ ∧ n = { frames := [⟨some ⟨0, 0⟩, 2, 0⟩, ⟨none, 0, 0⟩], steps := 2 }) ∨
      (a = ⟨⟨0, 0⟩, #[Opcode.call0.toByte, 1], 2, 0⟩ ∧ n = { frames := [⟨none, 0, 0⟩], steps := 2 })) ∧
      (vs ++ ws).length = 1 := by
  -- Of the four states each leads to the next one, in one of the three ways, and the last one to none.
  induction h with
  | first entered =>
    cases entered
    exact .inl ⟨⟨rfl, rfl⟩, rfl⟩
  | stays before executed stepped height ih =>
    rcases ih with ⟨⟨rfl, rfl⟩, count⟩ | ⟨⟨rfl, rfl⟩ | ⟨rfl, rfl⟩ | ⟨rfl, rfl⟩, count⟩
    · cases stepped
      cases height
    · cases stepped
      exact .inr ⟨.inr (.inl ⟨rfl, rfl⟩), count⟩
    · exact absurd executed (by decide)
    · cases stepped
  | enters before executed stepped height ih =>
    rcases ih with ⟨⟨rfl, rfl⟩, count⟩ | ⟨⟨rfl, rfl⟩ | ⟨rfl, rfl⟩ | ⟨rfl, rfl⟩, count⟩
    · cases stepped
      exact .inr ⟨.inl ⟨rfl, rfl⟩, congrArg (· + 1) count⟩
    · cases stepped
      cases height
    · exact absurd executed (by decide)
    · cases stepped
  | returns before ended stepped ih =>
    rcases ih with ⟨⟨rfl, rfl⟩, count⟩ | ⟨⟨rfl, rfl⟩ | ⟨rfl, rfl⟩ | ⟨rfl, rfl⟩, count⟩
    · exact absurd ended (by decide)
    · exact absurd ended (by decide)
    · cases stepped
      exact .inr ⟨.inr (.inr ⟨rfl, rfl⟩), List.perm_middle.length_eq.trans count⟩
    · cases stepped

/-- That run returns to the function that called the other one, and comes to an end. -/
theorem moves_forward_nested :
    let outer : Visit := ⟨⟨0, 0⟩, [0]⟩
    let inner : Visit := ⟨⟨0, 1⟩, [0]⟩
    Traced nested ⟨0, 0⟩ {} outer [] [inner] ⟨⟨0, 0⟩, #[Opcode.call0.toByte, 1], 2, 0⟩
        { frames := [⟨none, 0, 0⟩], steps := 2 } ∧
      Visit.executed [outer, inner] + 0 ≤ ([outer, inner].map fun w => (codeOf nested w.function).size).sum ∧
      ∃ k r, Finishes nested ⟨0, 0⟩ {} k r := by
  intro outer inner
  have first : Traced nested ⟨0, 0⟩ {} ⟨⟨0, 0⟩, []⟩ [] [] ⟨⟨0, 0⟩, #[Opcode.call0.toByte, 1], 0, 0⟩
    { frames := [⟨none, 0, 0⟩] } := .first rfl
  have entered : Traced nested ⟨0, 0⟩ {} ⟨⟨0, 1⟩, []⟩ [outer] [] ⟨⟨0, 1⟩, #[Opcode.noop.toByte], 0, 0⟩
    { frames := [⟨some ⟨0, 0⟩, 2, 0⟩, ⟨none, 0, 0⟩], steps := 1 } := .enters first (by decide) rfl rfl
  have ran : Traced nested ⟨0, 0⟩ {} inner [outer] [] ⟨⟨0, 1⟩, #[Opcode.noop.toByte], 1, 0⟩
    { frames := [⟨some ⟨0, 0⟩, 2, 0⟩, ⟨none, 0, 0⟩], steps := 2 } := .stays entered (by decide) rfl rfl
  have returned : Traced nested ⟨0, 0⟩ {} outer [] [inner] ⟨⟨0, 0⟩, #[Opcode.call0.toByte, 1], 2, 0⟩
    { frames := [⟨none, 0, 0⟩], steps := 2 } := .returns ran (by decide) rfl
  obtain ⟨visited, -, ends⟩ := moves_forward nested ⟨0, 0⟩ {}
  refine ⟨returned, (visited _ _ _ _ _ returned).2.2.2.2.2, ends 2 fun v vs ws a n traced => ?_⟩
  rw [List.length_cons]
  rcases nested_visits traced with ⟨-, alone⟩ | ⟨-, two⟩ <;> omega

end Run

end StackScript
