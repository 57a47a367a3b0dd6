import StackScript.Proofs.Ageing
import StackScript.Proofs.RunSound

/-!
What the static values refer to lasts through a run. A step frees a slot three times at most, and the references of the
static values are counted between any two steps.
-/
namespace StackScript

namespace Run

/-- The action frees no slot more often than a number of times. -/
def Ages {α : Type} (n : Nat) (x : Run α) : Prop :=
  ∀ m, Meets x m (fun _ p => m.heap.Ages n p.heap) fun _ p => m.heap.Ages n p.heap

namespace Ages

variable {α β : Type} {x : Run α} {a b n : Nat}

theorem pure (v : α) : Ages 0 (Pure.pure v : Run α) := fun m => .refl m.heap

theorem throw (e : Fault) : Ages 0 (MonadExcept.throw e : Run α) := fun m => .refl m.heap

theorem get : Ages 0 (MonadState.get : Run Machine) := fun m => .refl m.heap

theorem lift (r : Except Fault α) : Ages 0 (Run.lift r) := fun m => by cases r <;> exact .refl m.heap

theorem most (hx : Ages a x) (le : a ≤ b) : Ages b x :=
  fun m => (hx m).imp (fun _ _ h => h.most le) fun _ _ h => h.most le

theorem bind {f : α → Run β} (hx : Ages a x) (hf : ∀ v, Ages b (f v)) : Ages (a + b) (x >>= f) :=
  fun m => meets_bind.2 ((hx m).imp
    (fun v p h => (hf v p).imp (fun _ _ k => h.trans k) fun _ _ k => h.trans k)
    fun _ _ h => h.most (Nat.le_add_right a b))

/-- What comes before frees nothing. -/
theorem after {f : α → Run β} (hx : Ages 0 x) (hf : ∀ v, Ages n (f v)) : Ages n (x >>= f) :=
  (hx.bind hf).most (Nat.le_of_eq (Nat.zero_add n))

/-- What comes after frees nothing. -/
theorem before {f : α → Run β} (hx : Ages n x) (hf : ∀ v, Ages 0 (f v)) : Ages n (x >>= f) := hx.bind hf

theorem change {f : Machine → Machine} (hf : ∀ m, (f m).heap = m.heap) : Ages 0 (modify f : Run PUnit) :=
  fun m => meets_modify.2 (by rw [hf]; exact .refl m.heap)

theorem onStack (f : Stack → Except Fault (α × Stack)) : Ages 0 (Run.onStack f) := fun m => by
  unfold Meets Run.onStack
  split <;> (next e => split at e <;> cases e; exact .refl m.heap)

theorem setStack (f : Stack → Except Fault Stack) : Ages 0 (Run.setStack f) := fun m => by
  unfold Meets Run.setStack
  split <;> (next e => split at e <;> cases e; exact .refl m.heap)

theorem readStack (f : Stack → Except Fault α) : Ages 0 (Run.readStack f) := fun m => by
  unfold Meets Run.readStack
  split <;> (next e => split at e <;> cases e; exact .refl m.heap)

theorem readHeap (f : Heap → Except Fault α) : Ages 0 (Run.readHeap f) := fun m => by
  unfold Meets Run.readHeap
  split <;> (next e => split at e <;> cases e; exact .refl m.heap)

theorem onHeap {f : Heap → Outcome Heap α} (hf : ∀ h : Heap, h.Ages n (f h).1) : Ages n (Run.onHeap f) := fun m => by
  have := hf m.heap
  unfold Meets Run.onHeap
  cases hr : (f m.heap).2 <;> simpa only [hr] using this

theorem record (e : Event) : Ages 0 (Run.record e) := change fun _ => rfl

theorem pushFrame (f : Frame) : Ages 0 (Run.pushFrame f) := change fun _ => rfl

theorem notice (e : Event) : Ages 0 (Run.notice e) := change fun m => by split <;> rfl

/-! ### Actions -/

theorem push (bs : Bytes) : Ages 0 (Run.push bs) := setStack _

theorem pushBool (x : Bool) : Ages 0 (Run.pushBool x) := push _

theorem pushHandle (r : Handle) : Ages 0 (Run.pushHandle r) := push _

theorem pushNat (n x : Nat) : Ages 0 (Run.pushNat n x) := setStack _

theorem pushInt32 (x : Int32) : Ages 0 (Run.pushInt32 x) := pushNat _ _

theorem pushInt64 (x : Int64) : Ages 0 (Run.pushInt64 x) := pushNat _ _

theorem pushWord {w : Width} (x : Word w) : Ages 0 (Run.pushWord x) := pushNat _ _

theorem pullBool : Ages 0 Run.pullBool := (onStack _).after fun _ => pure _

theorem pullInt32 : Ages 0 Run.pullInt32 := (onStack _).after fun _ => pure _

theorem pullInt64 : Ages 0 Run.pullInt64 := (onStack _).after fun _ => pure _

theorem pullWord (w : Width) : Ages 0 (Run.pullWord w) := (onStack _).after fun _ => pure _

theorem alloc (c : Content) : Ages 0 (Run.alloc c) := onHeap fun h => h.ages_alloc c

theorem incref (r : Handle) : Ages 0 (Run.incref r) := onHeap fun h => h.ages_incref r

theorem increfs (rs : List Handle) : Ages 0 (Run.onHeap fun h => Heap.increfs rs h) :=
  onHeap fun h => h.ages_increfs rs

theorem decref (r : Handle) : Ages 1 (Run.decref r) := onHeap fun h => h.ages_decref r

theorem decrefs (rs : List Handle) : Ages 1 (Run.onHeap fun h => Heap.decrefs rs h) :=
  onHeap fun h => h.ages_decrefs rs

theorem pushString (s : String) : Ages 0 (Run.pushString s) := (alloc _).after fun _ => pushHandle _

theorem pullString : Ages 1 Run.pullString :=
  (onStack _).after fun _ => (readHeap _).after fun _ => (decref _).before fun _ => pure _

theorem increfTop (t : Ty) : Ages 0 (Run.increfTop t) :=
  (readStack _).after fun _ => (lift _).after fun rs => increfs rs

/-- A native function gives up two texts at most. -/
theorem native (f : Native) : Ages 2 f.run := by
  have idle {x : Run Unit} (hx : Ages 0 x) : Ages 2 x := hx.most (Nat.zero_le 2)
  cases f with
  | stringConcat => exact pullString.bind fun _ => pullString.before fun _ => pushString _
  | stringEqual => exact pullString.bind fun _ => pullString.before fun _ => pushBool _
  | stringLength => exact (pullString.before fun _ => pushInt32 _).most (Nat.le_succ 1)
  | listLength =>
    exact Ages.most ((onStack _).after fun _ => (readHeap _).after fun _ => (decref _).before fun _ => pushInt32 _)
      (Nat.le_succ 1)
  | print => exact (pullString.before fun _ => record _).most (Nat.le_succ 1)
  | int32ToInt64 => exact idle (pullInt32.after fun _ => pushInt64 _)
  | int64ToInt32 => exact idle (pullInt64.after fun _ => pushInt32 _)
  | int32ToFloat64 => exact idle (pullInt32.after fun _ => pushNat _ _)
  | float64ToInt32 => exact idle ((onStack _).after fun _ => pushInt32 _)
  | int32ToString => exact idle (pullInt32.after fun _ => pushString _)
  | int64ToString => exact idle (pullInt64.after fun _ => pushString _)
  | float64ToString => exact idle ((onStack _).after fun _ => pushString _)
  | floatArith w op => exact idle ((onStack _).after fun _ => (onStack _).after fun _ => pushNat _ _)
  | floatTest w c => exact idle ((onStack _).after fun _ => (onStack _).after fun _ => pushBool _)
  | floatNegate w => exact idle ((onStack _).after fun _ => pushNat _ _)

variable (l : Library)

theorem runWord (w : Width) (op : WordOp) : Ages 0 (Run.runWord w op) := by
  cases op with
  | negate | bitNot => exact (pullWord w).after fun _ => pushWord _
  | compare c => exact (pullWord w).after fun _ => (pullWord w).after fun _ => pushBool _
  | arith op => exact (pullWord w).after fun _ => (pullWord w).after fun _ => (lift _).after fun _ => pushWord _

theorem subscript (elem : Ty) : Ages 1 (Run.subscript elem) := by
  refine (onStack _).after fun r => pullInt32.after fun index => (readHeap _).after fun p => ?_
  have rest (bs : Bytes) : Ages 1 (Run.push bs >>= fun _ => Run.increfTop elem >>= fun _ =>
      Run.decref r >>= fun _ => Pure.pure ()) :=
    (setStack _).after fun _ => (increfTop elem).after fun _ => (decref r).before fun _ => pure _
  simp only
  generalize (if index.toInt < 0 then _ else _ : Int) = position
  split
  · -- Nothing is done behind the fault.
    intro m
    refine meets_bind.2 ((decref r m).imp (fun _ _ h => ?_) fun _ _ h => h)
    exact h
  · exact rest _

theorem openClosure : Ages 1 (Run.openClosure l) := by
  refine (onStack _).after fun r => (readHeap _).after fun c => (setStack _).after fun _ => (lift _).after fun rs =>
    (increfs rs).after fun _ => (decref r).before fun _ => ?_
  split
  · exact throw _
  · exact pure _

theorem pushClosure (f : FunctionRef) (types : List Ty) (bytes : Bytes) : Ages 0 (Run.pushClosure f types bytes) :=
  (alloc _).after fun _ => pushHandle _

/-- An instruction gives up one reference at most, or those of one value. -/
theorem execute (a : Activation) (op : Opcode) (first second : Nat) : Ages 1 (Run.execute l a op first second) := by
  have idle {x : Run (Option FunctionRef)} (hx : Ages 0 x) : Ages 1 x := hx.most (Nat.zero_le 1)
  cases op with
  | noop | jump | jumpIfNot | call0 => exact idle (pure _)
  | logicalNot => exact idle (pullBool.after fun _ => (pushBool _).after fun _ => pure _)
  | logicalOr | logicalAnd =>
    exact idle (pullBool.after fun _ => pullBool.after fun _ => (pushBool _).after fun _ => pure _)
  | word op w => exact idle ((runWord w op).after fun _ => pure _)
  | execute => exact (openClosure l).before fun _ => pure _
  | invoke =>
    exact (lift _).after fun _ => (onStack _).after fun v => get.after fun _ => (record _).after fun _ =>
      (decrefs v.handles).before fun _ => pure _
  | loadStatic =>
    exact idle ((lift _).after fun v => (increfs v.handles).after fun _ => (setStack _).after fun _ => pure _)
  | loadFunction => exact idle ((lift _).after fun _ => (pushClosure _ _ _).after fun _ => pure _)
  | makeClosure =>
    exact idle ((lift _).after fun _ => (onStack _).after fun _ => (pushClosure _ _ _).after fun _ => pure _)
  | call1 | call => exact idle ((lift _).after fun _ => pure _)
  | incRef => exact idle ((readStack _).after fun r => (incref r).after fun _ => pure _)
  | decRef =>
    refine (readStack _).after fun r => (decref r).before fun freed => ?_
    cases freed
    · exact pure _
    · exact (setStack _).after fun _ => pure _
  | subscript => exact (lift _).after fun t => (subscript t).before fun _ => pure _
  | makeList =>
    refine idle ((lift _).after fun t => (onStack _).after fun bytes => ?_)
    simp only
    split
    · exact (pushHandle _).after fun _ => pure _
    · exact (alloc _).after fun _ => (pushHandle _).after fun _ => pure _
  | copyVariable => exact idle ((setStack _).after fun _ => pure _)
  | copyArgument =>
    refine idle ?_
    simp only [Run.execute]
    split
    · exact (throw _).after fun _ => (setStack _).after fun _ => pure _
    · exact (setStack _).after fun _ => pure _
  | drop => exact idle ((setStack _).after fun _ => pure _)

theorem jumpDistance (op : Opcode) (distance : Nat) : Ages 0 (Run.jumpDistance op distance) := by
  unfold Run.jumpDistance
  split
  · exact pure _
  · exact pullBool.after fun _ => pure _
  · exact pure _

theorem enter (f : FunctionRef) : Ages 2 (Run.enter l f) := by
  refine (lift _).after fun g => ?_
  split
  · next n _ => exact (notice _).after fun _ => (native n).before fun _ => (notice _).after fun _ => pure _
  · exact ((notice _).after fun _ => pure _).most (Nat.zero_le 2)
  · exact ((notice _).after fun _ => pure _).most (Nat.zero_le 2)
  · exact (throw _).most (Nat.zero_le 2)

theorem count (a : Activation) (b : UInt8) : Ages 0 (Run.count l a b) := fun m =>
  (meets_count l a b m).imp (fun _ _ h => h.2.heap.symm ▸ .refl m.heap) fun _ _ h => h.2.heap.symm ▸ .refl m.heap

theorem leave (a : Activation) : Ages 0 (Run.leave l a) := by
  refine (notice _).after fun _ => after (fun m => ?_) fun f => ?_
  · unfold Meets popFrame
    split <;> (next e => split at e <;> cases e; exact .refl m.heap)
  · split <;> exact pure _

theorem dispatch (a : Activation) : ∀ o, Ages 2 (Run.dispatch l a o)
  | none => (pure _).most (Nat.zero_le 2)
  | some f => by
    refine (enter l f).before fun o => ?_
    cases o with
    | none => exact pure _
    | some callee => exact (pushFrame _).after fun _ => get.after fun _ => pure _

theorem step (a : Activation) : Ages 3 (Run.step l a) := by
  cases h : a.code[a.cursor]? with
  | none =>
    rw [step_none l h]
    exact (leave l a).most (Nat.zero_le 3)
  | some b =>
    rw [step_some l h]
    refine (count l a b).after fun _ => ?_
    cases Instruction.read a.code a.cursor b with
    | unknown b => exact (throw _).most (Nat.zero_le 3)
    | truncated op => exact (throw _).most (Nat.zero_le 3)
    | ofOpcode op x y =>
      exact (jumpDistance op x).after fun _ => (execute l _ op x y).bind fun o => dispatch l _ o

end Ages

/-- Looking at the stack leaves the heap. -/
theorem heap_pullValue (t : Ty) (m : Machine) :
    Meets (pullValue t) m (fun _ n => n.heap = m.heap) fun _ n => n.heap = m.heap := by
  unfold Meets pullValue onStack
  split <;> (next e => split at e <;> cases e; rfl)

end Run

namespace View

variable {v : View} {Ψ Ψ' : Typing} {b : Nat} {total : Shape} {ext roots roots' : List Handle} {h h' h'' : Heap}
  {m n : Machine} {a : Activation} {f : FunctionRef} {g : Function} {ts : List Ty} {r : Ty} {k : Nat}

open Run

/-- Two balanced heaps are the ends of few uses. -/
theorem Sound.spares (before : v.Sound Ψ h roots) (ages : h.Ages k h') (few : k < 2 ^ 32 - 1)
    (after : h'.cells.size ≤ Heap.capacity → ∃ Ψ roots, v.Sound Ψ h' roots) : h.Spares v.library.statics h' :=
  ⟨ages.size, fun room => by
    obtain ⟨Ψ', roots', sound⟩ := after room
    exact ages.shares few before.balanced sound.balanced fun _ hr => List.mem_append_right _ hr⟩

/-- The action leaves what the static values refer to. -/
def Spares {α : Type} (v : View) (x : Run α) (m : Machine) : Prop :=
  Meets x m (fun _ n => m.heap.Spares v.library.statics n.heap) fun _ n => m.heap.Spares v.library.statics n.heap

/-- What is spared by an action is spared by all that follows it. -/
theorem Spares.after {α : Type} {x : Run α} (first : m.heap.Spares v.library.statics n.heap) (second : v.Spares x n) :
    Meets x n (fun _ p => m.heap.Spares v.library.statics p.heap) fun _ p => m.heap.Spares v.library.statics p.heap :=
  Meets.imp second (fun _ _ h => first.trans h) fun _ _ h => first.trans h

theorem Going.sound (going : v.Going b total ext a m) : ∃ Ψ roots, v.Sound Ψ m.heap roots := by
  obtain ⟨Ψ, _, _, _, _, _, _, _, _, _, _, _, _, holds, _⟩ := going
  exact ⟨Ψ, _, holds⟩

theorem Holding.sound {s : Shape} {others : List Handle} {rest : Bytes} {frames : List Frame}
    (h : v.Holding Ψ b s others rest frames m) : ∃ Ψ roots, v.Sound Ψ m.heap roots := by
  obtain ⟨_, _, _, _, _, sound, _⟩ := h
  exact ⟨Ψ, _, sound⟩

theorem Returned.sound (returned : v.Returned b total ext m) : ∃ Ψ roots, v.Sound Ψ m.heap roots := by
  obtain ⟨Ψ, returned⟩ := returned
  exact returned.sound

/-- A run goes from one balanced heap to the next. -/
theorem Going.spares (hv : v.Fits) (fuel : Nat) :
    ∀ {a : Activation} {m : Machine}, v.Going b total ext a m → v.Spares (Run.steps v.library fuel a) m := by
  induction fuel with
  | zero => exact fun _ => meets_bind.2 (meets_get.2 (.refl _ _))
  | succ fuel ih =>
    intro a m going
    obtain ⟨Ψ, roots, sound⟩ := going.sound
    unfold Run.steps
    refine meets_bind.2 (((going.step hv).and (Ages.step v.library a m)).imp (fun o n hn => ?_) fun e n hn => ?_)
    · obtain ⟨stepped, ages⟩ := hn
      cases o with
      | none => exact meets_pure.2 (sound.spares ages (by decide) fun room => (stepped room).sound)
      | some a' =>
        by_cases room : n.heap.cells.size ≤ Heap.capacity
        · exact Spares.after (sound.spares ages (by decide) fun _ => (stepped room).sound) (ih (stepped room))
        · -- The arena has outgrown its handles, and does not shrink again.
          exact (Widens.steps v.library fuel a' n).imp
            (fun _ _ size => .outgrown (Nat.le_trans ages.size size) fun h => room (Nat.le_trans size h))
            fun _ _ size => .outgrown (Nat.le_trans ages.size size) fun h => room (Nat.le_trans size h)
    · exact sound.spares hn.2 (by decide) fun room => (hn.1 room).2

theorem Holding.launch_spares {code : Array UInt8} (hv : v.Fits) (callee : v.Callee b f ts r)
    (hg : v.library.function? f = some g) (hc : g.body.code? = some code) (h : v.Holding Ψ b (Shape.ofTys ts) ext [] [] m) :
    v.Spares (Run.launch v.library f) m := by
  obtain ⟨Ψ₀, roots₀, sound⟩ := h.sound
  refine meets_bind.2 (meets_get.2 (meets_bind.2 (meets_pushFrame h.at fun p hp => meets_bind.2 ?_)))
  rw [← hp.heap] at sound ⊢
  refine ((h.begin hv callee hg hc hp).and (Ages.enter v.library f p)).imp (fun o n hn => ?_) fun e n hn => ?_
  · obtain ⟨⟨a, rfl, going⟩, ages⟩ := hn
    exact Spares.after (sound.spares ages (by decide) fun _ => going.sound) (going.spares hv ceiling)
  · exact sound.spares hn.2 (by decide) fun room => (hn.1 room).2

theorem Holding.answer_spares (hv : v.Fits) (callee : v.Callee b f ts r) (hg : v.library.function? f = some g)
    (h : v.Holding Ψ b (Shape.ofTys ts) ext [] [] m) : v.Spares (Run.answer v.library f g) m := by
  obtain ⟨Ψ₀, roots₀, sound⟩ := h.sound
  have whole := h.answer hv callee hg
  unfold Run.answer at whole ⊢
  cases hb : g.body with
  | undefined | generic => exact .refl _ _
  | native n =>
    rw [hb] at whole
    have ages : Run.Ages 2 (enter v.library f >>= fun _ => pure ()) := (Ages.enter v.library f).before fun _ => Ages.pure _
    exact (whole.and (ages m)).imp (fun _ p hp => sound.spares hp.2 (by decide) fun room => (hp.1 room).sound)
      fun _ p hp => sound.spares hp.2 (by decide) fun room => (hp.1 room).2
  | code bytes | fragment op => exact h.launch_spares hv callee hg (by rw [hb]; rfl)

/-- A call from outside leaves what the static values refer to. -/
theorem Holding.call_spares (hv : v.Fits) (callee : v.Callee b f ts r)
    (h : v.Holding Ψ b (Shape.ofTys ts) ext [] [] m) : v.Spares (Run.call v.library f) m := by
  obtain ⟨g, hg, -⟩ := callee.known
  have same : (if m.frames.isEmpty then { m with steps := 0 } else m).heap = m.heap := by split <;> rfl
  rw [call_eq]
  refine meets_bind.2 (meets_lift (Library.findFunction_eq hg) (meets_bind.2 (meets_modify.2 ?_)))
  have answered := h.anew.answer_spares hv callee hg
  unfold Spares at answered
  rwa [same] at answered

end View

end StackScript
