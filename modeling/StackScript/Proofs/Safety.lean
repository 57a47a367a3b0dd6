import StackScript.Proofs.Actions
import StackScript.Proofs.GuardedMachine

/-!
Safety of the machine. Whatever the code, the static values and the types of the modules are, and whatever lies on the
stack, the machine with every bound checked never slips: it does what the machine does. The only premise is that the heap
was built by the operations of the heap; forged handles may point anywhere.
-/
namespace StackScript

variable {α β : Type}

/-- An outcome in which no slip is possible. -/
def guardedResult : EStateM.Result Fault Machine α → EStateM.Result Halt Machine α
  | .ok a m => .ok a m
  | .error e m => .error (.fault e) m

theorem guardedResult_ne_slip (r : EStateM.Result Fault Machine α) (p : Slip) (n : Machine) :
    guardedResult r ≠ .error (.slip p) n := by
  cases r <;> exact nofun

/-- The heap stays sane, and the stack within its limit. -/
structure Machine.Endures (m n : Machine) : Prop where
  heap : n.heap.Sane
  limit : n.stack.limit = m.stack.limit
  room : m.stack.size ≤ m.stack.limit → n.stack.size ≤ m.stack.limit

theorem Machine.Endures.trans {m n p : Machine} (h : m.Endures n) (k : n.Endures p) : m.Endures p :=
  ⟨k.heap, k.limit.trans h.limit, fun hm => h.limit ▸ k.room (h.limit.symm ▸ h.room hm)⟩

theorem Machine.Endures.of_same {m n : Machine} (hm : m.heap.Sane) (heap : n.heap = m.heap) (stack : n.stack = m.stack) :
    m.Endures n := ⟨heap ▸ hm, congrArg Stack.limit stack, fun h => stack ▸ h⟩

/-- The first action does what the second one does. -/
structure Safe (y : Guarded α) (x : Run α) : Prop where
  same : ∀ m : Machine, m.heap.Sane → y m = guardedResult (x m)
  stays : ∀ m : Machine, m.heap.Sane → Meets x m (fun _ => m.Endures) fun _ => m.Endures

namespace Safe

/-! ### Parts of actions -/

theorem pure (a : α) : Safe (Pure.pure a) (Pure.pure a) := ⟨fun _ _ => rfl, fun _ hm => .of_same hm rfl rfl⟩

theorem fault (e : Fault) : Safe (Guarded.fault e) (throw e : Run α) := ⟨fun _ _ => rfl, fun _ hm => .of_same hm rfl rfl⟩

/-- What follows may rely on something that holds of every result. -/
theorem bind_of {y : Guarded α} {x : Run α} {g : α → Guarded β} {f : α → Run β} {P : α → Prop} (hx : Safe y x)
    (hP : ∀ m : Machine, m.heap.Sane → ∀ a n, x m = .ok a n → P a) (hf : ∀ a, P a → Safe (g a) (f a)) :
    Safe (y >>= g) (x >>= f) := by
  refine ⟨fun m hm => ?_, fun m hm => ?_⟩
  · have stays := hx.stays m hm
    change EStateM.bind y g m = guardedResult (EStateM.bind x f m)
    unfold EStateM.bind
    rw [hx.same m hm]
    cases hr : x m with
    | ok a n => exact (hf a (hP m hm a n hr)).same n (stays.of_ok hr).heap
    | error e n => rfl
  · refine meets_bind.2 (.mk (fun a n hr => ?_) fun e n hr => (hx.stays m hm).of_error hr)
    have stays := (hx.stays m hm).of_ok hr
    exact ((hf a (hP m hm a n hr)).stays n stays.heap).imp (fun _ _ => stays.trans) fun _ _ => stays.trans

theorem bind {y : Guarded α} {x : Run α} {g : α → Guarded β} {f : α → Run β} (hx : Safe y x) (hf : ∀ a, Safe (g a) (f a)) :
    Safe (y >>= g) (x >>= f) := hx.bind_of (P := fun _ => True) (fun _ _ _ _ _ => trivial) fun a _ => hf a

theorem ite {c : Prop} [Decidable c] {y y' : Guarded α} {x x' : Run α} (h : Safe y x) (h' : Safe y' x') :
    Safe (if c then y else y') (if c then x else x') := by
  split
  · exact h
  · exact h'

theorem lift {r : Except Halt α} {q : Except Fault α} (h : r = guarded q) : Safe (Guarded.lift r) (Run.lift q) := by
  subst h
  refine ⟨fun m _ => ?_, fun m hm => ?_⟩ <;> cases q
  · rfl
  · rfl
  · exact .of_same hm rfl rfl
  · exact .of_same hm rfl rfl

theorem change {f : Machine → Machine} (heap : ∀ m, (f m).heap = m.heap) (stack : ∀ m, (f m).stack = m.stack) :
    Safe (modify f) (modify f) := ⟨fun _ _ => rfl, fun m hm => .of_same hm (heap m) (stack m)⟩

theorem get {g : Machine → Guarded β} {f : Machine → Run β} (hf : ∀ m, Safe (g m) (f m)) :
    Safe (MonadState.get >>= g) (MonadState.get >>= f) :=
  ⟨fun m hm => (hf m).same m hm, fun m hm => (hf m).stays m hm⟩

theorem record (e : Event) : Safe (Guarded.record e) (Run.record e) := change (fun _ => rfl) fun _ => rfl

theorem notice (e : Event) : Safe (Guarded.notice e) (Run.notice e) :=
  change (fun m => by split <;> rfl) fun m => by split <;> rfl

theorem pushFrame (f : Frame) : Safe (Guarded.pushFrame f) (Run.pushFrame f) := change (fun _ => rfl) fun _ => rfl

theorem popFrame : Safe Guarded.popFrame Run.popFrame := by
  refine ⟨fun m _ => ?_, fun m hm => ?_⟩
  · unfold Guarded.popFrame Run.popFrame
    cases m.frames <;> rfl
  · unfold Meets Run.popFrame
    cases m.frames <;> exact .of_same hm rfl rfl

/-! ### The stack -/

/-- What comes out of a change is no higher than its limit. -/
def Bounded (f : Stack → Except Fault (α × Stack)) : Prop :=
  ∀ s a t, f s = .ok (a, t) → t.limit = s.limit ∧ (s.size ≤ s.limit → t.size ≤ s.limit)

theorem onStack {g : Stack → Except Halt (α × Stack)} {f : Stack → Except Fault (α × Stack)}
    (same : ∀ s, g s = guarded (f s)) (bounded : Bounded f) : Safe (Guarded.onStack g) (Run.onStack f) := by
  refine ⟨fun m _ => ?_, fun m hm => ?_⟩
  · unfold Guarded.onStack Run.onStack
    rw [same]
    cases f m.stack <;> rfl
  · unfold Meets Run.onStack
    cases hf : f m.stack with
    | error e => exact .of_same hm rfl rfl
    | ok p =>
      obtain ⟨limit, room⟩ := bounded m.stack p.1 p.2 hf
      exact ⟨hm, limit, room⟩

theorem setStack {g : Stack → Except Halt Stack} {f : Stack → Except Fault Stack} (same : ∀ s, g s = guarded (f s))
    (bounded : ∀ s t, f s = .ok t → t.limit = s.limit ∧ (s.size ≤ s.limit → t.size ≤ s.limit)) :
    Safe (Guarded.setStack g) (Run.setStack f) := by
  rw [Run.setStack_eq]
  refine onStack (fun s => ?_) fun s a t h => ?_
  · rw [same, Stack.changing, guarded_map]
  · unfold Stack.changing at h
    cases hf : f s with
    | error e =>
      rw [hf] at h
      cases h
    | ok u =>
      rw [hf] at h
      cases h
      exact bounded s t hf

theorem readStack {g : Stack → Except Halt α} {f : Stack → Except Fault α} (same : ∀ s, g s = guarded (f s)) :
    Safe (Guarded.readStack g) (Run.readStack f) := by
  have e : Run.readStack f = Run.onStack (Stack.seeing f) := by
    funext m
    unfold Run.readStack Run.onStack Stack.seeing
    cases f m.stack <;> rfl
  rw [e]
  refine onStack (fun s => ?_) fun s a t h => ?_
  · rw [same, Stack.seeing, guarded_map]
  · unfold Stack.seeing at h
    cases hf : f s with
    | error e =>
      rw [hf] at h
      cases h
    | ok u =>
      rw [hf] at h
      cases h
      exact ⟨rfl, fun h => h⟩

theorem bounded_push (bs : Bytes) (s t : Stack) (h : s.push bs = .ok t) :
    t.limit = s.limit ∧ (s.size ≤ s.limit → t.size ≤ s.limit) := by
  unfold Stack.push at h
  split at h
  · cases h
  · next fits =>
    cases h
    exact ⟨rfl, fun _ => Nat.le_of_not_lt fits⟩

theorem bounded_pull (n : Nat) : Bounded fun s => s.pull n := by
  intro s a t h
  change (s.top n >>= fun bs => Pure.pure (bs, s.discard n)) = .ok (a, t) at h
  cases ht : s.top n with
  | error e =>
    rw [ht] at h
    cases h
  | ok bs =>
    rw [ht] at h
    cases h
    exact ⟨rfl, fun h => Nat.le_trans (Nat.sub_le _ _) h⟩

/-- What is pulled may be read further. -/
theorem Bounded.reading {f : Stack → Except Fault (α × Stack)} (hf : Bounded f) (g : α → Except Fault β) :
    Bounded fun s => f s >>= fun p => g p.1 >>= fun b => Pure.pure (b, p.2) := by
  intro s b t h
  dsimp only at h
  cases hs : f s with
  | error e =>
    rw [hs] at h
    cases h
  | ok p =>
    rw [hs] at h
    change (g p.1 >>= fun b => Pure.pure (b, p.2)) = .ok (b, t) at h
    cases hg : g p.1 with
    | error e =>
      rw [hg] at h
      cases h
    | ok c =>
      rw [hg] at h
      cases h
      exact hf s p.1 p.2 hs

theorem push (bs : Bytes) : Safe (Guarded.push bs) (Run.push bs) := setStack (fun _ => rfl) (bounded_push bs)

theorem pushNat (n v : Nat) : Safe (Guarded.pushNat n v) (Run.pushNat n v) := push _

theorem pushValue (v : Value) : Safe (Guarded.pushValue v) (Run.pushValue v) := push _

theorem pull (n : Nat) : Safe (Guarded.pull n) (Run.pull n) := onStack (fun s => s.loadPull_eq n) (bounded_pull n)

theorem pullHandle : Safe Guarded.pullHandle Run.pullHandle :=
  onStack Stack.loadHandle_eq ((bounded_pull handleSize).reading Handle.ofBytes)

theorem pullNat (n : Nat) : Safe (Guarded.pullNat n) (Run.pullNat n) :=
  onStack (fun s => s.loadNat_eq n) ((bounded_pull n).reading fun bs => .ok (Bytes.toNat bs))

theorem pullValue (t : Ty) : Safe (Guarded.pullValue t) (Run.pullValue t) := by
  refine onStack (fun s => s.loadValue_eq t) ?_
  have e : (fun s : Stack => s.pullValue t) =
      fun s => s.pull t.size >>= fun p => Value.decode t p.1 >>= fun v => Pure.pure (v, p.2) := by
    funext s
    unfold Stack.pullValue Stack.pull
    cases s.top t.size <;> rfl
  rw [e]
  exact (bounded_pull t.size).reading (Value.decode t)

theorem pushBool (b : Bool) : Safe (Guarded.pushBool b) (Run.pushBool b) := push _

theorem pullBool : Safe Guarded.pullBool Run.pullBool := (pull 1).bind fun _ => pure _

theorem pushHandle (r : Handle) : Safe (Guarded.pushHandle r) (Run.pushHandle r) := push _

theorem pushInt32 (n : Int32) : Safe (Guarded.pushInt32 n) (Run.pushInt32 n) := pushNat _ _

theorem pullInt32 : Safe Guarded.pullInt32 Run.pullInt32 := (pullNat 4).bind fun _ => pure _

theorem pushInt64 (n : Int64) : Safe (Guarded.pushInt64 n) (Run.pushInt64 n) := pushNat _ _

theorem pullInt64 : Safe Guarded.pullInt64 Run.pullInt64 := (pullNat 8).bind fun _ => pure _

theorem pushWord {w : Width} (a : Word w) : Safe (Guarded.pushWord a) (Run.pushWord a) := pushNat _ _

theorem pullWord (w : Width) : Safe (Guarded.pullWord w) (Run.pullWord w) := (pullNat w.size).bind fun _ => pure _

theorem copy (start size : Nat) : Safe (Guarded.setStack fun s => s.cutCopy start size) (Run.setStack fun s => s.copy start size) := by
  refine setStack (fun s => s.cutCopy_eq start size) fun s t h => ?_
  unfold Stack.copy at h
  cases hn : s.need (start + size) with
  | error e =>
    rw [hn] at h
    cases h
  | ok u =>
    rw [hn] at h
    exact bounded_push _ s t h

theorem drop (skip size : Nat) : Safe (Guarded.setStack fun s => s.cutDrop skip size) (Run.setStack fun s => s.drop skip size) := by
  refine setStack (fun s => s.cutDrop_eq skip size) fun s t h => ?_
  unfold Stack.drop at h
  split at h
  · split at h
    · cases h
      exact ⟨rfl, fun h => Nat.le_trans (Nat.sub_le _ _) h⟩
    · cases h
  · cases h

theorem clearHandleAt (offset : Nat) :
    Safe (Guarded.setStack fun s => s.cutHandleAt offset) (Run.setStack fun s => s.clearHandleAt offset) := by
  refine setStack (fun s => s.cutHandleAt_eq offset) fun s t h => ?_
  unfold Stack.clearHandleAt at h
  split at h
  · cases h
    exact ⟨rfl, fun h => h⟩
  · cases h

/-! ### The heap -/

theorem onHeap {g : Heap → Heap × Except Halt α} {f : Heap → Outcome Heap α}
    (h : ∀ h : Heap, h.Sane → g h = guardedOutcome (f h) ∧ (f h).1.Sane) : Safe (Guarded.onHeap g) (Run.onHeap f) := by
  refine ⟨fun m hm => ?_, fun m hm => ?_⟩
  · have e := (h m.heap hm).1
    unfold Guarded.onHeap Run.onHeap
    rw [e]
    obtain ⟨stack, frames, heap, steps, limit, watch, journal⟩ := m
    dsimp only
    generalize f heap = o
    obtain ⟨h', _ | _⟩ := o <;> rfl
  · have sane := (h m.heap hm).2
    unfold Meets Run.onHeap
    dsimp only
    cases (f m.heap).2 <;> exact ⟨sane, rfl, fun h => h⟩

theorem readHeap (f : Heap → Except Fault α) : Safe (Guarded.readHeap f) (Run.readHeap f) := by
  refine ⟨fun m _ => ?_, fun m hm => ?_⟩
  · unfold Guarded.readHeap Guarded.onHeap Run.readHeap
    dsimp only
    cases f m.heap <;> rfl
  · unfold Meets Run.readHeap
    cases f m.heap <;> exact .of_same hm rfl rfl

theorem alloc {x : Content} (hx : x.IsWhole) : Safe (Guarded.allocate x) (Run.alloc x) :=
  onHeap fun h hs => by
    obtain ⟨e, sane⟩ := hs.alloc hx
    simp only [e]
    exact ⟨rfl, sane⟩

theorem take (rs : List Handle) : Safe (Guarded.take rs) (Run.onHeap fun h => Heap.increfs rs h) :=
  onHeap fun _ hs => ⟨rfl, Heap.Sane.increfs rs hs⟩

theorem incref (r : Handle) : Safe (Guarded.take [r]) (Run.incref r) :=
  onHeap fun h hs => by
    refine ⟨?_, hs.incref r⟩
    unfold Heap.increfs
    obtain ⟨h', e | _⟩ := h.incref r <;> rfl

theorem decref (r : Handle) : Safe (Guarded.giveUp r) (Run.decref r) := onHeap fun _ hs => hs.decref r

theorem decrefs (rs : List Handle) : Safe (Guarded.onHeap (Guarded.decrefs rs)) (Run.onHeap fun h => Heap.decrefs rs h) :=
  onHeap fun _ hs => Heap.Sane.decrefs rs hs

theorem pushString (s : String) : Safe (Guarded.pushString s) (Run.pushString s) :=
  (alloc (x := .string s) trivial).bind fun _ => pushHandle _

theorem pullString : Safe Guarded.pullString Run.pullString :=
  pullHandle.bind fun _ => (readHeap _).bind fun _ => (decref _).bind fun _ => pure _

theorem length_of_top {s : Stack} {n : Nat} {bs : Bytes} (h : s.top n = .ok bs) : bs.length = n :=
  s.length_of_pull (t := s.discard n) (by rw [Stack.pull, h]; rfl)

theorem increfTop (t : Ty) : Safe (Guarded.increfTop t) (Run.increfTop t) := by
  refine (readStack fun s => s.loadTop_eq t.size).bind_of (P := fun bs => bs.length = t.size) (fun m _ bs n h => ?_)
    fun bs hbs => (lift (Ty.loadHandlesAt_eq (by omega))).bind fun rs => take rs
  unfold Run.readStack at h
  dsimp only at h
  cases ht : m.stack.top t.size with
  | error e =>
    rw [ht] at h
    cases h
  | ok bs' =>
    rw [ht] at h
    cases h
    exact length_of_top ht

/-! ### Instructions -/

theorem native (n : Native) : Safe (Guarded.native n) n.run := by
  cases n with
  | stringConcat => exact pullString.bind fun _ => pullString.bind fun _ => pushString _
  | stringEqual => exact pullString.bind fun _ => pullString.bind fun _ => pushBool _
  | stringLength => exact pullString.bind fun _ => pushInt32 _
  | listLength =>
    exact pullHandle.bind fun _ => (readHeap _).bind fun _ => (decref _).bind fun _ => pushInt32 _
  | print => exact pullString.bind fun _ => record _
  | int32ToInt64 => exact pullInt32.bind fun _ => pushInt64 _
  | int64ToInt32 => exact pullInt64.bind fun _ => pushInt32 _
  | int32ToFloat64 => exact pullInt32.bind fun _ => pushNat _ _
  | float64ToInt32 => exact (pullNat _).bind fun _ => pushInt32 _
  | int32ToString => exact pullInt32.bind fun _ => pushString _
  | int64ToString => exact pullInt64.bind fun _ => pushString _
  | float64ToString => exact (pullNat _).bind fun _ => pushString _
  | floatArith w op => exact (pullNat _).bind fun _ => (pullNat _).bind fun _ => pushNat _ _
  | floatTest w c => exact (pullNat _).bind fun _ => (pullNat _).bind fun _ => pushBool _
  | floatNegate w => exact (pullNat _).bind fun _ => pushNat _ _

/-- A division by zero is a fault before it could be a slip. -/
theorem arith_eq {w : Width} (op : Arith) (a b : Word w) : Guarded.arith op a b = guarded (Word.arith op a b) := by
  cases op with
  | div | mod =>
    simp only [Guarded.arith, Word.arith, Guarded.divide]
    split <;> rfl
  | _ => rfl

variable (l : Library)

theorem runWord (w : Width) (op : WordOp) : Safe (Guarded.runWord w op) (Run.runWord w op) := by
  cases op with
  | negate | bitNot => exact (pullWord w).bind fun _ => pushWord _
  | compare c => exact (pullWord w).bind fun _ => (pullWord w).bind fun _ => pushBool _
  | arith op =>
    exact (pullWord w).bind fun _ => (pullWord w).bind fun _ => (lift (arith_eq op _ _)).bind fun _ => pushWord _

/-- An element whose position was checked lies within the list. -/
theorem slice_element {elem : Ty} {bytes : Bytes} {i : Nat} (h : i < Content.count elem bytes) :
    bytes.slice (i * elem.size) (i * elem.size + elem.size) =
      guarded (.ok ((bytes.drop (i * elem.size)).take elem.size)) := by
  have whole := Content.count_le elem bytes
  have within : (i + 1) * elem.size ≤ Content.count elem bytes * elem.size := Nat.mul_le_mul_right _ h
  rw [Nat.succ_mul] at within
  rw [Bytes.slice_eq (Nat.le_add_right _ _) (Nat.le_trans within whole), Nat.add_sub_cancel_left]
  rfl

theorem subscript (elem : Ty) : Safe (Guarded.subscript elem) (Run.subscript elem) := by
  refine pullHandle.bind fun r => pullInt32.bind fun index => (readHeap _).bind fun ⟨_, bytes⟩ => ?_
  dsimp only
  generalize (if index.toInt < 0 then _ else _ : Int) = position
  split
  · exact (decref r).bind fun _ => fault _
  · next h =>
    have inside : position.toNat < Content.count elem bytes := by omega
    rw [slice_element inside]
    exact (push _).bind fun _ => (increfTop elem).bind fun _ => (decref r).bind fun _ => pure _

/-- What is captured fills the bytes of the closure. -/
theorem openClosure : Safe (Guarded.openClosure l) (Run.openClosure l) := by
  refine pullHandle.bind fun r => (readHeap _).bind_of (P := fun c => c.bytes.length = Ty.sizes c.types)
    (fun m hm c n h => ?_) fun c hc => (push _).bind fun _ => (lift (Ty.loadHandlesIn_eq (by omega))).bind fun rs =>
      (take rs).bind fun _ => (decref r).bind fun _ => ?_
  · unfold Run.readHeap Heap.closure Heap.content at h
    dsimp only at h
    cases hc : m.heap.cell? r with
    | none =>
      rw [hc] at h
      cases h
    | some p =>
      obtain ⟨cell, x⟩ := p
      rw [hc] at h
      cases x with
      | string _ | list _ _ => cases h
      | closure k =>
        cases h
        exact (hm.cell hc).2.1
  · split
    · exact fault _
    · exact pure _

theorem pushClosure (f : FunctionRef) {types : List Ty} {bytes : Bytes} (h : bytes.length = Ty.sizes types) :
    Safe (Guarded.pushClosure f types bytes) (Run.pushClosure f types bytes) :=
  (alloc (x := .closure ⟨f, types, bytes⟩) h).bind fun _ => pushHandle _

theorem length_of_pulled {m n : Machine} {k : Nat} {bs : Bytes} (h : Run.pull k m = .ok bs n) : bs.length = k := by
  unfold Run.pull Run.onStack at h
  dsimp only at h
  cases hs : m.stack.pull k with
  | error e =>
    rw [hs] at h
    cases h
  | ok p =>
    rw [hs] at h
    cases h
    exact m.stack.length_of_pull hs

theorem execute (a : Activation) (op : Opcode) (first second : Nat) :
    Safe (Guarded.execute l a op first second) (Run.execute l a op first second) := by
  cases op with
  | noop | jump | jumpIfNot => exact pure _
  | logicalNot => exact pullBool.bind fun _ => (pushBool _).bind fun _ => pure _
  | logicalOr | logicalAnd =>
    exact pullBool.bind fun _ => pullBool.bind fun _ => (pushBool _).bind fun _ => pure _
  | word op w => exact (runWord w op).bind fun _ => pure _
  | execute => exact (openClosure l).bind fun _ => pure _
  | invoke =>
    exact (lift rfl).bind fun t => (pullValue t).bind fun v => get fun m => (record _).bind fun _ =>
      (decrefs v.handles).bind fun _ => pure _
  | loadStatic => exact (lift rfl).bind fun v => (take v.handles).bind fun _ => (pushValue v).bind fun _ => pure _
  | loadFunction => exact (lift rfl).bind fun _ => (pushClosure _ rfl).bind fun _ => pure _
  | makeClosure =>
    exact (lift rfl).bind fun g => (pull _).bind_of (P := fun bs => bs.length = Ty.sizes g.signature.closureLayout)
      (fun _ _ _ _ h => length_of_pulled h) fun bs hbs => (pushClosure _ hbs).bind fun _ => pure _
  | call0 => exact pure _
  | call1 | call => exact (lift rfl).bind fun _ => pure _
  | incRef => exact (readStack fun s => s.loadHandleAt_eq first).bind fun r => (incref r).bind fun _ => pure _
  | decRef =>
    refine (readStack fun s => s.loadHandleAt_eq first).bind fun r => (decref r).bind fun freed => ?_
    cases freed
    · exact pure _
    · exact (clearHandleAt first).bind fun _ => pure _
  | subscript => exact (lift rfl).bind fun t => (subscript t).bind fun _ => pure _
  | makeList =>
    refine (lift rfl).bind fun t => (pull _).bind fun bytes => ?_
    dsimp only
    split
    · exact (pushHandle _).bind fun _ => pure _
    · exact (alloc (x := .list t bytes) trivial).bind fun _ => (pushHandle _).bind fun _ => pure _
  | copyVariable => exact (copy _ _).bind fun _ => pure _
  | copyArgument =>
    simp only [Guarded.execute, Run.execute]
    split
    · exact fault _
    · next h =>
      rw [minus_eq (Nat.le_of_not_lt h)]
      exact (copy _ _).bind fun _ => pure _
  | drop => exact (drop _ _).bind fun _ => pure _

theorem jumpDistance (op : Opcode) (distance : Nat) : Safe (Guarded.jumpDistance op distance) (Run.jumpDistance op distance) := by
  cases op with
  | jumpIfNot => exact pullBool.bind fun _ => pure _
  | _ => exact pure _

/-! ### Steps -/

/-- What follows a raised number of steps may rely on there being one. -/
theorem counting {g : Machine → Guarded β} {f : Machine → Run β} (hf : ∀ m : Machine, 1 ≤ m.steps → Safe (g m) (f m)) :
    Safe (modify (fun m : Machine => { m with steps := m.steps + 1 }) >>= fun _ => MonadState.get >>= g)
      (modify (fun m : Machine => { m with steps := m.steps + 1 }) >>= fun _ => MonadState.get >>= f) := by
  have hf (m : Machine) := hf { m with steps := m.steps + 1 } (Nat.le_add_left 1 m.steps)
  refine ⟨fun m hm => (hf m).same _ hm, fun m hm => ?_⟩
  have same : m.Endures { m with steps := m.steps + 1 } := .of_same hm rfl rfl
  exact ((hf m).stays { m with steps := m.steps + 1 } hm).imp (fun _ _ h => same.trans h) fun _ _ h => same.trans h

theorem watch (w : Watch) : Safe (modify fun m : Machine => { m with watch := some w })
    (modify fun m : Machine => { m with watch := some w }) := change (fun _ => rfl) fun _ => rfl

theorem count (a : Activation) (b : UInt8) : Safe (Guarded.count l a b) (Run.count l a b) := by
  refine counting fun m hm => ?_
  dsimp only
  cases m.limit
  case' some limit => refine ite (fault _) ?_
  all_goals
    cases m.watch with
    | none => exact pure _
    | some w =>
      refine (record _).bind fun _ => (watch _).bind fun _ => ?_
      cases w.breakAt with
      | none => exact pure _
      | some n =>
        dsimp only
        rw [minus_eq hm]
        exact ite (fault _) (pure _)

theorem enter (f : FunctionRef) : Safe (Guarded.enter l f) (Run.enter l f) := by
  refine (lift rfl).bind fun g => ?_
  cases g.body with
  | native n => exact (notice _).bind fun _ => (native n).bind fun _ => (notice _).bind fun _ => pure _
  | code bytes => exact (notice _).bind fun _ => pure _
  | fragment op => exact (notice _).bind fun _ => pure _
  | undefined => exact fault _
  | generic _ _ => exact fault _

theorem leave (a : Activation) : Safe (Guarded.leave l a) (Run.leave l a) := by
  refine (notice _).bind fun _ => popFrame.bind fun frame => ?_
  cases frame.caller <;> exact pure _

theorem resume (a : Activation) (o : Option Activation) : Safe (Guarded.resume a o) (Run.resume a o) := by
  cases o with
  | none => exact pure _
  | some callee => exact (pushFrame _).bind fun _ => get fun _ => pure _

theorem dispatch (a : Activation) (o : Option FunctionRef) : Safe (Guarded.dispatch l a o) (Run.dispatch l a o) := by
  cases o with
  | none => exact pure _
  | some f => exact (enter l f).bind (resume a)

theorem proceed (a : Activation) (i : Instruction) : Safe (Guarded.proceed l a i) (Run.proceed l a i) := by
  cases i with
  | unknown b => exact fault _
  | truncated op => exact fault _
  | ofOpcode op x y => exact (jumpDistance op x).bind fun d => (execute l _ op x y).bind (dispatch l _)

/-- One step, at any cursor of any code. -/
theorem step (a : Activation) : Safe (Guarded.step l a) (Run.step l a) := by
  unfold Guarded.step
  cases h : a.code[a.cursor]? with
  | none =>
    rw [Run.step_none l h]
    exact leave l a
  | some b =>
    rw [Run.step_some l h]
    exact (count l a b).bind fun _ => proceed l a _

/-- A run of any length. -/
theorem steps (fuel : Nat) (a : Activation) : Safe (Guarded.steps l fuel a) (Run.steps l fuel a) := by
  induction fuel generalizing a with
  | zero => exact get fun _ => fault _
  | succ fuel ih =>
    refine (step l a).bind fun o => ?_
    cases o with
    | none => exact pure _
    | some b => exact ih b

theorem call (f : FunctionRef) : Safe (Guarded.call l f) (Run.call l f) := by
  refine (lift rfl).bind fun g => (change (fun m => by split <;> rfl) fun m => by split <;> rfl).bind fun _ => ?_
  cases g.body with
  | native n => exact (enter l f).bind fun _ => pure _
  | undefined => exact fault _
  | generic _ _ => exact fault _
  | code _ | fragment _ =>
    refine get fun m => (pushFrame _).bind fun _ => (enter l f).bind fun o => ?_
    cases o with
    | none => exact pure _
    | some a => exact steps l _ _

end Safe

namespace Machine

variable {l : Library} {f : FunctionRef} {m n : Machine} {a : Activation}

/-- The machine once a call has put its frame. -/
def begun (m : Machine) : Machine :=
  { m with steps := if m.frames.isEmpty then 0 else m.steps, frames := ⟨none, 0, m.stack.size⟩ :: m.frames }

/-- The activations and machines that a call of a function goes through, one for each step that it takes. -/
inductive Passes (l : Library) (f : FunctionRef) (m : Machine) : Activation → Machine → Prop
  | first {a : Activation} {n : Machine} (entered : Run.enter l f m.begun = .ok (some a) n) :
    Passes l f m { a with base := m.stack.size } n
  | next {a b : Activation} {n p : Machine} (h : Passes l f m a n) (stepped : Run.step l a n = .ok (some b) p) :
    Passes l f m b p

theorem Passes.stays (h : Passes l f m a n) (hm : m.heap.Sane) : m.Endures n := by
  induction h with
  | first entered =>
    have begun : m.Endures m.begun := .of_same hm rfl rfl
    exact begun.trans (((Safe.enter l f).stays m.begun hm).of_ok entered)
  | next _ stepped ih => exact ih.trans (((Safe.step l _).stays _ ih.heap).of_ok stepped)

/-- A module whose static value and whose code make use of a handle that nobody gave to them. -/
def wild : Library where
  modules := #[{
    name := "wild"
    scopes := .ofModule "wild"
    functions := #[⟨"main", {}, .code #[Opcode.loadStatic.toByte, 0, Opcode.decRef.toByte, 0, Opcode.decRef.toByte, 0,
      Opcode.decRef.toByte, 8, Opcode.drop.toByte, 255, 255], []⟩]
    values := #[.string ⟨0, 1⟩] }]

/-- A machine with a text in its heap and the same handle on its stack. -/
def forged : Machine where
  stack := ⟨[0, 0, 0, 0, 1, 0, 0, 0].reverse, 8, 16, rfl⟩
  heap := (({} : Heap).alloc (.string "a")).1

end Machine

end StackScript
