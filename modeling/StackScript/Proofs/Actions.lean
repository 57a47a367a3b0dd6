import StackScript.Proofs.MachineRules

/-!
Actions that a step of the machine is made of. Whatever holds of the primitive ones and passes on to what follows holds
of all native functions and of all instructions but those that copy from below the top of the stack.
-/
namespace StackScript

namespace Heap

theorem size_incref (h : Heap) (r : Handle) : (h.incref r).1.cells.size = h.cells.size := by
  unfold incref
  split
  · rfl
  · split
    · rfl
    · simp

theorem size_decrement {h h' : Heap} {r : Handle} {x : Option Content} (e : h.decrement r = .ok (h', x)) :
    h'.cells.size = h.cells.size := by
  unfold decrement at e
  split at e
  · cases e
  · simp only at e
    split at e <;>
    · cases e
      simp

theorem size_decref (h : Heap) (r : Handle) : (h.decref r).1.cells.size = h.cells.size :=
  related_decref (R := fun h h' => h'.cells.size = h.cells.size) (fun _ => rfl) (fun a b => b.trans a) size_decrement h r

theorem size_increfs (rs : List Handle) (h : Heap) : (increfs rs h).1.cells.size = h.cells.size := by
  induction rs generalizing h with
  | nil => rfl
  | cons r rs ih =>
    have hs := size_incref h r
    unfold increfs
    split
    · next e => rwa [e] at hs
    · next e =>
      rw [e] at hs
      rw [ih, hs]

theorem size_decrefs (rs : List Handle) (h : Heap) : (decrefs rs h).1.cells.size = h.cells.size := by
  induction rs generalizing h with
  | nil => rfl
  | cons r rs ih =>
    have hs := size_decref h r
    unfold decrefs
    split
    · next e => rwa [e] at hs
    · next e =>
      rw [e] at hs
      rw [ih, hs]

end Heap

/-! ### Changes of the stack -/

namespace Fault

/-- The action needs more of the stack or of the frames than there is. -/
def isUnderflow : Fault → Bool
  | .stackUnderflow _ _ | .noFrame => true
  | _ => false

/-- The action needs more room or more steps than there are. -/
def isLimit : Fault → Bool
  | .stackOverflow _ | .aborted _ => true
  | _ => false

end Fault

namespace Stack

variable {α : Type}

/-- A stack with other bytes under it, and no more room. -/
structure Over (rest : Bytes) (s t : Stack) : Prop where
  bytes : t.bytes = s.bytes ++ rest
  limit : t.limit ≤ s.limit

theorem Over.size {rest : Bytes} {s t : Stack} (h : Over rest s t) : t.size = s.size + rest.length := by
  rw [t.size_eq, s.size_eq, h.bytes, List.length_append]

/-- The outcome of a change over other bytes: the same over the same bytes, unless there is too little of the stack
without them, or too much with them. -/
def Agree (rest : Bytes) : Except Fault (α × Stack) → Except Fault (α × Stack) → Prop
  | .ok (a, s), .ok (b, t) => b = a ∧ Over rest s t
  | .ok _, .error e => e.isLimit
  | .error e, .ok _ => e.isUnderflow
  | .error _, .error _ => True

/-- A change that takes no notice of what lies below what it needs. -/
def Local (f : Stack → Except Fault (α × Stack)) : Prop :=
  ∀ (rest : Bytes) (s t : Stack), Over rest s t → Agree rest (f s) (f t)

/-- A change that gives nothing. -/
def changing (f : Stack → Except Fault Stack) : Stack → Except Fault (Unit × Stack) := fun s => (f s).map ((), ·)

/-- A look at the stack, which stays as it is. -/
def seeing (f : Stack → Except Fault α) : Stack → Except Fault (α × Stack) := fun s => (f s).map (·, s)

theorem Over.need {rest : Bytes} {s t : Stack} (h : Over rest s t) (n : Nat) :
    s.need n = .ok () ∧ t.need n = .ok () ∧ n ≤ s.size ∨ ∃ e, s.need n = .error e ∧ e.isUnderflow := by
  unfold Stack.need
  by_cases hn : n ≤ s.size
  · have ht : n ≤ t.size := by rw [h.size]; omega
    exact .inl ⟨if_pos hn, if_pos ht, hn⟩
  · exact .inr ⟨_, if_neg hn, rfl⟩

theorem Agree.underflow {rest : Bytes} {e : Fault} (he : e.isUnderflow) (r : Except Fault (α × Stack)) :
    Agree rest (.error e) r := by
  cases r with
  | ok p => exact he
  | error e' => trivial

theorem Over.discard {rest : Bytes} {s t : Stack} (h : Over rest s t) {n : Nat} (hn : n ≤ s.size) :
    Over rest (s.discard n) (t.discard n) := by
  refine ⟨?_, h.limit⟩
  rw [s.size_eq] at hn
  exact (congrArg (List.drop n) h.bytes).trans (List.drop_append_of_le_length hn)

namespace Local

theorem push (bs : Bytes) : Local (changing fun s => s.push bs) := by
  intro rest s t h
  unfold changing Stack.push
  dsimp only
  by_cases hs : s.limit < s.size + bs.length
  · have ht : t.limit < t.size + bs.length := by
      have := h.limit
      rw [h.size]
      omega
    rw [if_pos hs, if_pos ht]
    trivial
  · rw [if_neg hs]
    by_cases ht : t.limit < t.size + bs.length
    · rw [if_pos ht]
      rfl
    · rw [if_neg ht]
      refine ⟨rfl, ?_, h.limit⟩
      simp [h.bytes]

theorem top (n : Nat) : Local (seeing fun s => s.top n) := by
  intro rest s t h
  unfold seeing Stack.top
  dsimp only
  rcases h.need n with ⟨hs, ht, hn⟩ | ⟨e, hs, he⟩
  · rw [hs, ht]
    refine ⟨?_, h⟩
    rw [s.size_eq] at hn
    simp only [h.bytes, List.take_append_of_le_length hn]
  · rw [hs]
    exact .underflow he _

theorem pull (n : Nat) : Local fun s => s.pull n := by
  intro rest s t h
  unfold Stack.pull Stack.top
  dsimp only
  rcases h.need n with ⟨hs, ht, hn⟩ | ⟨e, hs, he⟩
  · rw [hs, ht]
    refine ⟨?_, h.discard hn⟩
    rw [s.size_eq] at hn
    simp only [h.bytes, List.take_append_of_le_length hn]
  · rw [hs]
    exact .underflow he _

/-- What is pulled may be read further. -/
theorem reading {β : Type} {f : Stack → Except Fault (α × Stack)} (hf : Local f) (g : α → Except Fault β) :
    Local fun s => f s >>= fun p => g p.1 >>= fun b => pure (b, p.2) := by
  intro rest s t h
  have agree := hf rest s t h
  dsimp only
  generalize f s = x at agree ⊢
  generalize f t = y at agree ⊢
  rcases x with e | p
  · rcases y with e' | q
    · trivial
    · exact .underflow agree _
  · rcases y with e' | q
    · change Agree rest (g p.1 >>= fun b => pure (b, p.2)) (.error e')
      cases g p.1 with
      | ok b => exact agree
      | error e => trivial
    · obtain ⟨hq, lies⟩ := agree
      change Agree rest (g p.1 >>= fun b => pure (b, p.2)) (g q.1 >>= fun b => pure (b, q.2))
      rw [hq]
      cases g p.1 with
      | ok b => exact ⟨rfl, lies⟩
      | error e => trivial

theorem pullHandle : Local Stack.pullHandle := (pull handleSize).reading Handle.ofBytes

theorem pullNat (n : Nat) : Local fun s => s.pullNat n := (pull n).reading fun bs => .ok (Bytes.toNat bs)

theorem pullValue (t : Ty) : Local fun s => s.pullValue t := by
  have e : (fun s : Stack => s.pullValue t) =
      fun s => s.pull t.size >>= fun p => Value.decode t p.1 >>= fun v => pure (v, p.2) := by
    funext s
    unfold Stack.pullValue Stack.pull
    cases s.top t.size <;> rfl
  rw [e]
  exact (pull t.size).reading (Value.decode t)

theorem handleAt (offset : Nat) : Local (seeing fun s => s.handleAt offset) := by
  intro rest s t h
  unfold seeing Stack.handleAt
  dsimp only
  rcases h.need (offset + handleSize) with ⟨hs, ht, hn⟩ | ⟨e, hs, he⟩
  · rw [hs, ht]
    rw [s.size_eq] at hn
    have same : (t.bytes.drop offset).take handleSize = (s.bytes.drop offset).take handleSize := by
      rw [h.bytes, List.drop_append_of_le_length (by omega), List.take_append_of_le_length (by rw [List.length_drop]; omega)]
    simp only [bind, Except.bind, same]
    cases Handle.ofBytes ((s.bytes.drop offset).take handleSize).reverse with
    | ok r => exact ⟨rfl, h⟩
    | error e => trivial
  · rw [hs]
    exact .underflow he _

theorem clearHandleAt (offset : Nat) : Local (changing fun s => s.clearHandleAt offset) := by
  intro rest s t h
  unfold changing Stack.clearHandleAt
  dsimp only
  by_cases hs : offset + handleSize ≤ s.size
  · have ht : offset + handleSize ≤ t.size := by
      rw [h.size]
      omega
    rw [dif_pos hs, dif_pos ht]
    refine ⟨rfl, ?_, h.limit⟩
    rw [s.size_eq] at hs
    simp only [h.bytes, List.take_append_of_le_length (Nat.le_trans (Nat.le_add_right ..) hs),
      List.drop_append_of_le_length hs, List.append_assoc]
  · rw [dif_neg hs]
    exact .underflow rfl _

theorem drop (skip size : Nat) : Local (changing fun s => s.drop skip size) := by
  intro rest s t h
  unfold changing Stack.drop
  dsimp only
  by_cases hs : skip + size ≤ s.size
  · have ht : skip + size ≤ t.size := by
      rw [h.size]
      omega
    have skips : skip ≤ s.size ∧ skip ≤ t.size := ⟨by omega, by omega⟩
    rw [if_pos skips.1, if_pos skips.2, dif_pos hs, dif_pos ht]
    refine ⟨rfl, ?_, h.limit⟩
    rw [s.size_eq] at hs
    simp only [h.bytes, List.take_append_of_le_length (Nat.le_trans (Nat.le_add_right ..) hs),
      List.drop_append_of_le_length hs, List.append_assoc]
  · have short : ∃ e : Fault, s.drop skip size = .error e ∧ e.isUnderflow := by
      unfold Stack.drop
      split
      · exact ⟨.stackUnderflow (skip + size) s.size, rfl, rfl⟩
      · exact ⟨_, rfl, rfl⟩
    obtain ⟨e, he, hu⟩ := short
    change Agree rest ((s.drop skip size).map ((), ·)) _
    rw [he]
    exact .underflow hu _

end Local

/-- A copy from a position that is counted from the bottom is counted over the other bytes. -/
theorem Over.copy {rest : Bytes} {s t : Stack} (h : Over rest s t) (start size : Nat) :
    Agree rest (changing (fun s => s.copy start size) s) (changing (fun s => s.copy (start + rest.length) size) t) := by
  unfold changing Stack.copy
  dsimp only
  rcases h.need (start + size) with ⟨hs, -, hn⟩ | ⟨e, hs, he⟩
  · have ht : t.need (start + rest.length + size) = .ok () := by
      rw [Stack.need, if_pos]
      rw [h.size]
      omega
    have same : ((t.bytes.drop (t.size - (start + rest.length + size))).take size).reverse =
        ((s.bytes.drop (s.size - (start + size))).take size).reverse := by
      have hd : t.size - (start + rest.length + size) = s.size - (start + size) := by
        rw [h.size]
        omega
      rw [s.size_eq] at hn
      rw [hd, h.bytes, s.size_eq, List.drop_append_of_le_length (Nat.sub_le ..),
        List.take_append_of_le_length (by rw [List.length_drop]; omega)]
    rw [hs, ht]
    simp only [bind, Except.bind, same]
    exact Local.push _ rest s t h
  · rw [hs]
    exact .underflow he _

end Stack

/-- What is looked up is there. -/
theorem Library.function?_of_find {l : Library} {f : FunctionRef} {g : Function} (h : l.findFunction f = .ok g) :
    l.function? f = some g := by
  unfold findFunction at h
  split at h
  · next found =>
    cases h
    exact found
  · cases h

/-! ### Actions -/

/-- Whether the event is one of the program, and not of the run. -/
def Event.isOutput : Event → Bool
  | .printed _ | .invoked _ _ => true
  | .entered _ | .exited _ | .stepped .. => false

namespace Run

/-- Actions that change the stack at its top only, and nothing but it, the heap and the journal. -/
inductive Basic : {α : Type} → Run α → Prop
  | pure {α : Type} (a : α) : Basic (Pure.pure a)
  | throw {α : Type} (e : Fault) : Basic (MonadExcept.throw e : Run α)
  | bind {α β : Type} {x : Run α} {f : α → Run β} (hx : Basic x) (hf : ∀ a, Basic (f a)) : Basic (x >>= f)
  | lift {α : Type} (r : Except Fault α) : Basic (Run.lift r)
  | onStack {α : Type} {f : Stack → Except Fault (α × Stack)} (hf : Stack.Local f) : Basic (Run.onStack f)
  | readHeap {α : Type} (f : Heap → Except Fault α) : Basic (Run.readHeap f)
  | onHeap {α : Type} {f : Heap → Outcome Heap α} (hf : ∀ h : Heap, h.cells.size ≤ (f h).1.cells.size) :
    Basic (Run.onHeap f)
  | observe {α : Type} (f : Heap → Run α) (hf : ∀ h, Basic (f h)) : Basic (MonadState.get >>= fun m => f m.heap)
  | record (e : Event) : Basic (Run.record e)
  | notice (e : Event) : Basic (Run.notice e)

/-- Those of them that tell of nothing but output. -/
inductive Simple : {α : Type} → Run α → Prop
  | pure {α : Type} (a : α) : Simple (Pure.pure a)
  | throw {α : Type} (e : Fault) : Simple (MonadExcept.throw e : Run α)
  | bind {α β : Type} {x : Run α} {f : α → Run β} (hx : Simple x) (hf : ∀ a, Simple (f a)) : Simple (x >>= f)
  | lift {α : Type} (r : Except Fault α) : Simple (Run.lift r)
  | onStack {α : Type} {f : Stack → Except Fault (α × Stack)} (hf : Stack.Local f) : Simple (Run.onStack f)
  | readHeap {α : Type} (f : Heap → Except Fault α) : Simple (Run.readHeap f)
  | onHeap {α : Type} {f : Heap → Outcome Heap α} (hf : ∀ h : Heap, h.cells.size ≤ (f h).1.cells.size) :
    Simple (Run.onHeap f)
  | observe {α : Type} (f : Heap → Run α) (hf : ∀ h, Simple (f h)) : Simple (MonadState.get >>= fun m => f m.heap)
  | record (e : Event) (output : e.isOutput) : Simple (Run.record e)

theorem Simple.basic {α : Type} {x : Run α} (h : Simple x) : Basic x := by
  induction h with
  | pure a => exact .pure a
  | throw e => exact .throw e
  | bind _ _ hx hf => exact .bind hx hf
  | lift r => exact .lift r
  | onStack hf => exact .onStack hf
  | readHeap f => exact .readHeap f
  | onHeap hf => exact .onHeap hf
  | observe f _ hf => exact .observe f hf
  | record e => exact .record e

theorem setStack_eq (f : Stack → Except Fault Stack) : setStack f = onStack (Stack.changing f) := by
  funext m
  unfold setStack onStack Stack.changing
  cases f m.stack <;> rfl

namespace Simple

theorem setStack {f : Stack → Except Fault Stack} (hf : Stack.Local (Stack.changing f)) : Simple (Run.setStack f) := by
  rw [setStack_eq]
  exact onStack hf

theorem readStack {α : Type} {f : Stack → Except Fault α} (hf : Stack.Local (Stack.seeing f)) :
    Simple (Run.readStack f) := by
  have e : Run.readStack f = Run.onStack (Stack.seeing f) := by
    funext m
    unfold Run.readStack Run.onStack Stack.seeing
    cases f m.stack <;> rfl
  rw [e]
  exact onStack hf

theorem push (bs : Bytes) : Simple (Run.push bs) := setStack (.push bs)

theorem pull (n : Nat) : Simple (Run.pull n) := onStack (.pull n)

theorem pushNat (n v : Nat) : Simple (Run.pushNat n v) := setStack (.push _)

theorem pullNat (n : Nat) : Simple (Run.pullNat n) := onStack (.pullNat n)

theorem pushBool (b : Bool) : Simple (Run.pushBool b) := push _

theorem pullBool : Simple Run.pullBool := (pull 1).bind fun _ => pure _

theorem pushHandle (r : Handle) : Simple (Run.pushHandle r) := push _

theorem pullHandle : Simple Run.pullHandle := onStack .pullHandle

theorem pushInt32 (n : Int32) : Simple (Run.pushInt32 n) := pushNat _ _

theorem pullInt32 : Simple Run.pullInt32 := (pullNat 4).bind fun _ => pure _

theorem pushInt64 (n : Int64) : Simple (Run.pushInt64 n) := pushNat _ _

theorem pullInt64 : Simple Run.pullInt64 := (pullNat 8).bind fun _ => pure _

theorem pushWord {w : Width} (a : Word w) : Simple (Run.pushWord a) := pushNat _ _

theorem pullWord (w : Width) : Simple (Run.pullWord w) := (pullNat w.size).bind fun _ => pure _

theorem pullValue (t : Ty) : Simple (Run.pullValue t) := onStack (.pullValue t)

theorem pushValue (v : Value) : Simple (Run.pushValue v) := setStack (.push _)

theorem alloc (c : Content) : Simple (Run.alloc c) := onHeap fun h => by
  obtain ⟨cells, free, live⟩ := h
  cases free <;> simp [Heap.alloc]

theorem incref (r : Handle) : Simple (Run.incref r) := onHeap fun h => Nat.le_of_eq (h.size_incref r).symm

theorem decref (r : Handle) : Simple (Run.decref r) := onHeap fun h => Nat.le_of_eq (h.size_decref r).symm

theorem increfs (rs : List Handle) : Simple (Run.onHeap fun h => Heap.increfs rs h) :=
  onHeap fun h => Nat.le_of_eq (Heap.size_increfs rs h).symm

theorem decrefs (rs : List Handle) : Simple (Run.onHeap fun h => Heap.decrefs rs h) :=
  onHeap fun h => Nat.le_of_eq (Heap.size_decrefs rs h).symm

theorem pushString (s : String) : Simple (Run.pushString s) := (alloc _).bind fun _ => pushHandle _

theorem pullString : Simple Run.pullString :=
  pullHandle.bind fun _ => (readHeap _).bind fun _ => (decref _).bind fun _ => pure _

theorem increfTop (t : Ty) : Simple (Run.increfTop t) :=
  (readStack (.top t.size)).bind fun _ => (lift _).bind fun rs => increfs rs

theorem native (n : Native) : Simple n.run := by
  cases n with
  | stringConcat => exact pullString.bind fun _ => pullString.bind fun _ => pushString _
  | stringEqual => exact pullString.bind fun _ => pullString.bind fun _ => pushBool _
  | stringLength => exact pullString.bind fun _ => pushInt32 _
  | listLength =>
    exact pullHandle.bind fun _ => (readHeap _).bind fun _ => (decref _).bind fun _ => pushInt32 _
  | print => exact pullString.bind fun _ => record _ rfl
  | int32ToInt64 => exact pullInt32.bind fun _ => pushInt64 _
  | int64ToInt32 => exact pullInt64.bind fun _ => pushInt32 _
  | int32ToFloat64 => exact pullInt32.bind fun _ => pushNat _ _
  | float64ToInt32 => exact (pullNat _).bind fun _ => pushInt32 _
  | int32ToString => exact pullInt32.bind fun _ => pushString _
  | int64ToString => exact pullInt64.bind fun _ => pushString _
  | float64ToString => exact (pullNat _).bind fun _ => pushString _
  | floatArith w op => exact (pullNat _).bind fun _ => (pullNat _).bind fun _ => pushNat _ _
  | floatTest w c => exact (pullNat _).bind fun _ => (pullNat _).bind fun _ => pushBool _
  | floatNegate w => exact (pullNat _).bind fun _ => pushNat _ _

variable (l : Library)

theorem runWord (w : Width) (op : WordOp) : Simple (Run.runWord w op) := by
  cases op with
  | negate | bitNot => exact (pullWord w).bind fun _ => pushWord _
  | compare c => exact (pullWord w).bind fun _ => (pullWord w).bind fun _ => pushBool _
  | arith op =>
    exact (pullWord w).bind fun _ => (pullWord w).bind fun _ => (lift _).bind fun _ => pushWord _

theorem subscript (elem : Ty) : Simple (Run.subscript elem) := by
  refine pullHandle.bind fun r => pullInt32.bind fun index => (readHeap _).bind fun p => ?_
  have rest (bs : Bytes) : Simple (Run.push bs >>= fun _ => Run.increfTop elem >>= fun _ =>
      Run.decref r >>= fun _ => Pure.pure ()) :=
    (push _).bind fun _ => (increfTop elem).bind fun _ => (decref r).bind fun _ => pure _
  simp only
  generalize (if index.toInt < 0 then _ else _ : Int) = position
  split
  · exact (decref r).bind fun _ => (throw _).bind fun _ => rest _
  · exact rest _

theorem openClosure : Simple (Run.openClosure l) := by
  refine pullHandle.bind fun r => (readHeap _).bind fun c => (push _).bind fun _ => (lift _).bind fun rs =>
    (increfs rs).bind fun _ => (decref r).bind fun _ => ?_
  split
  · exact throw _
  · exact pure _

theorem pushClosure (f : FunctionRef) (types : List Ty) (bytes : Bytes) : Simple (Run.pushClosure f types bytes) :=
  (alloc _).bind fun _ => pushHandle _

theorem execute (a : Activation) {op : Opcode} (hv : op ≠ .copyVariable) (ha : op ≠ .copyArgument)
    (first second : Nat) : Simple (Run.execute l a op first second) := by
  cases op with
  | noop | jump | jumpIfNot => exact pure _
  | logicalNot => exact pullBool.bind fun _ => (pushBool _).bind fun _ => pure _
  | logicalOr | logicalAnd =>
    exact pullBool.bind fun _ => pullBool.bind fun _ => (pushBool _).bind fun _ => pure _
  | word op w => exact (runWord w op).bind fun _ => pure _
  | execute => exact (openClosure l).bind fun _ => pure _
  | invoke =>
    exact (lift _).bind fun t => (pullValue t).bind fun v => observe
      (fun h => Run.record (.invoked v (v.text h)) >>= fun _ => Run.onHeap v.decref >>= fun _ => Pure.pure none)
      fun _ => (record _ rfl).bind fun _ => (decrefs v.handles).bind fun _ => pure _
  | loadStatic =>
    exact (lift _).bind fun v => (increfs v.handles).bind fun _ => (pushValue v).bind fun _ => pure _
  | loadFunction => exact (lift _).bind fun _ => (pushClosure _ _ _).bind fun _ => pure _
  | makeClosure => exact (lift _).bind fun _ => (pull _).bind fun _ => (pushClosure _ _ _).bind fun _ => pure _
  | call0 => exact pure _
  | call1 | call => exact (lift _).bind fun _ => pure _
  | incRef => exact (readStack (.handleAt _)).bind fun r => (incref r).bind fun _ => pure _
  | decRef =>
    refine (readStack (.handleAt _)).bind fun r => (decref r).bind fun freed => ?_
    cases freed
    · exact pure _
    · exact (setStack (.clearHandleAt _)).bind fun _ => pure _
  | subscript => exact (lift _).bind fun t => (subscript t).bind fun _ => pure _
  | makeList =>
    refine (lift _).bind fun t => (pull _).bind fun bytes => ?_
    simp only
    split
    · exact (pushHandle _).bind fun _ => pure _
    · exact (alloc _).bind fun _ => (pushHandle _).bind fun _ => pure _
  | copyVariable => exact absurd rfl hv
  | copyArgument => exact absurd rfl ha
  | drop => exact (setStack (.drop _ _)).bind fun _ => pure _

theorem jumpDistance (op : Opcode) (distance : Nat) : Simple (Run.jumpDistance op distance) := by
  unfold Run.jumpDistance
  split
  · exact pure _
  · exact pullBool.bind fun _ => pure _
  · exact pure _

end Simple

namespace Basic

variable (l : Library)

theorem push (bs : Bytes) : Basic (Run.push bs) := (Simple.push bs).basic

theorem pullBool : Basic Run.pullBool := Simple.pullBool.basic

theorem pullHandle : Basic Run.pullHandle := Simple.pullHandle.basic

theorem pullValue (t : Ty) : Basic (Run.pullValue t) := (Simple.pullValue t).basic

theorem pushValue (v : Value) : Basic (Run.pushValue v) := (Simple.pushValue v).basic

theorem decref (r : Handle) : Basic (Run.decref r) := (Simple.decref r).basic

theorem increfs (rs : List Handle) : Basic (Run.onHeap fun h => Heap.increfs rs h) := (Simple.increfs rs).basic

theorem native (n : Native) : Basic n.run := (Simple.native n).basic

theorem execute (a : Activation) {op : Opcode} (hv : op ≠ .copyVariable) (ha : op ≠ .copyArgument)
    (first second : Nat) : Basic (Run.execute l a op first second) := (Simple.execute l a hv ha first second).basic

theorem jumpDistance (op : Opcode) (distance : Nat) : Basic (Run.jumpDistance op distance) :=
  (Simple.jumpDistance op distance).basic

theorem forM {β : Type} {f : β → Run PUnit} (hf : ∀ b, Basic (f b)) : ∀ bs : List β, Basic (bs.forM f)
  | [] => pure _
  | b :: bs => (hf b).bind fun _ => forM hf bs

theorem enter (f : FunctionRef) : Basic (Run.enter l f) := by
  refine (lift _).bind fun g => ?_
  split
  · next n _ => exact (notice _).bind fun _ => (native n).bind fun _ => (notice _).bind fun _ => pure _
  · exact (notice _).bind fun _ => pure _
  · exact (notice _).bind fun _ => pure _
  · exact throw _

end Basic

/-! ### Steps in parts -/

variable (l : Library)

/-- Goes on with a function that was entered, or behind one that has run in place. -/
def resume (a : Activation) : Option Activation → Run (Option Activation)
  | none => pure (some a)
  | some callee => do
    pushFrame ⟨some a.function, a.cursor, a.base⟩
    return some { callee with base := (← get).stack.size }

/-- Enters the function that an instruction calls. -/
def dispatch (a : Activation) : Option FunctionRef → Run (Option Activation)
  | none => pure (some a)
  | some f => enter l f >>= resume a

/-- Executes an instruction that has been counted. -/
def perform (a : Activation) (op : Opcode) (x y : Nat) : Run (Option Activation) :=
  jumpDistance op x >>= fun d =>
    execute l { a with cursor := a.cursor + op.length + d } op x y >>=
      dispatch l { a with cursor := a.cursor + op.length + d }

/-- Goes on with what was read under the cursor. -/
def proceed (a : Activation) : Instruction → Run (Option Activation)
  | .unknown b => throw (.unknownOpcode b)
  | .truncated op => throw (.truncatedInstruction op.text (((l.function? a.function).map (·.name)).getD ""))
  | .ofOpcode op x y => perform l a op x y

theorem step_none {a : Activation} (h : a.code[a.cursor]? = none) : step l a = leave l a := by
  unfold step
  rw [h]

theorem step_some {a : Activation} {b : UInt8} (h : a.code[a.cursor]? = some b) :
    step l a = count l a b >>= fun _ => proceed l a (Instruction.read a.code a.cursor b) := by
  unfold step
  rw [h]
  refine congrArg (count l a b >>= ·) (funext fun _ => ?_)
  cases Instruction.read a.code a.cursor b <;> rfl

/-- Runs a function that was entered from the host. -/
def follow (base : Nat) : Option Activation → Run Unit
  | none => pure ()
  | some a => steps l ceiling { a with base := base }

/-- Runs a function that has code until it returns to the host. -/
def launch (f : FunctionRef) : Run Unit :=
  get >>= fun m => pushFrame ⟨none, 0, m.stack.size⟩ >>= fun _ => enter l f >>= follow l m.stack.size

/-- A call once the function is found and steps are counted anew. -/
def answer (f : FunctionRef) (g : Function) : Run Unit :=
  match g.body with
  | .native _ => enter l f >>= fun _ => pure ()
  | .undefined | .generic _ _ => throw (.notCallable g.body.kind g.name)
  | .code _ | .fragment _ => launch l f

theorem call_eq (f : FunctionRef) : call l f = lift (l.findFunction f) >>= fun g =>
    modify (fun m => if m.frames.isEmpty then { m with steps := 0 } else m) >>= fun _ => answer l f g := by
  unfold call answer
  refine congrArg (lift (l.findFunction f) >>= ·) (funext fun g => congrArg (modify _ >>= ·) (funext fun _ => ?_))
  cases g.body <;> rfl

end Run

end StackScript
