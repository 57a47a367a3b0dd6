import StackScript.Proofs.Limiting

/-!
Faults of fetching. A byte that is no opcode and an instruction without its operands are found when the machine reads
under its cursor; nothing that an instruction does once it was accepted fails in that way.
-/
namespace StackScript

namespace Fault

/-- The fault is found while an instruction is read. -/
def ofFetch : Fault → Bool
  | unknownOpcode _ | truncatedInstruction _ _ => true
  | _ => false

/-- The fault is found between instructions, while one is read or a function is entered. -/
def isBetween : Fault → Bool
  | unknownOpcode _ | truncatedInstruction _ _ | notCallable _ _ => true
  | _ => false

theorem ofFetch_of_isBetween {e : Fault} (h : e.isBetween = false) : e.ofFetch = false := by
  cases e <;> first | rfl | cases h

/-- A result that is no fault found between instructions. -/
def Later {α : Type} (r : Except Fault α) : Prop := ∀ e, r = .error e → e.isBetween = false

namespace Later

variable {α β : Type} {r : Except Fault α}

theorem ok (a : α) : Later (.ok a) := nofun

theorem error {e : Fault} (h : e.isBetween = false) : Later (.error e : Except Fault α) := fun _ he => Except.error.inj he ▸ h

theorem bind {f : α → Except Fault β} (h : Later r) (hf : ∀ a, Later (f a)) : Later (r >>= f) := by
  cases r with
  | ok a => exact hf a
  | error e => exact error (h e rfl)

theorem map (h : Later r) (f : α → β) : Later (r.map f) := by
  cases r with
  | ok a => exact ok _
  | error e => exact error (h e rfl)

theorem mapM {f : α → Except Fault β} (hf : ∀ a, Later (f a)) : ∀ as : List α, Later (as.mapM f)
  | [] => by
    rw [List.mapM_nil]
    exact ok _
  | a :: as => by
    rw [List.mapM_cons]
    exact (hf a).bind fun _ => (mapM hf as).bind fun _ => ok _

theorem ite {c : Prop} [Decidable c] {r s : Except Fault α} (hr : Later r) (hs : Later s) : Later (if c then r else s) := by
  split
  · exact hr
  · exact hs

end Later

end Fault

open Fault (Later isBetween)

/-! ### Values and words -/

theorem Handle.later_ofBytes (bs : Bytes) : Later (Handle.ofBytes bs) := .ite (.error rfl) (.ok _)

theorem Value.later_charOf (n : Nat) : Later (Value.charOf n) := by
  by_cases valid : n.isValidChar
  · rw [charOf, dif_pos valid]
    exact .ok _
  · rw [charOf, dif_neg valid]
    exact .error rfl

mutual

theorem Value.later_read : ∀ (t : Ty) (bs : Bytes), Later (Value.read t bs)
  | .unknown, _ | .void, _ | .module, _ | .bool, _ | .byte, _ | .int32, _ | .int64, _ | .float32, _ | .float64, _ => .ok _
  | .char, _ => later_charOf _
  | .string, _ | .list _, _ | .function _ _, _ => (Handle.later_ofBytes _).map _
  | .tuple ts, bs => (later_reads ts bs).map _

theorem Value.later_reads : ∀ (ts : List Ty) (bs : Bytes), Later (Value.reads ts bs)
  | [], _ => .ok _
  | t :: ts, bs => (later_read t bs).bind fun _ => (later_reads ts _).bind fun _ => .ok _

end

theorem Value.later_decode (t : Ty) (bs : Bytes) : Later (Value.decode t bs) := .ite (.error rfl) (later_read t bs)

theorem Word.later_arith {w : Width} (op : Arith) (a b : Word w) : Later (Word.arith op a b) := by
  cases op with
  | div | mod => exact .ite (.error rfl) (.ok _)
  | exp =>
    unfold arith
    exact .ite (.ok _) (.error rfl)
  | _ => exact .ok _

theorem Ty.later_handlesAt (t : Ty) (skip : Nat) (bs : Bytes) : Later (t.handlesAt skip bs) :=
  .mapM (fun _ => Handle.later_ofBytes _) t.slots

theorem Ty.later_handlesIn : ∀ (ts : List Ty) (skip : Nat) (bs : Bytes), Later (Ty.handlesIn ts skip bs)
  | [], _, _ => .ok _
  | t :: ts, skip, bs => (t.later_handlesAt skip bs).bind fun _ => (later_handlesIn ts _ bs).bind fun _ => .ok _

theorem Content.later_handles (x : Content) : Later x.handles := by
  cases x with
  | string s => exact .ok _
  | list elem bytes => exact .ite (.ok _) (Ty.later_handlesIn _ 0 bytes)
  | closure c => exact Ty.later_handlesIn _ 0 c.bytes

/-! ### Stack and heap -/

namespace Stack

variable (s : Stack)

theorem later_need (n : Nat) : Later (s.need n) := .ite (.ok _) (.error rfl)

theorem later_push (bs : Bytes) : Later (s.push bs) := .ite (.error rfl) (.ok _)

theorem later_top (n : Nat) : Later (s.top n) := (s.later_need n).bind fun _ => .ok _

theorem later_pull (n : Nat) : Later (s.pull n) := (s.later_top n).bind fun _ => .ok _

theorem later_copy (start size : Nat) : Later (s.copy start size) := (s.later_need _).bind fun _ => s.later_push _

theorem later_drop (skip size : Nat) : Later (s.drop skip size) := by
  unfold drop
  refine .ite ?_ (.error rfl)
  split
  · exact .ok _
  · exact .error rfl

theorem later_handleAt (offset : Nat) : Later (s.handleAt offset) :=
  (s.later_need _).bind fun _ => Handle.later_ofBytes _

theorem later_clearHandleAt (offset : Nat) : Later (s.clearHandleAt offset) := by
  unfold clearHandleAt
  split
  · exact .ok _
  · exact .error rfl

theorem later_pullValue (t : Ty) : Later (s.pullValue t) :=
  (s.later_top _).bind fun _ => (Value.later_decode t _).bind fun _ => .ok _

theorem later_pullHandle : Later s.pullHandle := (s.later_pull _).bind fun _ => (Handle.later_ofBytes _).bind fun _ => .ok _

theorem later_pullNat (n : Nat) : Later (s.pullNat n) := (s.later_pull n).bind fun _ => .ok _

end Stack

namespace Heap

variable (h : Heap) (r : Handle)

theorem later_content : Later (h.content r) := by
  unfold content
  split
  · exact .ok _
  · exact .error rfl

theorem later_string : Later (h.string r) := by
  refine .ite (.ok _) ((h.later_content r).bind fun c => ?_)
  cases c <;> first | exact .ok _ | exact .error rfl

theorem later_list : Later (h.list r) := by
  refine .ite (.ok _) ((h.later_content r).bind fun c => ?_)
  cases c <;> first | exact .ok _ | exact .error rfl

theorem later_closure : Later (h.closure r) := by
  refine (h.later_content r).bind fun c => ?_
  cases c <;> first | exact .ok _ | exact .error rfl

theorem later_incref : Later (h.incref r).2 := by
  unfold incref
  split
  · exact .ok _
  · split
    · exact .error rfl
    · exact .ok _

theorem later_increfs (rs : List Handle) (h : Heap) : Later (increfs rs h).2 := by
  fun_induction increfs rs h with
  | case1 h => exact .ok _
  | case2 r rs h h' e he =>
    have := h.later_incref r
    rwa [he] at this
  | case3 _ _ _ _ _ ih => exact ih

theorem later_decrement : Later (h.decrement r) := by
  unfold decrement
  split
  · exact .error rfl
  · exact .ite (.ok _) (.ok _)

theorem later_decrements (rs : List Handle) (h : Heap) : Later (decrements rs h).2 := by
  fun_induction decrements rs h with
  | case1 => exact .ok _
  | case2 _ _ _ _ ih => exact ih
  | case3 r rs h _ e he => exact .error (h.later_decrement r e he)
  | case4 _ _ _ _ _ _ ih => exact ih
  | case5 => exact .ok _

theorem later_release (fuel : Nat) (rs : List Handle) (h : Heap) : Later (release fuel rs h).2 := by
  fun_induction release fuel rs h with
  | case1 => exact .ok _
  | case2 fuel rs h h' e he =>
    have := later_decrements rs h
    rw [he] at this
    exact .error (this e rfl)
  | case3 => exact .ok _
  | case4 fuel rs h h' x rest _ e he => exact .error (x.later_handles e he)
  | case5 _ _ _ _ _ _ _ _ _ ih => exact ih

theorem later_decref : Later (h.decref r).2 := by
  unfold decref
  split
  · exact .ok _
  · split
    · next e he => exact .error (h.later_decrement r e he)
    · exact .ok _
    · next h' x _ =>
      split
      · next e he => exact .error (x.later_handles e he)
      · next rs _ =>
        dsimp only
        have released := later_release (h'.cells.size + 1) rs.reverse h'
        split
        · next e he =>
          rw [he] at released
          exact .error (released e rfl)
        · exact .ok _

theorem later_decrefs (rs : List Handle) (h : Heap) : Later (decrefs rs h).2 := by
  fun_induction decrefs rs h with
  | case1 => exact .ok _
  | case2 r rs h h' e he =>
    have := h.later_decref r
    rw [he] at this
    exact .error (this e rfl)
  | case3 _ _ _ _ _ _ ih => exact ih

end Heap

/-! ### Actions -/

namespace Run

/-- An action that does not fail in some ways. -/
def Avoids (p : Fault → Bool) {α : Type} (x : Run α) : Prop := ∀ m, Meets x m (fun _ _ => True) fun e _ => p e = false

namespace Avoids

variable {α β : Type} {x : Run α} {p q : Fault → Bool}

theorem imp (h : Avoids p x) (k : ∀ e, p e = false → q e = false) : Avoids q x := fun m =>
  (h m).imp (fun _ _ h => h) fun e _ => k e

theorem pure (a : α) : Avoids p (Pure.pure a : Run α) := fun _ => trivial

theorem throw {e : Fault} (h : p e = false) : Avoids p (MonadExcept.throw e : Run α) := fun _ => h

theorem bind {f : α → Run β} (hx : Avoids p x) (hf : ∀ a, Avoids p (f a)) : Avoids p (x >>= f) := fun m =>
  (hx m).seq fun a n _ => hf a n

theorem get : Avoids p (MonadState.get : Run Machine) := fun _ => trivial

theorem change (f : Machine → Machine) : Avoids p (modify f) := fun _ => trivial

theorem lift {r : Except Fault α} (h : Later r) : Avoids isBetween (Run.lift r) := fun m => by
  cases r with
  | ok a => trivial
  | error e => exact h e rfl

theorem onStack {f : Stack → Except Fault (α × Stack)} (h : ∀ s, Later (f s)) :
    Avoids isBetween (Run.onStack f) := fun m => by
  unfold Meets Run.onStack
  cases hf : f m.stack with
  | ok p => trivial
  | error e => exact h _ e hf

theorem setStack {f : Stack → Except Fault Stack} (h : ∀ s, Later (f s)) : Avoids isBetween (Run.setStack f) := fun m => by
  unfold Meets Run.setStack
  cases hf : f m.stack with
  | ok p => trivial
  | error e => exact h _ e hf

theorem readStack {f : Stack → Except Fault α} (h : ∀ s, Later (f s)) : Avoids isBetween (Run.readStack f) := fun m => by
  unfold Meets Run.readStack
  cases hf : f m.stack with
  | ok p => trivial
  | error e => exact h _ e hf

theorem readHeap {f : Heap → Except Fault α} (h : ∀ h, Later (f h)) : Avoids isBetween (Run.readHeap f) := fun m => by
  unfold Meets Run.readHeap
  cases hf : f m.heap with
  | ok p => trivial
  | error e => exact h _ e hf

theorem onHeap {f : Heap → Outcome Heap α} (h : ∀ h, Later (f h).2) : Avoids isBetween (Run.onHeap f) := fun m => by
  have later := h m.heap
  unfold Meets Run.onHeap
  obtain ⟨stack, frames, heap, steps, limit, watch, journal⟩ := m
  dsimp only at later ⊢
  generalize f heap = o at later ⊢
  obtain ⟨heap', r⟩ := o
  cases r with
  | ok a => trivial
  | error e => exact later e rfl

theorem record (e : Event) : Avoids p (Run.record e) := change _

theorem notice (e : Event) : Avoids p (Run.notice e) := change _

/-! ### What instructions are made of -/

theorem push (bs : Bytes) : Avoids isBetween (Run.push bs) := setStack fun s => s.later_push bs

theorem pull (n : Nat) : Avoids isBetween (Run.pull n) := onStack fun s => s.later_pull n

theorem pushBool (b : Bool) : Avoids isBetween (Run.pushBool b) := push _

theorem pullBool : Avoids isBetween Run.pullBool := (pull 1).bind fun _ => pure _

theorem pushHandle (r : Handle) : Avoids isBetween (Run.pushHandle r) := push _

theorem pullHandle : Avoids isBetween Run.pullHandle := onStack Stack.later_pullHandle

theorem pullNat (n : Nat) : Avoids isBetween (Run.pullNat n) := onStack fun s => s.later_pullNat n

theorem pushNat (n v : Nat) : Avoids isBetween (Run.pushNat n v) := setStack fun s => s.later_push _

theorem pullInt32 : Avoids isBetween Run.pullInt32 := (pullNat 4).bind fun _ => pure _

theorem pullInt64 : Avoids isBetween Run.pullInt64 := (pullNat 8).bind fun _ => pure _

theorem pullWord (w : Width) : Avoids isBetween (Run.pullWord w) := (pullNat w.size).bind fun _ => pure _

theorem pushWord {w : Width} (a : Word w) : Avoids isBetween (Run.pushWord a) := pushNat w.size a.toNat

theorem alloc (x : Content) : Avoids isBetween (Run.alloc x) := onHeap fun _ => .ok _

theorem decref (r : Handle) : Avoids isBetween (Run.decref r) := onHeap fun h => h.later_decref r

theorem increfs (rs : List Handle) : Avoids isBetween (Run.onHeap fun h => Heap.increfs rs h) :=
  onHeap fun h => h.later_increfs rs

theorem pushString (s : String) : Avoids isBetween (Run.pushString s) := (alloc _).bind fun r => pushHandle r

theorem pullString : Avoids isBetween Run.pullString :=
  pullHandle.bind fun r => (readHeap fun h => h.later_string r).bind fun _ => (decref r).bind fun _ => pure _

theorem pullValue (t : Ty) : Avoids isBetween (Run.pullValue t) := onStack fun s => s.later_pullValue t

theorem increfTop (t : Ty) : Avoids isBetween (Run.increfTop t) :=
  (readStack fun s => s.later_top t.size).bind fun bs => (lift (t.later_handlesAt 0 bs)).bind increfs

theorem native : ∀ n : Native, Avoids isBetween n.run
  | .stringConcat => pullString.bind fun _ => pullString.bind fun _ => pushString _
  | .stringEqual => pullString.bind fun _ => pullString.bind fun _ => pushBool _
  | .stringLength => pullString.bind fun _ => pushNat 4 _
  | .listLength => pullHandle.bind fun r => (readHeap fun h => h.later_list r).bind fun _ =>
      (decref r).bind fun _ => pushNat 4 _
  | .print => pullString.bind fun _ => record _
  | .int32ToInt64 => pullInt32.bind fun _ => pushNat 8 _
  | .int64ToInt32 => pullInt64.bind fun _ => pushNat 4 _
  | .int32ToFloat64 => pullInt32.bind fun _ => pushNat 8 _
  | .float64ToInt32 => (pullNat 8).bind fun _ => pushNat 4 _
  | .int32ToString => pullInt32.bind fun _ => pushString _
  | .int64ToString => pullInt64.bind fun _ => pushString _
  | .float64ToString => (pullNat 8).bind fun _ => pushString _
  | .floatArith w _ => (pullNat w.size).bind fun _ => (pullNat w.size).bind fun _ => pushNat w.size _
  | .floatTest w _ => (pullNat w.size).bind fun _ => (pullNat w.size).bind fun _ => pushBool _
  | .floatNegate w => (pullNat w.size).bind fun _ => pushNat w.size _

theorem runWord (w : Width) : ∀ op, Avoids isBetween (Run.runWord w op)
  | .negate | .bitNot => (pullWord w).bind fun _ => pushWord _
  | .compare _ => (pullWord w).bind fun _ => (pullWord w).bind fun _ => pushBool _
  | .arith op => (pullWord w).bind fun a => (pullWord w).bind fun b => (lift (Word.later_arith op a b)).bind fun _ => pushWord _

theorem subscript (elem : Ty) : Avoids isBetween (Run.subscript elem) := by
  refine pullHandle.bind fun r => pullInt32.bind fun index => (readHeap fun h => h.later_list r).bind fun p => ?_
  have rest (bs : Bytes) : Avoids isBetween (Run.push bs >>= fun _ => Run.increfTop elem >>= fun _ =>
      Run.decref r >>= fun _ => Pure.pure ()) :=
    (push _).bind fun _ => (increfTop elem).bind fun _ => (decref r).bind fun _ => pure _
  simp only
  generalize (if index.toInt < 0 then _ else _ : Int) = position
  split
  · exact (decref r).bind fun _ => (throw (by rfl)).bind fun _ => rest _
  · exact rest _

variable (l : Library)

theorem later_findFunction (f : FunctionRef) : Later (l.findFunction f) := by
  unfold Library.findFunction
  split
  · exact .ok _
  · exact .error rfl

theorem later_findImport (k i : Nat) : Later (l.findImport k i) := by
  unfold Library.findImport
  split
  · exact .ok _
  · exact .error rfl

theorem later_findType (k i : Nat) : Later (l.findType k i) := by
  unfold Library.findType
  split
  · exact .ok _
  · exact .error rfl

theorem later_findValue (k i : Nat) : Later (l.findValue k i) := by
  unfold Library.findValue
  split
  · exact .ok _
  · exact .error rfl

theorem openClosure : Avoids isBetween (Run.openClosure l) := by
  refine pullHandle.bind fun r => (readHeap fun h => h.later_closure r).bind fun c => (push _).bind fun _ =>
    (lift (Ty.later_handlesIn _ 0 _)).bind fun rs => (increfs rs).bind fun _ => (decref r).bind fun _ => ?_
  split
  · exact throw rfl
  · exact pure _

/-- An accepted instruction is executed without another fault of fetching. -/
theorem execute (a : Activation) (op : Opcode) (x y : Nat) : Avoids isBetween (Run.execute l a op x y) := by
  cases op with
  | noop | jump | jumpIfNot => exact pure _
  | logicalNot => exact pullBool.bind fun _ => (pushBool _).bind fun _ => pure _
  | logicalOr | logicalAnd => exact pullBool.bind fun _ => pullBool.bind fun _ => (pushBool _).bind fun _ => pure _
  | word op w => exact (runWord w op).bind fun _ => pure _
  | execute => exact (openClosure l).bind fun _ => pure _
  | invoke =>
    exact (lift (later_findType l _ x)).bind fun t => (pullValue t).bind fun v => get.bind fun _ => (record _).bind fun _ =>
      (onHeap fun h => h.later_decrefs v.handles).bind fun _ => pure _
  | loadStatic =>
    exact (lift (later_findValue l _ x)).bind fun v => (increfs v.handles).bind fun _ =>
      (setStack fun s => s.later_push _).bind fun _ => pure _
  | loadFunction =>
    exact (lift (later_findFunction l _)).bind fun _ => ((alloc _).bind fun r => pushHandle r).bind fun _ => pure _
  | makeClosure =>
    exact (lift (later_findFunction l _)).bind fun _ => (pull _).bind fun _ =>
      ((alloc _).bind fun r => pushHandle r).bind fun _ => pure _
  | call0 => exact pure _
  | call1 => exact (lift (later_findImport l _ 0)).bind fun _ => pure _
  | call => exact (lift (later_findImport l _ x)).bind fun _ => pure _
  | incRef =>
    exact (readStack fun s => s.later_handleAt x).bind fun r => (onHeap fun h => h.later_incref r).bind fun _ => pure _
  | decRef =>
    refine (readStack fun s => s.later_handleAt x).bind fun r => (decref r).bind fun freed => ?_
    cases freed
    · exact pure _
    · exact (setStack fun s => s.later_clearHandleAt x).bind fun _ => pure _
  | subscript => exact (lift (later_findType l _ x)).bind fun t => (subscript t).bind fun _ => pure _
  | makeList =>
    refine (lift (later_findType l _ y)).bind fun t => (pull _).bind fun bs => ?_
    dsimp only
    split
    · exact (pushHandle _).bind fun _ => pure _
    · exact (alloc _).bind fun r => (pushHandle r).bind fun _ => pure _
  | copyVariable => exact (setStack fun s => s.later_copy _ y).bind fun _ => pure _
  | copyArgument =>
    unfold Run.execute
    dsimp only
    split
    · exact (throw rfl).bind fun _ => (setStack fun s => s.later_copy _ y).bind fun _ => pure _
    · exact (setStack fun s => s.later_copy _ y).bind fun _ => pure _
  | drop => exact (setStack fun s => s.later_drop x y).bind fun _ => pure _

theorem jumpDistance (op : Opcode) (distance : Nat) : Avoids isBetween (Run.jumpDistance op distance) := by
  unfold Run.jumpDistance
  split
  · exact pure _
  · exact pullBool.bind fun _ => pure _
  · exact pure _

/-- A function is entered without the faults that neither instructions nor calls of what is found have. -/
theorem enter {f : FunctionRef} (between : ∀ e, isBetween e = false → p e = false)
    (callable : ∀ g, l.findFunction f = .ok g → p (.notCallable g.body.kind g.name) = false) : Avoids p (Run.enter l f) := by
  have later {β : Type} {y : Run β} (hy : Avoids isBetween y) : Avoids p y := hy.imp between
  unfold Run.enter
  cases found : l.findFunction f with
  | error e => exact fun _ => between e (later_findFunction l f e found)
  | ok g =>
    have known : (Run.lift (.ok g) : Run Function) = Pure.pure g := rfl
    rw [known, pure_bind]
    split
    · next n _ => exact (notice _).bind fun _ => (later (native n)).bind fun _ => (notice _).bind fun _ => pure _
    · exact (notice _).bind fun _ => pure _
    · exact (notice _).bind fun _ => pure _
    · exact throw (callable g found)

theorem dispatch (a : Activation) : ∀ o, Avoids Fault.ofFetch (Run.dispatch l a o)
  | none => pure _
  | some f => (enter l (fun _ => Fault.ofFetch_of_isBetween) fun _ _ => rfl).bind fun o => by
    cases o with
    | none => exact pure _
    | some callee => exact (change _).bind fun _ => get.bind fun _ => pure _

theorem perform (a : Activation) (op : Opcode) (x y : Nat) : Avoids Fault.ofFetch (Run.perform l a op x y) :=
  ((jumpDistance op x).imp fun _ => Fault.ofFetch_of_isBetween).bind fun _ =>
    ((execute l _ op x y).imp fun _ => Fault.ofFetch_of_isBetween).bind (dispatch l _)

end Avoids

end Run

end StackScript
