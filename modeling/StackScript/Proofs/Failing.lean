import StackScript.Proofs.Actions

/-!
What a failing operation of the stack leaves behind. All operations leave the whole machine as it was, but for the three
that act on the stack and on the heap one after the other: a text that finds no room on the stack stays on the heap, a
handle that leads to no text is off the stack, and references stay taken up to the first handle that dangles.
-/
namespace StackScript

/-- The operations of the stack, with their arguments. -/
inductive Stack.Operation
  | push (bs : Bytes)
  | pull (n : Nat)
  | top (n : Nat)
  | copy (start size : Nat)
  | drop (skip size : Nat)
  | pushNat (n v : Nat)
  | pullNat (n : Nat)
  | pushInt32 (v : Int32)
  | pullInt32
  | pushInt64 (v : Int64)
  | pullInt64
  | pushWord {w : Width} (v : Word w)
  | pullWord (w : Width)
  | pushBool (b : Bool)
  | pullBool
  | pushHandle (r : Handle)
  | pullHandle
  | handleAt (offset : Nat)
  | clearHandleAt (offset : Nat)
  | increfTop (t : Ty)
  | pushValue (v : Value)
  | pullValue (t : Ty)
  | pushString (s : String)
  | pullString
  | pushFrame (f : Frame)
  | popFrame

namespace Stack.Operation

open Run

/-- What an operation gives. -/
abbrev Result : Operation → Type
  | pull _ | top _ => Bytes
  | pullNat _ => Nat
  | pullInt32 => Int32
  | pullInt64 => Int64
  | pullWord w => Word w
  | pullBool => Bool
  | pullHandle | handleAt _ => Handle
  | pullValue _ => Value
  | pullString => String
  | popFrame => Frame
  | _ => Unit

def perform : (o : Operation) → Run o.Result
  | push bs => Run.push bs
  | pull n => Run.pull n
  | top n => readStack fun s => s.top n
  | copy start size => setStack fun s => s.copy start size
  | drop skip size => setStack fun s => s.drop skip size
  | pushNat n v => Run.pushNat n v
  | pullNat n => Run.pullNat n
  | pushInt32 v => Run.pushInt32 v
  | pullInt32 => Run.pullInt32
  | pushInt64 v => Run.pushInt64 v
  | pullInt64 => Run.pullInt64
  | pushWord v => Run.pushWord v
  | pullWord w => Run.pullWord w
  | pushBool b => Run.pushBool b
  | pullBool => Run.pullBool
  | pushHandle r => Run.pushHandle r
  | pullHandle => Run.pullHandle
  | handleAt offset => readStack fun s => s.handleAt offset
  | clearHandleAt offset => setStack fun s => s.clearHandleAt offset
  | increfTop t => Run.increfTop t
  | pushValue v => Run.pushValue v
  | pullValue t => Run.pullValue t
  | pushString s => Run.pushString s
  | pullString => Run.pullString
  | pushFrame f => Run.pushFrame f
  | popFrame => Run.popFrame

/-- What is left of a machine when an operation fails with a fault. -/
def Leaves (m : Machine) (e : Fault) (m' : Machine) : Operation → Prop
  | pushString s =>
    -- The new cell stays.
    e = .stackOverflow m.stack.limit ∧ m' = { m with heap := (m.heap.alloc (.string s)).1 }
  | pullString =>
    -- The handle is gone, and with it the reference that it stood for, if it led to something else than a text.
    m' = m ∨ ∃ r s, m.stack.pullHandle = .ok (r, s) ∧ m.heap.string r = .error e ∧ m' = { m with stack := s }
  | increfTop t =>
    -- The references before the dangling handle stay taken.
    m' = m ∨ ∃ bs taken r rest heap, m.stack.top t.size = .ok bs ∧ t.handlesAt 0 bs = .ok (taken ++ r :: rest) ∧
      Heap.increfs taken m.heap = (heap, .ok ()) ∧ heap.incref r = (heap, .error e) ∧ m' = { m with heap := heap }
  | _ => m' = m

end Stack.Operation

namespace Run

variable {α β : Type}

/-- Fails without a trace. -/
def Atomic (x : Run α) : Prop := ∀ m e m', x m = .error e m' → m' = m

namespace Atomic

theorem onStack (f : Stack → Except Fault (α × Stack)) : Atomic (onStack f) := by
  intro m e m' h
  unfold Run.onStack at h
  split at h <;> cases h
  rfl

theorem setStack (f : Stack → Except Fault Stack) : Atomic (setStack f) := by
  intro m e m' h
  unfold Run.setStack at h
  split at h <;> cases h
  rfl

theorem readStack (f : Stack → Except Fault α) : Atomic (readStack f) := by
  intro m e m' h
  unfold Run.readStack at h
  split at h <;> cases h
  rfl

theorem pushNat (n v : Nat) : Atomic (pushNat n v) := setStack _

theorem pullNat (n : Nat) : Atomic (pullNat n) := onStack _

theorem pushFrame (f : Frame) : Atomic (pushFrame f) := by
  intro m e m' h
  cases h

theorem popFrame : Atomic popFrame := by
  intro m e m' h
  unfold Run.popFrame at h
  split at h <;> cases h
  rfl

/-- What is read off the result of an action cannot fail any more. -/
theorem then_pure {x : Run α} (hx : Atomic x) (f : α → β) : Atomic (do return f (← x)) := by
  intro m e m' h
  change EStateM.bind x (fun a => pure (f a)) m = _ at h
  unfold EStateM.bind at h
  cases hr : x m with
  | ok a n => rw [hr] at h; cases h
  | error e' n =>
    rw [hr] at h
    cases h
    exact hx m e _ hr

end Atomic

end Run

namespace Heap

/-- Whoever has read a text can give it up. -/
theorem decref_of_string {h : Heap} {r : Handle} {s : String} (e : h.string r = .ok s) :
    ∃ h' b, h.decref r = (h', .ok b) := by
  unfold decref
  by_cases hn : r.isNull
  · exact ⟨h, false, if_pos hn⟩
  rw [if_neg hn]
  rw [string, if_neg hn, content] at e
  unfold decrement
  cases hc : h.cell? r with
  | none => simp [hc, bind, Except.bind] at e
  | some p =>
    obtain ⟨c, content⟩ := p
    cases content with
    | string s =>
      by_cases hcount : 1 < c.count
      · simp only [hcount, if_true]
        exact ⟨_, _, rfl⟩
      · simp only [hcount, if_false]
        exact ⟨_, _, rfl⟩
    | list elem bytes => simp [hc, bind, Except.bind] at e
    | closure c => simp [hc, bind, Except.bind] at e

theorem incref_error {h h' : Heap} {r : Handle} {e : Fault} (he : h.incref r = (h', .error e)) : h' = h := by
  unfold incref at he
  split at he
  · cases he
  · split at he
    · cases he
      rfl
    · cases he

/-- References are taken one by one, up to the first handle that dangles. -/
theorem increfs_error {rs : List Handle} : ∀ {h h' : Heap} {e : Fault}, increfs rs h = (h', .error e) →
    ∃ taken r rest, rs = taken ++ r :: rest ∧ increfs taken h = (h', .ok ()) ∧ h'.incref r = (h', .error e) := by
  induction rs with
  | nil =>
    intro h h' e he
    cases he
  | cons r rs ih =>
    intro h h' e he
    unfold increfs at he
    split at he
    · next hr =>
      cases he
      cases incref_error hr
      exact ⟨[], r, rs, rfl, rfl, hr⟩
    · next h₁ hr =>
      obtain ⟨taken, r', rest, rfl, ht, hr'⟩ := ih he
      refine ⟨r :: taken, r', rest, rfl, ?_, hr'⟩
      rw [increfs, hr]
      exact ht

end Heap

namespace Stack.Operation

open Run

theorem pushString_leaves {m m' : Machine} {e : Fault} {s : String}
    (h : (pushString s).perform m = .error e m') : (pushString s).Leaves m e m' := by
  change EStateM.bind (alloc (.string s)) Run.pushHandle m = _ at h
  unfold EStateM.bind alloc onHeap Run.pushHandle Run.push Run.setStack at h
  dsimp only at h
  rcases m.stack.push_cases (m.heap.alloc (.string s)).2.toBytes with hp | ⟨t, hp, -⟩
  · rw [hp] at h
    cases h
    exact ⟨rfl, rfl⟩
  · rw [hp] at h
    cases h

theorem pullString_leaves {m m' : Machine} {e : Fault}
    (h : pullString.perform m = .error e m') : pullString.Leaves m e m' := by
  change EStateM.bind Run.pullHandle (fun r => EStateM.bind (readHeap fun h => h.string r)
    fun s => EStateM.bind (decref r) fun _ => pure s) m = _ at h
  unfold EStateM.bind Run.pullHandle Run.onStack at h
  cases hp : m.stack.pullHandle with
  | error e' =>
    rw [hp] at h
    cases h
    exact .inl rfl
  | ok p =>
    obtain ⟨r, s⟩ := p
    rw [hp] at h
    unfold readHeap at h
    dsimp only at h
    cases hs : m.heap.string r with
    | error e' =>
      rw [hs] at h
      cases h
      exact .inr ⟨r, s, hp, hs, rfl⟩
    | ok text =>
      obtain ⟨heap, b, hd⟩ := Heap.decref_of_string hs
      rw [hs] at h
      unfold decref onHeap at h
      dsimp only at h
      rw [hd] at h
      cases h

theorem increfTop_leaves {m m' : Machine} {e : Fault} {t : Ty}
    (h : (increfTop t).perform m = .error e m') : (increfTop t).Leaves m e m' := by
  change EStateM.bind (Run.readStack fun s => s.top t.size) (fun bs => EStateM.bind (lift (t.handlesAt 0 bs))
    fun rs => onHeap fun h => Heap.increfs rs h) m = _ at h
  unfold EStateM.bind Run.readStack lift at h
  dsimp only at h
  cases ht : m.stack.top t.size with
  | error e' =>
    rw [ht] at h
    cases h
    exact .inl rfl
  | ok bs =>
    rw [ht] at h
    dsimp only at h
    cases hh : t.handlesAt 0 bs with
    | error e' =>
      rw [hh] at h
      cases h
      exact .inl rfl
    | ok rs =>
      rw [hh] at h
      unfold onHeap at h
      dsimp only at h
      rcases hr : Heap.increfs rs m.heap with ⟨heap, _ | _⟩
      · rw [hr] at h
        cases h
        obtain ⟨taken, r, rest, rfl, taking, dangles⟩ := Heap.increfs_error hr
        exact .inr ⟨bs, taken, r, rest, heap, ht, hh, taking, dangles, rfl⟩
      · rw [hr] at h
        cases h

/-- What any operation leaves behind when it fails. -/
theorem failure_leaves (o : Operation) (m m' : Machine) (e : Fault) (h : o.perform m = .error e m') :
    o.Leaves m e m' := by
  cases o with
  | push bs => exact Atomic.setStack (fun s => s.push bs) m e m' h
  | pull n => exact Atomic.onStack (fun s => s.pull n) m e m' h
  | top n => exact Atomic.readStack (fun s => s.top n) m e m' h
  | copy start size => exact Atomic.setStack (fun s => s.copy start size) m e m' h
  | drop skip size => exact Atomic.setStack (fun s => s.drop skip size) m e m' h
  | pushNat n v => exact Atomic.pushNat n v m e m' h
  | pullNat n => exact Atomic.pullNat n m e m' h
  | pushInt32 v => exact Atomic.pushNat 4 _ m e m' h
  | pullInt32 => exact (Atomic.pullNat 4).then_pure _ m e m' h
  | pushInt64 v => exact Atomic.pushNat 8 _ m e m' h
  | pullInt64 => exact (Atomic.pullNat 8).then_pure _ m e m' h
  | pushWord v => exact Atomic.pushNat _ _ m e m' h
  | pullWord w => exact (Atomic.pullNat w.size).then_pure _ m e m' h
  | pushBool b => exact Atomic.setStack (fun s => s.push [if b then 1 else 0]) m e m' h
  | pullBool => exact (Atomic.onStack fun s => s.pull 1).then_pure _ m e m' h
  | pushHandle r => exact Atomic.setStack (fun s => s.push r.toBytes) m e m' h
  | pullHandle => exact Atomic.onStack Stack.pullHandle m e m' h
  | handleAt offset => exact Atomic.readStack (fun s => s.handleAt offset) m e m' h
  | clearHandleAt offset => exact Atomic.setStack (fun s => s.clearHandleAt offset) m e m' h
  | increfTop t => exact increfTop_leaves h
  | pushValue v => exact Atomic.setStack (fun s => s.pushValue v) m e m' h
  | pullValue t => exact Atomic.onStack (fun s => s.pullValue t) m e m' h
  | pushString s => exact pushString_leaves h
  | pullString => exact pullString_leaves h
  | pushFrame f => exact Atomic.pushFrame f m e m' h
  | popFrame => exact Atomic.popFrame m e m' h

/-- A text that finds no room on the stack is left on the heap. -/
theorem failure_leaves_text :
    let m : Machine := { stack := .empty 0 }
    ((pushString "a").perform m = .error (.stackOverflow 0) { m with heap := (m.heap.alloc (.string "a")).1 }) ∧
      (pushString "a").Leaves m (.stackOverflow 0) { m with heap := (m.heap.alloc (.string "a")).1 } :=
  ⟨rfl, failure_leaves _ _ _ _ rfl⟩

/-- The operation can fail and leave something behind. -/
def Soils (o : Stack.Operation) : Prop :=
  ∃ m e m', o.perform m = .error e m' ∧ ¬ (m'.stack = m.stack ∧ m'.frames = m.frames ∧ m'.heap = m.heap)

/-- Some operations do: a handle that dangles is pulled all the same, a text stays without room for its handle, and of two
handles the first gets its reference though the second one dangles. -/
theorem failure_not_atomic :
    pullString.Soils ∧ (pushString "a").Soils ∧ (increfTop (.tuple [.string, .string])).Soils := by
  -- Two handles, of which the upper one dangles, over the heap with the text that the lower one leads to.
  let bytes := ((Handle.mk 0 1).toBytes ++ (Handle.mk 1 1).toBytes).reverse
  let m : Machine := { stack := ⟨bytes, 16, 16, by decide⟩, heap := (Heap.alloc {} (.string "b")).1 }
  refine ⟨⟨m, _, _, rfl, fun same => ?_⟩, ⟨m, _, _, rfl, fun same => ?_⟩, ⟨m, _, _, rfl, fun same => ?_⟩⟩
  · exact absurd (congrArg Stack.size same.1) (by decide)
  · exact absurd (congrArg Heap.live same.2.2) (by decide)
  · exact absurd (congrArg (fun h => h.cells.map Cell.count) same.2.2) (by decide +kernel)

end Stack.Operation

end StackScript
