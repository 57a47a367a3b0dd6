import StackScript.Proofs.Executing
import StackScript.Proofs.RunSound

/-!
Runs of code that takes a course. On a machine that nothing stops, the run ends as the course does, unless the stack
overflows.
-/
namespace StackScript

/-! ### Machines that nothing stops -/

/-- What can break off a run from outside: the limit, and the step that is waited for. -/
def Machine.brakes (m : Machine) : Option Nat × Option Nat := (m.limit, m.watch.bind Watch.breakAt)

/-- Neither a limit nor a watch breaks off the run. -/
def Machine.Unstopped (m : Machine) : Prop := m.brakes = (none, none)

/-- The next step is within the limit, and no watch waits for a step. -/
def Machine.Proceeds (m : Machine) : Prop := (∀ n ∈ m.limit, m.steps < n) ∧ m.watch.bind Watch.breakAt = none

theorem Machine.Unstopped.proceeds {m : Machine} (h : m.Unstopped) : m.Proceeds := by
  obtain ⟨limit, watch⟩ := Prod.mk.inj h
  exact ⟨by rw [limit]; exact nofun, watch⟩

namespace Run

variable {α β : Type} {x : Run α}

/-- An action that leaves the brakes. -/
def Coasts (x : Run α) : Prop := ∀ m, Meets x m (fun _ n => n.brakes = m.brakes) fun _ _ => True

namespace Coasts

theorem pure (a : α) : Coasts (Pure.pure a) := fun _ => rfl

theorem throw (e : Fault) : Coasts (MonadExcept.throw e : Run α) := fun _ => trivial

theorem get : Coasts (MonadState.get : Run Machine) := fun _ => rfl

theorem bind {f : α → Run β} (hx : Coasts x) (hf : ∀ a, Coasts (f a)) : Coasts (x >>= f) := fun m =>
  meets_bind.2 ((hx m).imp (fun a n h => ((hf a) n).imp (fun _ _ k => k.trans h) fun _ _ k => k) fun _ _ k => k)

theorem change {f : Machine → Machine} (h : ∀ m, (f m).brakes = m.brakes) : Coasts (modify f) := fun m =>
  meets_modify.2 (h m)

theorem setStack (f : Stack → Except Fault Stack) : Coasts (Run.setStack f) := fun m => by
  unfold Meets Run.setStack
  cases f m.stack <;> trivial

end Coasts

theorem Basic.coasts (h : Basic x) : Coasts x := by
  induction h with
  | pure a => exact .pure a
  | throw e => exact .throw e
  | bind _ _ hx hf => exact hx.bind hf
  | lift r => exact fun m => by cases r <;> trivial
  | onStack =>
    intro m
    unfold Meets Run.onStack
    split <;> (next e => split at e <;> cases e; trivial)
  | readHeap f =>
    intro m
    unfold Meets Run.readHeap
    split <;> (next e => split at e <;> cases e; trivial)
  | @onHeap _ f _ =>
    intro m
    unfold Meets Run.onHeap
    cases hr : (f m.heap).2 <;> simp only [hr] <;> trivial
  | observe f _ hf => exact Coasts.get.bind fun m => hf m.heap
  | record e => exact .change fun _ => rfl
  | notice e => exact .change fun m => by split <;> rfl

namespace Coasts

variable (l : Library)

theorem execute (a : Activation) (op : Opcode) (first second : Nat) : Coasts (Run.execute l a op first second) := by
  by_cases hv : op = .copyVariable
  · subst hv
    exact (setStack _).bind fun _ => .pure _
  by_cases ha : op = .copyArgument
  · subst ha
    simp only [Run.execute]
    split
    · exact (throw _).bind fun _ => (setStack _).bind fun _ => .pure _
    · exact (setStack _).bind fun _ => .pure _
  exact (Basic.execute l a hv ha first second).coasts

theorem resume (a : Activation) : ∀ o, Coasts (Run.resume a o)
  | none => .pure _
  | some _ => (change fun _ => rfl : Coasts (Run.pushFrame _)).bind fun _ => get.bind fun _ => .pure _

theorem dispatch (a : Activation) : ∀ o, Coasts (Run.dispatch l a o)
  | none => .pure _
  | some f => (Basic.enter l f).coasts.bind (resume a)

theorem perform (a : Activation) (op : Opcode) (x y : Nat) : Coasts (Run.perform l a op x y) :=
  (Basic.jumpDistance op x).coasts.bind fun _ => (execute l _ op x y).bind (dispatch l _)

end Coasts

/-- A step is counted on a machine that nothing stops. -/
theorem meets_count_unstopped (l : Library) (a : Activation) (b : UInt8) {m : Machine} (h : m.Unstopped) :
    Meets (Run.count l a b) m (fun _ n => n.At m.stack.bytes m.frames m.heap ∧ n.Unstopped) fun _ _ => False := by
  obtain ⟨hl, hb⟩ := Prod.mk.inj h
  unfold Run.count
  simp only [meets_bind, meets_modify, meets_get, hl]
  cases hw : m.watch with
  | none => exact ⟨⟨rfl, rfl, rfl⟩, by simp [Machine.Unstopped, Machine.brakes]⟩
  | some v =>
    rw [hw] at hb
    have hb : v.breakAt = none := hb
    simp only [meets_pure, Run.record, meets_bind, meets_modify, hb]
    exact ⟨⟨rfl, rfl, rfl⟩, by simp [Machine.Unstopped, Machine.brakes]⟩

/-- A step within the limit is counted. -/
theorem meets_count_proceeds (l : Library) (a : Activation) (b : UInt8) {m : Machine} (h : m.Proceeds) :
    Meets (Run.count l a b) m (fun _ _ => True) fun _ _ => False := by
  obtain ⟨within, unwatched⟩ := h
  have enough (n : Nat) (hl : m.limit = some n) : ¬ n < m.steps + 1 := Nat.not_lt.2 (within n hl)
  unfold Run.count
  simp only [meets_bind, meets_modify, meets_get]
  cases hw : m.watch with
  | none =>
    cases hl : m.limit with
    | none => trivial
    | some n =>
      simp only [if_neg (enough n hl)]
      trivial
  | some v =>
    rw [hw] at unwatched
    have unwatched : v.breakAt = none := unwatched
    cases hl : m.limit with
    | none => simp only [meets_pure, Run.record, meets_bind, meets_modify, unwatched]
    | some n => simp only [if_neg (enough n hl), meets_pure, Run.record, meets_bind, meets_modify, unwatched]

end Run

/-! ### Runs -/

theorem Opcode.length_pos (op : Opcode) : 0 < op.length := by
  unfold length
  omega

theorem Fetches.lt {code : Array UInt8} {pc x y : Nat} {op : Opcode} (h : Fetches code pc op x y) : pc < code.size := by
  obtain ⟨byte, hb, -⟩ := h
  exact (Array.getElem?_eq_some_iff.1 hb).1

namespace Store

variable {w : Store} {roots : List Handle} {Δ : Denotation} {s u : Pile} {m : Machine} {k pc : Nat}
  {code : Array UInt8} {out : Except Fault Pile} {a : Activation}

/-- What a run leaves, unless the heap has outgrown its handles. -/
def Returned (roots : List Handle) (out : Except Fault Pile) (m : Machine) : Prop :=
  m.heap.cells.size ≤ Heap.capacity → ∃ u Δ bs rs ls, out = .ok u ∧ m.At bs [] m.heap ∧ Denotation.Lays Δ u bs rs ls ∧
    m.heap.Balanced (rs ++ roots) ∧ m.heap.Tells Δ

open Run

theorem Shows.count {b : UInt8} {α : Type} {x : Run α} {ok : α → Machine → Prop} {bad : Fault → Machine → Prop}
    (h : w.Shows roots Δ [] s m) (hm : m.Unstopped)
    (hok : ∀ m', w.Shows roots Δ [] s m' → m'.Unstopped → Meets x m' ok bad) :
    Meets (Run.count w.library a b >>= fun _ => x) m ok bad :=
  meets_bind.2 ((meets_count_unstopped w.library a b hm).imp
    (fun _ m' h' => hok m' (h.same (h.located.frames ▸ h'.1)) h'.2) fun _ _ h => h.elim)

theorem Shows.leave (h : w.Shows roots Δ [] s m) :
    Meets (Run.leave w.library a) m (fun o m' => o = none ∧ Returned roots (.ok s) m') (Failing out) := by
  obtain ⟨bs, rs, ls, hm, lays, balanced, tells, hls, knows⟩ := h
  refine meets_bind.2 (meets_notice hm fun m₁ hm₁ => meets_bind.2 (meets_popFrame hm₁ fun m₂ hm₂ => ?_))
  exact ⟨rfl, fun _ => ⟨s, Δ, bs, rs, ls, rfl, hm₂.heap ▸ hm₂, lays, hm₂.heap ▸ balanced, hm₂.heap ▸ tells⟩⟩

/-- A run goes on behind an instruction, unless the heap has outgrown its handles. -/
theorem Moves.steps {fuel x y : Nat} {op : Opcode} {mid : Except Fault Pile}
    (move : w.Moves a.function.module op x y s mid) (fetch : Fetches a.code a.cursor op x y) (hbase : a.base = 0)
    (statics : ∀ v ∈ (w.library.get a.function.module).values, ∀ r ∈ v.handles, r ∈ roots)
    (hcap : w.heap.cells.size ≤ Heap.capacity) (h : w.Shows roots Δ [] s m) (hm : m.Unstopped)
    (broken : ∀ e, mid = .error e → out = .error e)
    (next : ∀ u m' Δ, mid = .ok u → w.Shows roots Δ [] u m' → m'.Unstopped →
      Meets (Run.steps w.library fuel { a with cursor := a.cursor + op.length }) m' (fun _ => Returned roots out)
        (Failing out)) :
    Meets (Run.steps w.library (fuel + 1) a) m (fun _ => Returned roots out) (Failing out) := by
  obtain ⟨byte, e⟩ := step_eq (l := w.library) fetch
  unfold Run.steps
  rw [e, bind_assoc]
  refine h.count hm fun m₁ h₁ hm₁ => meets_bind.2 ?_
  refine ((move.meets hbase statics hcap h₁).and (Coasts.perform w.library a op x y m₁)).imp ?_ ?_
  · rintro o m₂ ⟨⟨rfl, after⟩, coasts⟩
    by_cases hcap : m₂.heap.cells.size ≤ Heap.capacity
    · obtain ⟨u, Δ', e, h₂⟩ := after hcap
      exact next u m₂ Δ' e h₂ (coasts.trans hm₁)
    · -- The arena has outgrown its handles, and does not shrink again.
      exact (Widens.steps w.library fuel _ m₂).imp (fun _ m₃ hw h₃ => absurd (Nat.le_trans hw h₃) hcap)
        fun e m₃ hw h₃ => absurd (Nat.le_trans hw h₃) hcap
  · rintro e m₂ ⟨failing, -⟩ hcap
    exact (failing hcap).imp_right (broken e)

theorem Course.steps (course : w.Course k code pc s out)
    (statics : ∀ v ∈ (w.library.get k).values, ∀ r ∈ v.handles, r ∈ roots) (hcap : w.heap.cells.size ≤ Heap.capacity)
    {f : FunctionRef} (hf : f.module = k) : ∀ {fuel : Nat} {m : Machine} {Δ : Denotation}, code.size - pc < fuel →
      w.Shows roots Δ [] s m → m.Unstopped →
      Meets (Run.steps w.library fuel ⟨f, code, pc, 0⟩) m (fun _ => Returned roots out) (Failing out) := by
  subst hf
  induction course with
  | done end_ =>
    intro fuel m Δ hfuel h hm
    obtain ⟨fuel, rfl⟩ := Nat.exists_eq_add_of_lt hfuel
    unfold Run.steps
    rw [step_none w.library (Array.getElem?_eq_none end_)]
    refine h.leave.seq ?_
    rintro o m' ⟨rfl, h'⟩
    exact h'
  | @step pc x y op s u out fetch move next ih =>
    intro fuel m Δ hfuel h hm
    obtain ⟨fuel, rfl⟩ := Nat.exists_eq_add_of_lt hfuel
    have hlt := fetch.lt
    refine Moves.steps (a := ⟨f, code, _, 0⟩) move fetch rfl statics hcap h hm (fun _ he => by cases he) fun u m' Δ' hu h' hm' => ?_
    cases hu
    exact ih (by have := op.length_pos; omega) h' hm'
  | fault fetch move =>
    intro fuel m Δ hfuel h hm
    obtain ⟨fuel, rfl⟩ := Nat.exists_eq_add_of_lt hfuel
    exact Moves.steps (a := ⟨f, code, _, 0⟩) move fetch rfl statics hcap h hm (fun _ he => he) fun _ _ _ hu => by cases hu
  | jump fetch next ih =>
    intro fuel m Δ hfuel h hm
    obtain ⟨fuel, rfl⟩ := Nat.exists_eq_add_of_lt hfuel
    have hlt := fetch.lt
    obtain ⟨byte, e⟩ := step_eq (l := w.library) (a := ⟨f, code, _, 0⟩) fetch
    unfold Run.steps
    rw [e, bind_assoc]
    exact h.count hm fun m₁ h₁ hm₁ => ih (by omega) h₁ hm₁
  | @branch pc x y b s out fetch next ih =>
    intro fuel m Δ hfuel h hm
    obtain ⟨fuel, rfl⟩ := Nat.exists_eq_add_of_lt hfuel
    have hlt := fetch.lt
    obtain ⟨byte, e⟩ := step_eq (l := w.library) (a := ⟨f, code, _, 0⟩) fetch
    unfold Run.steps
    rw [e, bind_assoc]
    refine h.count hm fun m₁ h₁ hm₁ => meets_bind.2 (meets_bind.2 (meets_bind.2 ?_))
    have pulled : Meets Run.pullBool m₁ (fun c m' => c = b ∧ w.Shows roots Δ [] s m') (Failing out) :=
      h₁.pullBool fun m' h' => ⟨rfl, h'⟩
    refine (pulled.and (Basic.pullBool.coasts m₁)).imp ?_ fun _ _ h => h.1
    rintro c m₂ ⟨⟨rfl, h₂⟩, coasts⟩
    cases c with
    | true => exact ih (by rw [if_pos rfl]; omega) h₂ (coasts.trans hm₁)
    | false => exact ih (by rw [if_neg Bool.false_ne_true]; omega) h₂ (coasts.trans hm₁)

end Store

end StackScript
