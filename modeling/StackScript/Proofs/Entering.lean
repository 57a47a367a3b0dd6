import StackScript.Proofs.Advancing
import StackScript.Proofs.Evaluating
import StackScript.Proofs.Fetching
import StackScript.Proofs.Growing

/-!
Functions that were never written. Where living modules have all their functions written, a run that begins in one of them
enters no function without code: what it calls is its own, or imported, or the function of a closure whose module lives.
-/
namespace StackScript

/-- A function was called that was never written. -/
def Fault.isUnwritten : Fault → Bool
  | .notCallable kind _ => kind = Body.undefined.kind
  | _ => false

theorem Fault.isUnwritten_of_isBetween {e : Fault} (h : e.isBetween = false) : e.isUnwritten = false := by
  cases e <;> first | rfl | cases h

theorem Fault.isUnwritten_notCallable {b : Body} (h : b ≠ .undefined) (name : String) :
    (Fault.notCallable b.kind name).isUnwritten = false := by
  cases b with
  | undefined => exact absurd rfl h
  | code | fragment | generic | native => rfl

namespace Library

/-- The module of the function lives. -/
def Lives (l : Library) (f : FunctionRef) : Prop := (l.get f.module).alive = true

/-- Modules that live have all their functions written. -/
def Written (l : Library) : Prop := ∀ f, l.Undefined f → ¬ l.Lives f

/-- Besides, they import modules that live. -/
structure Complete (l : Library) : Prop where
  written : l.Written
  imports : ∀ id, (l.get id).alive → ∀ r ∈ (l.get id).imports, (l.get r).alive

variable {l : Library} {f : FunctionRef} {g : Function}

theorem Complete.body (h : l.Complete) (lives : l.Lives f) (hg : l.function? f = some g) : g.body ≠ .undefined :=
  fun e => h.written f ⟨g, hg, e⟩ lives

theorem Complete.imported (h : l.Complete) {id i r : Nat} (lives : (l.get id).alive) (hr : (l.get id).imports[i]? = some r)
    (n : Nat) : l.Lives ⟨r, n⟩ := h.imports id lives r (Array.mem_of_getElem? hr)

/-- The function that the operands of an instruction of a module name. -/
def named? (l : Library) (id : Nat) : Opcode → Nat → Nat → Option FunctionRef
  | .call0, x, _ | .loadFunction, x, _ | .makeClosure, x, _ => some ⟨id, x⟩
  | .call1, x, _ => (l.get id).imports[0]?.map (⟨·, x⟩)
  | .call, x, y => (l.get id).imports[x]?.map (⟨·, y⟩)
  | _, _, _ => none

/-- The code of a function names another one, or leads to one whose code does. -/
inductive Leads (l : Library) (f : FunctionRef) : FunctionRef → Prop
  | self : Leads l f f
  | operand {g h : FunctionRef} {function : Function} {code : Array UInt8} {cursor x y : Nat} {b : UInt8} {op : Opcode}
    (before : Leads l f g) (found : l.function? g = some function) (body : function.body.code? = some code)
    (byte : code[cursor]? = some b) (read : Instruction.read code cursor b = .ofOpcode op x y)
    (named : l.named? g.module op x y = some h) : Leads l f h

theorem Complete.named (h : l.Complete) {id : Nat} (alive : (l.get id).alive) {op : Opcode} {x y : Nat} {g : FunctionRef}
    (named : l.named? id op x y = some g) : l.Lives g := by
  unfold named? at named
  split at named
  · cases named
    exact alive
  · cases named
    exact alive
  · cases named
    exact alive
  · obtain ⟨r, hr, rfl⟩ := Option.map_eq_some_iff.1 named
    exact h.imported alive hr _
  · obtain ⟨r, hr, rfl⟩ := Option.map_eq_some_iff.1 named
    exact h.imported alive hr _
  · cases named

/-- From a living module code leads to living modules only. -/
theorem Complete.leads (h : l.Complete) (lives : l.Lives f) {g : FunctionRef} (leads : l.Leads f g) : l.Lives g := by
  induction leads with
  | self => exact lives
  | operand _ _ _ _ _ named alive => exact h.named alive named

end Library

/-- Calls return into living modules. -/
def Machine.Returns (l : Library) (m : Machine) : Prop := ∀ frame ∈ m.frames, ∀ f, frame.caller = some f → l.Lives f

namespace Run

variable {α β : Type} {l : Library} {post : α → Prop} {x : Run α} {a : Activation} {f : FunctionRef}

/-- What is said of the result of an action holds of the last one in a chain. -/
theorem meets_last {k : α → Run β} {ok : β → Machine → Prop} (hk : ∀ a n, Meets (k a) n ok fun _ _ => True) (m : Machine) :
    Meets (x >>= k) m ok fun _ _ => True :=
  meets_bind.2 (.mk (fun a n _ => hk a n) fun _ _ _ => trivial)

/-- A closure whose module does not live is not opened. -/
theorem meets_openClosure (m : Machine) : Meets (openClosure l) m (fun f _ => l.Lives f) fun _ _ => True := by
  unfold openClosure
  refine meets_last (fun r _ => meets_last (fun c _ => meets_last (fun _ _ => meets_last (fun _ _ => meets_last (fun _ _ =>
    meets_last (fun _ _ => ?_) _) _) _) _) _) m
  split
  · trivial
  · next alive =>
    have lives : (l.get c.function.module).alive = true := by simpa using alive
    exact lives

/-- Instructions of a living module call functions of living modules. -/
theorem meets_execute (hl : l.Complete) (lives : l.Lives a.function) (op : Opcode) (x y : Nat) (m : Machine) :
    Meets (execute l a op x y) m (fun o _ => ∀ f, o = some f → l.Lives f) fun _ _ => True := by
  have nothing (m : Machine) : Meets (pure none : Run (Option FunctionRef)) m (fun o _ => ∀ f, o = some f → l.Lives f)
      fun _ _ => True := nofun
  have import' (i n : Nat) (m : Machine) : Meets (lift (l.findImport a.function.module i) >>= fun r => pure (some ⟨r, n⟩)) m
      (fun o _ => ∀ f, o = some f → l.Lives f) fun _ _ => True := by
    unfold Library.findImport
    cases hr : (l.get a.function.module).imports[i]? with
    | none => trivial
    | some r =>
      rintro _ ⟨⟩
      exact hl.imported lives hr n
  cases op with
  | noop | jump | jumpIfNot => exact nothing m
  | logicalNot => exact meets_last (fun _ => meets_last fun _ => nothing) m
  | logicalOr | logicalAnd => exact meets_last (fun _ => meets_last fun _ => meets_last fun _ => nothing) m
  | word op w => exact meets_last (fun _ => nothing) m
  | execute =>
    refine meets_bind.2 ((meets_openClosure m).imp (fun f _ alive => ?_) fun _ _ _ => trivial)
    rintro _ ⟨⟩
    exact alive
  | invoke =>
    exact meets_last (fun _ => meets_last fun _ => meets_last fun _ => meets_last fun _ => meets_last fun _ => nothing) m
  | loadStatic => exact meets_last (fun _ => meets_last fun _ => meets_last fun _ => nothing) m
  | loadFunction => exact meets_last (fun _ => meets_last fun _ => nothing) m
  | makeClosure => exact meets_last (fun _ => meets_last fun _ => meets_last fun _ => nothing) m
  | call0 =>
    rintro _ ⟨⟩
    exact lives
  | call1 => exact import' 0 x m
  | call => exact import' x y m
  | incRef => exact meets_last (fun _ => meets_last fun _ => nothing) m
  | decRef =>
    refine meets_last (fun r => meets_last fun freed => ?_) m
    cases freed
    · exact nothing
    · exact meets_last fun _ => nothing
  | subscript => exact meets_last (fun _ => meets_last fun _ => nothing) m
  | makeList =>
    refine meets_last (fun t => meets_last fun bs => ?_) m
    dsimp only
    split
    · exact meets_last fun _ => nothing
    · exact meets_last fun _ => meets_last fun _ => nothing
  | copyVariable => exact meets_last (fun _ => nothing) m
  | copyArgument =>
    unfold execute
    dsimp only
    split
    · exact meets_last (fun _ => meets_last fun _ => nothing) m
    · exact meets_last (fun _ => nothing) m
  | drop => exact meets_last (fun _ => nothing) m

/-! ### Runs -/

/-- An action that calls nothing unwritten, and leaves frames that return into living modules. -/
def Survives (l : Library) (post : α → Prop) (x : Run α) : Prop :=
  ∀ m, m.Returns l → Meets x m (fun a n => n.Returns l ∧ post a) fun e _ => e.isUnwritten = false

namespace Survives

theorem pure {a : α} (h : post a) : Survives l post (Pure.pure a) := fun _ hm => ⟨hm, h⟩

theorem bind {k : α → Run β} {post' : β → Prop} (hx : Survives l post x) (hk : ∀ a, post a → Survives l post' (k a)) :
    Survives l post' (x >>= k) := fun m hm => (hx m hm).seq fun a n h => hk a h.2 n h.1

/-- An action that leaves the frames. -/
theorem within (stays : Stays x) (avoids : Avoids Fault.isUnwritten x) : Survives l (fun _ => True) x := fun m hm =>
  ((stays m).and (avoids m)).imp (fun _ _ h => ⟨fun frame hf => hm frame (h.1.frames ▸ hf), trivial⟩) fun _ _ h => h.2

theorem instruction (basic : Basic x) (avoids : Avoids Fault.isBetween x) : Survives l (fun _ => True) x :=
  within basic.stays (avoids.imp fun _ => Fault.isUnwritten_of_isBetween)

/-- What is known of the result besides. -/
theorem and {post' : α → Prop} (h : Survives l post x) (k : ∀ m, Meets x m (fun a _ => post' a) fun _ _ => True) :
    Survives l post' x := fun m hm => ((h m hm).and (k m)).imp (fun _ _ h => ⟨h.1.1, h.2⟩) fun _ _ h => h.1

variable (hl : l.Complete)
include hl

theorem execute (lives : l.Lives a.function) (op : Opcode) (x y : Nat) :
    Survives l (fun o => ∀ f, o = some f → l.Lives f) (Run.execute l a op x y) :=
  (within (Stays.execute l a op x y) ((Avoids.execute l a op x y).imp fun _ => Fault.isUnwritten_of_isBetween)).and
    (meets_execute hl lives op x y)

theorem enter (lives : l.Lives f) : Survives l (fun o => ∀ b, o = some b → b.function = f) (Run.enter l f) := by
  have callable (g : Function) (hg : l.findFunction f = .ok g) :
      Fault.isUnwritten (.notCallable g.body.kind g.name) = false :=
    Fault.isUnwritten_notCallable (hl.body lives (Library.function?_of_find hg)) g.name
  refine (within (Basic.enter l f).stays (Avoids.enter l (fun _ => Fault.isUnwritten_of_isBetween) callable)).and fun m => ?_
  exact (enter_start f m).imp (fun o _ start b hb => congrArg Activation.function (start b hb)) fun _ _ h => h

omit hl in
theorem resume (lives : l.Lives a.function) {o : Option Activation} (ho : ∀ b, o = some b → l.Lives b.function) :
    Survives l (fun o => ∀ b, o = some b → l.Lives b.function) (Run.resume a o) := by
  cases o with
  | none =>
    refine pure fun b hb => ?_
    obtain rfl := Option.some.inj hb
    exact lives
  | some callee =>
    intro m hm
    refine meets_bind.2 (meets_modify.2 (meets_bind.2 (meets_get.2 (meets_pure.2 ⟨?_, fun b hb => ?_⟩))))
    · refine List.forall_mem_cons.2 ⟨fun f hf => ?_, hm⟩
      obtain rfl := Option.some.inj hf
      exact lives
    · obtain rfl := Option.some.inj hb
      exact ho callee rfl

theorem dispatch (lives : l.Lives a.function) {o : Option FunctionRef} (ho : ∀ f, o = some f → l.Lives f) :
    Survives l (fun o => ∀ b, o = some b → l.Lives b.function) (Run.dispatch l a o) := by
  cases o with
  | none => exact resume (o := none) lives nofun
  | some f => exact (enter hl (ho f rfl)).bind fun o entered => resume lives fun b hb => (entered b hb).symm ▸ ho f rfl

theorem perform (lives : l.Lives a.function) (op : Opcode) (x y : Nat) :
    Survives l (fun o => ∀ b, o = some b → l.Lives b.function) (Run.perform l a op x y) :=
  (instruction (Basic.jumpDistance op x) (Avoids.jumpDistance op x)).bind fun d _ =>
    (execute (a := { a with cursor := a.cursor + op.length + d }) hl lives op x y).bind fun _ called =>
      dispatch (a := { a with cursor := a.cursor + op.length + d }) hl lives called

omit hl in
theorem count (a : Activation) (b : UInt8) : Survives l (fun _ => True) (Run.count l a b) :=
  within (Stays.count l a b) fun m => (meets_count l a b m).imp (fun _ _ _ => trivial) fun e _ h => by
    obtain ⟨⟨n, rfl⟩, -⟩ := h
    rfl

omit hl in
theorem leave (a : Activation) : Survives l (fun o => ∀ b, o = some b → l.Lives b.function) (Run.leave l a) := by
  refine (instruction (Basic.notice _) (Avoids.notice _)).bind fun _ _ => ?_
  rintro ⟨stack, frames, heap, steps, limit, watch, journal⟩ hm
  cases frames with
  | nil => rfl
  | cons frame frames =>
    obtain ⟨into, rest⟩ := List.forall_mem_cons.1 hm
    obtain ⟨caller, cursor, base⟩ := frame
    refine meets_bind.2 ?_
    cases caller with
    | none => exact ⟨rest, nofun⟩
    | some f =>
      refine ⟨rest, fun b hb => ?_⟩
      obtain rfl := Option.some.inj hb
      exact into f rfl

theorem step (lives : l.Lives a.function) :
    Survives l (fun o => ∀ b, o = some b → l.Lives b.function) (Run.step l a) := by
  cases byte : a.code[a.cursor]? with
  | none =>
    rw [step_none l byte]
    exact leave a
  | some b =>
    rw [step_some l byte]
    refine (count a b).bind fun _ _ => ?_
    cases Instruction.read a.code a.cursor b with
    | unknown b => exact fun _ _ => rfl
    | truncated op => exact fun _ _ => rfl
    | ofOpcode op x y => exact perform hl lives op x y

theorem steps : ∀ (fuel : Nat) {a : Activation}, l.Lives a.function → Survives l (fun _ => True) (Run.steps l fuel a)
  | 0, _, _ => fun _ _ => rfl
  | fuel + 1, a, lives => (step hl lives).bind fun o next => by
    cases o with
    | none => exact pure trivial
    | some b => exact steps fuel (next b rfl)

theorem launch (lives : l.Lives f) : Survives l (fun _ => True) (Run.launch l f) := fun m hm => by
  have host : Machine.Returns l { m with frames := ⟨none, 0, m.stack.size⟩ :: m.frames } :=
    List.forall_mem_cons.2 ⟨nofun, hm⟩
  have run : Survives l (fun _ => True) (Run.enter l f >>= Run.follow l m.stack.size) := (enter hl lives).bind fun o entered => by
    cases o with
    | none => exact pure trivial
    | some b => exact steps hl ceiling ((entered b rfl).symm ▸ lives : l.Lives b.function)
  exact meets_bind.2 (meets_get.2 (meets_bind.2 (meets_modify.2 (run _ host))))

theorem answer {g : Function} (lives : l.Lives f) (hg : l.function? f = some g) :
    Survives l (fun _ => True) (Run.answer l f g) := by
  have written := hl.body lives hg
  unfold Run.answer
  cases body : g.body with
  | native n => exact (enter hl lives).bind fun _ _ => pure trivial
  | undefined => exact absurd body written
  | generic decl scope => exact fun _ _ => rfl
  | code bytes => exact launch hl lives
  | fragment op => exact launch hl lives

theorem call (lives : l.Lives f) : Survives l (fun _ => True) (Run.call l f) := by
  rw [call_eq]
  cases found : l.findFunction f with
  | error e => exact fun _ _ => Fault.isUnwritten_of_isBetween (Avoids.later_findFunction l f e found)
  | ok g =>
    have known : (lift (.ok g) : Run Function) = Pure.pure g := rfl
    rw [known, pure_bind]
    have counted : Survives l (fun _ => True) (modify fun m : Machine => if m.frames.isEmpty then { m with steps := 0 } else m) :=
      fun m hm => meets_modify.2 ⟨by split <;> exact hm, trivial⟩
    exact counted.bind fun _ _ => answer hl lives (Library.function?_of_find found)

theorem evaluate (lives : l.Lives f) : Survives l (fun _ => True) (Run.evaluate l f) :=
  (call hl lives).bind fun _ _ => (instruction (Basic.lift _) (Avoids.lift (Avoids.later_findFunction l f))).bind fun _ _ =>
    instruction (Basic.pullValue _) (Avoids.pullValue _)

end Survives

end Run

end StackScript
