import StackScript.Proofs.Persistence

/-!
Runs over a library that has grown. What a run finds in a library it finds again in one that upholds it, so it goes
through the same machines, unless it misses something in the first.
-/
namespace StackScript

/-- The action needs something that the library does not have. -/
def Fault.isMissing : Fault → Bool
  | .badFunctionIndex _ _ | .noImport _ _ | .typeOutOfRange _ | .staticOutOfRange _ | .droppedModule => true
  | _ => false

/-- Nobody watches, and the library has the functions that are returned to. -/
structure Machine.Known (l : Library) (m : Machine) : Prop where
  unwatched : m.watch = none
  callers : ∀ frame ∈ m.frames, ∀ f, frame.caller = some f → (l.function? f).isSome

namespace Library

variable {l l' : Library}

/-! ### What is looked up -/

theorem Upholds.get (h : l.Upholds l') {id : Nat} {m : Module} (hm : l.modules[id]? = some m) : m.Keeps (l'.get id) := by
  obtain ⟨n, hn, keeps⟩ := h id m hm
  rwa [get_eq hn]

theorem Upholds.function? (h : l.Upholds l') {f : FunctionRef} {g : Function} (hg : l.function? f = some g) :
    l'.function? f = some g := by
  obtain ⟨m, hm, hi⟩ := exists_module hg
  obtain ⟨n, hn, keeps⟩ := h f.module m hm
  rw [function?_of_module hn]
  exact keeps.functions f.index g hi

/-- What is looked up is found again, or was missing. -/
def Recalls {α : Type} (x y : Except Fault α) : Prop :=
  match x with
  | .ok a => y = .ok a
  | .error e => e.isMissing

theorem Upholds.findFunction (h : l.Upholds l') (f : FunctionRef) : Recalls (l.findFunction f) (l'.findFunction f) := by
  unfold Library.findFunction
  cases hg : l.function? f with
  | none => rfl
  | some g => simp only [h.function? hg, Recalls]

/-- An entry of a table that the modules of both libraries have. -/
theorem Upholds.entry {α : Type} (h : l.Upholds l') (table : Module → Array α) (empty : table default = #[])
    (kept : ∀ {m n : Module}, m.Keeps n → ∀ (i : Nat) (a : α), (table m)[i]? = some a → (table n)[i]? = some a)
    {id i : Nat} {a : α} (ha : (table (l.get id))[i]? = some a) : (table (l'.get id))[i]? = some a := by
  cases hm : l.modules[id]? with
  | none =>
    rw [get_none hm, empty] at ha
    simp at ha
  | some m =>
    rw [get_eq hm] at ha
    exact kept (h.get hm) i a ha

theorem Upholds.findImport (h : l.Upholds l') (id i : Nat) : Recalls (l.findImport id i) (l'.findImport id i) := by
  unfold Library.findImport
  cases ha : (l.get id).imports[i]? with
  | none => rfl
  | some r => simp only [h.entry Module.imports rfl (·.imports) ha, Recalls]

theorem Upholds.findType (h : l.Upholds l') (id i : Nat) : Recalls (l.findType id i) (l'.findType id i) := by
  unfold Library.findType
  cases ha : (l.get id).types[i]? with
  | none => rfl
  | some t => simp only [h.entry Module.types rfl (·.types) ha, Recalls]

theorem Upholds.findValue (h : l.Upholds l') (id i : Nat) : Recalls (l.findValue id i) (l'.findValue id i) := by
  unfold Library.findValue
  cases ha : (l.get id).values[i]? with
  | none => rfl
  | some v => simp only [h.entry Module.values rfl (·.values) ha, Recalls]

end Library

namespace Run

variable {α β : Type} {l l' : Library} {x y : Run α} {post : α → Prop}

/-- The second action does what the first one does, unless the first one misses something. -/
def Retraces (l : Library) (post : α → Prop) (x y : Run α) : Prop :=
  ∀ m, m.Known l → Meets x m (fun a n => y m = .ok a n ∧ n.Known l ∧ post a) fun e n => e.isMissing ∨ y m = .error e n

/-- Nothing is said about a result. -/
def Anything (_ : α) : Prop := True

/-- An activation that is left to be run runs a function of the library. -/
def Present (l : Library) (o : Option Activation) : Prop := ∀ a ∈ o, (l.function? a.function).isSome

namespace Retraces

theorem pure {a : α} (ha : post a) : Retraces l post (Pure.pure a) (Pure.pure a) := fun _ hm => ⟨rfl, hm, ha⟩

theorem throw (e : Fault) : Retraces l post (MonadExcept.throw e) (MonadExcept.throw e) := fun _ _ => .inr rfl

theorem bind {f g : α → Run β} {post' : β → Prop} (hx : Retraces l post x y)
    (hf : ∀ a, post a → Retraces l post' (f a) (g a)) : Retraces l post' (x >>= f) (y >>= g) := by
  intro m hm
  refine meets_bind.2 ((hx m hm).imp (fun a n h => ?_) fun e n h => h.imp_right fun h => ?_)
  · obtain ⟨same, hn, ha⟩ := h
    have next : (y >>= g) m = g a n := by
      change EStateM.bind y g m = _
      unfold EStateM.bind
      rw [same]
    rw [next]
    exact hf a ha n hn
  · change EStateM.bind y g m = _
    unfold EStateM.bind
    rw [h]

/-- A first action that misses something. -/
theorem missing {e : Fault} (he : e.isMissing) : Retraces l post (MonadExcept.throw e) y := fun _ _ => .inl he

theorem find {r r' : Except Fault α} (h : Library.Recalls r r') : Retraces l (fun a => r = .ok a) (lift r) (lift r') := by
  cases r with
  | ok a =>
    obtain rfl : r' = .ok a := h
    exact fun m hm => ⟨rfl, hm, rfl⟩
  | error e => exact missing h

theorem get : Retraces l (·.Known l) MonadState.get MonadState.get := fun _ hm => ⟨rfl, hm, hm⟩

theorem change {f : Machine → Machine} (watch : ∀ m, (f m).watch = m.watch) (frames : ∀ m, (f m).frames = m.frames) :
    Retraces l Anything (modify f) (modify f) := fun m hm =>
  meets_modify.2 ⟨rfl, ⟨(watch m).trans hm.unwatched, (frames m).symm ▸ hm.callers⟩, trivial⟩

theorem onStack (f : Stack → Except Fault (α × Stack)) : Retraces l Anything (Run.onStack f) (Run.onStack f) := by
  intro m hm
  unfold Meets Run.onStack
  cases f m.stack with
  | ok p => exact ⟨rfl, ⟨hm.unwatched, hm.callers⟩, trivial⟩
  | error e => exact .inr rfl

theorem setStack (f : Stack → Except Fault Stack) : Retraces l Anything (Run.setStack f) (Run.setStack f) := by
  rw [setStack_eq]
  exact onStack _

theorem pushFrame {frame : Frame} (known : ∀ f, frame.caller = some f → (l.function? f).isSome) :
    Retraces l Anything (Run.pushFrame frame) (Run.pushFrame frame) := fun _ hm =>
  meets_modify.2 ⟨rfl, ⟨hm.unwatched, List.forall_mem_cons.2 ⟨known, hm.callers⟩⟩, trivial⟩

theorem popFrame : Retraces l (fun frame => ∀ f, frame.caller = some f → (l.function? f).isSome) Run.popFrame
    Run.popFrame := by
  rintro ⟨stack, frames, heap, steps, limit, watch, journal⟩ hm
  cases frames with
  | nil => exact .inr rfl
  | cons frame frames =>
    have callers := List.forall_mem_cons.1 hm.callers
    exact ⟨rfl, ⟨hm.unwatched, callers.2⟩, callers.1⟩

end Retraces

theorem Basic.retraces (h : Basic x) : Retraces l Anything x x := by
  induction h with
  | pure a => exact .pure trivial
  | throw e => exact .throw e
  | bind _ _ hx hf => exact hx.bind fun a _ => hf a
  | lift r =>
    cases r with
    | ok a => exact .pure trivial
    | error e => exact .throw e
  | onStack => exact .onStack _
  | readHeap f =>
    intro m hm
    unfold Meets Run.readHeap
    cases f m.heap with
    | ok a => exact ⟨rfl, hm, trivial⟩
    | error e => exact .inr rfl
  | @onHeap _ f _ =>
    rintro ⟨stack, frames, heap, steps, limit, watch, journal⟩ hm
    unfold Meets Run.onHeap
    dsimp only
    generalize f heap = r
    obtain ⟨heap', e | a⟩ := r
    · exact .inr rfl
    · exact ⟨rfl, ⟨hm.unwatched, hm.callers⟩, trivial⟩
  | observe f _ hf => exact Retraces.get.bind fun m _ => hf m.heap
  | record e => exact .change (fun _ => rfl) fun _ => rfl
  | notice e => exact .change (fun m => by split <;> rfl) fun m => by split <;> rfl

namespace Retraces

variable (h : l.Upholds l')

include h

/-! ### Steps -/

/-- An instruction other than `execute` finds what it found, or has missed something. -/
theorem found (a : Activation) {op : Opcode} (hop : op ≠ .execute) (first second : Nat) :
    Run.execute l' a op first second = Run.execute l a op first second ∨
      ∃ e : Fault, e.isMissing ∧ Run.execute l a op first second = MonadExcept.throw e := by
  have recalled {γ : Type} {r r' : Except Fault γ} (same : Library.Recalls r r') (k : γ → Run (Option FunctionRef)) :
      (lift r' >>= k) = (lift r >>= k) ∨ ∃ e : Fault, e.isMissing ∧ (lift r >>= k) = MonadExcept.throw e := by
    cases r with
    | ok a =>
      obtain rfl : r' = .ok a := same
      exact .inl rfl
    | error e => exact .inr ⟨e, same, rfl⟩
  cases op with
  | execute => exact absurd rfl hop
  | invoke => exact recalled (h.findType _ _) _
  | loadStatic => exact recalled (h.findValue _ _) _
  | loadFunction => exact recalled (h.findFunction _) _
  | makeClosure => exact recalled (h.findFunction _) _
  | call1 | call => exact recalled (h.findImport _ _) _
  | subscript => exact recalled (h.findType _ _) _
  | makeList => exact recalled (h.findType _ _) _
  | _ => exact .inl rfl

theorem execute (a : Activation) {op : Opcode} (hop : op ≠ .execute) (first second : Nat) :
    Retraces l Anything (Run.execute l a op first second) (Run.execute l' a op first second) := by
  rcases found h a hop first second with same | ⟨e, he, missed⟩
  · rw [same]
    by_cases hv : op = .copyVariable
    · subst hv
      exact (setStack _).bind fun _ _ => pure trivial
    by_cases ha : op = .copyArgument
    · subst ha
      simp only [Run.execute]
      split
      · exact (throw _ : Retraces l Anything _ _).bind fun _ _ => (setStack _).bind fun _ _ => pure trivial
      · exact (setStack _).bind fun _ _ => pure trivial
    exact (Basic.execute l a hv ha first second).retraces
  · rw [missed]
    exact missing he

theorem enter (f : FunctionRef) : Retraces l (Present l) (Run.enter l f) (Run.enter l' f) := by
  refine (find (h.findFunction f)).bind fun g hg => ?_
  have present (code : Array UInt8) : Present l (some ⟨f, code, 0, 0⟩) := fun b hb => by
    obtain rfl := Option.some.inj hb
    exact Option.isSome_iff_exists.2 ⟨_, Library.function?_of_find hg⟩
  cases g.body with
  | native n =>
    exact (Basic.notice _).retraces.bind fun _ _ => (Basic.native n).retraces.bind fun _ _ =>
      (Basic.notice _).retraces.bind fun _ _ => pure nofun
  | code bytes => exact (Basic.notice _).retraces.bind fun _ _ => pure (present _)
  | fragment op => exact (Basic.notice _).retraces.bind fun _ _ => pure (present _)
  | undefined | generic => exact throw _

theorem leave (a : Activation) : Retraces l (Present l) (Run.leave l a) (Run.leave l' a) := by
  refine (Basic.notice _).retraces.bind fun _ _ => popFrame.bind fun frame known => ?_
  cases hc : frame.caller with
  | none => exact pure nofun
  | some f =>
    obtain ⟨g, hg⟩ := Option.isSome_iff_exists.1 (known f hc)
    have code : codeOf l' f = codeOf l f := by rw [codeOf, codeOf, hg, h.function? hg]
    dsimp only
    rw [code]
    exact pure fun b hb => by
      obtain rfl := Option.some.inj hb
      exact known f hc

variable {a : Activation} (ha : (l.function? a.function).isSome)

include ha

omit h in
theorem resume {o : Option Activation} (ho : Present l o) : Retraces l (Present l) (Run.resume a o) (Run.resume a o) := by
  cases o with
  | none =>
    exact pure fun b hb => by
      obtain rfl := Option.some.inj hb
      exact ha
  | some callee =>
    refine (pushFrame fun f hf => ?_).bind fun _ _ => get.bind fun m _ => pure fun b hb => ?_
    · obtain rfl := Option.some.inj hf
      exact ha
    · obtain rfl := Option.some.inj hb
      exact ho callee rfl

theorem dispatch (o : Option FunctionRef) : Retraces l (Present l) (Run.dispatch l a o) (Run.dispatch l' a o) := by
  cases o with
  | none => exact resume (o := none) ha nofun
  | some f => exact (enter h f).bind fun _ ho => resume ha ho

/-- A closure is opened in a module that lives, or in one that is missing, which shows when its function is entered. -/
theorem opening : Retraces l (Present l) (openClosure l >>= fun f => Run.dispatch l a (some f))
    (openClosure l' >>= fun f => Run.dispatch l' a (some f)) := by
  unfold openClosure
  simp only [bind_assoc]
  refine Basic.pullHandle.retraces.bind fun r _ => (Basic.readHeap _).retraces.bind fun c _ =>
    (Basic.push _).retraces.bind fun _ _ => (Basic.lift _).retraces.bind fun rs _ => (Basic.increfs rs).retraces.bind fun _ _ =>
    (Basic.decref r).retraces.bind fun _ _ => ?_
  cases hm : l.modules[c.function.module]? with
  | none =>
    have absent : l.findFunction c.function =
        .error (.badFunctionIndex (l.nameOf c.function.module) c.function.index) := by
      rw [Library.findFunction, Library.function?, hm]
      rfl
    have missed : Run.enter l c.function = MonadExcept.throw (.badFunctionIndex (l.nameOf c.function.module) c.function.index) := by
      unfold Run.enter
      rw [absent]
      rfl
    rw [Library.get_none hm]
    change Retraces l _ (Run.enter l c.function >>= Run.resume a) _
    rw [missed]
    exact missing rfl
  | some n =>
    have alive : (l'.get c.function.module).alive = (l.get c.function.module).alive := by
      rw [(h.get hm).alive, Library.get_eq hm]
    rw [alive]
    split
    · exact throw _
    · rw [pure_bind, pure_bind]
      exact dispatch h ha _

theorem perform (op : Opcode) (first second : Nat) :
    Retraces l (Present l) (Run.perform l a op first second) (Run.perform l' a op first second) := by
  refine (Basic.jumpDistance op first).retraces.bind fun d _ => ?_
  generalize hb : ({ a with cursor := a.cursor + op.length + d } : Activation) = b
  have present : (l.function? b.function).isSome := by rwa [← hb]
  by_cases hop : op = .execute
  · subst hop
    have opens (l : Library) : (Run.execute l b .execute first second >>= Run.dispatch l b) =
        openClosure l >>= fun f => Run.dispatch l b (some f) := by
      change ((openClosure l >>= fun f => Pure.pure (some f)) >>= Run.dispatch l b) = _
      rw [bind_assoc]
      rfl
    rw [opens l, opens l']
    exact opening h present
  · exact (execute h b hop first second).bind fun o _ => dispatch h present o

theorem proceed (i : Instruction) : Retraces l (Present l) (Run.proceed l a i) (Run.proceed l' a i) := by
  cases i with
  | unknown b => exact throw _
  | truncated op =>
    obtain ⟨g, hg⟩ := Option.isSome_iff_exists.1 ha
    unfold Run.proceed
    dsimp only
    rw [hg, h.function? hg]
    exact throw _
  | ofOpcode op first second => exact perform h ha op first second

omit h ha in
theorem count (b : UInt8) : Retraces l Anything (Run.count l a b) (Run.count l' a b) := by
  rintro ⟨stack, frames, heap, steps, limit, watch, journal⟩ hm
  obtain rfl : watch = none := hm.unwatched
  let counted : Machine := ⟨stack, frames, heap, steps + 1, limit, none, journal⟩
  have known : counted.Known l := ⟨rfl, hm.callers⟩
  cases limit with
  | none => exact ⟨rfl, known, trivial⟩
  | some bound =>
    have ends (l : Library) : Run.count l a b ⟨stack, frames, heap, steps, some bound, none, journal⟩ =
        if bound < steps + 1 then .error (.aborted bound) counted else .ok () counted := by
      unfold Run.count
      change (if bound < steps + 1 then _ else _ : Run Unit) _ = _
      split <;> rfl
    unfold Meets
    rw [ends l, ends l']
    by_cases reached : bound < steps + 1
    · rw [if_pos reached]
      exact .inr rfl
    · rw [if_neg reached]
      exact ⟨rfl, known, trivial⟩

theorem step : Retraces l (Present l) (Run.step l a) (Run.step l' a) := by
  cases hb : a.code[a.cursor]? with
  | none =>
    rw [step_none l hb, step_none l' hb]
    exact leave h a
  | some b =>
    rw [step_some l hb, step_some l' hb]
    exact (count b).bind fun _ _ => proceed h ha _

omit ha

/-! ### Calls -/

theorem steps (fuel : Nat) : ∀ {a : Activation}, (l.function? a.function).isSome →
    Retraces l Anything (Run.steps l fuel a) (Run.steps l' fuel a) := by
  induction fuel with
  | zero => exact fun _ => get.bind fun _ _ => throw _
  | succ fuel ih =>
    intro a ha
    unfold Run.steps
    refine (step h ha).bind fun o ho => ?_
    cases o with
    | none => exact pure trivial
    | some b => exact ih (ho b rfl)

theorem follow (base : Nat) {o : Option Activation} (ho : Present l o) :
    Retraces l Anything (Run.follow l base o) (Run.follow l' base o) := by
  cases o with
  | none => exact pure trivial
  | some b => exact steps h _ (a := { b with base := base }) (ho b rfl)

theorem launch (f : FunctionRef) : Retraces l Anything (Run.launch l f) (Run.launch l' f) :=
  get.bind fun _ _ => (pushFrame fun _ hf => by cases hf).bind fun _ _ => (enter h f).bind fun _ ho => follow h _ ho

theorem call (f : FunctionRef) : Retraces l Anything (Run.call l f) (Run.call l' f) := by
  rw [call_eq, call_eq]
  refine (find (h.findFunction f)).bind fun g _ => (change ?_ ?_).bind fun _ _ => ?_
  · exact fun m => by split <;> rfl
  · exact fun m => by split <;> rfl
  · unfold Run.answer
    cases g.body with
    | native n => exact (enter h f).bind fun _ _ => pure trivial
    | undefined | generic => exact throw _
    | code | fragment => exact launch h f

/-- A call from outside, with its arguments and its result. -/
theorem apply (f : FunctionRef) (args : List Value) (t : Function → Ty) :
    Retraces l Anything
      (args.reverse.forM Run.pushValue >>= fun _ => Run.call l f >>= fun _ => lift (l.findFunction f) >>= fun g =>
        Run.pullValue (t g))
      (args.reverse.forM Run.pushValue >>= fun _ => Run.call l' f >>= fun _ => lift (l'.findFunction f) >>= fun g =>
        Run.pullValue (t g)) :=
  (Basic.forM Basic.pushValue _).retraces.bind fun _ _ => (call h f).bind fun _ _ => (find (h.findFunction f)).bind fun _ _ =>
    (Basic.pullValue _).retraces

end Retraces

end Run

namespace World

variable {l l' : Library} {m : Machine}

theorem apply_again (h : l.Upholds l') (idle : m.frames = []) (unwatched : m.watch = none) (f : FunctionRef)
    (args : List Value) (complete : ∀ e, (World.apply ⟨l, m⟩ f args).2 = .error e → e.isMissing = false) :
    (World.apply ⟨l', m⟩ f args).2 = (World.apply ⟨l, m⟩ f args).2 ∧
      (World.apply ⟨l', m⟩ f args).1.machine = (World.apply ⟨l, m⟩ f args).1.machine := by
  have known : m.Known l := ⟨unwatched, by rw [idle]; exact nofun⟩
  have again := Run.Retraces.apply h f args (·.signature.effectiveResult) m known
  unfold Meets at again
  unfold World.apply World.run at complete ⊢
  dsimp only at complete ⊢
  split at again
  · next a n e =>
    simp only [e, again.1, and_self]
  · next e' n e =>
    rw [e] at complete
    have found := complete e' rfl
    have same := again.resolve_left (by rw [found]; exact Bool.false_ne_true)
    simp only [e, same, and_self]

end World

namespace Session

/-- **Numbers keep their meaning.** After any requests, successful or not, all modules are kept as they were, but for
what was added: each function, static value, type and import is at the number that it had, and the modules that the session
keeps it keeps for good. So a call of any function does what it did, on the same machine: it gives the same result and
leaves the same machine, unless it missed something before. -/
theorem indices_persist {c : Config} {s : Session} (hs : start c = .ok s) (before later : List Request) :
    let s₁ := (s.serveAll before).1
    let s₂ := (s₁.serveAll later).1
    s₁.world.library.Upholds s₂.world.library ∧ (∀ id ∈ s₁.held, id ∈ s₂.held) ∧
      ∀ (m : Machine) (f : FunctionRef) (args : List Value), m.frames = [] → m.watch = none →
        let first := World.apply ⟨s₁.world.library, m⟩ f args
        let second := World.apply ⟨s₂.world.library, m⟩ f args
        (∀ e, first.2 = .error e → e.isMissing = false) → second.2 = first.2 ∧ second.1.machine = first.1.machine := by
  intro s₁ s₂
  have begun : s₁.Orderly [] := (Keeping.serveAll before ⟨orderly_start hs, .refl _⟩).orderly
  have kept : s₂.Keeping s₁.world.library := Keeping.serveAll later ⟨begun, .refl _⟩
  exact ⟨kept.upholds, fun id => kept.kept begun, fun m f args idle unwatched =>
    World.apply_again kept.upholds idle unwatched f args⟩

/-- A function that calls another one, and inputs that define the other one anew, with and without success. -/
def defining : List Request := [.eval "fn f(n: Int) -> Int \x7b n + g() \x7d fn g() -> Int \x7b 1 \x7d"]

def redefining : List Request := [.eval "fn g() -> Int \x7b 5 \x7d f(true)", .eval "fn g() -> Int \x7b 5 \x7d"]

/-- A function goes on calling what it was compiled with, whatever the name stands for since. -/
theorem indices_persist_redefined :
    (World.apply ⟨(bare.serveAll defining).1.world.library, {}⟩ ⟨1, 0⟩ [.int32 41]).2.toOption.map (Value.text {}) =
        some "42" ∧
      (World.apply ⟨((bare.serveAll defining).1.serveAll redefining).1.world.library, {}⟩ ⟨1, 0⟩ [.int32 41]).2 =
        (World.apply ⟨(bare.serveAll defining).1.world.library, {}⟩ ⟨1, 0⟩ [.int32 41]).2 := by
  have called : (World.apply ⟨(bare.serveAll defining).1.world.library, {}⟩ ⟨1, 0⟩ [.int32 41]).2.toOption.map
      (Value.text {}) = some "42" := by decide +kernel
  have complete : ∀ e, (World.apply ⟨(bare.serveAll defining).1.world.library, {}⟩ ⟨1, 0⟩ [.int32 41]).2 = .error e →
      e.isMissing = false := fun e he => by
    rw [he] at called
    exact absurd called (by simp [Except.toOption])
  exact ⟨called, ((indices_persist start_bare defining redefining).2.2 {} ⟨1, 0⟩ [.int32 41] rfl rfl complete).1⟩

/-- A function that reads a handle as a number, since its list takes its type from the first item. -/
def numbering : String :=
  "fn f() -> Int \x7b let g: [fn([fn() -> String]) -> Int] = ([list_length, |s: [fn() -> Int64]| int64_to_int32(s[0]())], " ++
    "0).0; g[1]([|| \"a\" + \"b\"]) \x7d"

/-- What it gives depends on the texts that later inputs put on the heap, though it is kept as it was. -/
theorem numbering_depends_on_heap :
    ((bare.serveAll [.eval numbering, .eval "f()"]).1.eval "\"x\" + \"y\"").2.toOption.isSome ∧
      ((bare.serveAll [.eval numbering]).1.eval "f()").2.toOption.map (Value.text {}) = some "7" ∧
      ((bare.serveAll [.eval numbering, .eval "f()", .eval "\"x\" + \"y\""]).1.eval "f()").2.toOption.map
        (Value.text {}) = some "11" := by
  decide +kernel

end Session

end StackScript
