import StackScript.Proofs.Histories
import StackScript.Proofs.Launching
import StackScript.Proofs.Running

/-!
The value of a program that is one expression without calls. On a machine that nothing stops, running it gives what the
evaluator on trees gives, read from the heap that the run leaves; only the stack may overflow before.
-/
namespace StackScript

/-! ### Reading values -/

namespace Datum

mutual

/-- What a value stands for in a heap. Empty texts and lists may be null. -/
def Reads (h : Heap) : Datum → Value → Prop
  | void, .void => True
  | bool a, .bool b => a = b
  | byte a, .byte b => a = b
  | char a, .char b => a = b
  | int32 a, .int32 b => a = b
  | int64 a, .int64 b => a = b
  | float32 a, .float32 b => a = b
  | float64 a, .float64 b => a = b
  | string s, .string r => if r.isNull then s = "" else h.filled? r = some (.string s)
  | list t ds, .list u r => u = t ∧ if r.isNull then ds = [] else (t.size = 0 → ds = []) ∧ ∃ vs,
      h.filled? r = some (.list t (Value.encodes vs)) ∧ (∀ v ∈ vs, v.ty = t) ∧ ReadAll h ds vs
  | tuple ds, .tuple vs => ReadAll h ds vs
  | _, _ => False

def ReadAll (h : Heap) : List Datum → List Value → Prop
  | [], [] => True
  | d :: ds, v :: vs => d.Reads h v ∧ ReadAll h ds vs
  | _, _ => False

end

section

variable {h : Heap} {Δ : Denotation} {roots : List Handle}

mutual

/-- What the handles of a value are said to lead to is found in the heap. -/
theorem Is.reads (balanced : h.Balanced roots) (tells : h.Tells Δ) : ∀ {d : Datum} {v : Value}, d.Is Δ v →
    (∀ r ∈ v.handles, r.isNull = false → h.Holds r) → d.Reads h v
  | .tuple ds, v, is, live => by
    cases v <;> first | exact is.elim | skip
    have all : AreAll Δ ds _ := is
    exact all.reads balanced tells live
  | .list t ds, v, is, live => by
    cases v <;> first | exact is.elim | skip
    next u r =>
    refine ⟨is.1, ?_⟩
    have led := is.2
    split
    · next hn => rwa [if_pos hn] at led
    · next hn =>
      rw [if_neg hn] at led
      obtain ⟨x, hx⟩ := Heap.holds_iff.1 (live r (.head _) (by simpa using hn))
      have told := tells r _ x led hx
      cases x <;> first | exact told.elim | skip
      obtain ⟨rfl, hnil, vs, rfl, all, tys⟩ := told
      obtain ⟨c, hcell⟩ := Heap.filled?_eq_some.1 hx
      refine ⟨hnil, vs, hx, tys, all.reads balanced tells fun q hq hqn => ?_⟩
      exact balanced.holds (.inr (Heap.mem_inner hcell (by rwa [Content.held_eq (Value.listHandles tys)]))) hqn
  | .string s, v, is, live => by
    cases v <;> first | exact is.elim | skip
    next r =>
    unfold Reads
    unfold Is at is
    split
    · next hn => rwa [if_pos hn] at is
    · next hn =>
      rw [if_neg hn] at is
      obtain ⟨x, hx⟩ := Heap.holds_iff.1 (live r (.head _) (by simpa using hn))
      have told := tells r _ x is hx
      cases x <;> first | exact told.elim | skip
      exact told ▸ hx
  | .void, v, is, _ | .bool _, v, is, _ | .byte _, v, is, _ | .char _, v, is, _ | .int32 _, v, is, _
  | .int64 _, v, is, _ | .float32 _, v, is, _ | .float64 _, v, is, _ => by
    cases v <;> exact is

theorem AreAll.reads (balanced : h.Balanced roots) (tells : h.Tells Δ) : ∀ {ds : List Datum} {vs : List Value},
    AreAll Δ ds vs → (∀ r ∈ Value.handlesOf vs, r.isNull = false → h.Holds r) → ReadAll h ds vs
  | [], [], _, _ => trivial
  | _ :: _, _ :: _, all, live => ⟨all.1.reads balanced tells fun r hr => live r (List.mem_append_left _ hr),
      all.2.reads balanced tells fun r hr => live r (List.mem_append_right _ hr)⟩
  | [], _ :: _, all, _ | _ :: _, [], all, _ => all.elim

end

end

end Datum

/-- Bytes of a type are those of one value. -/
theorem Value.encode_inj {v w : Value} (ht : v.ty = w.ty) (h : v.encode = w.encode) : v = w := by
  have := v.decode_encode
  rw [h, ht, w.decode_encode] at this
  exact (Except.ok.inj this).symm

theorem Value.encodes_inj {t : Ty} (hsize : t.size ≠ 0) : ∀ {vs ws : List Value}, (∀ v ∈ vs, v.ty = t) →
    (∀ w ∈ ws, w.ty = t) → encodes vs = encodes ws → vs = ws
  | [], [], _, _, _ => rfl
  | v :: vs, w :: ws, hv, hw, h => by
    rw [encodes, encodes] at h
    have length : v.encode.length = w.encode.length := by
      rw [v.length_encode, w.length_encode, hv v (.head _), hw w (.head _)]
    obtain ⟨first, rest⟩ := List.append_inj h length
    rw [encode_inj ((hv v (.head _)).trans (hw w (.head _)).symm) first,
      encodes_inj hsize (fun x hx => hv x (.tail _ hx)) (fun x hx => hw x (.tail _ hx)) rest]
  | [], w :: ws, _, hw, h => by
    have length := congrArg List.length h
    rw [encodes, List.length_nil, length_encodes_of hw] at length
    simp [hsize] at length
  | v :: vs, [], hv, _, h => by
    have length := congrArg List.length h
    rw [length_encodes_of hv] at length
    simp [encodes, hsize] at length

namespace Datum

variable {h : Heap}

mutual

/-- A value stands for one datum. -/
theorem Reads.unique : ∀ {d e : Datum} {v : Value}, d.Reads h v → e.Reads h v → d = e
  | .tuple ds, e, v, hd, he => by
    cases v <;> first | exact hd.elim | skip
    cases e <;> first | exact he.elim | skip
    have all : ReadAll h ds _ := hd
    exact congrArg tuple (all.unique he)
  | .list t ds, e, v, hd, he => by
    cases v <;> first | exact hd.elim | skip
    cases e <;> first | exact he.elim | skip
    next u r u' es =>
    obtain ⟨rfl, hd⟩ := hd
    obtain ⟨rfl, he⟩ := he
    refine congrArg (list _) ?_
    split at hd
    · next hn =>
      rw [if_pos hn] at he
      rw [hd, he]
    · next hn =>
      rw [if_neg hn] at he
      obtain ⟨hnil, vs, hvs, tys, all⟩ := hd
      obtain ⟨hnil', ws, hws, tys', all'⟩ := he
      by_cases hsize : u.size = 0
      · rw [hnil hsize, hnil' hsize]
      · rw [hvs] at hws
        obtain rfl := Value.encodes_inj hsize tys tys' (Content.list.inj (Option.some.inj hws)).2
        exact all.unique all'
  | .string s, e, v, hd, he => by
    cases v <;> first | exact hd.elim | skip
    cases e <;> first | exact he.elim | skip
    unfold Reads at hd he
    split at hd
    · next hn =>
      rw [if_pos hn] at he
      rw [hd, he]
    · next hn =>
      rw [if_neg hn, hd] at he
      cases he
      rfl
  | .void, e, v, hd, he | .bool _, e, v, hd, he | .byte _, e, v, hd, he | .char _, e, v, hd, he | .int32 _, e, v, hd, he
  | .int64 _, e, v, hd, he | .float32 _, e, v, hd, he | .float64 _, e, v, hd, he => by
    cases v <;> first | exact hd.elim | skip
    cases e <;> first | exact he.elim | skip
    all_goals
      unfold Reads at hd he
      first | rfl | rw [hd, he]

theorem ReadAll.unique : ∀ {ds es : List Datum} {vs : List Value}, ReadAll h ds vs → ReadAll h es vs → ds = es
  | [], [], [], _, _ => rfl
  | _ :: _, _ :: _, _ :: _, hd, he => by rw [hd.1.unique he.1, hd.2.unique he.2]
  | [], _ :: _, [], _, he | _ :: _, [], _ :: _, _, he => he.elim
  | [], _, _ :: _, hd, _ | _ :: _, _, [], hd, _ => hd.elim

end

end Datum

/-! ### Running -/

theorem Heap.tells_texts (h : Heap) : h.Tells h.texts := fun r d x hd hx => by
  unfold texts at hd
  rw [hx] at hd
  cases x <;> cases hd
  rfl

namespace Store

variable {w : Store} {f : FunctionRef} {g : Function} {bytes : Array UInt8} {v : Except Fault Datum} {roots : List Handle}
  {m : Machine}

open Run

theorem Answers.launch (h : w.Answers f g bytes v) (countable : bytes.size < ceiling) (hm : m.At [] [] w.heap)
    (unstopped : m.Unstopped) (hcap : w.heap.cells.size ≤ Heap.capacity)
    (balanced : w.heap.Balanced (roots ++ w.library.statics)) :
    Meets (Run.launch w.library f) m (fun _ => Returned (roots ++ w.library.statics) (v.map Pile.of))
      (Failing (v.map Pile.of)) := by
  have base : m.stack.size = 0 := by rw [m.stack.size_eq, hm.bytes, List.length_nil]
  refine meets_bind.2 (meets_get.2 (meets_bind.2 ?_))
  rw [base]
  refine meets_modify.2 (meets_bind.2 (meets_bind.2 (meets_lift (Library.findFunction_eq h.function) ?_)))
  rw [h.body]
  have framed : Machine.At { m with frames := host :: m.frames } [] [host] w.heap :=
    ⟨hm.bytes, congrArg (host :: ·) hm.frames, hm.heap⟩
  have noticed : Meets (notice (.entered f)) { m with frames := host :: m.frames } (fun _ n => n.At [] [host] w.heap)
    fun _ _ => False := meets_notice framed fun _ h => h
  refine meets_bind.2 ((noticed.and ((Basic.notice (.entered f)).coasts _)).imp (fun _ n hn => meets_pure.2 ?_)
    fun _ _ h => h.1.elim)
  obtain ⟨hn, brakes⟩ := hn
  refine h.course.steps (fun v hv r hr => List.mem_append_right _ (View.mem_statics hv hr)) hcap rfl
    (Nat.lt_of_le_of_lt (Nat.sub_le ..) countable) (Δ := w.heap.texts) ?_ (brakes.trans unstopped)
  exact ⟨[], [], [], hn.heap ▸ hn, .nil, hn.heap ▸ balanced, hn.heap ▸ w.heap.tells_texts, nofun, fun _ _ _ h => h⟩

theorem Answers.evaluate (h : w.Answers f g bytes v) (countable : bytes.size < ceiling) (hm : m.At [] [] w.heap)
    (unstopped : m.Unstopped) (hcap : w.heap.cells.size ≤ Heap.capacity)
    (balanced : w.heap.Balanced (roots ++ w.library.statics)) :
    Meets (Run.evaluate w.library f) m (fun y n => n.heap.cells.size ≤ Heap.capacity → ∃ d, v = .ok d ∧ d.Reads n.heap y)
      fun e n => n.heap.cells.size ≤ Heap.capacity → (∃ k, e = .stackOverflow k) ∨ v = .error e := by
  have counted : Machine.At (if m.frames.isEmpty then { m with steps := 0 } else m) [] [] w.heap := by
    split
    · exact ⟨hm.bytes, hm.frames, hm.heap⟩
    · exact hm
  have unstopped : Machine.Unstopped (if m.frames.isEmpty then { m with steps := 0 } else m) := by
    split <;> exact unstopped
  unfold Run.evaluate
  rw [call_eq]
  refine meets_bind.2 (meets_bind.2 (meets_lift (Library.findFunction_eq h.function) (meets_bind.2 (meets_modify.2 ?_))))
  unfold Run.answer
  rw [h.body]
  refine (h.launch countable counted unstopped hcap balanced).imp (fun _ n hn => ?_) fun e n he hcap => ?_
  · refine meets_bind.2 (meets_lift (Library.findFunction_eq h.function) ?_)
    by_cases hcap : n.heap.cells.size ≤ Heap.capacity
    · obtain ⟨u, Δ, bs, rs, ls, hu, hn, lays, balanced, tells⟩ := hn hcap
      cases v with
      | error e => cases hu
      | ok d =>
        obtain rfl := Except.ok.inj hu
        obtain ⟨y, is, rfl, rfl, rfl⟩ := lays.exists_is
        have type : y.ty = g.signature.effectiveResult := is.ty_eq.trans (h.result d rfl)
        have decoded : Value.decode g.signature.effectiveResult y.encode.reverse.reverse = .ok y := by
          rw [List.reverse_reverse, ← type]
          exact y.decode_encode
        rw [← List.append_nil y.encode.reverse] at hn
        refine meets_pullValue hn ?_ decoded fun p hp _ => ⟨d, rfl, ?_⟩
        · rw [List.length_reverse, y.length_encode, type]
        · rw [hp.heap]
          exact is.reads balanced tells fun r hr hn => balanced.holds (.inl (by simp [hr])) hn
    · exact ((Run.Basic.pullValue _).stays n).imp (fun _ p hp h => absurd (Nat.le_trans hp.size h) hcap)
        fun _ p hp h => absurd (Nat.le_trans hp.size h) hcap
  · exact (he hcap).imp_right map_eq_error.1

end Store

/-! ### Inputs -/

namespace Session

variable {dead : FunctionRef → Prop} {roots : List Handle} {s s₀ : Session} {e : Expr} {main : FunctionRef} {c : Config}
  {rs : List Request}

/-- The module of an input can take code. -/
theorem Sound.hosts (h : s.Sound dead roots []) :
    (Compilation.start (s.world.addModule s.inputModule).1 s.world.library.modules.size).Hosts ∧
      (Compilation.start (s.world.addModule s.inputModule).1 s.world.library.modules.size).Accounts roots := by
  obtain ⟨blank, references, first⟩ := inputModule_spec s
  have added := h.addModule blank references first
  have hm : (s.world.addModule s.inputModule).1.library.modules[s.world.library.modules.size]? = some s.inputModule :=
    Library.modules_add_self
  have user : s.world.library.modules.size ≠ 0 := Nat.ne_of_gt (Array.getElem?_eq_some_iff.1 h.consistent.builtin).1
  have get := Library.get_eq hm
  have table : (Compilation.start (s.world.addModule s.inputModule).1 s.world.library.modules.size).table =
      s.inputModule.scopes := congrArg Module.scopes get
  refine ⟨⟨⟨_, hm⟩, ?_, added.consistent.builtin, user, table ▸ blank.sane.ordered, table ▸ blank.sane.root,
    Code.valid_empty, fun hcap => ?_⟩, fun hcap => ?_⟩
  · exact (congrArg (fun m : Module => m.imports[0]?) get).trans first
  · obtain ⟨-, Ψ, hs⟩ := added.heap hcap
    exact hs.balanced.tidy
  · obtain ⟨-, Ψ, hs⟩ := added.heap hcap
    exact hs.balanced

/-- What an accepted input of one expression leaves to run. -/
theorem Sound.completes (h : s.Sound dead roots []) (free : e.isCallFree [])
    (accepted : (s.compileProgram ⟨[], some e⟩).2 = .ok main) : ∃ d : Compilation,
      (s.compileProgram ⟨[], some e⟩).1.world = s.world.compiled d ∧
      (Compilation.start (s.world.addModule s.inputModule).1 s.world.library.modules.size).Completes d main
        (e.evalIn [] none) := by
  have compiles := h.hosts.1.program (e := e) rfl rfl free s.invoke
  unfold compileProgram at *
  rw [compileInto_eq, World.compile_eq] at *
  cases hr : Compile.program s.invoke ⟨[], some e⟩
      (Compilation.start (s.world.addModule s.inputModule).1 s.world.library.modules.size) with
  | ok i d =>
    rw [hr] at accepted
    obtain rfl : (⟨s.world.library.modules.size, i⟩ : FunctionRef) = main := Except.ok.inj accepted
    exact ⟨d, rfl, compiles.of_ok hr⟩
  | error f d =>
    rw [hr] at accepted
    cases accepted

theorem heap_keep (s : Session) (id : Nat) (y : Value) : (s.keep id y).heap = s.heap := by
  unfold keep heap
  cases y.isVoid <;> rfl

/-- What is to come of running an input whose evaluation is known. -/
def Answers (v : Except Fault Datum) (o : Session × Except Failure Value) : Prop :=
  match v with
  | .ok d => ∃ y, o.2 = .ok y ∧ d.Reads o.1.heap y
  | .error f => o.2 = .error (.run f)

/-- An outcome answers one evaluation. -/
theorem Answers.unique {v w : Except Fault Datum} {o : Session × Except Failure Value} (h : Answers v o) (k : Answers w o) :
    v = w := by
  cases v with
  | ok d =>
    obtain ⟨y, hy, reads⟩ := h
    cases w with
    | ok e =>
      obtain ⟨z, hz, reads'⟩ := k
      obtain rfl := Except.ok.inj (hy.symm.trans hz)
      rw [reads.unique reads']
    | error f => cases hy.symm.trans k
  | error f =>
    cases w with
    | ok e =>
      obtain ⟨z, hz, -⟩ := k
      cases hz.symm.trans h
    | error g => rw [Failure.run.inj (Except.error.inj (h.symm.trans k))]

theorem Sound.answers (h : s.Sound dead roots []) (free : e.isCallFree [])
    (accepted : (s.compileProgram ⟨[], some e⟩).2 = .ok main) (unstopped : s.world.machine.Unstopped)
    (countable : (Run.codeOf (s.compileProgram ⟨[], some e⟩).1.world.library main).size < Run.ceiling)
    (hcap : ((s.compileProgram ⟨[], some e⟩).1.run main).1.heap.cells.size ≤ Heap.capacity) :
    (∃ n, ((s.compileProgram ⟨[], some e⟩).1.run main).2 = .error (.run (.stackOverflow n))) ∨
      Answers (e.evalIn [] none) ((s.compileProgram ⟨[], some e⟩).1.run main) := by
  obtain ⟨d, world, ⟨g, bytes, answers⟩, retains, accounts⟩ := h.completes free accepted
  generalize (s.compileProgram ⟨[], some e⟩).1 = t at *
  have library : t.world.library = d.library := congrArg World.library world
  have machine : t.world.machine = { s.world.machine with heap := d.heap } := congrArg World.machine world
  have code : Run.codeOf t.world.library main = bytes := by
    have function : d.library.function? main = some g := answers.function
    rw [library, Run.codeOf, function, Option.bind_some, answers.body]
    rfl
  have evaluates (hcap : d.heap.cells.size ≤ Heap.capacity) :
      Meets (Run.evaluate t.world.library main) t.world.machine
        (fun y n => n.heap.cells.size ≤ Heap.capacity → ∃ x, e.evalIn [] none = .ok x ∧ x.Reads n.heap y)
        fun f n => n.heap.cells.size ≤ Heap.capacity → (∃ k, f = .stackOverflow k) ∨ e.evalIn [] none = .error f := by
    rw [library, machine]
    have empty := (h.heap (Nat.le_trans retains.size hcap)).1
    exact answers.evaluate (code ▸ countable) ⟨empty, h.frames, rfl⟩ unstopped hcap (accounts h.hosts.2 hcap)
  have widens := Run.Widens.evaluate t.world.library main t.world.machine
  rw [machine] at widens
  rw [run_eq] at hcap ⊢
  rw [machine] at hcap evaluates ⊢
  cases hr : Run.evaluate t.world.library main { s.world.machine with heap := d.heap } with
  | ok y n =>
    have kept : (Session.keep { t with world := ⟨t.world.library, n⟩ } main.module y).heap = n.heap := heap_keep ..
    rw [hr] at hcap
    dsimp only at hcap ⊢
    rw [kept] at hcap
    obtain ⟨x, hx, reads⟩ := (evaluates (Nat.le_trans (widens.of_ok hr) hcap)).of_ok hr hcap
    rw [hx]
    exact .inr ⟨y, rfl, kept.symm ▸ reads⟩
  | error f n =>
    rw [hr] at hcap
    have hcap : n.heap.cells.size ≤ Heap.capacity := Nat.le_trans
      (Nat.le_of_eq (size_brokenOff t ⟨t.world.library, n⟩ (main.module :: t.held) main.module).symm) hcap
    rcases (evaluates (Nat.le_trans (widens.of_error hr) hcap)).of_error hr hcap with ⟨k, rfl⟩ | hf
    · exact .inl ⟨k, rfl⟩
    · rw [hf]
      exact .inr rfl

/-- A program that is one expression without calls gives what the evaluator on trees gives. -/
theorem call_free_evaluates (started : start c = .ok s₀) (hc : c.Plain) (plain : ∀ r ∈ rs, r.isPlain)
    (hs : (s₀.serveAll rs).1 = s) (free : e.isCallFree [])
    (accepted : (s.compileProgram ⟨[], some e⟩).2 = .ok main) (unstopped : s.world.machine.Unstopped)
    (countable : (Run.codeOf (s.compileProgram ⟨[], some e⟩).1.world.library main).size < Run.ceiling)
    (hcap : ((s.compileProgram ⟨[], some e⟩).1.run main).1.heap.cells.size ≤ Heap.capacity) :
    (∃ n, ((s.compileProgram ⟨[], some e⟩).1.run main).2 = .error (.run (.stackOverflow n))) ∨
      Answers (e.evalIn [] none) ((s.compileProgram ⟨[], some e⟩).1.run main) := by
  obtain ⟨dead, roots, sound, -⟩ := (sound_start started hc).serveAll plain
  rw [hs] at sound
  exact sound.answers free accepted unstopped countable hcap

/-- `{ let x = 2; let x = (x * 3, "a"); if x.0 > 5 { [10, 20][x.0 - 5] } else { 0 } }` -/
def shadowing : Expr :=
  let int (n : Int32) : Expr := .literal (.int32 n) {}
  let first : Expr := .field (.variable "x" {}) 0 {}
  let product : Expr := .binary (.arith .mul) (.variable "x" {}) (int 3) {}
  let picked : Expr := .index (.list [int 10, int 20] {}) (.binary (.arith .sub) first (int 5) {}) {}
  .block [.bind "x" none (int 2) {}, .bind "x" none (.tuple [product, .literal (.string "a") {}] {}) {}]
    (some (.cond (.binary (.compare .greaterThan) first (int 5) {}) picked (some (int 0)) {})) {}

theorem call_free_evaluates_shadowing :
    (∃ n, ((bare.compileProgram ⟨[], some shadowing⟩).1.run ⟨1, 0⟩).2 = .error (.run (.stackOverflow n))) ∨
      Answers (.ok (.int32 20)) ((bare.compileProgram ⟨[], some shadowing⟩).1.run ⟨1, 0⟩) :=
  call_free_evaluates start_bare plain_bare (fun _ h => absurd h List.not_mem_nil) (show (bare.serveAll []).1 = bare from rfl)
    (e := shadowing) (by decide) (ok_of_toOption (by decide +kernel)) rfl (by decide +kernel) (by decide +kernel)

end Session

end StackScript
