import StackScript.Proofs.Meaning
import StackScript.Proofs.Spelling

/-!
Displayed values typed back in. A program of one literal is always accepted, its run needs room for its value only, and
what comes out is displayed as the literal was.
-/
namespace StackScript

/-- The code that loads the first static value of its module. -/
def Code.load : Array UInt8 := #[Opcode.loadStatic.toByte, 0]

/-- A function that gives the first static value of its module. -/
structure Library.Loads (l : Library) (f : FunctionRef) (y : Value) : Prop where
  function : ∃ g, l.function? f = some g ∧ g.body = .code Code.load ∧ g.signature.effectiveResult = y.ty
  value : (l.get f.module).values[0]? = some y

/-! ### Compiling a literal -/

namespace Compilation

variable {c : Compilation} {m : Module} {l : Literal} {span : Span}

theorem adapt_none (l : Literal) : l.adapt none = l := by
  cases l <;> rfl

theorem ty_value (l : Literal) (h : Heap) : (l.value h).2.ty = l.ty := by
  cases l <;> rfl

/-- What a literal leaves in a module without static values. -/
def loading (c : Compilation) (m : Module) (l : Literal) : Compilation := { c with
  library := c.library.put c.draft.target.module (m.addValue (l.value c.heap).2).1
  heap := (l.value c.heap).1
  draft := { c.draft with code := (c.draft.code.opcode .loadStatic).byte 0 } }

theorem meets_pushLiteral (hm : c.library.modules[c.draft.target.module]? = some m) (empty : m.values = #[]) :
    Meets (Compile.pushLiteral l none span) c (fun t d => t = (l.value c.heap).2.ty ∧ d = c.loading m l)
      fun _ _ => False := by
  have interned (y : Value) : m.internValue y = m.addValue y := by
    unfold Module.internValue
    simp [empty]
  have index (y : Value) : (m.addValue y).2 = 0 := congrArg Array.size empty
  have held : ({ c with heap := (l.value c.heap).1 } : Compilation).library.modules[c.draft.target.module]? = some m := hm
  refine meets_bind.2 (meets_here.2 (meets_bind.2 (meets_onHeap.2 (meets_bind.2 ?_))))
  rw [adapt_none]
  apply (meets_onModule (α := Nat) held).2
  simp only [interned]
  cases l <;> (dsimp only; rw [index]; exact ⟨rfl, rfl⟩)

/-- A value that is loaded from the module of the draft, as its first static value. -/
def loaded (c : Compilation) (m : Module) (y : Value) (h : Heap) : Compilation := { c with
  library := c.library.put c.draft.target.module (m.addValue y).1
  heap := h
  draft := { c.draft with code := (c.draft.code.opcode .loadStatic).byte 0 } }

/-- The function `main` of an expression that is one value loads the value. -/
theorem meets_main_load {e : Expr} {x : Compile Ty} {y : Value} {h : Heap} (hm : c.library.modules[c.module]? = some m)
    (empty : m.values = #[]) (known : y.ty.Known) (invoke : Bool)
    (leaves : Compile.expr (Compile.writeDeferred Compile.nestingLimit) e none = Compile.leaving x)
    (pushes : ∀ n, (c.begun m).library.modules[c.module]? = some n → n.values = #[] →
      Meets x (c.begun m) (fun t d => t = y.ty ∧ d = (c.begun m).loaded n y h) fun _ _ => False) :
    Meets (Compile.writeMain invoke ⟨[], some e⟩) c
      (fun i d => d.heap = h ∧ d.library.Loads ⟨c.module, i⟩ y) fun _ _ => False := by
  have begun : (c.begun m).library.modules[c.module]? = _ := Library.modules_put_self hm
  have declared : m.functions.size < (m.functions.push { name := "main", signature := {} }).size := by simp
  refine meets_writeMain hm ?_
  rw [leaves]
  refine meets_bind.2 (meets_bind.2 (meets_getDraft.2 (meets_bind.2 ?_)))
  refine (pushes _ begun empty).imp ?_ fun _ _ h => h
  rintro t d ⟨rfl, rfl⟩
  refine meets_bind.2 (meets_modify.2 (meets_pure.2 ?_))
  refine meets_endFunction rfl (Library.modules_put_self begun) (fun code hcode => ?_) fun _ _ _ far => by cases far
  cases hcode
  refine ⟨rfl, ⟨⟨"main", { result := y.ty }, .code Code.load, []⟩, ?_, rfl, ?_⟩, ?_⟩
  · exact (Library.function?_put_self (Library.modules_put_self begun)).trans
      (Array.getElem?_setIfInBounds_self_of_lt declared)
  · exact Signature.effectiveResult_of_known known
  · refine (congrArg (fun n : Module => n.values[0]?) (Library.get_put_self (Library.modules_put_self begun))).trans ?_
    change (m.values.push y)[0]? = _
    rw [empty]
    rfl

/-- The function `main` of a literal loads its value. -/
theorem meets_main_literal (hm : c.library.modules[c.module]? = some m) (empty : m.values = #[]) (invoke : Bool) :
    Meets (Compile.writeMain invoke ⟨[], some (.literal l span)⟩) c
      (fun i d => d.heap = (l.value c.heap).1 ∧ d.library.Loads ⟨c.module, i⟩ (l.value c.heap).2) fun _ _ => False :=
  meets_main_load hm empty (ty_value l c.heap ▸ known_literal l) invoke rfl fun _ hn none => meets_pushLiteral hn none

end Compilation

/-! ### Running it -/

namespace Run

variable {l : Library} {f : FunctionRef} {y : Value} {m : Machine} {h : Heap} {bytes : Bytes} {frames : List Frame}
  {base : Nat}

/-- A value is pushed if there is room for it. -/
theorem meets_pushValue {ok : Unit → Machine → Prop} (hm : m.At bytes frames h)
    (room : m.stack.size + y.ty.size ≤ m.stack.limit)
    (hok : ∀ n, n.At (y.encode.reverse ++ bytes) frames h → ok () n) : Meets (pushValue y) m ok fun _ _ => False := by
  have fits : ¬ m.stack.limit < m.stack.size + y.encode.length := by
    rw [y.length_encode]
    exact Nat.not_lt.2 room
  exact meets_setStack hm (if_neg fits) (congrArg (y.encode.reverse ++ ·) hm.bytes) hok

/-- A change of the heap leaves the stack. -/
theorem meets_onHeap_stack {k : Heap → Outcome Heap Unit} (hm : m.At bytes frames m.heap) (e : k m.heap = (h, .ok ())) :
    Meets (onHeap k) m (fun _ n => n.stack = m.stack ∧ n.At bytes frames h) fun _ _ => False := by
  unfold Meets onHeap
  dsimp only
  rw [e]
  exact ⟨rfl, hm.bytes, hm.frames, rfl⟩

/-- The code that loads a value leaves it on the stack and returns. -/
theorem meets_steps_load (hv : (l.get f.module).values[0]? = some y) (hm : m.At bytes (⟨none, 0, base⟩ :: frames) m.heap)
    (shared : y.incref m.heap = (h, .ok ())) (room : m.stack.size + y.ty.size ≤ m.stack.limit) (proceeds : m.Proceeds)
    (fuel : Nat) : Meets (steps l (fuel + 2) ⟨f, Code.load, 0, base⟩) m
      (fun _ n => n.At (y.encode.reverse ++ bytes) frames h) fun _ _ => False := by
  have fetch : Fetches Code.load 0 .loadStatic 0 0 := ⟨_, rfl, rfl⟩
  obtain ⟨byte, e⟩ := step_eq (l := l) (a := ⟨f, Code.load, 0, base⟩) fetch
  have found : l.findValue f.module 0 = .ok y := by
    rw [Library.findValue, hv]
  unfold steps
  rw [e, bind_assoc]
  refine meets_bind.2 (((meets_count l _ byte m).and (meets_count_proceeds l _ byte proceeds)).imp ?_ fun _ _ h => h.2)
  rintro _ m₁ ⟨⟨same, at₁⟩, -⟩
  rw [hm.bytes, hm.frames] at at₁
  have shared₁ : y.incref m₁.heap = (h, .ok ()) := at₁.heap ▸ shared
  refine meets_bind.2 (meets_bind.2 (meets_pure.2 (meets_bind.2 (meets_bind.2 (meets_lift found (meets_bind.2 ?_))))))
  refine (meets_onHeap_stack (at₁.heap.symm ▸ at₁) shared₁).imp ?_ fun _ _ h => h
  rintro _ m₂ ⟨kept, at₂⟩
  have limit : m₂.stack = m.stack := kept.trans same
  refine meets_bind.2 (meets_pushValue at₂ (limit ▸ room) fun m₃ at₃ => meets_pure.2 (meets_pure.2 ?_))
  have ended : step l ⟨f, Code.load, 2, base⟩ = leave l ⟨f, Code.load, 2, base⟩ := step_none l rfl
  change Meets (steps l (fuel + 1) ⟨f, Code.load, 2, base⟩) m₃ _ _
  unfold steps
  rw [ended]
  exact meets_bind.2 (meets_bind.2 (StackScript.meets_notice at₃ fun m₄ at₄ => meets_bind.2 (meets_popFrame at₄ fun m₅ at₅ => at₅)))

/-- A function that loads a value leaves it on the stack. -/
theorem meets_launch (loads : l.Loads f y) (hm : m.At bytes frames m.heap) (shared : y.incref m.heap = (h, .ok ()))
    (room : m.stack.size + y.ty.size ≤ m.stack.limit) (proceeds : m.Proceeds) :
    Meets (launch l f) m (fun _ n => n.At (y.encode.reverse ++ bytes) frames h) fun _ _ => False := by
  obtain ⟨⟨g, hg, body, -⟩, value⟩ := loads
  have found : l.findFunction f = .ok g := Library.findFunction_eq hg
  refine meets_bind.2 (meets_get.2 (meets_bind.2 (meets_modify.2 (meets_bind.2 (meets_bind.2 (meets_lift found ?_))))))
  rw [body]
  generalize hn : ({ m with frames := ⟨none, 0, m.stack.size⟩ :: m.frames } : Machine) = n
  have noticed : Meets (notice (.entered f)) n (fun _ p => p.stack = n.stack ∧ (n.Proceeds → p.Proceeds) ∧
      p.At bytes (⟨none, 0, m.stack.size⟩ :: frames) m.heap) fun _ _ => False := by
    refine meets_modify.2 ?_
    subst hn
    split <;> exact ⟨rfl, id, hm.bytes, congrArg _ hm.frames, rfl⟩
  refine meets_bind.2 (noticed.imp ?_ fun _ _ h => h)
  rintro _ p ⟨same, goes, at₁⟩
  have stack : p.stack = m.stack := same.trans (hn ▸ rfl)
  have shared₁ : y.incref p.heap = (h, .ok ()) := at₁.heap ▸ shared
  have proceeds₁ : p.Proceeds := goes (hn ▸ proceeds)
  have long : ceiling = 0x3FFFFFFFFFFFFFFE + 2 := rfl
  refine meets_pure.2 ?_
  unfold follow
  rw [long]
  exact meets_steps_load value (at₁.heap.symm ▸ at₁) shared₁ (stack ▸ room) proceeds₁ _

/-- A call of a function that loads a value gives the value. The first call counts its steps anew. -/
theorem meets_evaluate (loads : l.Loads f y) (hm : m.At bytes frames m.heap) (shared : y.incref m.heap = (h, .ok ()))
    (room : m.stack.size + y.ty.size ≤ m.stack.limit)
    (proceeds : (if m.frames.isEmpty then { m with steps := 0 } else m).Proceeds) :
    Meets (evaluate l f) m (fun x n => x = y ∧ n.At bytes frames h) fun _ _ => False := by
  obtain ⟨⟨g, hg, body, result⟩, value⟩ := loads
  have found : l.findFunction f = .ok g := Library.findFunction_eq hg
  unfold evaluate
  rw [call_eq]
  refine meets_bind.2 (meets_bind.2 (meets_lift found (meets_bind.2 (meets_modify.2 ?_))))
  generalize hn : (if m.frames.isEmpty then { m with steps := 0 } else m) = n at proceeds
  have same : n.stack = m.stack ∧ n.At bytes frames m.heap := by
    subst hn
    split
    · exact ⟨rfl, hm.bytes, hm.frames, rfl⟩
    · exact ⟨rfl, hm⟩
  obtain ⟨stack, at₁⟩ := same
  have shared₁ : y.incref n.heap = (h, .ok ()) := at₁.heap ▸ shared
  unfold answer
  rw [body]
  refine (meets_launch ⟨⟨g, hg, body, result⟩, value⟩ (at₁.heap.symm ▸ at₁) shared₁ (stack ▸ room)
    proceeds).imp (fun _ p at₂ => ?_) fun _ _ h => h
  refine meets_bind.2 (meets_lift found (meets_pullValue at₂ ?_ ?_ fun q at₃ => ⟨rfl, at₃⟩))
  · rw [List.length_reverse, y.length_encode, result]
  · rw [List.reverse_reverse, result]
    exact y.decode_encode

end Run

/-! ### Displayed values -/

theorem Heap.size_alloc_le (h : Heap) (x : Content) : (h.alloc x).1.cells.size ≤ h.cells.size + 1 := by
  obtain ⟨cells, free, live⟩ := h
  cases free <;> simp [alloc]

/-- A text that is shared can still be read. -/
theorem Heap.Tidy.incref {h : Heap} (tidy : h.Tidy) {r : Handle} {c : Cell} {s : String}
    (held : h.cell? r = some (c, .string s)) : ∃ k, h.incref r = (k, .ok ()) ∧ k.string r = .ok s := by
  have real : r.isNull = false := by
    cases hn : r.isNull with
    | false => rfl
    | true => cases (tidy.cell?_null hn).symm.trans held
  have recounts := Heap.recounts tidy held (c.count + 1)
  refine ⟨_, by simp only [Heap.incref, real, held]; rfl, ?_⟩
  simp [Heap.string, Heap.content, recounts.self, real, bind, Except.bind]

namespace Value

variable {h k : Heap} {l : Literal}

theorem literal?_string {r : Handle} : (string r).literal? h = some l ↔ ∃ s, h.string r = .ok s ∧ .string s = l := by
  rw [literal?]
  cases h.string r <;> simp [Except.toOption]

theorem ty_literal? {v : Value} (hv : v.literal? h = some l) : v.ty = l.ty := by
  cases v with
  | string r =>
    obtain ⟨s, -, rfl⟩ := literal?_string.1 hv
    rfl
  | _ => cases hv <;> rfl

/-- Values with one literal are displayed alike. -/
theorem text_congr {v w : Value} (hv : v.literal? h = some l) (hw : w.literal? k = some l) :
    w.ty = v.ty ∧ w.text k = v.text h := by
  cases v with
  | string r =>
    obtain ⟨s, hr, rfl⟩ := literal?_string.1 hv
    cases w with
    | string q =>
      obtain ⟨t, hq, e⟩ := literal?_string.1 hw
      obtain rfl := Literal.string.inj e
      refine ⟨rfl, ?_⟩
      simp only [text, ty, textAs, hr, hq]
    | _ => cases hw
  | void | list _ _ | closure _ _ _ | tuple _ => cases hv
  | _ =>
    cases hv
    cases w with
    | string q =>
      obtain ⟨t, -, e⟩ := literal?_string.1 hw
      cases e
    | _ => cases hw <;> exact ⟨rfl, rfl⟩

/-- The value of a literal can be shared, and still has its literal. -/
theorem shares_literal (tidy : h.Tidy) (space : h.cells.size < Heap.capacity) (l : Literal) :
    ∃ k, (l.value h).2.incref (l.value h).1 = (k, .ok ()) ∧ (l.value h).2.literal? k = some l := by
  cases l with
  | string s =>
    have allocates := Heap.allocates tidy (.string s) (Nat.le_trans (h.size_alloc_le _) space)
    obtain ⟨c, -, held⟩ := allocates.self
    obtain ⟨k, shared, found⟩ := allocates.tidy.incref held
    refine ⟨k, ?_, literal?_string.2 ⟨s, found, rfl⟩⟩
    change Heap.increfs [(h.alloc (.string s)).2] (h.alloc (.string s)).1 = _
    simp only [Heap.increfs, shared]
  | _ => exact ⟨h, rfl, rfl⟩

end Value

namespace Session

variable {s : Session} {l : Literal} {span : Span} {source : String}

/-- The compilation of an input before its program is read. -/
def compiling (s : Session) : Compilation :=
  Compilation.start (s.world.addModule s.inputModule).1 s.world.library.modules.size

/-- An input of one expression that is a value is accepted. -/
theorem compile_load {e : Expr} {y : Value} {h : Heap} (read : Program.read source = .ok ⟨[], some e⟩)
    (written : Meets (Compile.writeMain s.invoke ⟨[], some e⟩) s.compiling
      (fun i d => d.heap = h ∧ d.library.Loads ⟨s.compiling.module, i⟩ y) fun _ _ => False) :
    ∃ w main, s.compile source = ({ s with world := w }, .ok main) ∧ w.machine = { s.world.machine with heap := h } ∧
      w.library.Loads main y := by
  have compiles : Meets (Compile.program s.invoke ⟨[], some e⟩)
      (Compilation.start (s.world.addModule s.inputModule).1 s.world.library.modules.size) _ _ :=
    Compilation.meets_program rfl written
  rw [Session.compile, read]
  dsimp only
  rw [compileProgram, compileInto_eq, World.compile_eq]
  cases hr : Compile.program s.invoke ⟨[], some e⟩
      (Compilation.start (s.world.addModule s.inputModule).1 s.world.library.modules.size) with
  | error f d => exact (compiles.of_error hr).elim
  | ok i d =>
    obtain ⟨heap, loads⟩ := compiles.of_ok hr
    exact ⟨_, _, rfl, congrArg (fun h => { s.world.machine with heap := h }) heap, loads⟩

/-- It gives the value, if that can be shared and there is room for it. -/
theorem evaluates_load {e : Expr} {y : Value} {h k : Heap} (read : Program.read source = .ok ⟨[], some e⟩)
    (written : Meets (Compile.writeMain s.invoke ⟨[], some e⟩) s.compiling
      (fun i d => d.heap = h ∧ d.library.Loads ⟨s.compiling.module, i⟩ y) fun _ _ => False)
    (shared : y.incref h = (k, .ok ())) (room : s.world.machine.stack.size + y.ty.size ≤ s.world.machine.stack.limit)
    (proceeds : (if s.world.machine.frames.isEmpty then { s.world.machine with steps := 0 } else s.world.machine).Proceeds) :
    (s.eval source).2 = .ok y ∧ (s.eval source).1.heap = k := by
  obtain ⟨w, main, compiled, machine, loads⟩ := compile_load read written
  have evaluates : Meets (Run.evaluate w.library main) w.machine
      (fun x n => x = y ∧ n.At s.world.machine.stack.bytes s.world.machine.frames k) fun _ _ => False := by
    rw [machine]
    refine Run.meets_evaluate loads ⟨rfl, rfl, rfl⟩ shared room ?_
    dsimp only
    split_ifs at proceeds ⊢ <;> exact proceeds
  rw [eval, compiled]
  dsimp only
  rw [run_eq]
  cases hr : Run.evaluate w.library main w.machine with
  | error f n => exact (evaluates.of_error hr).elim
  | ok x n =>
    obtain ⟨rfl, left⟩ := evaluates.of_ok hr
    exact ⟨rfl, (heap_keep ..).trans left.heap⟩

/-- A literal that is typed in gives its value. -/
theorem evaluates_literal (read : Program.read source = .ok ⟨[], some (.literal l span)⟩) (tidy : s.heap.Tidy)
    (space : s.heap.cells.size < Heap.capacity) (unstopped : s.world.machine.Unstopped)
    (room : s.world.machine.stack.size + l.ty.size ≤ s.world.machine.stack.limit) :
    ∃ y, (s.eval source).2 = .ok y ∧ y.literal? (s.eval source).1.heap = some l := by
  obtain ⟨k, shared, literal⟩ := Value.shares_literal tidy space l
  have hm : s.compiling.library.modules[s.compiling.module]? = some s.inputModule := Library.modules_add_self
  obtain ⟨value, heap⟩ := evaluates_load read (Compilation.meets_main_literal hm (inputModule_spec s).1.values s.invoke) shared
    ((Compilation.ty_value l s.heap).symm ▸ room) (Machine.Unstopped.proceeds (by split <;> exact unstopped))
  exact ⟨_, value, heap.symm ▸ literal⟩

/-- The heap of a session is tidy, whatever was done before. -/
theorem tidy_serveAll {s₀ : Session} {c : Config} {rs : List Request} (started : start c = .ok s₀) (hc : c.Plain)
    (plain : ∀ r ∈ rs, r.isPlain) (room : (s₀.serveAll rs).1.heap.cells.size ≤ Heap.capacity) :
    (s₀.serveAll rs).1.heap.Tidy := by
  obtain ⟨dead, roots, sound, -⟩ := (sound_start started hc).serveAll plain
  obtain ⟨-, Ψ, typed⟩ := sound.heap room
  exact typed.balanced.tidy

/-- What a value is displayed as is an input that gives a value of the same type, which is displayed alike. -/
theorem displayed_evaluates {h : Heap} {v : Value} (shown : v.IsShown h) (tidy : s.heap.Tidy)
    (space : s.heap.cells.size < Heap.capacity) (unstopped : s.world.machine.Unstopped)
    (room : s.world.machine.stack.size + v.ty.size ≤ s.world.machine.stack.limit) :
    ∃ y, (s.eval (v.text h)).2 = .ok y ∧ y.ty = v.ty ∧ y.text (s.eval (v.text h)).1.heap = v.text h := by
  obtain ⟨l, span, literal, read⟩ := Value.read_text shown
  obtain ⟨y, value, same⟩ := evaluates_literal read tidy space unstopped (Value.ty_literal? literal ▸ room)
  exact ⟨y, value, Value.text_congr literal same⟩

/-- A text with a line feed and a quote. -/
def quoted : Heap × Handle := ({} : Heap).allocString "a\n\"b"

theorem displayed_evaluates_quoted : Value.text quoted.1 (.string quoted.2) = "\"a\\n\\\"b\"" ∧
    (∃ y, (bare.eval (Value.text quoted.1 (.string quoted.2))).2 = .ok y ∧ y.ty = .string ∧
      y.text (bare.eval (Value.text quoted.1 (.string quoted.2))).1.heap = Value.text quoted.1 (.string quoted.2)) ∧
    ∃ y, (bare.eval (Value.text {} (.int32 Int32.minValue))).2 = .ok y ∧ y.ty = .int32 ∧
      y.text (bare.eval (Value.text {} (.int32 Int32.minValue))).1.heap = Value.text {} (.int32 Int32.minValue) := by
  have all : "a\n\"b".toList.all fun c => decide (Text.Showable c) := by decide
  have readable : ∀ c ∈ "a\n\"b".toList, Text.Showable c := fun c hc => of_decide_eq_true (List.all_eq_true.1 all c hc)
  refine ⟨by decide +kernel, ?_, ?_⟩
  · exact displayed_evaluates (v := .string quoted.2) ⟨_, rfl, readable⟩ Heap.tidy_empty (by decide) rfl (by decide)
  · exact displayed_evaluates (v := .int32 Int32.minValue) trivial Heap.tidy_empty (by decide) rfl (by decide)

/-- The least number of 64 bits is displayed, but its digits are not those of a token. -/
theorem least_int64_refused : (bare.eval "-9223372036854775807L - 1L").2.toOption.map (Value.text {}) =
      some "-9223372036854775808L" ∧ (bare.eval "-9223372036854775808L").2.toOption.isNone := by
  decide +kernel

end Session

end StackScript
