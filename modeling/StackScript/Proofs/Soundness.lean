import StackScript.Proofs.Histories

/-!
What sessions over plain programs guarantee. The references in the static values of living modules and in the heap are
all there are, and an input that compiles runs without a fault of the machine. Both need that a function value whose
type is only partly known is never made.
-/
namespace StackScript

/-- The references in the static values of modules that are alive. -/
def Library.livingStatics (l : Library) : List Handle :=
  (l.modules.toList.filter (·.alive)).flatMap fun m => m.values.toList.flatMap Value.handles

/-- What a program may do wrong by itself. -/
def Fault.isOrdinary : Fault → Bool
  | .indexOutOfBounds _ _ | .divisionByZero | .stackOverflow _ | .aborted _ | .exponentOutOfRange _ => true
  | _ => false

theorem View.Consistent.livingStatics_eq {v : View} {waits : FunctionRef → Prop} (h : v.Consistent waits) :
    v.library.livingStatics = v.library.statics := by
  have retired : ∀ m ∈ v.library.modules.toList, m.alive = false → m.values.toList.flatMap Value.handles = [] := by
    intro m hm ha
    obtain ⟨id, hid⟩ := List.mem_iff_getElem?.1 hm
    rw [Array.getElem?_toList] at hid
    rw [(h.retired id m hid ha).1]
    rfl
  unfold Library.livingStatics Library.statics
  generalize v.library.modules.toList = ms at retired
  induction ms with
  | nil => rfl
  | cons m ms ih =>
    have ih := ih fun n hn => retired n (.tail _ hn)
    cases ha : m.alive with
    | true => rw [List.filter_cons_of_pos ha, List.flatMap_cons, List.flatMap_cons, ih]
    | false =>
      rw [List.filter_cons_of_neg (by simp [ha]), List.flatMap_cons, retired m (.head _) ha, ih]
      rfl

namespace Session

variable {c : Config} {s t u : Session} {rs : List Request} {es : List Failure} {source : String} {main : FunctionRef}

/-- References are counted exactly while no run breaks off, whatever does not compile. -/
theorem counts_exact (started : start c = .ok s) (hc : c.Plain) (plain : ∀ r ∈ rs, r.isPlain)
    (served : s.serveAll rs = (t, es)) (unbroken : ∀ f, .run f ∉ es) (room : t.heap.cells.size ≤ Heap.capacity) :
    t.world.machine.stack.bytes = [] ∧ t.world.machine.frames = [] ∧
      (∀ r : Handle, r.isNull = false →
        t.heap.countOf r = t.world.library.livingStatics.count r + t.heap.inner.count r) ∧
      t.finish.machine.heap.live = 0 := by
  have left := (sound_start started hc).serveAll plain
  rw [served] at left
  obtain ⟨dead, roots, sound, -, none⟩ := left
  obtain rfl := none unbroken
  obtain ⟨empty, Ψ, hs⟩ := sound.heap room
  refine ⟨empty, sound.frames, fun r hr => ?_, (sound.finish room).live_eq_zero⟩
  have livingStatics := sound.consistent.livingStatics_eq
  rw [livingStatics]
  exact hs.balanced.counts r hr

/-- Inputs of which the second does not compile. -/
def textInputs : List Request := [.eval "let a = \"x\" + \"y\";", .eval "a + b", .eval "[a, a]"]

theorem counts_exact_texts :
    ∃ t es, bare.serveAll textInputs = (t, es) ∧ t.heap.live = 5 ∧ es.length = 1 ∧
      (∀ r : Handle, r.isNull = false →
        t.heap.countOf r = t.world.library.livingStatics.count r + t.heap.inner.count r) ∧
      t.finish.machine.heap.live = 0 := by
  have plain : ∀ r ∈ textInputs, r.isPlain := by decide +kernel
  have facts : (bare.serveAll textInputs).1.heap.live = 5 ∧ (bare.serveAll textInputs).2.length = 1 ∧
      (bare.serveAll textInputs).2.all (fun e => (faultOf (.error e : Except Failure Value)).isNone) = true ∧
      (bare.serveAll textInputs).1.heap.cells.size ≤ Heap.capacity := by decide +kernel
  generalize hr : bare.serveAll textInputs = r at facts
  obtain ⟨t, es⟩ := r
  obtain ⟨live, failed, unbroken, room⟩ := facts
  have exact_ := counts_exact start_bare plain_bare plain hr (fun f hf => by
    have := List.all_eq_true.1 unbroken _ hf
    cases this) room
  exact ⟨t, es, rfl, live, failed, exact_.2.2⟩

/-- A function value of a type that is partly open is stored where another is read. -/
def misreading : String :=
  "let g: [fn([fn() -> String]) -> Int] = ([list_length, |s: [fn() -> Int64]| int64_to_int32(s[0]())], 0).0; " ++
  "g[1]([|| \"a\" + \"b\"])"

/-- Without plainness a reference is lost. -/
theorem misreading_leaks :
    (bare.eval misreading).2.toOption.isSome ∧ (bare.eval misreading).1.finish.machine.heap.live = 1 := by
  decide +kernel

/-- An input that compiles, after inputs that all compiled, has a value or breaks off with a fault of its own. -/
theorem compiled_runs (started : start c = .ok s) (hc : c.Plain) (plain : ∀ r ∈ rs, r.isPlain)
    (served : s.serveAll rs = (t, es)) (compiled : ∀ e, .compile e ∉ es) (text : Program.textIsPlain source)
    (accepted : t.compile source = (u, .ok main)) (room : (u.run main).1.heap.cells.size ≤ Heap.capacity) :
    (∃ y, (u.run main).2 = .ok y) ∨ ∃ f, (u.run main).2 = .error (.run f) ∧ f.isOrdinary := by
  have left := (sound_start started hc).serveAll plain
  rw [served] at left
  obtain ⟨dead, roots, sound, none, -⟩ := left
  obtain rfl := none compiled
  obtain ⟨hs, hm⟩ := sound.of_accepted text accepted
  rcases hs.run hm with ⟨y, hy, -⟩ | ⟨f, roots', hf, -, allowed⟩
  · exact .inl ⟨y, hy⟩
  · refine .inr ⟨f, hf, ?_⟩
    have := allowed room
    cases f <;> first | rfl | exact this.elim | exact this.elim fun _ h => h.elim

def halving : List Request := [.eval "fn half(n: Int) -> Int \x7b n / 2 \x7d"]

theorem compiled_runs_halving :
    ∃ t es u, bare.serveAll halving = (t, es) ∧ t.compile "half(8) / half(1)" = (u, .ok ⟨2, 0⟩) ∧
      ((∃ y, (u.run ⟨2, 0⟩).2 = .ok y) ∨ ∃ f, (u.run ⟨2, 0⟩).2 = .error (.run f) ∧ f.isOrdinary) := by
  have plain : ∀ r ∈ halving, r.isPlain := by decide +kernel
  have text : Program.textIsPlain "half(8) / half(1)" := by decide +kernel
  have compiled : (bare.serveAll halving).2.isEmpty := by decide +kernel
  have accepted : ((bare.serveAll halving).1.compile "half(8) / half(1)").2 = .ok ⟨2, 0⟩ :=
    ok_of_toOption (by decide +kernel)
  have room : (((bare.serveAll halving).1.compile "half(8) / half(1)").1.run ⟨2, 0⟩).1.heap.cells.size ≤
      Heap.capacity := by decide +kernel
  generalize hr : bare.serveAll halving = r at compiled accepted room
  obtain ⟨t, es⟩ := r
  generalize hc : t.compile "half(8) / half(1)" = q at accepted room
  obtain ⟨u, x⟩ := q
  obtain rfl : x = .ok ⟨2, 0⟩ := accepted
  obtain rfl : es = [] := List.isEmpty_iff.1 compiled
  exact ⟨t, [], u, rfl, hc, compiled_runs start_bare plain_bare plain hr (fun e he => by cases he) text hc room⟩

/-- Without plainness a number is taken for a text. -/
def miscasting : String :=
  "let g: [fn([Int]) -> Int] = ([list_length, |s: [String]| string_length(s[0])], 0).0; g[1]([1, 2])"

theorem miscasting_dangles : faultOf (bare.eval miscasting).2 = some (.danglingHandle 0x200000001) := by
  decide +kernel

end Session

end StackScript
