import StackScript.Proofs.Histories
import StackScript.Proofs.Locality

/-!
The calling convention. A function that is called with its frame on top of the stack, and that returns, has replaced the
frame by its result; what lies below is as it was, and the result does not depend on it.
-/
namespace StackScript

namespace View

variable {v : View} {h : Heap} {f : FunctionRef} {g : Function} {frame rest : Bytes} {m n : Machine}

/-- The frame of a function on top of a stack: its parameters, then what is bound and what is captured, the first on
top, all of their types. The heap is sound over the references in it and others elsewhere. -/
def Framed (v : View) (h : Heap) (f : FunctionRef) (g : Function) (frame : Bytes) : Prop :=
  ∃ (Ψ : Typing) (b : Nat) (rs ext : List Handle), f.module ≤ b ∧
    Ψ.Lays b (Shape.ofTys (Draft.frameTypes g.signature)) frame rs [] ∧ v.Sound Ψ h (rs ++ ext)

theorem not_underflow_of_allows {e : Fault} (h : v.Allows e) : e.isUnderflow = false := by
  cases e <;> first | rfl | exact h.elim

/-- A machine with nothing but some bytes on its stack and without limits other than the height of the stack. -/
def alone (h : Heap) (frame : Bytes) (limit : Nat) : Machine :=
  { stack := ⟨frame, frame.length, limit, rfl⟩, heap := h }

theorem over_alone {limit : Nat} (hm : m.stack.bytes = frame ++ rest) (hl : m.stack.limit ≤ limit) :
    Machine.Over rest m.frames (alone m.heap frame limit) m := ⟨⟨hm, hl⟩, rfl, rfl, rfl, rfl⟩

/-- A call that returns would return without what lies below, and leave its result alone on the stack. -/
theorem call_alone (hv : v.Fits)
    (callee : ∀ b, f.module ≤ b → v.Callee b f (Draft.frameTypes g.signature) g.signature.effectiveResult)
    (framed : v.Framed m.heap f g frame) (hm : m.stack.bytes = frame ++ rest) {limit : Nat} (hl : m.stack.limit ≤ limit)
    (returned : Run.call v.library f m = .ok () n) (room : n.heap.cells.size ≤ Heap.capacity) :
    ∃ n₀, Run.call v.library f (alone m.heap frame limit) = .ok () n₀ ∧ Machine.Over rest m.frames n₀ n ∧
      n₀.stack.bytes.length = g.signature.effectiveResult.size ∧ n₀.frames = [] := by
  obtain ⟨Ψ, b, rs, ext, hb, lays, sound⟩ := framed
  have holding : v.Holding Ψ b (Shape.ofTys (Draft.frameTypes g.signature)) ext [] [] (alone m.heap frame limit) :=
    ⟨frame, rs, [], ⟨(List.append_nil _).symm, rfl, rfl⟩, lays, sound, nofun⟩
  have call := holding.call hv (callee b hb)
  have agree := (Run.Lifts.call v.library f).agree _ _ (over_alone hm hl)
  rw [returned] at agree
  cases hr : Run.call v.library f (alone m.heap frame limit) with
  | error e p =>
    rw [hr] at agree
    obtain ⟨he, size⟩ := agree
    have allows := (call.of_error hr (Nat.le_trans size room)).1
    rw [not_underflow_of_allows allows] at he
    cases he
  | ok u n₀ =>
    rw [hr] at agree
    obtain ⟨-, lies⟩ := agree
    obtain ⟨Ψ', bytes, rs', ls', hn₀, lays', -⟩ := call.of_ok hr (lies.heap ▸ room)
    refine ⟨n₀, rfl, lies, ?_, hn₀.frames⟩
    rw [hn₀.bytes, List.append_nil, lays'.length, Shape.size_ofTy]

/-- The calling convention of a function. -/
theorem call_keeps (hv : v.Fits)
    (callee : ∀ b, f.module ≤ b → v.Callee b f (Draft.frameTypes g.signature) g.signature.effectiveResult)
    (framed : v.Framed m.heap f g frame) (hm : m.stack.bytes = frame ++ rest)
    (returned : Run.call v.library f m = .ok () n) (room : n.heap.cells.size ≤ Heap.capacity) :
    ∃ result : Bytes, result.length = g.signature.effectiveResult.size ∧ n.stack.bytes = result ++ rest ∧
      n.frames = m.frames ∧
      ∀ (m' n' : Machine) (rest' : Bytes), m'.stack.bytes = frame ++ rest' → m'.heap = m.heap →
        Run.call v.library f m' = .ok () n' → n'.stack.bytes = result ++ rest' ∧ n'.heap = n.heap := by
  obtain ⟨n₀, -, lies, length, frames⟩ := call_alone hv callee framed hm (Nat.le_refl _) returned room
  refine ⟨n₀.stack.bytes, length, lies.stack.bytes, ?_, fun m' n' rest' hm' heap returned' => ?_⟩
  · rw [lies.frames, frames]
    rfl
  · -- Both calls are compared to one that has the room of either.
    obtain ⟨n₁, e, lies₁, -⟩ := call_alone hv callee framed hm (Nat.le_max_left _ m'.stack.limit) returned room
    have agree := (Run.Lifts.call v.library f).agree _ _ (over_alone hm' (Nat.le_max_right m.stack.limit _))
    rw [heap, e, returned'] at agree
    obtain ⟨-, lies'⟩ := agree
    have same : n₁.stack.bytes = n₀.stack.bytes :=
      List.append_cancel_right (lies₁.stack.bytes.symm.trans lies.stack.bytes)
    exact ⟨same ▸ lies'.stack.bytes, lies'.heap.trans lies₁.heap.symm⟩

end View

namespace Session

variable {c : Config} {s t u : Session} {rs : List Request} {es : List Failure} {source : String} {main f : FunctionRef}
  {g : Function} {frame rest : Bytes} {m n : Machine}

/-- Every function that the compiler has written keeps the calling convention. -/
theorem calls_keep (started : start c = .ok s) (hc : c.Plain) (plain : ∀ r ∈ rs, r.isPlain)
    (served : s.serveAll rs = (t, es)) (compiled : ∀ e, .compile e ∉ es) (text : Program.textIsPlain source)
    (accepted : t.compile source = (u, .ok main)) (living : (u.getModule f.module).alive)
    (hg : u.world.library.function? f = some g) (written : g.body.code?.isSome)
    (framed : View.Framed ⟨u.world.library, fun _ => False⟩ m.heap f g frame) (hm : m.stack.bytes = frame ++ rest)
    (returned : Run.call u.world.library f m = .ok () n) (room : n.heap.cells.size ≤ Heap.capacity) :
    ∃ result : Bytes, result.length = g.signature.effectiveResult.size ∧ n.stack.bytes = result ++ rest ∧
      n.frames = m.frames ∧
      ∀ (m' n' : Machine) (rest' : Bytes), m'.stack.bytes = frame ++ rest' → m'.heap = m.heap →
        Run.call u.world.library f m' = .ok () n' → n'.stack.bytes = result ++ rest' ∧ n'.heap = n.heap := by
  have left := (sound_start started hc).serveAll plain
  rw [served] at left
  obtain ⟨dead, roots, sound, none, -⟩ := left
  obtain rfl := none compiled
  obtain ⟨hs, -⟩ := sound.of_accepted text accepted
  exact View.call_keeps (v := ⟨u.world.library, fun _ => False⟩) hs.consistent.fits
    (fun b hle => (hs.consistent.lawful hg living).callee hg living written hle) framed hm returned room

/-- Whether a call returns in an arena that is not too large. -/
def returns (l : Library) (f : FunctionRef) (m : Machine) : Bool :=
  match Run.call l f m with
  | .ok _ n => n.heap.cells.size ≤ Heap.capacity
  | .error _ _ => false

theorem exists_of_returns {l : Library} (h : returns l f m) :
    ∃ n, Run.call l f m = .ok () n ∧ n.heap.cells.size ≤ Heap.capacity := by
  unfold returns at h
  cases hr : Run.call l f m with
  | error e n =>
    rw [hr] at h
    cases h
  | ok u n =>
    rw [hr] at h
    exact ⟨n, rfl, of_decide_eq_true h⟩

/-- A program with a function of two numbers. -/
def subtraction : String := "fn f(a: Int, b: Int) -> Int \x7b a - b \x7d 0"

/-- A machine with the frame of that function over one more byte. -/
def overByte : Machine :=
  { stack := ⟨[7, 0, 0, 0, 2, 0, 0, 0] ++ [9], 9, 64, rfl⟩, frames := [⟨none, 0, 0⟩] }

theorem lays_ints (Ψ : Typing) (b : Nat) : Ψ.Lays b (Shape.ofTys [.int32, .int32]) [7, 0, 0, 0, 2, 0, 0, 0] [] [] :=
  have int (bs : Bytes) (h : bs.length = 4) : Ψ.Lays b [.own .int32] bs.reverse [] [] :=
    .scalar rfl h fun e => by cases e
  (int [0, 0, 0, 7] rfl).append (int [0, 0, 0, 2] rfl)

set_option maxRecDepth 10000 in
theorem calls_keep_subtraction :
    ∃ (t : Session) (n : Machine), (bare.compile subtraction).1 = t ∧
      Run.call t.world.library ⟨1, 0⟩ overByte = .ok () n ∧
      ∃ result : Bytes, result.length = 4 ∧ n.stack.bytes = result ++ [9] ∧ n.frames = overByte.frames ∧
        ∀ (m' n' : Machine) (rest' : Bytes), m'.stack.bytes = [7, 0, 0, 0, 2, 0, 0, 0] ++ rest' →
          m'.heap = overByte.heap → Run.call t.world.library ⟨1, 0⟩ m' = .ok () n' →
          n'.stack.bytes = result ++ rest' ∧ n'.heap = n.heap := by
  have text : Program.textIsPlain subtraction := by decide +kernel
  have accepted : (bare.compile subtraction).2 = .ok ⟨1, 1⟩ :=
    ok_of_toOption (by decide +kernel)
  have living : ((bare.compile subtraction).1.getModule 1).alive := by decide +kernel
  have written : ((bare.compile subtraction).1.world.library.function? ⟨1, 0⟩).any
      (fun g => g.body.code?.isSome && Draft.frameTypes g.signature == [.int32, .int32] &&
        g.signature.effectiveResult == .int32) = true := by
    decide +kernel
  have returned : returns (bare.compile subtraction).1.world.library ⟨1, 0⟩ overByte := by
    decide +kernel
  have small : (bare.compile subtraction).1.heap.cells.size ≤ Heap.capacity := by
    decide +kernel
  have empty : (bare.compile subtraction).1.heap = overByte.heap := by decide +kernel
  generalize hr : bare.compile subtraction = r
    at accepted living written returned small empty
  obtain ⟨t, x⟩ := r
  obtain rfl : x = .ok ⟨1, 1⟩ := accepted
  dsimp only at living written returned small empty
  obtain ⟨g, hg, check⟩ := (Option.any_eq_true _ _).1 written
  simp only [Bool.and_eq_true, beq_iff_eq] at check
  obtain ⟨⟨hb, frame⟩, result⟩ := check
  obtain ⟨n, hn, room⟩ := exists_of_returns returned
  have framed : View.Framed ⟨t.world.library, fun _ => False⟩ overByte.heap ⟨1, 0⟩ g [7, 0, 0, 0, 2, 0, 0, 0] := by
    rw [View.Framed, frame]
    obtain ⟨hs, -⟩ := (sound_start start_bare plain_bare).of_accepted text hr
    obtain ⟨-, Ψ, sound⟩ := hs.heap small
    exact ⟨Ψ, 1, [], [], Nat.le_refl 1, lays_ints Ψ 1, empty ▸ sound⟩
  have served : bare.serveAll [] = (bare, []) := rfl
  have keeps := calls_keep (f := ⟨1, 0⟩) start_bare plain_bare (fun r h => by cases h) served (fun e h => by cases h)
    text hr living hg hb framed rfl hn room
  rw [result] at keeps
  exact ⟨t, n, rfl, hn, keeps⟩

/-- A program that is not plain. The list takes its type from its first item, which leaves open what it is called with;
the second one calls what it is given for four bytes, and eight are left. -/
def miscalling : String :=
  "let g: [fn([fn() -> Int64]) -> Int] = ([list_length, |s: [fn() -> Int]| s[0]()], 0).0; g[1]([|| 0L])"

theorem miscalling_leaves_bytes :
    (bare.eval miscalling).2.toOption.isSome ∧ (bare.eval miscalling).1.world.machine.stack.size = 4 := by
  decide +kernel

end Session

end StackScript
