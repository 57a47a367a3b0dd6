import StackScript.Proofs.Balancing
import StackScript.Proofs.Contents
import StackScript.Proofs.Reachability
import StackScript.Proofs.Segments
import StackScript.Proofs.Writing

/-!
Closures and frames. A closure takes over the upper part of a frame, the bound arguments and the captured values. To
execute it puts that part back above the other arguments, so that the function finds each variable where it is said to
be, as if it had been called directly.
-/
namespace StackScript

/-- The bytes of a frame, from the bottom up. The first captured value is on top, and the last parameter lies lowest. -/
def Frame.layout (ps bs ns : List Bytes) : Bytes := ps.reverse.flatten ++ bs.reverse.flatten ++ ns.reverse.flatten

/-- The closure of a function over bound arguments and captured values. -/
def Closure.capturing (f : FunctionRef) (s : Signature) (bs ns : List Bytes) : Closure :=
  ⟨f, s.closureLayout, bs.reverse.flatten ++ ns.reverse.flatten⟩

namespace Signature

variable {s : Signature} {ps bs ns : List Bytes}

/-- The values take as many bytes as the types of the signature say. -/
structure Fits (s : Signature) (ps bs ns : List Bytes) : Prop where
  params : ps.map List.length = s.params.map Ty.size
  bound : bs.map List.length = s.bound.map Ty.size
  nonlocals : ns.map List.length = s.nonlocals.map Ty.size

/-- The handles in what a closure carries. -/
def carried (s : Signature) (bs ns : List Bytes) : List Handle := Ty.heldIn s.closureLayout (bs.reverse ++ ns.reverse)

theorem Fits.closure (fits : s.Fits ps bs ns) :
    (bs.reverse ++ ns.reverse).map List.length = s.closureLayout.map Ty.size := by
  rw [closureLayout, List.map_append, List.map_append, List.map_reverse, List.map_reverse, List.map_reverse,
    List.map_reverse, fits.bound, fits.nonlocals]

theorem Fits.frame (fits : s.Fits ps bs ns) : (ns ++ bs ++ ps).map List.length = (Draft.frameTypes s).map Ty.size := by
  simp only [Draft.frameTypes, List.map_append, fits.params, fits.bound, fits.nonlocals]

end Signature

theorem Closure.handles_over {f : FunctionRef} {s : Signature} {ps bs ns : List Bytes} (fits : s.Fits ps bs ns) :
    Ty.handlesIn s.closureLayout 0 (Closure.capturing f s bs ns).bytes = .ok (s.carried bs ns) := by
  have inside := Ty.handlesIn_flatten fits.closure []
  rwa [List.nil_append, List.flatten_append] at inside

/-! ### Variables -/

/-- What lies below and above one of the values of a frame. -/
theorem Frame.layout_around {s : Signature} {ps bs ns : List Bytes} (fits : s.Fits ps bs ns) {j : Nat} {x : Bytes}
    (at_j : (ns ++ bs ++ ps)[j]? = some x) :
    ∃ below above, Frame.layout ps bs ns = below ++ x ++ above ∧
      above.length = Ty.sizes ((Draft.frameTypes s).take j) := by
  have fit := congrArg (List.take j) fits.frame
  rw [← List.map_take, ← List.map_take] at fit
  have whole : Frame.layout ps bs ns = (ns ++ bs ++ ps).reverse.flatten := by
    rw [Frame.layout, List.reverse_append, List.reverse_append, List.flatten_append, List.flatten_append,
      List.append_assoc]
  generalize ns ++ bs ++ ps = values at *
  obtain ⟨hj, rfl⟩ := List.getElem?_eq_some_iff.1 at_j
  have split : values.reverse = (values.drop (j + 1)).reverse ++ [values[j]] ++ (values.take j).reverse := by
    rw [← List.reverse_singleton, List.append_assoc, ← List.reverse_append, List.take_append_getElem,
      ← List.reverse_append, List.take_append_drop]
  refine ⟨(values.drop (j + 1)).reverse.flatten, (values.take j).reverse.flatten, ?_, ?_⟩
  · rw [whole, split, List.flatten_append, List.flatten_append, List.flatten_singleton]
  · rw [← Ty.length_flatten fit]
    exact (List.reverse_perm _).flatten.length_eq

/-! ### On the heap -/

namespace Heap

variable {h h₁ h₂ : Heap} {r : Handle} {roots rs : List Handle} {x : Content}

/-- A cell is freed with the last reference to it. -/
theorem freed_iff {freed : Bool} (ran : h.decref r = (h₁, .ok freed)) (hn : r.isNull = false) :
    freed = true ↔ h.countOf r ≤ 1 := by
  unfold decref decrement at ran
  rw [hn] at ran
  cases hc : h.cell? r with
  | none =>
    rw [hc] at ran
    cases ran
  | some p =>
    obtain ⟨c, x⟩ := p
    rw [countOf_eq hc]
    simp only [hc, Bool.false_eq_true, if_false] at ran
    by_cases shared : 1 < c.count
    · rw [if_pos shared] at ran
      cases ran
      exact iff_of_false nofun (Nat.not_le.2 shared)
    · rw [if_neg shared] at ran
      refine iff_of_true ?_ (Nat.not_lt.1 shared)
      dsimp only at ran
      split at ran
      · cases ran
      · split at ran
        · cases ran
        · cases ran
          rfl

theorem mem_inner_of_filled (size : h.cells.size ≤ capacity) (same : ∀ s x, h.filled? s = some x → h₁.filled? s = some x)
    (inside : r ∈ h.inner) : r ∈ h₁.inner := by
  obtain ⟨s, c, x, hc, holds⟩ := exists_holder size inside
  obtain ⟨d, hd⟩ := filled?_eq_some.1 (same s x (filled?_eq_some.2 ⟨c, hc⟩))
  exact mem_inner hd holds

/-- The references in a cell are taken, and one to the cell is given up. The cell stays if there is another one. -/
theorem Balanced.stays_iff (hb : h.Balanced (r :: roots)) (hx : h.filled? r = some x) (read : x.handles = .ok rs)
    (hb₁ : h₁.Balanced (rs ++ r :: roots)) (same : ∀ s, h₁.filled? s = h.filled? s) :
    ∃ h₂ freed, h₁.decref r = (h₂, .ok freed) ∧ h₂.Balanced (rs ++ roots) ∧ h₁.Keeps h₂ ∧
      (h₂.Holds r ↔ 1 < h.countOf r) := by
  have hn := hb.isNull_of_filled hx
  have counted := hb.counts r hn
  have counted₁ := hb₁.counts r hn
  rw [List.count_cons_self] at counted
  rw [List.count_append, List.count_cons_self] at counted₁
  obtain ⟨h₂, freed, less, hb₂, keeps, gone⟩ := (hb₁.perm List.perm_middle).released hn
  refine ⟨h₂, freed, less, hb₂, keeps, fun holds => ?_, fun shared => ?_⟩
  · obtain ⟨⟨c, y⟩, hc⟩ := Option.isSome_iff_exists.1 holds
    have positive := hb₂.positive r c y hc
    rw [← countOf_eq hc, hb₂.counts r hn, ← List.count_append, List.count_pos_iff] at positive
    have elsewhere : r ∈ roots ∨ r ∈ h.inner := by
      rcases List.mem_append.1 positive with outside | inside
      · rcases List.mem_append.1 outside with carried | root
        · obtain ⟨c, hc⟩ := filled?_eq_some.1 hx
          exact .inr (mem_inner hc (Content.held_eq read ▸ carried))
        · exact .inl root
      · exact .inr (mem_inner_of_filled hb₂.size (fun s z hz => same s ▸ keeps.filled s z hz) inside)
    rcases elsewhere with root | inside
    · have := List.count_pos_iff.2 root
      omega
    · have := List.count_pos_iff.2 inside
      omega
  · have more : 1 < h₁.countOf r := by
      have inside : 0 < h.inner.count r → 0 < h₁.inner.count r := by
        rw [List.count_pos_iff, List.count_pos_iff]
        exact mem_inner_of_filled hb.size fun s z hz => (same s).trans hz
      omega
    have kept := (freed_iff less hn).not.2 (Nat.not_le.2 more)
    exact not_not.1 (gone.not.1 kept)

end Heap

namespace Run

variable {l : Library} {a : Activation} {f : FunctionRef} {g : Function} {m : Machine} {low : Bytes} {h : Heap}
  {r : Handle} {roots rs : List Handle} {ps bs ns : List Bytes} {p q : Nat}

/-! ### By instructions -/

theorem makeClosure_given (found : l.findFunction f = .ok g) (here : a.function.module = f.module)
    (fits : g.signature.Fits ps bs ns) (room : low.length + handleSize ≤ m.stack.limit)
    (balanced : h.Balanced (g.signature.carried bs ns ++ roots))
    (capacity : (h.alloc (.closure (.capturing f g.signature bs ns))).1.cells.size ≤ Heap.capacity) :
    ∃ r h', execute l a .makeClosure f.index q (m.given (low ++ bs.reverse.flatten ++ ns.reverse.flatten) h) =
      .ok none (m.given (low ++ r.toBytes) h') ∧ h'.filled? r = some (.closure (.capturing f g.signature bs ns)) ∧
        h'.Balanced (r :: roots) := by
  have length : (bs.reverse.flatten ++ ns.reverse.flatten).length = Ty.sizes g.signature.closureLayout := by
    rw [← List.flatten_append, Ty.length_flatten fits.closure]
  have handles : (Content.closure (.capturing f g.signature bs ns)).handles = .ok (g.signature.carried bs ns) :=
    Closure.handles_over fits
  obtain ⟨r, h', made, filled, balanced'⟩ := alloc_given m low handles balanced capacity
  have pushed : pushHandle r (m.given low h') = .ok () (m.given (low ++ r.toBytes) h') :=
    push_given (by rwa [Handle.length_toBytes])
  refine ⟨r, h', ?_, filled, balanced'⟩
  unfold execute
  dsimp only
  rw [here, List.append_assoc, bind_of_ok (lift_of_ok found), bind_of_ok (pull_given length)]
  exact bind_of_ok ((bind_of_ok made _).trans pushed) _

theorem openClosure_given (m : Machine) (low : Bytes) {c : Closure} (filled : h.filled? r = some (.closure c))
    (read : Ty.handlesIn c.types 0 c.bytes = .ok rs) (alive : (l.get c.function.module).alive)
    (balanced : h.Balanced (r :: roots)) (room : low.length + c.bytes.length ≤ m.stack.limit) :
    ∃ h', openClosure l (m.given (low ++ r.toBytes) h) = .ok c.function (m.given (low ++ c.bytes) h') ∧
      h'.Balanced (rs ++ roots) ∧ h.Keeps h' ∧ (h'.Holds r ↔ 1 < h.countOf r) := by
  obtain ⟨cell, hc⟩ := Heap.filled?_eq_some.1 filled
  have handles : (Content.closure c).handles = .ok rs := read
  have content : h.closure r = .ok c := by
    simp [Heap.closure, Heap.content, hc, bind, Except.bind]
  have live : ∀ s ∈ rs, s.isNull = false → h.Holds s := fun s held hn =>
    balanced.holds (.inr (Heap.mem_inner hc (Content.held_eq handles ▸ held))) hn
  obtain ⟨h₁, taken, balanced₁, size, same⟩ := increfs_given m (low ++ c.bytes) balanced live
  obtain ⟨h₂, freed, less, balanced₂, keeps, stays⟩ := balanced.stays_iff filled handles balanced₁ same
  refine ⟨h₂, ?_, balanced₂, ⟨keeps.size.trans size, fun s x hx => same s ▸ keeps.filled s x hx⟩, stays⟩
  have given_up : decref r (m.given (low ++ c.bytes) h₁) = .ok freed (m.given (low ++ c.bytes) h₂) := onHeap_given less
  rw [openClosure, bind_of_ok (pullHandle_given r), bind_of_ok (readHeap_given content), bind_of_ok (push_given room),
    bind_of_ok (lift_of_ok read), bind_of_ok taken, bind_of_ok given_up]
  simp only [alive]
  rfl

theorem perform_execute {n : Machine} (opened : openClosure l m = .ok f n) :
    perform l a .execute p q m = dispatch l { a with cursor := a.cursor + 1 } (some f) n := by
  have executed : execute l { a with cursor := a.cursor + 1 } .execute p q m = .ok (some f) n := bind_of_ok opened _
  exact (bind_of_ok rfl _).trans (bind_of_ok executed _)

theorem perform_call0 (l : Library) (a : Activation) (i q : Nat) (m : Machine) : perform l a .call0 i q m =
    dispatch l { a with cursor := a.cursor + 2 } (some ⟨a.function.module, i⟩) m := rfl

/-- A function with code is entered at the height of the stack. -/
theorem dispatch_code {code : Array UInt8} (found : l.findFunction f = .ok g) (body : g.body.code? = some code)
    (a : Activation) (m : Machine) :
    ∃ n, dispatch l a (some f) m = .ok (some ⟨f, code, 0, m.stack.size⟩) n ∧ n.stack = m.stack ∧ n.heap = m.heap := by
  obtain ⟨n, noticed, stack, heap⟩ : ∃ n, notice (.entered f) m = .ok () n ∧ n.stack = m.stack ∧ n.heap = m.heap :=
    ⟨if m.watch.isSome then { m with journal := .entered f :: m.journal } else m, rfl, by split <;> rfl,
      by split <;> rfl⟩
  have entered : enter l f m = .ok (some ⟨f, code, 0, 0⟩) n := by
    rw [enter_found l found]
    cases hb : g.body with
    | code bytes =>
      rw [hb] at body
      cases body
      exact bind_of_ok noticed _
    | fragment op =>
      rw [hb] at body
      cases body
      exact bind_of_ok noticed _
    | native n | undefined | generic decl scope =>
      rw [hb] at body
      cases body
  refine ⟨{ n with frames := ⟨some a.function, a.cursor, a.base⟩ :: n.frames }, ?_, stack, heap⟩
  rw [← stack]
  exact (bind_of_ok entered _).trans rfl

theorem copyArgument_given {below x above high : Bytes} {offset size : Nat} (base : a.base = (below ++ x ++ above).length)
    (place : above.length = offset) (length : x.length = size)
    (room : (below ++ x ++ above ++ high).length + size ≤ m.stack.limit) :
    execute l a .copyArgument offset size (m.given (below ++ x ++ above ++ high) h) =
      .ok none (m.given (below ++ x ++ above ++ high ++ x) h) := by
  rw [List.length_append, List.length_append] at base
  have start : a.base - (offset + size) = below.length := by omega
  have enough : ¬ a.base < offset + size := by omega
  rw [List.append_assoc (below ++ x)] at room ⊢
  unfold execute
  dsimp only
  rw [if_neg enough, start]
  exact bind_of_ok (setStack_given (Stack.copy_ofData rfl length room)) _

/-- A variable of a frame is where its symbol says, with anything above the frame. -/
theorem argument_given (fits : g.signature.Fits ps bs ns) {j offset : Nat} {t : Ty} {x high : Bytes}
    (at_j : (ns ++ bs ++ ps)[j]? = some x) (length : x.length = t.size)
    (place : offset = Ty.sizes ((Draft.frameTypes g.signature).take j))
    (base : a.base = (low ++ Frame.layout ps bs ns).length)
    (room : (low ++ Frame.layout ps bs ns ++ high).length + t.size ≤ m.stack.limit) :
    execute l a .copyArgument offset t.size (m.given (low ++ Frame.layout ps bs ns ++ high) h) =
      .ok none (m.given (low ++ Frame.layout ps bs ns ++ high ++ x) h) := by
  obtain ⟨below, above, around, size⟩ := Frame.layout_around fits at_j
  rw [around] at base room ⊢
  simp only [← List.append_assoc] at base room ⊢
  exact copyArgument_given base (size.trans place.symm) length room

end Run

/-- A symbol of a frame stands for one of its values, and tells how far below the base that ends. -/
theorem Draft.mem_frameSymbols {s : Signature} {ps bs ns : List Bytes} (fits : s.Fits ps bs ns)
    {captures params : List String} {name : String} {symbol : Symbol}
    (among : (name, symbol) ∈ frameSymbols s captures params) :
    ∃ offset t x j, ((∃ i, symbol = .nonlocal i offset t ∧ captures[i]? = some name ∧ s.nonlocals[i]? = some t ∧
        ns[i]? = some x) ∨
      ∃ i, symbol = .parameter i offset t ∧ params[i]? = some name ∧ s.params[i]? = some t ∧ ps[i]? = some x) ∧
      (ns ++ bs ++ ps)[j]? = some x ∧ x.length = t.size ∧ offset = Ty.sizes ((frameTypes s).take j) := by
  rcases List.mem_append.1 among with captured | parameter
  · obtain ⟨pre, t, post, typed, named, rfl⟩ := mem_place captured
    have at_pre : s.nonlocals[pre.length]? = some t := by simp [typed]
    obtain ⟨x, found, length⟩ := Ty.exists_of_fit fits.nonlocals at_pre
    have inside : pre.length < ns.length := (List.getElem?_eq_some_iff.1 found).1
    rw [Nat.zero_add, Nat.zero_add]
    refine ⟨_, t, x, pre.length, .inl ⟨_, rfl, named, at_pre, found⟩, ?_, length, ?_⟩
    · rw [List.append_assoc, List.getElem?_append_left inside, found]
    · rw [frameTypes, typed, List.append_assoc, List.append_assoc, List.take_left]
  · obtain ⟨pre, t, post, typed, named, rfl⟩ := mem_place parameter
    have at_pre : s.params[pre.length]? = some t := by simp [typed]
    obtain ⟨x, found, length⟩ := Ty.exists_of_fit fits.params at_pre
    have before : (ns ++ bs).length = (s.nonlocals ++ s.bound).length := by
      have first := congrArg List.length fits.nonlocals
      have second := congrArg List.length fits.bound
      simp only [List.length_map] at first second
      rw [List.length_append, List.length_append, first, second]
    rw [Nat.zero_add]
    refine ⟨_, t, x, (ns ++ bs).length + pre.length, .inr ⟨_, rfl, named, at_pre, found⟩, ?_, length, ?_⟩
    · rw [List.getElem?_append_right (Nat.le_add_right _ _), Nat.add_sub_cancel_left, found]
    · rw [frameTypes, before, List.take_length_add_append, typed, List.take_left, Ty.sizes_append, Ty.sizes_append,
        Signature.closureSize]

namespace Run

variable {l : Library} {f : FunctionRef} {g : Function} {ps bs ns : List Bytes}

/-- A closure takes the references in its bound arguments and captured values over. Executed above the other arguments, it
leaves the frame that a direct call finds, and both enter the function at the height of that frame. The references in what
the closure carried are then held by the stack, and by the closure too if it stays, which it does if there was another
reference to it. In the function the symbol of each variable tells where its value is. -/
theorem closure_restores (found : l.findFunction f = .ok g) (alive : (l.get f.module).alive)
    (fits : g.signature.Fits ps bs ns) :
    (∀ (a : Activation) (q : Nat) (m : Machine) (low : Bytes) (h : Heap) (roots : List Handle),
      a.function.module = f.module → low.length + handleSize ≤ m.stack.limit →
      h.Balanced (g.signature.carried bs ns ++ roots) →
      (h.alloc (.closure (.capturing f g.signature bs ns))).1.cells.size ≤ Heap.capacity →
      ∃ r h', execute l a .makeClosure f.index q (m.given (low ++ bs.reverse.flatten ++ ns.reverse.flatten) h) =
        .ok none (m.given (low ++ r.toBytes) h') ∧ h'.filled? r = some (.closure (.capturing f g.signature bs ns)) ∧
          h'.Balanced (r :: roots)) ∧
    (∀ (a : Activation) (p q : Nat) (m : Machine) (low : Bytes) (h : Heap) (r : Handle) (roots : List Handle),
      h.filled? r = some (.closure (.capturing f g.signature bs ns)) → h.Balanced (r :: roots) →
      (low ++ Frame.layout ps bs ns).length ≤ m.stack.limit →
      ∃ h', perform l a .execute p q (m.given (low ++ ps.reverse.flatten ++ r.toBytes) h) =
          dispatch l { a with cursor := a.cursor + 1 } (some f) (m.given (low ++ Frame.layout ps bs ns) h') ∧
        (∀ c : Activation, c.function.module = f.module →
          perform l c .call0 f.index q (m.given (low ++ Frame.layout ps bs ns) h') =
            dispatch l { c with cursor := c.cursor + 2 } (some f) (m.given (low ++ Frame.layout ps bs ns) h')) ∧
        (∀ c code, g.body.code? = some code →
          ∃ n, dispatch l c (some f) (m.given (low ++ Frame.layout ps bs ns) h') =
            .ok (some ⟨f, code, 0, (low ++ Frame.layout ps bs ns).length⟩) n ∧
              n.stack = .ofData (low ++ Frame.layout ps bs ns) m.stack.limit ∧ n.heap = h') ∧
        h'.Balanced (g.signature.carried bs ns ++ roots) ∧ h.Keeps h' ∧ (h'.Holds r ↔ 1 < h.countOf r)) ∧
    ∀ (captures params : List String) (name : String) (symbol : Symbol),
      (name, symbol) ∈ Draft.frameSymbols g.signature captures params →
      ∃ offset t x,
        ((∃ i, symbol = .nonlocal i offset t ∧ captures[i]? = some name ∧ g.signature.nonlocals[i]? = some t ∧
          ns[i]? = some x) ∨
        ∃ i, symbol = .parameter i offset t ∧ params[i]? = some name ∧ g.signature.params[i]? = some t ∧
          ps[i]? = some x) ∧
        ∀ (a : Activation) (m : Machine) (low high : Bytes) (h : Heap), a.base = (low ++ Frame.layout ps bs ns).length →
          (low ++ Frame.layout ps bs ns ++ high).length + t.size ≤ m.stack.limit →
          execute l a .copyArgument offset t.size (m.given (low ++ Frame.layout ps bs ns ++ high) h) =
            .ok none (m.given (low ++ Frame.layout ps bs ns ++ high ++ x) h) := by
  refine ⟨fun a q m low h roots here room balanced capacity => makeClosure_given found here fits room balanced capacity,
    fun a p q m low h r roots filled balanced room => ?_, fun captures params name symbol among => ?_⟩
  · have whole : low ++ Frame.layout ps bs ns =
        low ++ ps.reverse.flatten ++ (Closure.capturing f g.signature bs ns).bytes := by
      rw [Frame.layout, Closure.capturing, List.append_assoc, List.append_assoc]
    obtain ⟨h', opened, balanced', keeps, stays⟩ := openClosure_given m (low ++ ps.reverse.flatten) filled
      (Closure.handles_over fits) alive balanced (by rwa [whole, List.length_append] at room)
    rw [← whole] at opened
    refine ⟨h', ?_, fun c here => ?_, fun c code body => dispatch_code found body c _, balanced', keeps, stays⟩
    · exact perform_execute opened
    · rw [perform_call0, here]
  · obtain ⟨offset, t, x, j, stands, at_j, length, place⟩ := Draft.mem_frameSymbols fits among
    exact ⟨offset, t, x, stands, fun a m low high h base room => argument_given fits at_j length place base room⟩

/-- A function of a byte, an integer and a text. -/
def mixed : Function where
  name := "f"
  signature := { params := [.byte], nonlocals := [.string], bound := [.int32] }
  body := .code #[]

/-- The closure of that function over seven and a text, made and executed above a byte. -/
theorem closure_restores_mixed :
    let l : Library := { modules := #[{ Module.named "m" with functions := #[mixed] }] }
    let h := (Heap.alloc {} (.string "a")).1
    let seven := (Value.int32 7).encode
    let text := Handle.toBytes ⟨0, 1⟩
    ∃ (r : Handle) (h₁ h₂ : Heap),
      execute l default .makeClosure 0 0 (Machine.given {} ([] ++ seven ++ text) h) =
        .ok none (Machine.given {} r.toBytes h₁) ∧
      perform l default .execute 0 0 (Machine.given {} ([9] ++ r.toBytes) h₁) =
        dispatch l { (default : Activation) with cursor := 1 } (some ⟨0, 0⟩)
          (Machine.given {} ([9] ++ seven ++ text) h₂) ∧
      h₂.Balanced [⟨0, 1⟩] ∧ h₂.Holds ⟨0, 1⟩ := by
  intro l h seven text
  have one : h.Balanced [⟨0, 1⟩] :=
    Heap.balanced_empty.alloc ⟨[], rfl⟩ (by decide) (Heap.allocates Heap.tidy_empty (.string "a") (by decide))
  obtain ⟨make, restore, -⟩ :=
    @closure_restores l ⟨0, 0⟩ mixed [[9]] [seven] [text] rfl rfl ⟨rfl, rfl, rfl⟩
  obtain ⟨r, h₁, made, filled, balanced₁⟩ := make default 0 {} [] h [] rfl (by decide) one (by decide)
  obtain ⟨h₂, ran, -, -, balanced₂, -⟩ := restore default 0 0 {} [] h₁ r [] filled balanced₁ (by decide)
  exact ⟨r, h₁, h₂, made, ran, balanced₂, balanced₂.holds (.inl (.head _)) rfl⟩

end Run

end StackScript
