import StackScript.Proofs.HeapTyping
import StackScript.Proofs.MachineRules

/-!
One instruction of typed code. It moves a stack that is laid out in its shape to one that is laid out in the next,
with every reference accounted for, or breaks off with one of the faults that a program may cause itself.
-/
namespace StackScript

/-- The typings agree on the given handles. -/
def Typing.Agree (rs : List Handle) (Ψ Ψ' : Typing) : Prop := ∀ r ∈ rs, r.isNull = false → Ψ' r = Ψ r

theorem Typing.Agree.refl (rs : List Handle) (Ψ : Typing) : Ψ.Agree rs Ψ := fun _ _ _ => rfl

namespace View

variable {v : View} {Ψ Ψ' : Typing} {k b frame : Nat} {s u : Shape} {others : List Handle} {rest : Bytes}
  {frames : List Frame} {m : Machine}

/-- The faults that well-typed code can run into. A function that was never written cannot be called. -/
def Allows (v : View) : Fault → Prop
  | .indexOutOfBounds _ _ | .divisionByZero | .stackOverflow _ | .aborted _ | .exponentOutOfRange _ => True
  | .notCallable _ _ =>
    ∃ f g, (v.library.get f.module).alive ∧ v.library.function? f = some g ∧ g.body = .undefined
  | _ => False

/-- A fault leaves a heap that is sound over some roots. -/
def Broken (v : View) (e : Fault) (m : Machine) : Prop :=
  m.heap.cells.size ≤ Heap.capacity → v.Allows e ∧ ∃ Ψ roots, v.Sound Ψ m.heap roots

/-- The stack is laid out in a shape above other bytes; the other references belong to those or lie elsewhere. -/
def Holding (v : View) (Ψ : Typing) (b : Nat) (s : Shape) (others : List Handle) (rest : Bytes)
    (frames : List Frame) (m : Machine) : Prop :=
  ∃ bytes rs ls, m.At (bytes ++ rest) frames m.heap ∧ Ψ.Lays b s bytes rs ls ∧ v.Sound Ψ m.heap (rs ++ others) ∧
    ∀ r ∈ ls, r.isNull = false → m.heap.Holds r

/-- What a change of the top of the stack leads to, unless the arena has outgrown its handles. -/
def Leads (v : View) (Ψ : Typing) (b : Nat) (u : Shape) (others : List Handle) (rest : Bytes)
    (frames : List Frame) (m : Machine) : Prop :=
  m.heap.cells.size ≤ Heap.capacity → ∃ Ψ', Ψ.Agree others Ψ' ∧ v.Holding Ψ' b u others rest frames m

theorem Sound.broken {e : Fault} {roots : List Handle} (hs : v.Sound Ψ m.heap roots) (he : v.Allows e) :
    v.Broken e m :=
  fun _ => ⟨he, Ψ, roots, hs⟩

theorem Holding.leads (h : v.Holding Ψ b s others rest frames m) : v.Leads Ψ b s others rest frames m :=
  fun _ => ⟨Ψ, .refl others Ψ, h⟩

/-! ### Pulling and pushing -/

open Run

section

variable {α : Type} {ok : α → Machine → Prop} {bad : Fault → Machine → Prop} {t : Ty}

theorem Holding.pull_scalar (h : v.Holding Ψ b (.own t :: s) others rest frames m) (ht : t.isHeap = false) :
    ∃ xs bytes, m.At (xs ++ bytes) frames m.heap ∧ xs.length = t.size ∧
      ∀ m', m'.At bytes frames m.heap → v.Holding Ψ b s others rest frames m' := by
  obtain ⟨bytes, rs, ls, hm, lays, sound, hls⟩ := h
  obtain ⟨xs, cs, rfl, hl, lays⟩ := lays.scalar_cons ht
  exact ⟨xs, cs ++ rest, by rwa [← List.append_assoc], hl, fun m' hm' =>
    ⟨cs, rs, ls, hm'.heap ▸ hm', lays, hm'.heap ▸ sound, hm'.heap ▸ hls⟩⟩

theorem Holding.pullBool {ok : Bool → Machine → Prop} (h : v.Holding Ψ b (.own .bool :: s) others rest frames m)
    (hok : ∀ x m', v.Holding Ψ b s others rest frames m' → ok x m') : Meets pullBool m ok bad := by
  obtain ⟨xs, bytes, hm, hl, next⟩ := h.pull_scalar rfl
  exact meets_pullBool hm hl fun x m' hm' => hok x m' (next m' hm')

theorem Holding.pullInt32 {ok : Int32 → Machine → Prop}
    (h : v.Holding Ψ b (.own .int32 :: s) others rest frames m)
    (hok : ∀ x m', v.Holding Ψ b s others rest frames m' → ok x m') : Meets pullInt32 m ok bad := by
  obtain ⟨xs, bytes, hm, hl, next⟩ := h.pull_scalar rfl
  exact meets_pullInt32 hm hl fun x m' hm' => hok x m' (next m' hm')

theorem Holding.pullInt64 {ok : Int64 → Machine → Prop}
    (h : v.Holding Ψ b (.own .int64 :: s) others rest frames m)
    (hok : ∀ x m', v.Holding Ψ b s others rest frames m' → ok x m') : Meets pullInt64 m ok bad := by
  obtain ⟨xs, bytes, hm, hl, next⟩ := h.pull_scalar rfl
  exact meets_pullInt64 hm hl fun x m' hm' => hok x m' (next m' hm')

theorem Holding.pullNat {ok : Nat → Machine → Prop} {n : Nat}
    (h : v.Holding Ψ b (.own t :: s) others rest frames m) (ht : t.isHeap = false) (hn : t.size = n)
    (hok : ∀ x m', v.Holding Ψ b s others rest frames m' → ok x m') : Meets (pullNat n) m ok bad := by
  obtain ⟨xs, bytes, hm, hl, next⟩ := h.pull_scalar ht
  exact meets_pullNat hm (hl.trans hn) fun m' hm' => hok _ m' (next m' hm')

theorem Holding.pullWord {w : Width} {ok : Word w → Machine → Prop}
    (h : v.Holding Ψ b (.own t :: s) others rest frames m) (ht : t.isHeap = false) (hn : t.size = w.size)
    (hok : ∀ x m', v.Holding Ψ b s others rest frames m' → ok x m') : Meets (pullWord w) m ok bad := by
  obtain ⟨xs, bytes, hm, hl, next⟩ := h.pull_scalar ht
  exact meets_pullWord hm (hl.trans hn) fun x m' hm' => hok x m' (next m' hm')

theorem Holding.push_scalar {bs : Bytes} {ok : Unit → Machine → Prop}
    (h : v.Holding Ψ b s others rest frames m) (ht : t.isHeap = false) (hv : t ≠ .char) (hl : bs.length = t.size)
    (hok : ∀ m', v.Holding Ψ b (.own t :: s) others rest frames m' → ok () m') :
    Meets (Run.push bs) m ok v.Broken := by
  obtain ⟨bytes, rs, ls, hm, lays, sound, hls⟩ := h
  refine meets_push hm (fun m' hm' => hok m' ⟨bs.reverse ++ bytes, rs, ls, ?_, ?_, hm'.heap ▸ sound,
    hm'.heap ▸ hls⟩) (sound.broken trivial)
  · rw [List.append_assoc]
    exact hm'.heap ▸ hm'
  · exact lays.push_scalar ht (by rw [List.length_reverse, hl]) hv

theorem Holding.pushBool {x : Bool} {ok : Unit → Machine → Prop} (h : v.Holding Ψ b s others rest frames m)
    (hok : ∀ m', v.Holding Ψ b (.own .bool :: s) others rest frames m' → ok () m') :
    Meets (pushBool x) m ok v.Broken :=
  h.push_scalar rfl (by simp) rfl hok

theorem Holding.pushNat {n x : Nat} {ok : Unit → Machine → Prop} (h : v.Holding Ψ b s others rest frames m)
    (ht : t.isHeap = false) (hv : t ≠ .char) (hn : t.size = n)
    (hok : ∀ m', v.Holding Ψ b (.own t :: s) others rest frames m' → ok () m') :
    Meets (pushNat n x) m ok v.Broken :=
  h.push_scalar ht hv (by rw [Bytes.length_ofNat, hn]) hok

/-- A new cell takes over the references to what it contains, and its handle is pushed. -/
theorem meets_pushCell {x : Content} {n : Nat} {bytes : Bytes} {rs ls : List Handle}
    (hm : m.At (bytes ++ rest) frames m.heap) (lays : Ψ.Lays b s bytes rs ls)
    (sound : v.Sound Ψ m.heap (x.held ++ (rs ++ others))) (hls : ∀ r ∈ ls, r.isNull = false → m.heap.Holds r)
    (hx : v.Contains Ψ n t x) (hn : n ≤ b) (ht : t.isHeap) :
    Meets (alloc x >>= pushHandle) m (fun _ => v.Leads Ψ b (.own t :: s) others rest frames) v.Broken := by
  rw [meets_bind]
  refine meets_alloc hm fun m₁ hm₁ => meets_pushHandle hm₁ (fun m₂ hm₂ hcap => ?_)
    fun hcap => ⟨trivial, ?_⟩
  · rw [hm₂.heap] at hcap
    obtain ⟨Ψ', sound', hf, agree⟩ := sound.alloc hx hcap
    have hold : ∀ r ∈ rs ++ others, r.isNull = false → m.heap.Holds r := fun r hr hn =>
      sound.holds (List.mem_append_right _ hr) hn
    have agree' : ∀ r ∈ rs ++ ls, r.isNull = false → Ψ' r = Ψ r := fun r hr hn => agree r (by
      rcases List.mem_append.1 hr with hr | hr
      · exact hold r (List.mem_append_left _ hr) hn
      · exact hls r hr hn)
    refine ⟨Ψ', fun r hr hn => agree r (hold r (List.mem_append_right _ hr) hn),
      (m.heap.alloc x).2.toBytes.reverse ++ bytes, (m.heap.alloc x).2 :: rs, ls, ?_, ?_, hm₂.heap ▸ sound',
      fun r hr hn => ?_⟩
    · rw [List.append_assoc]
      exact hm₂.heap ▸ hm₂
    · refine (lays.mono (Nat.le_refl b) agree').push_handle ht (hf.mono hn fun _ => rfl)
    · rw [hm₂.heap]
      have ha := Heap.allocates sound.balanced.tidy x hcap
      have hr' := hls r hr hn
      have hne : r ≠ (m.heap.alloc x).2 := by
        rintro rfl
        rw [Heap.Holds, ha.fresh] at hr'
        cases hr'
      rwa [Heap.Holds, ha.others r hne]
  · rw [hm₁.heap] at hcap ⊢
    obtain ⟨Ψ', sound', -, -⟩ := sound.alloc hx hcap
    exact ⟨Ψ', _, sound'⟩

theorem Holding.pushString {x : String} (h : v.Holding Ψ b s others rest frames m) :
    Meets (pushString x) m (fun _ => v.Leads Ψ b (.own .string :: s) others rest frames) v.Broken := by
  obtain ⟨bytes, rs, ls, hm, lays, sound, hls⟩ := h
  exact meets_pushCell (x := .string x) hm lays sound hls (.string x) (Nat.zero_le b) rfl

/-- The handle on top leaves the stack; its reference is still held. -/
theorem Holding.pullHandle {ok : Handle → Machine → Prop} (h : v.Holding Ψ b (.own t :: s) others rest frames m)
    (ht : t.isHeap)
    (hok : ∀ r m', v.Holding Ψ b s (r :: others) rest frames m' → Ψ.Fits b t r → ok r m') :
    Meets pullHandle m ok bad := by
  obtain ⟨bytes, rs, ls, hm, lays, sound, hls⟩ := h
  obtain ⟨r, cs, rs', rfl, rfl, hf, lays⟩ := lays.handle_cons ht
  rw [List.append_assoc] at hm
  exact meets_pullHandle hm fun m' hm' => hok r m' ⟨cs, rs', ls, hm'.heap ▸ hm', lays,
    hm'.heap ▸ sound.perm List.perm_middle.symm, hm'.heap ▸ hls⟩ hf

theorem Holding.decref {r : Handle} {ok : Bool → Machine → Prop}
    (h : v.Holding Ψ b s (r :: others) rest frames m) (hs : s.Settled)
    (hok : ∀ freed m', v.Holding Ψ b s others rest frames m' → ok freed m') : Meets (decref r) m ok bad := by
  obtain ⟨bytes, rs, ls, hm, lays, sound, hls⟩ := h
  obtain rfl := lays.lent_eq_nil hs
  obtain ⟨heap, freed, e, sound', -⟩ := (sound.perm List.perm_middle).decref
  exact meets_decref hm e fun m' hm' => hok freed m'
    ⟨bytes, rs, [], hm'.heap ▸ hm', lays, hm'.heap ▸ sound', by simp⟩

/-- What a held handle of a type leads to. -/
theorem Holding.content {r : Handle} (h : v.Holding Ψ b s (r :: others) rest frames m) (hf : Ψ.Fits b t r)
    (hn : r.isNull = false) : ∃ x n, n ≤ b ∧ m.heap.filled? r = some x ∧ m.heap.content r = .ok x ∧
      v.Contains Ψ n t x := by
  obtain ⟨bytes, rs, ls, hm, lays, sound, hls⟩ := h
  obtain ⟨x, n, hb, hx, hc⟩ := sound.content hf (sound.holds (by simp) hn) hn
  obtain ⟨c, hcell⟩ := Heap.filled?_eq_some.1 hx
  exact ⟨x, n, hb, hx, by simp [Heap.content, hcell], hc⟩

theorem Holding.string {r : Handle} (h : v.Holding Ψ b s (r :: others) rest frames m) (hf : Ψ.Fits b .string r) :
    ∃ x, m.heap.string r = .ok x := by
  unfold Heap.string
  cases hn : r.isNull with
  | true => exact ⟨"", rfl⟩
  | false =>
    obtain ⟨x, n, -, -, hx, hc⟩ := h.content hf hn
    cases hc with
    | string y => exact ⟨y, by simp [hx, bind, Except.bind]⟩

theorem Holding.at (h : v.Holding Ψ b s others rest frames m) : m.At m.stack.bytes frames m.heap := by
  obtain ⟨bytes, rs, ls, hm, -⟩ := h
  exact ⟨rfl, hm.frames, rfl⟩

theorem Holding.pullString {ok : String → Machine → Prop}
    (h : v.Holding Ψ b (.own .string :: s) others rest frames m) (hs : s.Settled)
    (hok : ∀ x m', v.Holding Ψ b s others rest frames m' → ok x m') : Meets pullString m ok bad := by
  refine meets_bind.2 (h.pullHandle rfl fun r m₁ h₁ hf => meets_bind.2 ?_)
  obtain ⟨x, hx⟩ := h₁.string hf
  exact meets_readHeap h₁.at hx (meets_bind.2 (h₁.decref hs fun _ m₂ h₂ => hok x m₂ h₂))

end

end View

end StackScript
