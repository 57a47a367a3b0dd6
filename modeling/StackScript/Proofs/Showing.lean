import StackScript.Proofs.Ageing
import StackScript.Proofs.HeapTyping
import StackScript.Proofs.ValueCodec

/-!
What a value is displayed as. The text follows the handles in the value, so it is the same in every heap that has what
they lead to.
-/
namespace StackScript

theorem Heap.content_of_filled {h : Heap} {r : Handle} {x : Content} (hx : h.filled? r = some x) : h.content r = .ok x := by
  obtain ⟨c, hc⟩ := filled?_eq_some.1 hx
  rw [content, hc]

namespace Value

variable {t e : Ty} {bs : Bytes} {y : Value}

/-- What is decoded is read. -/
theorem read_of_decode (decoded : decode t bs = .ok y) : read t bs = .ok y := by
  unfold decode at decoded
  split at decoded
  · cases decoded
  · exact decoded

/-- Each element is read from its own part of the bytes. -/
theorem mem_elements {items : List Value} (read : elements e bs = .ok items) (hy : y ∈ items) :
    ∃ i < Content.count e bs, decode e ((bs.drop (i * e.size)).take e.size) = .ok y := by
  unfold elements at read
  simp only [← List.mem_range]
  generalize List.range (Content.count e bs) = is at read
  induction is generalizing items with
  | nil =>
    cases read
    cases hy
  | cons i is ih =>
    rw [List.mapM_cons] at read
    cases first : decode e ((bs.drop (i * e.size)).take e.size) with
    | error f => simp [first, bind, Except.bind] at read
    | ok z =>
      cases rest : is.mapM fun i => decode e ((bs.drop (i * e.size)).take e.size) with
      | error f => simp [first, rest, bind, Except.bind] at read
      | ok zs =>
        simp only [first, rest, bind, Except.bind, pure, Except.pure, Except.ok.injEq] at read
        subst read
        rcases List.mem_cons.1 hy with rfl | hy
        · exact ⟨i, .head _, first⟩
        · obtain ⟨j, hj, found⟩ := ih hy rest
          exact ⟨j, .tail _ hj, found⟩

theorem asList_null {h : Heap} {r : Handle} (null : r.isNull) (e : Ty) : asList h (list e r) = .ok [] := by
  have count : Content.count e [] = 0 := by
    unfold Content.count
    split <;> simp
  simp [asList, Heap.list, null, elements, count, bind, Except.bind, pure, Except.pure]

theorem asList_content {h : Heap} {r : Handle} (real : r.isNull = false) (content : h.content r = .ok (.list e bs)) :
    asList h (list e r) = elements e bs := by
  simp [asList, Heap.list, real, content, bind, Except.bind]

end Value

namespace View

variable {v : View} {Ψ : Typing} {h h' : Heap} {roots known : List Handle} {n : Nat} {r : Handle}

/-- Handles that lead to cells lead from there to cells. -/
theorem Sound.leads (hs : v.Sound Ψ h roots) (living : ∀ r ∈ known, r.isNull = false → h.Holds r)
    (reached : h.Reaches known r) : r.isNull = false → h.Holds r := by
  cases reached with
  | root among => exact living r among
  | through _ content held => exact hs.filled_held content held

/-- What is laid out by a type and refers to what both heaps have is displayed alike. -/
def Alike (Ψ : Typing) (known : List Handle) (h h' : Heap) (t : Ty) : Prop :=
  ∀ ⦃n : Nat⦄ ⦃bs : Bytes⦄ ⦃rs ls : List Handle⦄ ⦃suf : Bytes⦄ ⦃y : Value⦄, Ψ.Lays n (Shape.ofTy t) bs.reverse rs ls →
    Value.read t (bs ++ suf) = .ok y → (∀ r ∈ rs, h.Reaches known r) → y.textAs h t = y.textAs h' t

/-- Values one after another are displayed alike if each is. -/
theorem Alike.items : ∀ {ts : List Ty}, (∀ t ∈ ts, Alike Ψ known h h' t) → ∀ {bs : Bytes} {rs ls : List Handle} {suf : Bytes}
    {ys : List Value}, Ψ.Lays n (Shape.ofTys ts.reverse) bs.reverse rs ls → Value.reads ts (bs ++ suf) = .ok ys →
      (∀ r ∈ rs, h.Reaches known r) → Value.textsAs h ts ys = Value.textsAs h' ts ys
  | [], _, _, _, _, _, ys, _, _, _ => by
    cases ys <;> rfl
  | t :: ts, alike, bs, rs, ls, suf, ys, lays, read, reached => by
    obtain ⟨bs₁, bs₂, rs₁, rs₂, ls₁, ls₂, rfl, rfl, rfl, lays₁, lays₂⟩ := lays.tys_cons
    have length : bs₁.length = t.size := by simpa using lays₁.length
    rw [List.append_assoc, Value.reads, List.drop_left' length] at read
    cases first : Value.read t (bs₁ ++ (bs₂ ++ suf)) with
    | error f => simp [first, bind, Except.bind] at read
    | ok y =>
      cases rest : Value.reads ts (bs₂ ++ suf) with
      | error f => simp [first, rest, bind, Except.bind] at read
      | ok zs =>
        simp only [first, rest, bind, Except.bind, pure, Except.pure, Except.ok.injEq] at read
        subst read
        have head := alike t (.head _) lays₁ first fun r hr => reached r (List.mem_append_right _ hr)
        have tail := Alike.items (fun u hu => alike u (.tail _ hu)) lays₂ rest fun r hr =>
          reached r (List.mem_append_left _ hr)
        rw [Value.textsAs, Value.textsAs, head, tail]

theorem Alike.tuple {ts : List Ty} (items : ∀ t ∈ ts, Alike Ψ known h h' t) : Alike Ψ known h h' (.tuple ts) := by
  intro n bs rs ls suf y lays read reached
  rw [Shape.ofTy_tuple] at lays
  rw [Value.read] at read
  cases parts : Value.reads ts (bs ++ suf) with
  | error f => simp [parts, Except.map] at read
  | ok ys =>
    simp only [parts, Except.map, Except.ok.injEq] at read
    subst read
    rw [Value.textAs, Value.textAs, Alike.items items lays parts reached]

theorem Alike.scalar {t : Ty} (plain : ∀ {bs : Bytes} {y : Value}, Value.read t bs = .ok y → y.textAs h t = y.textAs h' t) :
    Alike Ψ known h h' t := fun _ _ _ _ _ _ _ read _ => plain read

theorem Alike.char : Alike Ψ known h h' .char := .scalar fun read => by
  rw [Value.read] at read
  obtain ⟨valid, rfl⟩ := Value.charOf_eq_ok read
  rfl

theorem Alike.closure (ps : List Ty) (u : Ty) : Alike Ψ known h h' (.function ps u) := .scalar fun {bs y} read => by
  rw [Value.read] at read
  cases handle : Handle.ofBytes bs with
  | error f => simp [handle, Except.map] at read
  | ok r =>
    simp only [handle, Except.map, Except.ok.injEq] at read
    subst read
    rfl

section

variable (hs : v.Sound Ψ h roots) (living : ∀ r ∈ known, r.isNull = false → h.Holds r) (shares : h.Shares known h')
include hs living shares

/-- What a handle of a known type leads to is found in both heaps. -/
theorem Sound.shared {t : Ty} (fits : Ψ.Fits n t r) (reached : h.Reaches known r) (real : r.isNull = false) :
    ∃ x m, h.content r = .ok x ∧ h'.content r = .ok x ∧ v.Contains Ψ m t x ∧ ∀ s ∈ x.held, h.Reaches known s := by
  obtain ⟨x, m, -, filled, contains⟩ := hs.content fits (hs.leads living reached real) real
  exact ⟨x, m, Heap.content_of_filled filled, Heap.content_of_filled (shares r x reached filled), contains,
    fun s held => .through reached filled held⟩

theorem Sound.alike_string : Alike Ψ known h h' .string := by
  intro n bs rs ls suf y lays read reached
  obtain ⟨r, bytes, rfl, -, fits⟩ := lays.of_isHeap rfl
  rw [List.reverse_inj] at bytes
  subst bytes
  rw [Value.read, Handle.ofBytes_toBytes_append] at read
  cases read
  have string : h.string r = h'.string r := by
    unfold Heap.string
    cases real : r.isNull with
    | true => rfl
    | false =>
      obtain ⟨x, m, content, content', -⟩ := hs.shared living shares fits (reached r (.head _)) real
      rw [content, content']
  rw [Value.textAs, Value.textAs, string]

/-- A list is displayed alike if its elements are. -/
theorem Sound.alike_list {e : Ty} (element : Alike Ψ known h h' e) : Alike Ψ known h h' (.list e) := by
  intro n bs rs ls suf y lays read reached
  obtain ⟨r, bytes, rfl, -, fits⟩ := lays.of_isHeap rfl
  rw [List.reverse_inj] at bytes
  subst bytes
  rw [Value.read, Handle.ofBytes_toBytes_append] at read
  cases read
  rw [Value.textAs, Value.textAs]
  cases real : r.isNull with
  | true =>
    rw [Value.asList_null real, Value.asList_null real]
    rfl
  | false =>
    obtain ⟨x, m, content, content', contains, held⟩ := hs.shared living shares fits (reached r (.head _)) real
    cases contains with
    | @list _ k bs rs lays =>
      rw [Value.asList_content real content, Value.asList_content real content']
      cases parts : Value.elements e bs with
      | error f => rfl
      | ok ys =>
        refine congrArg (fun texts => "[" ++ ", ".intercalate texts ++ "]") (List.map_congr_left fun y hy => ?_)
        obtain ⟨i, hi, decoded⟩ := Value.mem_elements parts hy
        have inside : i < k := by
          have length : bs.length = k * e.size := by
            have := lays.length
            rwa [List.length_reverse, Shape.size_ofTys, Ty.sizes_replicate] at this
          by_cases size : e.size = 0
          · rw [Content.count, if_pos size] at hi
            exact absurd hi (Nat.not_lt_zero i)
          · rwa [Content.count_eq (Nat.pos_of_ne_zero size) length] at hi
        obtain ⟨rs', lays', fewer⟩ := lays.element i inside
        have read := Value.read_of_decode decoded
        rw [← List.append_nil (List.take _ _)] at read
        exact element lays' read fun r hr => held r (by
          rw [Content.held_eq lays.listHandles, List.mem_reverse]
          exact fewer r hr)

end

mutual

theorem Sound.alike (hs : v.Sound Ψ h roots) (living : ∀ r ∈ known, r.isNull = false → h.Holds r)
    (shares : h.Shares known h') : ∀ t : Ty, Alike Ψ known h h' t
  | .tuple ts => .tuple (Sound.allAlike hs living shares ts)
  | .list e => hs.alike_list living shares (Sound.alike hs living shares e)
  | .string => hs.alike_string living shares
  | .function ps u => .closure ps u
  | .char => .char
  | .unknown | .void | .module | .bool | .byte | .int32 | .int64 | .float32 | .float64 => .scalar fun read => by
    cases read
    rfl

theorem Sound.allAlike (hs : v.Sound Ψ h roots) (living : ∀ r ∈ known, r.isNull = false → h.Holds r)
    (shares : h.Shares known h') : ∀ ts : List Ty, ∀ t ∈ ts, Alike Ψ known h h' t
  | [] => nofun
  | t :: ts => List.forall_mem_cons.2 ⟨Sound.alike hs living shares t, Sound.allAlike hs living shares ts⟩

end

/-- A value that a heap describes is displayed alike in another one that has what it refers to. -/
theorem Sound.text (hs : v.Sound Ψ h roots) (living : ∀ r ∈ known, r.isNull = false → h.Holds r) (shares : h.Shares known h')
    {y : Value} (describes : Ψ.Describes n y) (reached : ∀ r ∈ y.handles, h.Reaches known r) : y.text h = y.text h' := by
  have read := Value.read_of_decode y.decode_encode
  rw [← List.append_nil y.encode] at read
  exact hs.alike living shares y.ty describes read fun r hr => reached r (List.mem_reverse.1 hr)

end View

end StackScript
