import StackScript.Proofs.KnownTypes
import StackScript.Proofs.Layout

/-!
Values and the handles in them, read from bytes that are laid out by their types.
-/
namespace StackScript

namespace Typing

variable {Ψ : Typing} {b : Nat}

theorem Lays.of_isHeap {t : Ty} {bs : Bytes} {rs ls : List Handle} (ht : t.isHeap)
    (h : Ψ.Lays b (Shape.ofTy t) bs rs ls) :
    ∃ r, bs = r.toBytes.reverse ∧ rs = [r] ∧ ls = [] ∧ Ψ.Fits b t r := by
  rw [Shape.ofTy_of_isHeap ht] at h
  cases h with
  | cons head tail =>
    cases tail
    cases head with
    | scalar hs => rw [ht] at hs; cases hs
    | own _ fits => exact ⟨_, by simp, rfl, rfl, fits⟩

theorem Lays.handle {t : Ty} (ht : t.isHeap) {r : Handle} (h : Ψ.Fits b t r) :
    Ψ.Lays b (Shape.ofTy t) r.toBytes.reverse [r] [] := by
  rw [Shape.ofTy_of_isHeap ht]
  simpa using Lays.cons (.own ht h) .nil

/-- The values of the types, the first one lowest. -/
theorem Lays.tys_cons {t : Ty} {ts : List Ty} {bs : Bytes} {rs ls : List Handle}
    (h : Ψ.Lays b (Shape.ofTys (t :: ts).reverse) bs.reverse rs ls) :
    ∃ bs₁ bs₂ rs₁ rs₂ ls₁ ls₂, bs = bs₁ ++ bs₂ ∧ rs = rs₂ ++ rs₁ ∧ ls = ls₂ ++ ls₁ ∧
      Ψ.Lays b (Shape.ofTy t) bs₁.reverse rs₁ ls₁ ∧
      Ψ.Lays b (Shape.ofTys ts.reverse) bs₂.reverse rs₂ ls₂ := by
  rw [List.reverse_cons, Shape.ofTys_append] at h
  obtain ⟨cs₁, cs₂, rs₁, rs₂, ls₁, ls₂, hbs, hrs, hls, h₁, h₂⟩ := h.split
  refine ⟨cs₂.reverse, cs₁.reverse, rs₂, rs₁, ls₂, ls₁, ?_, hrs, hls, ?_, ?_⟩
  · rw [← List.reverse_append, ← hbs, List.reverse_reverse]
  · simpa using h₂
  · simpa using h₁

theorem Lays.tys_nil {bs : Bytes} {rs ls : List Handle} (h : Ψ.Lays b (Shape.ofTys ([] : List Ty).reverse) bs rs ls) :
    bs = [] ∧ rs = [] ∧ ls = [] := by
  cases h
  exact ⟨rfl, rfl, rfl⟩

/-- A scalar alone in its slot. -/
theorem Lays.of_scalar {t : Ty} {bs : Bytes} {rs ls : List Handle} (h : Ψ.Lays b [.own t] bs.reverse rs ls)
    (ht : t.isHeap = false) : bs.length = t.size ∧ rs = [] ∧ ls = [] ∧ (t = .char → (Bytes.toNat bs).isValidChar) := by
  generalize hbs : bs.reverse = cs at h
  cases h with
  | cons head tail =>
    cases tail
    cases head with
    | own hh => rw [ht] at hh; cases hh
    | scalar _ hl hv =>
      rw [List.append_nil, List.reverse_inj] at hbs
      subst hbs
      exact ⟨hl, rfl, rfl, hv⟩

theorem Lays.of_empty {bs : Bytes} {rs ls : List Handle} (h : Ψ.Lays b [] bs.reverse rs ls) :
    bs = [] ∧ rs = [] ∧ ls = [] := by
  generalize hbs : bs.reverse = cs at h
  cases h
  exact ⟨List.reverse_eq_nil_iff.1 hbs, rfl, rfl⟩

/-! ### The handles in values -/

mutual

theorem Lays.slotsFrom : ∀ (t : Ty) {bs : Bytes} {rs ls : List Handle}, Ψ.Lays b (Shape.ofTy t) bs.reverse rs ls →
    ∀ pre suf : Bytes, (t.slotsFrom pre.length).mapM (fun i => Handle.ofBytes ((pre ++ (bs ++ suf)).drop i)) =
      .ok rs.reverse
  | .tuple ts, bs, rs, ls, h, pre, suf => by
    rw [Shape.ofTy_tuple] at h
    exact Lays.slotsOf ts h pre suf
  | .unknown, bs, rs, ls, h, pre, suf | .void, bs, rs, ls, h, pre, suf | .module, bs, rs, ls, h, pre, suf => by
    obtain ⟨-, rfl, -⟩ := Lays.of_empty h
    rfl
  | .bool, bs, rs, ls, h, pre, suf | .byte, bs, rs, ls, h, pre, suf | .char, bs, rs, ls, h, pre, suf
  | .int32, bs, rs, ls, h, pre, suf | .int64, bs, rs, ls, h, pre, suf | .float32, bs, rs, ls, h, pre, suf
  | .float64, bs, rs, ls, h, pre, suf => by
    obtain ⟨-, rfl, -⟩ := Lays.of_scalar h rfl
    rfl
  | .string, bs, rs, ls, h, pre, suf | .list _, bs, rs, ls, h, pre, suf
  | .function _ _, bs, rs, ls, h, pre, suf => by
    obtain ⟨r, hr, rfl, -⟩ := Lays.of_isHeap rfl h
    rw [List.reverse_inj] at hr
    subst hr
    simp [Ty.slotsFrom, Handle.ofBytes_toBytes_append, bind, Except.bind, pure, Except.pure]

theorem Lays.slotsOf : ∀ (ts : List Ty) {bs : Bytes} {rs ls : List Handle},
    Ψ.Lays b (Shape.ofTys ts.reverse) bs.reverse rs ls → ∀ pre suf : Bytes,
      (Ty.slotsOf pre.length ts).mapM (fun i => Handle.ofBytes ((pre ++ (bs ++ suf)).drop i)) = .ok rs.reverse
  | [], bs, rs, ls, h, pre, suf => by
    obtain ⟨-, rfl, -⟩ := Lays.tys_nil h
    rfl
  | t :: ts, bs, rs, ls, h, pre, suf => by
    obtain ⟨bs₁, bs₂, rs₁, rs₂, ls₁, ls₂, rfl, rfl, rfl, h₁, h₂⟩ := Lays.tys_cons h
    have e₁ := Lays.slotsFrom t h₁ pre (bs₂ ++ suf)
    have e₂ := Lays.slotsOf ts h₂ (pre ++ bs₁) suf
    have hl : (pre ++ bs₁).length = pre.length + t.size := by
      have := h₁.length
      simp only [List.length_reverse, Shape.size_ofTy] at this
      simp [this]
    simp only [List.append_assoc, hl] at e₁ e₂ ⊢
    rw [Ty.slotsOf, List.mapM_append, e₁, e₂]
    simp [bind, Except.bind, pure, Except.pure]

end

theorem Lays.handlesAt {t : Ty} {bs : Bytes} {rs ls : List Handle}
    (h : Ψ.Lays b (Shape.ofTy t) bs.reverse rs ls) (pre suf : Bytes) :
    t.handlesAt pre.length (pre ++ (bs ++ suf)) = .ok rs.reverse := by
  have := Lays.slotsFrom t h [] suf
  simpa [Ty.handlesAt, Ty.slots, ← List.drop_drop] using this

theorem Lays.handlesIn : ∀ {ts : List Ty} {bs : Bytes} {rs ls : List Handle},
    Ψ.Lays b (Shape.ofTys ts.reverse) bs.reverse rs ls → ∀ pre suf : Bytes,
      Ty.handlesIn ts pre.length (pre ++ (bs ++ suf)) = .ok rs.reverse
  | [], bs, rs, ls, h, pre, suf => by
    obtain ⟨-, rfl, -⟩ := Lays.tys_nil h
    rfl
  | t :: ts, bs, rs, ls, h, pre, suf => by
    obtain ⟨bs₁, bs₂, rs₁, rs₂, ls₁, ls₂, rfl, rfl, rfl, h₁, h₂⟩ := Lays.tys_cons h
    have e₁ := h₁.handlesAt pre (bs₂ ++ suf)
    have e₂ := Lays.handlesIn h₂ (pre ++ bs₁) suf
    have hl : (pre ++ bs₁).length = pre.length + t.size := by
      have := h₁.length
      simp only [List.length_reverse, Shape.size_ofTy] at this
      simp [this]
    simp only [List.append_assoc, hl] at e₁ e₂ ⊢
    simp [Ty.handlesIn, e₁, e₂, bind, Except.bind, pure, Except.pure]

/-! ### Reading values -/

/-- The bytes and handles of a value lie as its type says. -/
def Describes (Ψ : Typing) (b : Nat) (v : Value) : Prop :=
  Ψ.Lays b (Shape.ofTy v.ty) v.encode.reverse v.handles.reverse []

theorem Lays.scalar {t : Ty} {bs : Bytes} (ht : t.isHeap = false) (hl : bs.length = t.size)
    (hv : t = .char → (Bytes.toNat bs).isValidChar) : Ψ.Lays b [.own t] bs.reverse [] [] := by
  simpa using Lays.cons (.scalar ht hl hv) .nil

theorem toNat_encode_char (c : Char) : Bytes.toNat (Value.char c).encode = c.toNat := by
  rw [Value.encode, Bytes.toNat_ofNat]
  exact Nat.mod_eq_of_lt c.val.toNat_lt

theorem charOf_eq {n : Nat} (h : n.isValidChar) : Value.charOf n = .ok (.char (Char.ofNatAux n h)) :=
  dif_pos h

mutual

theorem Lays.read : ∀ (t : Ty) {bs : Bytes} {rs ls : List Handle}, Ψ.Lays b (Shape.ofTy t) bs.reverse rs ls →
    ∀ suf : Bytes, ∃ v, Value.read t (bs ++ suf) = .ok v ∧ v.handles = rs.reverse ∧ Ψ.Describes b v ∧
      Shape.ofTy v.ty = Shape.ofTy t
  | .tuple ts, bs, rs, ls, h, suf => by
    rw [Shape.ofTy_tuple] at h
    obtain ⟨vs, hr, hh, hd, ht⟩ := Lays.reads ts h suf
    refine ⟨.tuple vs, by simp [Value.read, hr, Except.map], hh, ?_, ?_⟩
    · rw [Describes, Value.ty, Value.encode, Value.handles, Shape.ofTy_tuple, hh, List.reverse_reverse]
      exact hd
    · simpa only [Value.ty, Shape.ofTy_tuple] using ht
  | .unknown, bs, rs, ls, h, suf | .void, bs, rs, ls, h, suf | .module, bs, rs, ls, h, suf => by
    obtain ⟨rfl, rfl, -⟩ := Lays.of_empty h
    exact ⟨.void, rfl, rfl, .nil, rfl⟩
  | .bool, bs, rs, ls, h, suf | .byte, bs, rs, ls, h, suf | .int32, bs, rs, ls, h, suf
  | .int64, bs, rs, ls, h, suf | .float32, bs, rs, ls, h, suf | .float64, bs, rs, ls, h, suf => by
    obtain ⟨-, rfl, -⟩ := Lays.of_scalar h rfl
    exact ⟨_, rfl, rfl, Lays.scalar rfl (by simp [Value.encode, Ty.size, Value.ty]) (by simp [Value.ty]), rfl⟩
  | .char, bs, rs, ls, h, suf => by
    obtain ⟨hl, rfl, -, hv⟩ := Lays.of_scalar h rfl
    have htake : (bs ++ suf).take 4 = bs := List.take_left' hl
    obtain ⟨x, hx⟩ : ∃ x, Value.charOf (Bytes.toNat bs) = .ok (.char x) := ⟨_, charOf_eq (hv rfl)⟩
    refine ⟨.char x, by rw [Value.read, htake]; exact hx, rfl, ?_, rfl⟩
    refine Lays.scalar rfl (by simp [Value.encode, Value.ty, Ty.size]) fun _ => ?_
    rw [toNat_encode_char]
    exact Char.valid _
  | .string, bs, rs, ls, h, suf => by
    obtain ⟨r, hr, rfl, -, hf⟩ := Lays.of_isHeap rfl h
    rw [List.reverse_inj] at hr
    subst hr
    exact ⟨.string r, by simp only [Value.read, Handle.ofBytes_toBytes_append]; rfl, rfl, Lays.handle rfl hf,
      rfl⟩
  | .list e, bs, rs, ls, h, suf => by
    obtain ⟨r, hr, rfl, -, hf⟩ := Lays.of_isHeap rfl h
    rw [List.reverse_inj] at hr
    subst hr
    exact ⟨.list e r, by simp only [Value.read, Handle.ofBytes_toBytes_append]; rfl, rfl, Lays.handle rfl hf,
      rfl⟩
  | .function ps t, bs, rs, ls, h, suf => by
    obtain ⟨r, hr, rfl, -, hf⟩ := Lays.of_isHeap rfl h
    rw [List.reverse_inj] at hr
    subst hr
    exact ⟨.closure ps t r, by simp only [Value.read, Handle.ofBytes_toBytes_append]; rfl, rfl,
      Lays.handle rfl hf, rfl⟩

theorem Lays.reads : ∀ (ts : List Ty) {bs : Bytes} {rs ls : List Handle},
    Ψ.Lays b (Shape.ofTys ts.reverse) bs.reverse rs ls → ∀ suf : Bytes,
      ∃ vs, Value.reads ts (bs ++ suf) = .ok vs ∧ Value.handlesOf vs = rs.reverse ∧
        Ψ.Lays b (Shape.ofTys (Value.tys vs).reverse) (Value.encodes vs).reverse rs [] ∧
        Shape.ofTys (Value.tys vs).reverse = Shape.ofTys ts.reverse
  | [], bs, rs, ls, h, suf => by
    obtain ⟨-, rfl, -⟩ := Lays.tys_nil h
    exact ⟨[], rfl, rfl, .nil, rfl⟩
  | t :: ts, bs, rs, ls, h, suf => by
    obtain ⟨bs₁, bs₂, rs₁, rs₂, ls₁, ls₂, rfl, rfl, rfl, h₁, h₂⟩ := Lays.tys_cons h
    obtain ⟨v, hr₁, hh₁, hd₁, ht₁⟩ := Lays.read t h₁ (bs₂ ++ suf)
    obtain ⟨vs, hr₂, hh₂, hd₂, ht₂⟩ := Lays.reads ts h₂ suf
    have hdrop : (bs₁ ++ (bs₂ ++ suf)).drop t.size = bs₂ ++ suf := by
      refine List.drop_left' ?_
      simpa using h₁.length
    refine ⟨v :: vs, ?_, ?_, ?_, ?_⟩
    · simp [Value.reads, hr₁, hdrop, hr₂, bind, Except.bind, pure, Except.pure]
    · simp [Value.handlesOf, hh₁, hh₂]
    · have := hd₂.append hd₁
      rw [hh₁, List.reverse_reverse] at this
      simpa [Value.tys, Value.encodes] using this
    · simp [Value.tys, ht₁, ht₂]

end

theorem Lays.decode {t : Ty} {bs : Bytes} {rs ls : List Handle} (h : Ψ.Lays b (Shape.ofTy t) bs.reverse rs ls) :
    ∃ v, Value.decode t bs = .ok v ∧ v.handles = rs.reverse ∧ Ψ.Describes b v ∧
      Shape.ofTy v.ty = Shape.ofTy t := by
  have hl : bs.length = t.size := by simpa using h.length
  have hread := Lays.read t h []
  rw [List.append_nil] at hread
  rwa [Value.decode, if_neg (by omega)]

end Typing

namespace Value

variable {P : Ty → Prop}

mutual

/-- What is read as a value of some type has a type of the same kind, if the kind of a tuple is that of its items. -/
theorem typed_read (void : P .void) (tuple : ∀ ts, P (.tuple ts) ↔ ∀ t ∈ ts, P t) :
    ∀ (t : Ty) {bs : Bytes} {v : Value}, read t bs = .ok v → P t → P v.ty
  | .tuple ts, bs, v, h, ht => by
    rw [read] at h
    cases hr : reads ts bs with
    | error e => simp [hr, Except.map] at h
    | ok vs =>
      simp only [hr, Except.map, Except.ok.injEq] at h
      exact h ▸ (tuple _).2 (typed_reads void tuple ts hr ((tuple ts).1 ht))
  | .unknown, _, _, h, _ | .module, _, _, h, _ => by
    rw [read] at h
    cases h
    exact void
  | .void, _, _, h, ht | .bool, _, _, h, ht | .byte, _, _, h, ht | .int32, _, _, h, ht | .int64, _, _, h, ht
  | .float32, _, _, h, ht | .float64, _, _, h, ht => by
    rw [read] at h
    cases h
    exact ht
  | .char, bs, v, h, ht => by
    by_cases hn : (Bytes.toNat (bs.take 4)).isValidChar
    · rw [read, charOf, dif_pos hn] at h
      cases h
      exact ht
    · rw [read, charOf, dif_neg hn] at h
      cases h
  | .string, bs, v, h, ht | .list _, bs, v, h, ht | .function _ _, bs, v, h, ht => by
    rw [read] at h
    cases hr : Handle.ofBytes bs with
    | error e => simp [hr, Except.map] at h
    | ok r =>
      simp only [hr, Except.map, Except.ok.injEq] at h
      exact h ▸ ht

theorem typed_reads (void : P .void) (tuple : ∀ ts, P (.tuple ts) ↔ ∀ t ∈ ts, P t) :
    ∀ (ts : List Ty) {bs : Bytes} {vs : List Value}, reads ts bs = .ok vs → (∀ t ∈ ts, P t) → ∀ t ∈ tys vs, P t
  | [], _, vs, h, _ => by
    rw [reads] at h
    cases h
    exact nofun
  | t :: ts, bs, vs, h, ht => by
    rw [reads] at h
    cases hv : read t bs with
    | error e => simp [hv, bind, Except.bind] at h
    | ok v =>
      cases hvs : reads ts (bs.drop t.size) with
      | error e => simp [hv, hvs, bind, Except.bind] at h
      | ok us =>
        simp only [hv, hvs, bind, Except.bind, pure, Except.pure, Except.ok.injEq] at h
        subst h
        exact List.forall_mem_cons.2 ⟨typed_read void tuple t hv (ht t (.head _)),
          typed_reads void tuple ts hvs fun u hu => ht u (.tail _ hu)⟩

end

theorem typed_decode (void : P .void) (tuple : ∀ ts, P (.tuple ts) ↔ ∀ t ∈ ts, P t) {t : Ty} {bs : Bytes} {v : Value}
    (h : decode t bs = .ok v) (ht : P t) : P v.ty := by
  unfold decode at h
  split at h
  · cases h
  · exact typed_read void tuple t h ht

theorem known_decode {t : Ty} {bs : Bytes} {v : Value} (h : decode t bs = .ok v) (hk : t.Known) : v.ty.Known :=
  typed_decode (P := Ty.Known) rfl (fun _ => Ty.known_tuple) h hk

end Value

/-! ### Content -/

namespace Ty

mutual

theorem slotsFrom_of_size : ∀ (t : Ty) (base : Nat), t.size = 0 → t.slotsFrom base = []
  | .tuple ts, base, h => slotsOf_of_sizes ts base h
  | .unknown, _, _ | .void, _, _ | .module, _, _ => rfl
  | .bool, _, _ | .byte, _, _ | .char, _, _ | .int32, _, _ | .int64, _, _ | .float32, _, _ | .float64, _, _ => rfl
  | .string, _, h | .list _, _, h | .function _ _, _, h => by cases h

theorem slotsOf_of_sizes : ∀ (ts : List Ty) (base : Nat), sizes ts = 0 → slotsOf base ts = []
  | [], _, _ => rfl
  | t :: ts, base, h => by
    rw [sizes, Nat.add_eq_zero_iff] at h
    rw [slotsOf, slotsFrom_of_size t base h.1, slotsOf_of_sizes ts _ h.2, List.append_nil]

end

theorem sizes_replicate (n : Nat) (t : Ty) : sizes (List.replicate n t) = n * t.size := by
  induction n with
  | zero => simp [sizes]
  | succ n ih => rw [List.replicate_succ, sizes, ih, Nat.succ_mul, Nat.add_comm]

theorem handlesIn_of_slots {t : Ty} (h : t.slots = []) (n skip : Nat) (bs : Bytes) :
    Ty.handlesIn (List.replicate n t) skip bs = .ok [] := by
  induction n generalizing skip with
  | zero => rfl
  | succ n ih =>
    simp [List.replicate_succ, handlesIn, handlesAt, h, ih, bind, Except.bind, pure, Except.pure]

end Ty

theorem Content.count_eq {t : Ty} {n : Nat} {bs : Bytes} (ht : 0 < t.size) (h : bs.length = n * t.size) :
    Content.count t bs = n := by
  rw [count, if_neg (by omega), h, Nat.mul_div_cancel _ ht]

/-- The handles in a list are those of as many elements as there are. -/
theorem Content.handles_list {t : Ty} {n : Nat} {bs : Bytes} {hs : List Handle} (length : bs.length = n * t.size)
    (read : Ty.handlesIn (List.replicate n t) 0 bs = .ok hs) : (Content.list t bs).handles = .ok hs := by
  change (if t.slots.isEmpty then .ok [] else Ty.handlesIn (List.replicate (Content.count t bs) t) 0 bs) = _
  cases slots : t.slots with
  | nil =>
    rw [Ty.handlesIn_of_slots slots] at read
    simpa using read
  | cons i is =>
    have hpos : 0 < t.size := Nat.pos_of_ne_zero fun h0 => by
      rw [Ty.slots, Ty.slotsFrom_of_size t 0 h0] at slots
      cases slots
    simpa [Content.count_eq hpos length] using read

namespace Typing

variable {Ψ : Typing} {b : Nat}

theorem Lays.listHandles {elem : Ty} {n : Nat} {bs : Bytes} {rs ls : List Handle}
    (h : Ψ.Lays b (Shape.ofTys (List.replicate n elem)) bs.reverse rs ls) :
    (Content.list elem bs).handles = .ok rs.reverse := by
  rw [← List.reverse_replicate] at h
  have hin := h.handlesIn [] []
  rw [List.nil_append, List.append_nil, List.length_nil] at hin
  have hl : bs.length = n * elem.size := by
    have := h.length
    rwa [List.length_reverse, List.reverse_replicate, Shape.size_ofTys, Ty.sizes_replicate] at this
  exact Content.handles_list hl hin

theorem Lays.element {e : Ty} : ∀ {k : Nat} {bs : Bytes} {rs : List Handle},
    Ψ.Lays b (Shape.ofTys (List.replicate k e)) bs.reverse rs [] → ∀ i < k,
      ∃ rs', Ψ.Lays b (Shape.ofTy e) ((bs.drop (i * e.size)).take e.size).reverse rs' [] ∧ ∀ r ∈ rs', r ∈ rs
  | 0, _, _, _, i, hi => absurd hi (Nat.not_lt_zero i)
  | k + 1, bs, rs, h, i, hi => by
    rw [← List.reverse_replicate, List.replicate_succ] at h
    obtain ⟨bs₁, bs₂, rs₁, rs₂, ls₁, ls₂, rfl, rfl, hls, h₁, h₂⟩ := Lays.tys_cons h
    obtain ⟨rfl, rfl⟩ := List.append_eq_nil_iff.1 hls.symm
    have hl : bs₁.length = e.size := by simpa using h₁.length
    cases i with
    | zero =>
      refine ⟨rs₁, ?_, fun r hr => List.mem_append_right _ hr⟩
      rwa [Nat.zero_mul, List.drop_zero, List.take_left' hl]
    | succ i =>
      rw [List.reverse_replicate] at h₂
      obtain ⟨rs', h', hmem⟩ := Lays.element h₂ i (Nat.lt_of_succ_lt_succ hi)
      refine ⟨rs', ?_, fun r hr => List.mem_append_left _ (hmem r hr)⟩
      rwa [Nat.succ_mul, Nat.add_comm, ← List.drop_drop, List.drop_left' hl]

theorem Lays.closureHandles {c : Closure} {rs ls : List Handle}
    (h : Ψ.Lays b (Shape.ofTys c.types.reverse) c.bytes.reverse rs ls) :
    (Content.closure c).handles = .ok rs.reverse := by
  have := h.handlesIn [] []
  simpa [Content.handles] using this

end Typing

end StackScript
