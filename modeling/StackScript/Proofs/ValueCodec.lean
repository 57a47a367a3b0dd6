import StackScript.Proofs.Layout
import StackScript.Proofs.Meets

/-!
The bytes of a value. They are as many as its type says, the value can be read back from them, and its handles lie
where the slots of the type are.
-/
namespace StackScript

namespace Value

mutual

theorem length_encode : ∀ v : Value, v.encode.length = v.ty.size
  | tuple vs => by rw [encode, ty, Ty.size, length_encodes vs]
  | string r | list _ r | closure _ _ r => by simp [encode, ty, Ty.size, Handle.length_toBytes]
  | void | bool _ | byte _ | char _ | int32 _ | int64 _ | float32 _ | float64 _ => by simp [encode, ty, Ty.size]

theorem length_encodes : ∀ vs : List Value, (encodes vs).length = Ty.sizes (tys vs)
  | [] => rfl
  | v :: vs => by rw [encodes, List.length_append, length_encode v, length_encodes vs, tys, Ty.sizes]

end

/-! ### Reading back -/

theorem read_scalar {n x : Nat} (h : x < Nat.pow 256 n) (suf : Bytes) :
    Bytes.toNat ((Bytes.ofNat n x ++ suf).take n) = x := by
  rw [List.take_left' (Bytes.length_ofNat n x), Bytes.toNat_ofNat]
  exact Nat.mod_eq_of_lt h

mutual

theorem read_encode : ∀ (v : Value) (suf : Bytes), read v.ty (v.encode ++ suf) = .ok v
  | void, _ => rfl
  | bool b, suf => by cases b <;> rfl
  | byte n, suf => rfl
  | char c, suf => by
    have hlt : c.toNat < Nat.pow 256 4 := c.val.toNat_lt
    have hc : c.toNat.isValidChar := c.valid
    rw [ty, encode, read, read_scalar hlt, charOf, dif_pos hc]
    rfl
  | int32 n, suf => by
    have hlt : n.toUInt32.toNat < Nat.pow 256 4 := n.toUInt32.toNat_lt
    rw [ty, encode, read, read_scalar hlt]
    simp
  | int64 n, suf => by
    have hlt : n.toUInt64.toNat < Nat.pow 256 8 := n.toUInt64.toNat_lt
    rw [ty, encode, read, read_scalar hlt]
    simp
  | float32 bits, suf => by
    have hlt : bits.toNat < Nat.pow 256 4 := bits.toNat_lt
    rw [ty, encode, read, read_scalar hlt]
    simp
  | float64 bits, suf => by
    have hlt : bits.toNat < Nat.pow 256 8 := bits.toNat_lt
    rw [ty, encode, read, read_scalar hlt]
    simp
  | string r, suf | list _ r, suf | closure _ _ r, suf => by
    rw [ty, encode, read, Handle.ofBytes_toBytes_append]
    rfl
  | tuple vs, suf => by
    rw [ty, encode, read, reads_encodes vs suf]
    rfl

theorem reads_encodes : ∀ (vs : List Value) (suf : Bytes), reads (tys vs) (encodes vs ++ suf) = .ok vs
  | [], _ => rfl
  | v :: vs, suf => by
    have hdrop : (v.encode ++ (encodes vs ++ suf)).drop v.ty.size = encodes vs ++ suf :=
      List.drop_left' (length_encode v)
    rw [tys, encodes, List.append_assoc, reads, read_encode v, hdrop, reads_encodes vs suf]
    rfl

end

theorem decode_encode (v : Value) : decode v.ty v.encode = .ok v := by
  have := read_encode v []
  rw [List.append_nil] at this
  rwa [decode, if_neg (by rw [length_encode]; omega)]

/-! ### What was read -/

theorem charOf_eq_ok {n : Nat} {v : Value} (h : charOf n = .ok v) :
    ∃ valid : n.isValidChar, v = char (Char.ofNatAux n valid) := by
  by_cases valid : n.isValidChar
  · rw [charOf, dif_pos valid] at h
    exact ⟨valid, (Except.ok.inj h).symm⟩
  · rw [charOf, dif_neg valid] at h
    cases h

theorem charOf_eq_error {n : Nat} {e : Fault} (h : charOf n = .error e) :
    ¬ n.isValidChar ∧ e = .unexpectedValueType "Char" ("0x" ++ Text.hex n) := by
  by_cases valid : n.isValidChar
  · rw [charOf, dif_pos valid] at h
    cases h
  · rw [charOf, dif_neg valid] at h
    exact ⟨valid, (Except.error.inj h).symm⟩

/-- Reading a tuple reads the first item and then the others behind it. -/
theorem reads_cons_eq_ok {t : Ty} {ts : List Ty} {bs : Bytes} {vs : List Value} : reads (t :: ts) bs = .ok vs ↔
    ∃ w, read t bs = .ok w ∧ ∃ ws, reads ts (bs.drop t.size) = .ok ws ∧ w :: ws = vs := by
  simp only [reads, bind_eq_ok, pure, Except.pure, Except.ok.injEq]

theorem reads_cons_eq_error {t : Ty} {ts : List Ty} {bs : Bytes} {e : Fault} : reads (t :: ts) bs = .error e ↔
    read t bs = .error e ∨ ∃ w, read t bs = .ok w ∧ reads ts (bs.drop t.size) = .error e := by
  simp only [reads, bind_eq_error, pure, Except.pure, reduceCtorEq, and_false, exists_false, or_false]

/-! ### Handles -/

mutual

/-- The handles at the slots are those of the value, wherever its bytes lie. -/
theorem slotsFrom_read : ∀ {t : Ty} {bs : Bytes} {v : Value} (pre : Bytes), t.size ≤ bs.length → read t bs = .ok v →
    (t.slotsFrom pre.length).mapM (fun i => Handle.ofBytes ((pre ++ bs).drop i)) = .ok v.handles
  | .tuple ts, bs, v, pre, long, h => by
    obtain ⟨vs, hs, rfl⟩ := map_eq_ok.1 h
    exact slotsOf_reads pre long hs
  | .string, bs, v, pre, _, h | .list _, bs, v, pre, _, h | .function _ _, bs, v, pre, _, h => by
    obtain ⟨r, hr, rfl⟩ := map_eq_ok.1 h
    rw [Ty.slotsFrom, List.mapM_cons, List.drop_left, hr]
    rfl
  | .char, bs, v, pre, _, h => by
    obtain ⟨valid, rfl⟩ := charOf_eq_ok h
    rfl
  | .unknown, _, _, _, _, h | .void, _, _, _, _, h | .module, _, _, _, _, h | .bool, _, _, _, _, h
  | .byte, _, _, _, _, h | .int32, _, _, _, _, h | .int64, _, _, _, _, h | .float32, _, _, _, _, h
  | .float64, _, _, _, _, h => by
    rw [read] at h
    cases h
    rfl

theorem slotsOf_reads : ∀ {ts : List Ty} {bs : Bytes} {vs : List Value} (pre : Bytes), Ty.sizes ts ≤ bs.length →
    reads ts bs = .ok vs →
    (Ty.slotsOf pre.length ts).mapM (fun i => Handle.ofBytes ((pre ++ bs).drop i)) = .ok (handlesOf vs)
  | [], _, _, _, _, h => by
    cases h
    rfl
  | t :: ts, bs, vs, pre, long, h => by
    obtain ⟨w, first, ws, rest, rfl⟩ := reads_cons_eq_ok.1 h
    rw [Ty.sizes] at long
    have enough : t.size ≤ bs.length := by omega
    have behind : Ty.sizes ts ≤ (bs.drop t.size).length := by
      rw [List.length_drop]
      omega
    have heads := slotsFrom_read pre enough first
    have tails := slotsOf_reads (pre ++ bs.take t.size) behind rest
    rw [List.append_assoc, List.take_append_drop, List.length_append, List.length_take_of_le enough] at tails
    rw [Ty.slotsOf, List.mapM_append, heads, tails]
    rfl

end

theorem handlesAt_encode (v : Value) (pre suf : Bytes) :
    v.ty.handlesAt pre.length (pre ++ (v.encode ++ suf)) = .ok v.handles := by
  have long : v.ty.size ≤ (v.encode ++ suf).length := by
    rw [List.length_append, length_encode]
    omega
  have := slotsFrom_read [] long (read_encode v suf)
  simpa [Ty.handlesAt, Ty.slots, ← List.drop_drop] using this

theorem handlesIn_encodes : ∀ (vs : List Value) (pre suf : Bytes),
    Ty.handlesIn (tys vs) pre.length (pre ++ (encodes vs ++ suf)) = .ok (handlesOf vs)
  | [], _, _ => rfl
  | v :: vs, pre, suf => by
    have e₁ := handlesAt_encode v pre (encodes vs ++ suf)
    have e₂ := handlesIn_encodes vs (pre ++ v.encode) suf
    simp only [List.append_assoc, List.length_append, length_encode] at e₁ e₂
    rw [tys, encodes, Ty.handlesIn, handlesOf]
    simp [e₁, e₂, bind, Except.bind, pure, Except.pure]

end Value

end StackScript
