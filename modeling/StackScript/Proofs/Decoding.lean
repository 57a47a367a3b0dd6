import StackScript.Proofs.Meets
import StackScript.Proofs.ValueCodec

/-!
Values and bytes. What is written is read back, whatever follows it. Bytes that are enough for a type are read as a value
of that type unless a character's code point is none, and the value is written as the same bytes, but for truth values,
which are written as zero or one.
-/
namespace StackScript

/-! ### The parts of a value -/

namespace Ty

mutual

/-- The scalars and handles that a value is made of, each with its offset, in the order of their bytes. -/
def parts : Ty → List (Nat × Ty)
  | unknown | void | module => []
  | tuple items => partsOf items
  | t => [(0, t)]

def partsOf : List Ty → List (Nat × Ty)
  | [] => []
  | t :: ts => t.parts ++ (partsOf ts).map fun p => (t.size + p.1, p.2)

end

mutual

/-- Whether there are values of just this type: neither it nor an item of a tuple in it is unknown or a module. What lists
hold and what functions take and return makes no difference. -/
def isStored : Ty → Bool
  | unknown | module => false
  | tuple items => allStored items
  | _ => true

def allStored : List Ty → Bool
  | [] => true
  | t :: ts => t.isStored && allStored ts

end

theorem mem_partsOf_cons {i : Nat} {s t : Ty} {ts : List Ty} :
    (i, s) ∈ partsOf (t :: ts) ↔ (i, s) ∈ t.parts ∨ ∃ j, (j, s) ∈ partsOf ts ∧ t.size + j = i := by
  simp [partsOf]

mutual

theorem parts_le : ∀ {t : Ty} {i : Nat} {s : Ty}, (i, s) ∈ t.parts → 0 < s.size ∧ i + s.size ≤ t.size
  | .tuple ts, _, _, h => partsOf_le h
  | .unknown, _, _, h | .void, _, _, h | .module, _, _, h => by cases h
  | .bool, i, s, h | .byte, i, s, h | .char, i, s, h | .int32, i, s, h | .int64, i, s, h | .float32, i, s, h
  | .float64, i, s, h | .string, i, s, h | .list _, i, s, h | .function _ _, i, s, h => by
    obtain ⟨rfl, rfl⟩ := Prod.mk.inj (List.mem_singleton.1 h)
    exact ⟨by simp [size, handleSize], Nat.le_of_eq (Nat.zero_add _)⟩

theorem partsOf_le : ∀ {ts : List Ty} {i : Nat} {s : Ty}, (i, s) ∈ partsOf ts → 0 < s.size ∧ i + s.size ≤ sizes ts
  | [], _, _, h => by cases h
  | t :: ts, i, s, h => by
    rw [sizes]
    rcases mem_partsOf_cons.1 h with first | ⟨j, rest, rfl⟩
    · have := parts_le first
      omega
    · have := partsOf_le rest
      omega

end

end Ty

/-! ### Truth values -/

namespace Bytes

/-- Bytes in which the truth values among the parts are zero or one. -/
def normalize (parts : List (Nat × Ty)) (bs : Bytes) : Bytes :=
  bs.mapIdx fun i b => if (i, Ty.bool) ∈ parts then if b = 0 then 0 else 1 else b

/-- No character has the code point that is read at an offset. -/
def NoCharAt (bs : Bytes) (i : Nat) : Prop := ¬ (toNat ((bs.drop i).take 4)).isValidChar

variable {bs : Bytes} {t : Ty} {ts : List Ty} {parts : List (Nat × Ty)}

theorem normalize_eq_self (h : ∀ i, (i, Ty.bool) ∉ parts) : normalize parts bs = bs := by
  refine List.ext_getElem? fun i => ?_
  simp only [normalize, List.getElem?_mapIdx, h, if_false]
  exact Option.map_id'

/-- The first item and those after it are made regular each by itself. -/
theorem normalize_cons (h : t.size ≤ bs.length) :
    normalize (Ty.partsOf (t :: ts)) (bs.take (Ty.sizes (t :: ts))) =
      normalize t.parts (bs.take t.size) ++ normalize (Ty.partsOf ts) ((bs.drop t.size).take (Ty.sizes ts)) := by
  have first : (bs.take t.size).length = t.size := List.length_take_of_le h
  rw [Ty.sizes, List.take_add, normalize, List.mapIdx_append, first]
  congr 1
  · refine List.ext_getElem? fun i => ?_
    rw [normalize, List.getElem?_mapIdx, List.getElem?_mapIdx]
    refine Option.map_congr fun b hb => ?_
    -- The items after the first one start behind it.
    have inside : i < t.size := first ▸ (List.getElem?_eq_some_iff.1 hb).1
    have same : (i, Ty.bool) ∈ Ty.partsOf (t :: ts) ↔ (i, Ty.bool) ∈ t.parts := by
      rw [Ty.mem_partsOf_cons, or_iff_left]
      rintro ⟨j, -, rfl⟩
      omega
    rw [if_congr same rfl rfl]
  · refine List.ext_getElem? fun i => ?_
    rw [normalize, List.getElem?_mapIdx, List.getElem?_mapIdx]
    refine Option.map_congr fun b _ => ?_
    have same : (i + t.size, Ty.bool) ∈ Ty.partsOf (t :: ts) ↔ (i, Ty.bool) ∈ Ty.partsOf ts := by
      rw [Ty.mem_partsOf_cons, or_iff_right]
      · constructor
        · rintro ⟨j, hj, e⟩
          obtain rfl : j = i := by omega
          exact hj
        · exact fun hi => ⟨i, hi, Nat.add_comm _ _⟩
      · intro hi
        have := Ty.parts_le hi
        omega
    rw [if_congr same rfl rfl]

theorem ofNat_take {n : Nat} (h : n ≤ bs.length) : ofNat n (toNat (bs.take n)) = bs.take n := by
  have whole := ofNat_toNat (bs.take n)
  rwa [List.length_take_of_le h] at whole

theorem toNat_take_lt {n : Nat} (h : n ≤ bs.length) : toNat (bs.take n) < Nat.pow 256 n := by
  have fits := toNat_lt (bs.take n)
  rwa [List.length_take_of_le h] at fits

/-- A word that is read from four bytes is written as those bytes. -/
theorem ofNat_word32 (h : 4 ≤ bs.length) : ofNat 4 (UInt32.ofNat (toNat (bs.take 4))).toNat = bs.take 4 := by
  rw [UInt32.toNat_ofNat_of_lt' (toNat_take_lt h), ofNat_take h]

theorem ofNat_word64 (h : 8 ≤ bs.length) : ofNat 8 (UInt64.ofNat (toNat (bs.take 8))).toNat = bs.take 8 := by
  rw [UInt64.toNat_ofNat_of_lt' (toNat_take_lt h), ofNat_take h]

end Bytes

theorem Handle.toBytes_of_ofBytes {bs : Bytes} {r : Handle} (h : ofBytes bs = .ok r) : r.toBytes = bs.take handleSize := by
  unfold ofBytes at h
  split at h
  · cases h
  · next long =>
    cases h
    have long : 4 + 4 ≤ bs.length := Nat.le_of_not_lt long
    have low : 4 ≤ bs.length := by omega
    have high : 4 ≤ (bs.drop 4).length := by
      rw [List.length_drop]
      omega
    rw [toBytes, Bytes.ofNat_word32 low, Bytes.ofNat_word32 high, ← List.take_add]
    rfl

namespace Value

mutual

theorem size_eq : ∀ v : Value, v.size = v.ty.size
  | tuple vs => by rw [size, ty, Ty.size, sizes_eq vs]
  | string _ | list _ _ | closure _ _ _ => rfl
  | void | bool _ | byte _ | char _ | int32 _ | int64 _ | float32 _ | float64 _ => rfl

theorem sizes_eq : ∀ vs : List Value, sizes vs = Ty.sizes (tys vs)
  | [] => rfl
  | v :: vs => by rw [sizes, tys, Ty.sizes, size_eq v, sizes_eq vs]

end

/-! ### Types of values that were read -/

mutual

theorem isStored_ty : ∀ v : Value, v.ty.isStored
  | tuple vs => allStored_tys vs
  | string _ | list _ _ | closure _ _ _ => rfl
  | void | bool _ | byte _ | char _ | int32 _ | int64 _ | float32 _ | float64 _ => rfl

theorem allStored_tys : ∀ vs : List Value, Ty.allStored (tys vs)
  | [] => rfl
  | v :: vs => by rw [tys, Ty.allStored, isStored_ty v, allStored_tys vs, Bool.and_self]

end

mutual

theorem ty_of_read : ∀ {t : Ty} {bs : Bytes} {v : Value}, t.isStored → read t bs = .ok v → v.ty = t
  | .unknown, _, _, ht, _ | .module, _, _, ht, _ => by cases ht
  | .tuple ts, bs, v, ht, h => by
    obtain ⟨vs, hs, rfl⟩ := map_eq_ok.1 h
    exact congrArg Ty.tuple (tys_of_reads ht hs)
  | .void, _, _, _, h | .bool, _, _, _, h | .byte, _, _, _, h | .int32, _, _, _, h | .int64, _, _, _, h
  | .float32, _, _, _, h | .float64, _, _, _, h => by
    rw [read] at h
    cases h
    rfl
  | .char, bs, v, _, h => by
    obtain ⟨valid, rfl⟩ := charOf_eq_ok h
    rfl
  | .string, bs, v, _, h | .list _, bs, v, _, h | .function _ _, bs, v, _, h => by
    rw [read] at h
    obtain ⟨r, -, rfl⟩ := map_eq_ok.1 h
    rfl

theorem tys_of_reads : ∀ {ts : List Ty} {bs : Bytes} {vs : List Value}, Ty.allStored ts → reads ts bs = .ok vs →
    tys vs = ts
  | [], _, vs, _, h => by
    cases h
    rfl
  | t :: ts, bs, vs, ht, h => by
    rw [Ty.allStored, Bool.and_eq_true] at ht
    obtain ⟨w, first, ws, rest, rfl⟩ := reads_cons_eq_ok.1 h
    rw [tys, ty_of_read ht.1 first, tys_of_reads ht.2 rest]

end

/-! ### Characters -/

mutual

/-- Only a character can fail to be read from bytes that are enough. -/
theorem read_error : ∀ {t : Ty} {bs : Bytes} {e : Fault}, t.size ≤ bs.length → read t bs = .error e →
    ∃ i, (i, Ty.char) ∈ t.parts ∧ bs.NoCharAt i ∧
      e = .unexpectedValueType "Char" ("0x" ++ Text.hex (Bytes.toNat ((bs.drop i).take 4)))
  | .tuple ts, bs, e, long, h => by
    exact reads_error long (map_eq_error.1 h)
  | .char, bs, e, _, h => by
    obtain ⟨none, rfl⟩ := charOf_eq_error h
    exact ⟨0, .head _, none, rfl⟩
  | .string, bs, e, long, h | .list _, bs, e, long, h | .function _ _, bs, e, long, h => by
    have some : ¬ bs.length < handleSize := Nat.not_lt.2 long
    rw [read, Handle.ofBytes, if_neg some] at h
    cases h
  | .unknown, _, _, _, h | .void, _, _, _, h | .module, _, _, _, h | .bool, _, _, _, h | .byte, _, _, _, h
  | .int32, _, _, _, h | .int64, _, _, _, h | .float32, _, _, _, h | .float64, _, _, _, h => by
    rw [read] at h
    cases h

theorem reads_error : ∀ {ts : List Ty} {bs : Bytes} {e : Fault}, Ty.sizes ts ≤ bs.length → reads ts bs = .error e →
    ∃ i, (i, Ty.char) ∈ Ty.partsOf ts ∧ bs.NoCharAt i ∧
      e = .unexpectedValueType "Char" ("0x" ++ Text.hex (Bytes.toNat ((bs.drop i).take 4)))
  | [], _, _, _, h => by cases h
  | t :: ts, bs, e, long, h => by
    rw [Ty.sizes] at long
    rcases reads_cons_eq_error.1 h with first | ⟨-, -, rest⟩
    · obtain ⟨i, hi, none, rfl⟩ := read_error (by omega) first
      exact ⟨i, Ty.mem_partsOf_cons.2 (.inl hi), none, rfl⟩
    · have enough : Ty.sizes ts ≤ (bs.drop t.size).length := by
        rw [List.length_drop]
        omega
      obtain ⟨i, hi, none, rfl⟩ := reads_error enough rest
      rw [Bytes.NoCharAt, List.drop_drop] at none
      exact ⟨t.size + i, Ty.mem_partsOf_cons.2 (.inr ⟨i, hi, rfl⟩), none, by rw [List.drop_drop]⟩

end

mutual

theorem chars_of_read : ∀ {t : Ty} {bs : Bytes} {v : Value} {i : Nat}, read t bs = .ok v → (i, Ty.char) ∈ t.parts →
    ¬ bs.NoCharAt i
  | .tuple ts, bs, v, i, h, hi => by
    obtain ⟨vs, hs, -⟩ := map_eq_ok.1 h
    exact chars_of_reads hs hi
  | .char, bs, v, i, h, hi => by
    obtain ⟨rfl, -⟩ := Prod.mk.inj (List.mem_singleton.1 hi)
    obtain ⟨valid, -⟩ := charOf_eq_ok h
    exact not_not_intro valid
  | .unknown, _, _, _, _, hi | .void, _, _, _, _, hi | .module, _, _, _, _, hi => by cases hi
  | .bool, _, _, _, _, hi | .byte, _, _, _, _, hi | .int32, _, _, _, _, hi | .int64, _, _, _, _, hi
  | .float32, _, _, _, _, hi | .float64, _, _, _, _, hi | .string, _, _, _, _, hi | .list _, _, _, _, _, hi
  | .function _ _, _, _, _, _, hi => by
    have other := (Prod.mk.inj (List.mem_singleton.1 hi)).2
    cases other

theorem chars_of_reads : ∀ {ts : List Ty} {bs : Bytes} {vs : List Value} {i : Nat}, reads ts bs = .ok vs →
    (i, Ty.char) ∈ Ty.partsOf ts → ¬ bs.NoCharAt i
  | [], _, _, _, _, hi => by cases hi
  | t :: ts, bs, vs, i, h, hi => by
    obtain ⟨w, first, ws, rest, rfl⟩ := reads_cons_eq_ok.1 h
    rcases Ty.mem_partsOf_cons.1 hi with hi | ⟨j, hj, rfl⟩
    · exact chars_of_read first hi
    · have behind := chars_of_reads rest hj
      rwa [Bytes.NoCharAt, List.drop_drop] at behind

end

/-- Bytes that are enough for a type are no value of it exactly if one of its characters is none. -/
theorem decode_fails_iff {t : Ty} {bs : Bytes} (long : t.size ≤ bs.length) :
    (∃ e, decode t bs = .error e) ↔ ∃ i, (i, Ty.char) ∈ t.parts ∧ bs.NoCharAt i := by
  rw [decode, if_neg (Nat.not_lt.2 long)]
  constructor
  · rintro ⟨e, h⟩
    obtain ⟨i, hi, none, -⟩ := read_error long h
    exact ⟨i, hi, none⟩
  · rintro ⟨i, hi, none⟩
    cases h : read t bs with
    | error e => exact ⟨e, rfl⟩
    | ok v => exact absurd none (chars_of_read h hi)

/-! ### Writing what was read -/

mutual

theorem encode_of_read : ∀ {t : Ty} {bs : Bytes} {v : Value}, t.size ≤ bs.length → read t bs = .ok v →
    v.encode = Bytes.normalize t.parts (bs.take t.size)
  | .tuple ts, bs, v, long, h => by
    obtain ⟨vs, hs, rfl⟩ := map_eq_ok.1 h
    exact encodes_of_reads long hs
  | .unknown, _, _, _, h | .void, _, _, _, h | .module, _, _, _, h => by
    rw [read] at h
    cases h
    rfl
  | .bool, bs, v, long, h => by
    rw [read] at h
    cases h
    cases bs with
    | nil => cases long
    | cons b bs =>
      by_cases zero : b = 0 <;> simp [encode, Bytes.normalize, Ty.parts, Ty.size, zero]
  | .byte, bs, v, long, h => by
    rw [read] at h
    cases h
    rw [Bytes.normalize_eq_self (by simp [Ty.parts])]
    cases bs with
    | nil => cases long
    | cons b bs => rfl
  | .char, bs, v, long, h => by
    obtain ⟨valid, rfl⟩ := charOf_eq_ok h
    rw [Bytes.normalize_eq_self (by simp [Ty.parts])]
    exact Bytes.ofNat_take long
  | .int32, bs, v, long, h => by
    rw [read] at h
    cases h
    rw [Bytes.normalize_eq_self (by simp [Ty.parts]), encode, UInt32.toUInt32_toInt32]
    exact Bytes.ofNat_word32 long
  | .int64, bs, v, long, h => by
    rw [read] at h
    cases h
    rw [Bytes.normalize_eq_self (by simp [Ty.parts]), encode, UInt64.toUInt64_toInt64]
    exact Bytes.ofNat_word64 long
  | .float32, bs, v, long, h => by
    rw [read] at h
    cases h
    rw [Bytes.normalize_eq_self (by simp [Ty.parts]), encode]
    exact Bytes.ofNat_word32 long
  | .float64, bs, v, long, h => by
    rw [read] at h
    cases h
    rw [Bytes.normalize_eq_self (by simp [Ty.parts]), encode]
    exact Bytes.ofNat_word64 long
  | .string, bs, v, long, h | .list _, bs, v, long, h | .function _ _, bs, v, long, h => by
    rw [read] at h
    obtain ⟨r, hr, rfl⟩ := map_eq_ok.1 h
    rw [Bytes.normalize_eq_self (by simp [Ty.parts])]
    exact Handle.toBytes_of_ofBytes hr

theorem encodes_of_reads : ∀ {ts : List Ty} {bs : Bytes} {vs : List Value}, Ty.sizes ts ≤ bs.length →
    reads ts bs = .ok vs → encodes vs = Bytes.normalize (Ty.partsOf ts) (bs.take (Ty.sizes ts))
  | [], _, _, _, h => by
    cases h
    rfl
  | t :: ts, bs, vs, long, h => by
    obtain ⟨w, first, ws, rest, rfl⟩ := reads_cons_eq_ok.1 h
    have enough : t.size ≤ bs.length := by
      rw [Ty.sizes] at long
      omega
    have behind : Ty.sizes ts ≤ (bs.drop t.size).length := by
      rw [Ty.sizes] at long
      rw [List.length_drop]
      omega
    rw [Bytes.normalize_cons enough, encodes, encode_of_read enough first, encodes_of_reads behind rest]

end

/-! ### Round trips -/

/-- What is written is read back, whatever follows, and takes as many bytes as the value and its type say. Bytes that are
enough for a type are read unless a character is none; then the value has the type if values can have it, and is written as
the bytes that it was read from, with its truth values made regular. -/
theorem codec_exact :
    (∀ (v : Value) (rest : Bytes), decode v.ty (v.encode ++ rest) = .ok v ∧ v.encode.length = v.size ∧
      v.size = v.ty.size) ∧
    ∀ (t : Ty) (bs : Bytes), t.size ≤ bs.length →
      ((∃ e, decode t bs = .error e) ↔ ∃ i, (i, Ty.char) ∈ t.parts ∧ bs.NoCharAt i) ∧
      ∀ v, decode t bs = .ok v → (v.ty = t ↔ t.isStored) ∧ v.encode = Bytes.normalize t.parts (bs.take t.size) := by
  refine ⟨fun v rest => ⟨?_, ?_, size_eq v⟩, fun t bs long => ⟨decode_fails_iff long, fun v h => ?_⟩⟩
  · have enough : ¬ (v.encode ++ rest).length < v.ty.size := by
      rw [List.length_append, length_encode]
      omega
    rw [decode, if_neg enough, read_encode]
  · rw [length_encode, size_eq]
  · rw [decode, if_neg (Nat.not_lt.2 long)] at h
    exact ⟨⟨fun same => same ▸ isStored_ty v, fun stored => ty_of_read stored h⟩, encode_of_read long h⟩

/-- A truth value that is two, a character and a byte, with one byte behind them. -/
theorem codec_exact_irregular :
    let t : Ty := .tuple [.bool, .tuple [.char, .byte]]
    let v := tuple [bool true, tuple [char 'A', byte 9]]
    t.size ≤ [2, 65, 0, 0, 0, 9, 7].length ∧ decode t [2, 65, 0, 0, 0, 9, 7] = .ok v ∧ v.ty = t ∧
      v.encode = Bytes.normalize t.parts ([2, 65, 0, 0, 0, 9, 7].take t.size) ∧ v.encode = [1, 65, 0, 0, 0, 9] := by
  intro t v
  have long : t.size ≤ [2, 65, 0, 0, 0, 9, 7].length := by decide
  have read : decode t [2, 65, 0, 0, 0, 9, 7] = .ok v := rfl
  obtain ⟨-, both⟩ := codec_exact.2 t [2, 65, 0, 0, 0, 9, 7] long
  exact ⟨long, read, (both v read).1.2 rfl, (both v read).2, rfl⟩

end Value

end StackScript
