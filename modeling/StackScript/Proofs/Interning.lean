import Mathlib.Data.List.Forall2
import StackScript.Module

/-!
Sharing of types. A function type in full keeps the signature of the function that it was made for, with what its closures
carry. Types in full are identical if they differ in nothing else, and nothing that is read through a type depends on that,
so that identical types may share one place in the table of a module.
-/
namespace StackScript

/-- A type in full: a function type keeps what the closures carry. -/
inductive FullTy
  | unknown | void | bool | byte | char | int32 | int64 | float32 | float64 | string
  | list (elem : FullTy)
  | tuple (items : List FullTy)
  | function (params nonlocals bound : List FullTy) (result : FullTy)
  | module

/-- A value that keeps its type in full. -/
inductive FullValue
  | void
  | bool (b : Bool)
  | byte (n : UInt8)
  | char (c : Char)
  | int32 (n : Int32)
  | int64 (n : Int64)
  | float32 (bits : UInt32)
  | float64 (bits : UInt64)
  | string (r : Handle)
  | list (elem : FullTy) (r : Handle)
  | tuple (items : List FullValue)
  | closure (params nonlocals bound : List FullTy) (result : FullTy) (r : Handle)

namespace FullTy

/-! ### Reading through a type -/

mutual

/-- Structural equality, in which the unknown type is identical to itself only. -/
def identical : FullTy → FullTy → Bool
  | list a, list b => a.identical b
  | tuple as, tuple bs => allIdentical as bs
  | function ps _ _ r, function qs _ _ s => allIdentical ps qs && r.identical s
  | unknown, unknown | void, void | bool, bool | byte, byte | char, char | int32, int32 | int64, int64
  | float32, float32 | float64, float64 | string, string | module, module => true
  | _, _ => false

def allIdentical : List FullTy → List FullTy → Bool
  | [], [] => true
  | a :: as, b :: bs => a.identical b && allIdentical as bs
  | _, _ => false

end

mutual

/-- Bytes that a value takes on the stack. -/
def size : FullTy → Nat
  | unknown | void | module => 0
  | bool | byte => 1
  | char | int32 | float32 => 4
  | int64 | float64 => 8
  | string | list _ | function _ _ _ _ => handleSize
  | tuple items => sizes items

def sizes : List FullTy → Nat
  | [] => 0
  | t :: ts => t.size + sizes ts

end

mutual

/-- Offsets of the handles inside a value that starts at `base`, in ascending order. -/
def slotsFrom (base : Nat) : FullTy → List Nat
  | string | list _ | function _ _ _ _ => [base]
  | tuple items => slotsOf base items
  | _ => []

def slotsOf (base : Nat) : List FullTy → List Nat
  | [] => []
  | t :: ts => slotsFrom base t ++ slotsOf (base + t.size) ts

end

def slots (t : FullTy) : List Nat := slotsFrom 0 t

mutual

def text : FullTy → String
  | unknown => "?"
  | void => "Void"
  | bool => "Bool"
  | byte => "Byte"
  | char => "Char"
  | int32 => "Int32"
  | int64 => "Int64"
  | float32 => "Float32"
  | float64 => "Float64"
  | string => "String"
  | list elem => "[" ++ elem.text ++ "]"
  | tuple items => "(" ++ texts items ++ ")"
  | function params _ _ result => "fn(" ++ texts params ++ ") -> " ++ result.text
  | module => "Module"

/-- Separated by commas. -/
def texts : List FullTy → String
  | [] => ""
  | [t] => t.text
  | t :: u :: ts => t.text ++ ", " ++ texts (u :: ts)

end

/-- The character with a code point. -/
def charOf (n : Nat) : Except Fault FullValue :=
  if h : n.isValidChar then .ok (.char (Char.ofNatAux n h))
  else .error (.unexpectedValueType "Char" ("0x" ++ Text.hex n))

mutual

/-- Reads a value from the start of bytes that are long enough for its type. -/
def read : FullTy → Bytes → Except Fault FullValue
  | unknown, _ | void, _ | module, _ => .ok .void
  | bool, bs => .ok (.bool (bs.headD 0 != 0))
  | byte, bs => .ok (.byte (bs.headD 0))
  | char, bs => charOf (Bytes.toNat (bs.take 4))
  | int32, bs => .ok (.int32 (UInt32.ofNat (Bytes.toNat (bs.take 4))).toInt32)
  | int64, bs => .ok (.int64 (UInt64.ofNat (Bytes.toNat (bs.take 8))).toInt64)
  | float32, bs => .ok (.float32 (.ofNat (Bytes.toNat (bs.take 4))))
  | float64, bs => .ok (.float64 (.ofNat (Bytes.toNat (bs.take 8))))
  | string, bs => (Handle.ofBytes bs).map .string
  | list elem, bs => (Handle.ofBytes bs).map (.list elem)
  | function params nonlocals bound result, bs => (Handle.ofBytes bs).map (.closure params nonlocals bound result)
  | tuple items, bs => (reads items bs).map .tuple

def reads : List FullTy → Bytes → Except Fault (List FullValue)
  | [], _ => .ok []
  | t :: ts, bs => do
    let v ← read t bs
    let vs ← reads ts (bs.drop t.size)
    return v :: vs

end

def decode (t : FullTy) (bs : Bytes) : Except Fault FullValue :=
  if bs.length < t.size then .error (.stackUnderflow t.size bs.length) else read t bs

end FullTy

namespace FullValue

mutual

def encode : FullValue → Bytes
  | void => []
  | bool b => [if b then 1 else 0]
  | byte n => [n]
  | char c => Bytes.ofNat 4 c.toNat
  | int32 n => Bytes.ofNat 4 n.toUInt32.toNat
  | int64 n => Bytes.ofNat 8 n.toUInt64.toNat
  | float32 bits => Bytes.ofNat 4 bits.toNat
  | float64 bits => Bytes.ofNat 8 bits.toNat
  | string r | list _ r | closure _ _ _ _ r => r.toBytes
  | tuple items => encodes items

def encodes : List FullValue → Bytes
  | [] => []
  | v :: vs => v.encode ++ encodes vs

end

mutual

/-- The handles in a value, in the order of its bytes. -/
def handles : FullValue → List Handle
  | string r | list _ r | closure _ _ _ _ r => [r]
  | tuple items => handlesOf items
  | _ => []

def handlesOf : List FullValue → List Handle
  | [] => []
  | v :: vs => v.handles ++ handlesOf vs

end

end FullValue

/-! ### Without what closures carry -/

mutual

/-- The type without what closures carry. -/
def FullTy.plain : FullTy → Ty
  | .unknown => .unknown
  | .void => .void
  | .bool => .bool
  | .byte => .byte
  | .char => .char
  | .int32 => .int32
  | .int64 => .int64
  | .float32 => .float32
  | .float64 => .float64
  | .string => .string
  | .list elem => .list elem.plain
  | .tuple items => .tuple (FullTy.plains items)
  | .function params _ _ result => .function (FullTy.plains params) result.plain
  | .module => .module

def FullTy.plains : List FullTy → List Ty
  | [] => []
  | t :: ts => t.plain :: FullTy.plains ts

end

mutual

def FullValue.plain : FullValue → Value
  | .void => .void
  | .bool b => .bool b
  | .byte n => .byte n
  | .char c => .char c
  | .int32 n => .int32 n
  | .int64 n => .int64 n
  | .float32 bits => .float32 bits
  | .float64 bits => .float64 bits
  | .string r => .string r
  | .list elem r => .list elem.plain r
  | .tuple items => .tuple (FullValue.plains items)
  | .closure params _ _ result r => .closure (FullTy.plains params) result.plain r

def FullValue.plains : List FullValue → List Value
  | [] => []
  | v :: vs => v.plain :: FullValue.plains vs

end

namespace FullTy

mutual

/-- Types are identical if and only if they are equal without what closures carry. -/
theorem identical_iff : ∀ a b : FullTy, a.identical b ↔ a.plain = b.plain
  | list a, b => by
    cases b with
    | list b => simp only [identical, plain, Ty.list.injEq, identical_iff a b]
    | _ => simp [identical, plain]
  | tuple as, b => by
    cases b with
    | tuple bs => simp only [identical, plain, Ty.tuple.injEq, allIdentical_iff as bs]
    | _ => simp [identical, plain]
  | function ps _ _ r, b => by
    cases b with
    | function qs _ _ s =>
      simp only [identical, plain, Bool.and_eq_true, Ty.function.injEq, allIdentical_iff ps qs, identical_iff r s]
    | _ => simp [identical, plain]
  | unknown, b | void, b | bool, b | byte, b | char, b | int32, b | int64, b | float32, b | float64, b | string, b
  | module, b => by cases b <;> simp [identical, plain]

theorem allIdentical_iff : ∀ as bs : List FullTy, allIdentical as bs ↔ plains as = plains bs
  | [], [] | [], _ :: _ | _ :: _, [] => by simp [allIdentical, plains]
  | a :: as, b :: bs => by
    simp only [allIdentical, plains, Bool.and_eq_true, List.cons.injEq, identical_iff a b, allIdentical_iff as bs]

end

mutual

@[simp] theorem size_plain : ∀ t : FullTy, t.plain.size = t.size
  | tuple items => sizes_plains items
  | unknown | void | bool | byte | char | int32 | int64 | float32 | float64 | string | list _ | function _ _ _ _
  | module => rfl

theorem sizes_plains : ∀ ts : List FullTy, Ty.sizes (plains ts) = sizes ts
  | [] => rfl
  | t :: ts => by rw [plains, Ty.sizes, sizes, size_plain t, sizes_plains ts]

end

mutual

theorem slotsFrom_plain : ∀ (base : Nat) (t : FullTy), Ty.slotsFrom base t.plain = slotsFrom base t
  | base, tuple items => slotsOf_plains base items
  | _, unknown | _, void | _, bool | _, byte | _, char | _, int32 | _, int64 | _, float32 | _, float64 | _, string
  | _, list _ | _, function _ _ _ _ | _, module => rfl

theorem slotsOf_plains : ∀ (base : Nat) (ts : List FullTy), Ty.slotsOf base (plains ts) = slotsOf base ts
  | _, [] => rfl
  | base, t :: ts => by
    rw [plains, Ty.slotsOf, slotsOf, slotsFrom_plain base t, size_plain t, slotsOf_plains (base + t.size) ts]

end

theorem slots_plain (t : FullTy) : t.plain.slots = t.slots := slotsFrom_plain 0 t

mutual

theorem text_plain : ∀ t : FullTy, t.plain.text = t.text
  | list elem => by rw [plain, Ty.text, text, text_plain elem]
  | tuple items => by rw [plain, Ty.text, text, texts_plains items]
  | function params _ _ result => by rw [plain, Ty.text, text, texts_plains params, text_plain result]
  | unknown | void | bool | byte | char | int32 | int64 | float32 | float64 | string | module => rfl

theorem texts_plains : ∀ ts : List FullTy, Ty.texts (plains ts) = texts ts
  | [] => rfl
  | [t] => text_plain t
  | t :: u :: ts => by
    have rest : Ty.texts (u.plain :: plains ts) = texts (u :: ts) := texts_plains (u :: ts)
    rw [plains, plains, Ty.texts, texts, text_plain t, rest]

end

mutual

theorem read_plain : ∀ (t : FullTy) (bs : Bytes), Value.read t.plain bs = (t.read bs).map FullValue.plain
  | tuple items, bs => by
    rw [plain, Value.read, read, reads_plains items bs]
    cases reads items bs <;> rfl
  | char, bs => by
    rw [plain, Value.read, read, Value.charOf, charOf]
    by_cases valid : (Bytes.toNat (bs.take 4)).isValidChar
    · rw [dif_pos valid, dif_pos valid]
      rfl
    · rw [dif_neg valid, dif_neg valid]
      rfl
  | string, bs | list _, bs | function _ _ _ _, bs => by
    rw [plain, Value.read, read]
    cases Handle.ofBytes bs <;> rfl
  | unknown, _ | void, _ | bool, _ | byte, _ | int32, _ | int64, _ | float32, _ | float64, _ | module, _ => rfl

theorem reads_plains : ∀ (ts : List FullTy) (bs : Bytes),
    Value.reads (plains ts) bs = (reads ts bs).map FullValue.plains
  | [], _ => rfl
  | t :: ts, bs => by
    rw [plains, Value.reads, reads, read_plain t bs, size_plain t, reads_plains ts (bs.drop t.size)]
    cases read t bs with
    | error e => rfl
    | ok v => cases reads ts (bs.drop t.size) <;> rfl

end

theorem decode_plain (t : FullTy) (bs : Bytes) : Value.decode t.plain bs = (t.decode bs).map FullValue.plain := by
  rw [Value.decode, decode, size_plain, read_plain]
  split <;> rfl

end FullTy

namespace FullValue

mutual

theorem encode_plain : ∀ v : FullValue, v.plain.encode = v.encode
  | tuple items => encodes_plains items
  | void | bool _ | byte _ | char _ | int32 _ | int64 _ | float32 _ | float64 _ | string _ | list _ _
  | closure _ _ _ _ _ => rfl

theorem encodes_plains : ∀ vs : List FullValue, Value.encodes (plains vs) = encodes vs
  | [] => rfl
  | v :: vs => by rw [plains, Value.encodes, encodes, encode_plain v, encodes_plains vs]

end

mutual

theorem handles_plain : ∀ v : FullValue, v.plain.handles = v.handles
  | tuple items => handlesOf_plains items
  | void | bool _ | byte _ | char _ | int32 _ | int64 _ | float32 _ | float64 _ | string _ | list _ _
  | closure _ _ _ _ _ => rfl

theorem handlesOf_plains : ∀ vs : List FullValue, Value.handlesOf (plains vs) = handlesOf vs
  | [] => rfl
  | v :: vs => by rw [plains, Value.handlesOf, handlesOf, handles_plain v, handlesOf_plains vs]

end

end FullValue

namespace FullTy

/-! ### Identical types -/

theorem identical_equivalence : Equivalence fun a b : FullTy => a.identical b where
  refl a := (identical_iff a a).2 rfl
  symm h := (identical_iff _ _).2 ((identical_iff _ _).1 h).symm
  trans h h' := (identical_iff _ _).2 (((identical_iff _ _).1 h).trans ((identical_iff _ _).1 h'))

/-- What is read of a value: the bytes that it is written as, and its handles in the order of its bytes. -/
def reading (t : FullTy) (bs : Bytes) : Except Fault (Bytes × List Handle) :=
  (t.decode bs).map fun v => (v.encode, v.handles)

theorem reading_eq (t : FullTy) (bs : Bytes) :
    t.reading bs = (Value.decode t.plain bs).map fun v => (v.encode, v.handles) := by
  rw [reading, decode_plain]
  cases t.decode bs with
  | error e => rfl
  | ok v => simp only [Except.map, FullValue.encode_plain, FullValue.handles_plain]

/-! ### The table of types -/

/-- Adds a type to a table unless an identical one is there, and gives its place. -/
def addTo (table : Array FullTy) (t : FullTy) : Array FullTy × Nat :=
  match table.findIdx? (·.identical t) with
  | some i => (table, i)
  | none => (table.push t, table.size)

/-- Adds types one after another, and gives their places. -/
def addAllTo (table : Array FullTy) : List FullTy → Array FullTy × List Nat
  | [] => (table, [])
  | t :: ts =>
    let (table, i) := addTo table t
    let (table, is) := addAllTo table ts
    (table, i :: is)

/-- No two types of the table are identical. -/
def Distinct (table : Array FullTy) : Prop :=
  ∀ i j (hi : i < table.size) (hj : j < table.size), table[i].identical table[j] → i = j

/-- A type has its place in the table where there is an identical one. -/
def PlacedAt (table : Array FullTy) (t : FullTy) (i : Nat) : Prop :=
  ∃ u, table[i]? = some u ∧ u.identical t

section

variable {table : Array FullTy} {t u : FullTy} {i j : Nat}

/-- In a table without identical types, types have the same place if and only if they are identical. -/
theorem PlacedAt.eq_iff (distinct : Distinct table) (ht : PlacedAt table t i) (hu : PlacedAt table u j) :
    t.identical u ↔ i = j := by
  obtain ⟨a, ha, at_⟩ := ht
  obtain ⟨b, hb, bu⟩ := hu
  constructor
  · intro same
    obtain ⟨hi, rfl⟩ := Array.getElem?_eq_some_iff.1 ha
    obtain ⟨hj, rfl⟩ := Array.getElem?_eq_some_iff.1 hb
    have through := identical_equivalence.trans at_ same
    exact distinct i j hi hj (identical_equivalence.trans through (identical_equivalence.symm bu))
  · rintro rfl
    obtain rfl := Option.some.inj (ha.symm.trans hb)
    exact identical_equivalence.trans (identical_equivalence.symm at_) bu

/-- What adding a type comes to: an identical one is found, or there is none and the type goes to the end. -/
theorem addTo_cases (table : Array FullTy) (t : FullTy) :
    (∃ i, ∃ h : i < table.size, table[i].identical t ∧ addTo table t = (table, i)) ∨
      (∀ i (h : i < table.size), ¬ table[i].identical t) ∧ addTo table t = (table.push t, table.size) := by
  unfold addTo
  cases found : table.findIdx? (·.identical t) with
  | some i =>
    obtain ⟨h, same, -⟩ := Array.findIdx?_eq_some_iff_getElem.1 found
    exact .inl ⟨i, h, same, rfl⟩
  | none =>
    refine .inr ⟨fun i h same => ?_, rfl⟩
    have differs := Array.findIdx?_eq_none_iff.1 found table[i] (Array.getElem_mem h)
    rw [same] at differs
    cases differs

theorem placedAt_addTo (table : Array FullTy) (t : FullTy) : PlacedAt (addTo table t).1 t (addTo table t).2 := by
  obtain ⟨i, h, same, added⟩ | ⟨-, added⟩ := addTo_cases table t
  · rw [added]
    exact ⟨table[i], Array.getElem?_eq_getElem h, same⟩
  · rw [added]
    exact ⟨t, Array.getElem?_push_size, identical_equivalence.refl t⟩

/-- A place that was given stays. -/
theorem PlacedAt.addTo (h : PlacedAt table u i) (t : FullTy) : PlacedAt (addTo table t).1 u i := by
  obtain ⟨j, -, -, added⟩ | ⟨-, added⟩ := addTo_cases table t
  · rwa [added]
  · rw [added]
    obtain ⟨a, ha, same⟩ := h
    have inside : i < table.size := (Array.getElem?_eq_some_iff.1 ha).1
    exact ⟨a, by rw [Array.getElem?_push_lt inside, ← ha, Array.getElem?_eq_getElem inside], same⟩

theorem Distinct.addTo (distinct : Distinct table) (t : FullTy) : Distinct (addTo table t).1 := by
  obtain ⟨k, -, -, added⟩ | ⟨fresh, added⟩ := addTo_cases table t
  · rwa [added]
  · rw [added]
    intro i j hi hj same
    rw [Array.size_push] at hi hj
    -- each of the two places is inside the table or that of the type that was added
    rcases Nat.lt_succ_iff_lt_or_eq.1 hi with inside | rfl <;> rcases Nat.lt_succ_iff_lt_or_eq.1 hj with inside' | rfl
    · rw [Array.getElem_push_lt inside, Array.getElem_push_lt inside'] at same
      exact distinct i j inside inside' same
    · rw [Array.getElem_push_lt inside, Array.getElem_push_eq] at same
      exact absurd same (fresh i inside)
    · rw [Array.getElem_push_lt inside', Array.getElem_push_eq] at same
      exact absurd (identical_equivalence.symm same) (fresh j inside')
    · rfl

end

/-- After types were added one after another, no two in the table are identical, places from before are as they were, and
all that were added have theirs. -/
theorem addAllTo_placed : ∀ (ts : List FullTy) (table : Array FullTy), Distinct table →
    Distinct (addAllTo table ts).1 ∧ (∀ u i, PlacedAt table u i → PlacedAt (addAllTo table ts).1 u i) ∧
      List.Forall₂ (PlacedAt (addAllTo table ts).1) ts (addAllTo table ts).2
  | [], _, distinct => ⟨distinct, fun _ _ h => h, .nil⟩
  | t :: ts, table, distinct => by
    -- the place of the first type is given before the others are added, and kept while they are
    obtain ⟨distinct', keeps, placed⟩ := addAllTo_placed ts (addTo table t).1 (distinct.addTo t)
    rw [addAllTo]
    exact ⟨distinct', fun u i h => keeps u i (h.addTo t), .cons (keeps _ _ (placedAt_addTo table t)) placed⟩

end FullTy

/-! ### The types of a module -/

namespace Module

/-- Adds types one after another, and gives their numbers. -/
def addTypes (m : Module) : List Ty → Module × List Nat
  | [] => (m, [])
  | t :: ts =>
    let (m, i) := m.addType t
    let (m, is) := m.addTypes ts
    (m, i :: is)

/-- A module keeps its types without what closures carry, each at the place that the type in full has. -/
theorem addType_plain (m : Module) (table : Array FullTy) (t : FullTy) :
    { m with types := table.map FullTy.plain }.addType t.plain =
      ({ m with types := (FullTy.addTo table t).1.map FullTy.plain }, (FullTy.addTo table t).2) := by
  -- a module looks for an equal plain type, the table for an identical one
  have same : (fun u : Ty => decide (u = t.plain)) ∘ FullTy.plain = (·.identical t) := by
    funext u
    rw [Function.comp_apply, Bool.eq_iff_iff, decide_eq_true_eq, FullTy.identical_iff]
  simp only [addType, FullTy.addTo, Array.findIdx?_map, same]
  cases table.findIdx? (·.identical t) with
  | some i => rfl
  | none => simp only [Array.map_push, Array.size_map]

theorem addTypes_plain (m : Module) : ∀ (ts : List FullTy) (table : Array FullTy),
    { m with types := table.map FullTy.plain }.addTypes (FullTy.plains ts) =
      ({ m with types := (FullTy.addAllTo table ts).1.map FullTy.plain }, (FullTy.addAllTo table ts).2)
  | [], _ => rfl
  | t :: ts, table => by
    rw [FullTy.plains, addTypes, addType_plain, FullTy.addAllTo]
    simp only [addTypes_plain m ts]

end Module

namespace FullTy

/-- A plain type that stands for a type in full: all that is read through one is read through the other. -/
structure StandsFor (plain : Ty) (t : FullTy) : Prop where
  size : plain.size = t.size
  slots : plain.slots = t.slots
  text : plain.text = t.text
  reading : ∀ bs, (Value.decode plain bs).map (fun v => (v.encode, v.handles)) = t.reading bs

theorem standsFor_plain (t : FullTy) : StandsFor t.plain t :=
  ⟨size_plain t, slots_plain t, text_plain t, fun bs => (reading_eq t bs).symm⟩

/-- How a table comes to hold types that are added one after another. -/
structure Holds (table : Array FullTy) (ts : List FullTy) (places : List Nat) : Prop where
  distinct : Distinct table
  placed : List.Forall₂ (PlacedAt table) ts places
  shared : ∀ (k l i j : Nat) (t u : FullTy), ts[k]? = some t → ts[l]? = some u → places[k]? = some i →
    places[l]? = some j → (t.identical u ↔ i = j)

theorem addAllTo_holds (ts : List FullTy) : Holds (addAllTo #[] ts).1 ts (addAllTo #[] ts).2 := by
  obtain ⟨distinct, -, placed⟩ := addAllTo_placed ts #[] fun i _ hi _ _ => absurd hi (Nat.not_lt_zero i)
  refine ⟨distinct, placed, fun k l i j t u hk hl hi hj => ?_⟩
  have at_ {k : Nat} {t : FullTy} {i : Nat} (ht : ts[k]? = some t) (hi : (addAllTo #[] ts).2[k]? = some i) :
      PlacedAt (addAllTo #[] ts).1 t i := by
    obtain ⟨h, rfl⟩ := List.getElem?_eq_some_iff.1 ht
    obtain ⟨h', rfl⟩ := List.getElem?_eq_some_iff.1 hi
    exact placed.get h h'
  exact (at_ hk hi).eq_iff distinct (at_ hl hj)

/-- Identical types may share one place. Being identical is an equivalence, all that is read through identical types is the
same, and so it is through the type without what closures carry, which a module keeps: types that are added to it have the
same number if and only if they are identical, and at its number each is found again. -/
theorem sharing_sound : (Equivalence fun a b : FullTy => a.identical b) ∧
    (∀ a b : FullTy, a.identical b →
      a.size = b.size ∧ a.slots = b.slots ∧ a.text = b.text ∧ ∀ bs, a.reading bs = b.reading bs) ∧
    (∀ t : FullTy, StandsFor t.plain t) ∧
    ∀ (name : String) (ts : List FullTy), ∃ table places, Holds table ts places ∧
      addAllTo #[] ts = (table, places) ∧
      (Module.named name).addTypes (plains ts) = ({ Module.named name with types := table.map plain }, places) := by
  refine ⟨identical_equivalence, fun a b same => ?_, standsFor_plain, fun name ts => ?_⟩
  · have plain : a.plain = b.plain := (identical_iff a b).1 same
    refine ⟨?_, ?_, ?_, fun bs => ?_⟩
    · rw [← size_plain a, plain, size_plain]
    · rw [← slots_plain a, plain, slots_plain]
    · rw [← text_plain a, plain, text_plain]
    · rw [reading_eq a, plain, reading_eq]
  · have empty : { Module.named name with types := (#[] : Array FullTy).map plain } = Module.named name := by
      rw [Array.map_empty, Module.named]
    have added := Module.addTypes_plain (Module.named name) ts #[]
    rw [empty] at added
    exact ⟨_, _, addAllTo_holds ts, rfl, added⟩

/-- Two function types that differ in what their closures carry share one place. -/
theorem sharing_sound_closures :
    let bare : FullTy := .function [.int32] [] [] .bool
    let closing : FullTy := .function [.int32] [.string] [.byte] .bool
    bare.identical closing ∧ bare.text = "fn(Int32) -> Bool" ∧ (∀ bs, bare.reading bs = closing.reading bs) ∧
      (addAllTo #[] [.int32, bare, .unknown, closing]).2 = [0, 1, 2, 1] := by
  intro bare closing
  have same : bare.identical closing := rfl
  exact ⟨same, rfl, (sharing_sound.2.1 bare closing same).2.2.2, by decide +kernel⟩

end FullTy

end StackScript
