import StackScript.Proofs.BigStep
import StackScript.Proofs.Counting
import StackScript.Proofs.ValueCodec
import StackScript.Proofs.ValueLayout

/-!
Data in bytes. What a handle leads to is kept beside the heap, so that a value means the same datum however the heap
changes around it. A stack is described from the top down, by the scalars and cells that its data are made of; a copy
borrows the references of the original until it takes its own.
-/
namespace StackScript

/-- The data that handles lead to. -/
abbrev Denotation := Handle → Option Datum

namespace Datum

/-! ### Parts -/

/-- Whether a datum lies in a cell of the heap. -/
def isCell : Datum → Bool
  | string _ | list _ _ => true
  | _ => false

mutual

/-- The scalars and cells that a datum is made of, from the bottom up. -/
def atoms : Datum → List Datum
  | void => []
  | tuple ds => atomsOf ds
  | d => [d]

def atomsOf : List Datum → List Datum
  | [] => []
  | d :: ds => d.atoms ++ atomsOf ds

end

mutual

theorem tys_atoms : ∀ d : Datum, d.atoms.map ty = d.ty.atoms
  | tuple ds => tys_atomsOf ds
  | void | bool _ | byte _ | char _ | int32 _ | int64 _ | float32 _ | float64 _ | string _ | list _ _ => rfl

theorem tys_atomsOf : ∀ ds : List Datum, (atomsOf ds).map ty = Ty.atomsOf (tys ds)
  | [] => rfl
  | d :: ds => by rw [atomsOf, List.map_append, tys_atoms d, tys_atomsOf ds, tys, Ty.atomsOf]

end

/-- Whether a datum is a scalar or a cell. -/
def isAtom : Datum → Bool
  | void | tuple _ => false
  | _ => true

mutual

theorem isAtom_of_mem : ∀ {d a : Datum}, a ∈ d.atoms → a.isAtom
  | tuple _, _, h => isAtom_of_mem_all h
  | bool _, _, h | byte _, _, h | char _, _, h | int32 _, _, h | int64 _, _, h | float32 _, _, h | float64 _, _, h
  | string _, _, h | list _ _, _, h => by
    obtain rfl := List.mem_singleton.1 h
    rfl

theorem isAtom_of_mem_all : ∀ {ds : List Datum} {a : Datum}, a ∈ atomsOf ds → a.isAtom
  | _ :: _, _, h => (List.mem_append.1 h).elim isAtom_of_mem isAtom_of_mem_all

end

theorem isHeap_ty (d : Datum) : d.ty.isHeap = d.isCell := by
  cases d <;> rfl

theorem atomsOf_append (ds es : List Datum) : atomsOf (ds ++ es) = atomsOf ds ++ atomsOf es := by
  induction ds with
  | nil => rfl
  | cons d ds ih => rw [List.cons_append, atomsOf, ih, atomsOf, List.append_assoc]

theorem tys_eq_map (ds : List Datum) : tys ds = ds.map ty := by
  induction ds with
  | nil => rfl
  | cons d ds ih => rw [tys, ih, List.map_cons]

theorem tys_append (ds es : List Datum) : tys (ds ++ es) = tys ds ++ tys es := by
  rw [tys_eq_map, tys_eq_map, tys_eq_map, List.map_append]

/-! ### Values -/

mutual

/-- The values of a datum. Empty texts and lists may be null. -/
def Is (Δ : Denotation) : Datum → Value → Prop
  | void, .void => True
  | bool a, .bool b => a = b
  | byte a, .byte b => a = b
  | char a, .char b => a = b
  | int32 a, .int32 b => a = b
  | int64 a, .int64 b => a = b
  | float32 a, .float32 b => a = b
  | float64 a, .float64 b => a = b
  | string s, .string r => if r.isNull then s = "" else Δ r = some (string s)
  | list t ds, .list u r => u = t ∧ if r.isNull then ds = [] else Δ r = some (list t ds)
  | tuple ds, .tuple vs => AreAll Δ ds vs
  | _, _ => False

def AreAll (Δ : Denotation) : List Datum → List Value → Prop
  | [], [] => True
  | d :: ds, v :: vs => d.Is Δ v ∧ AreAll Δ ds vs
  | _, _ => False

end

variable {Δ Δ' : Denotation}

mutual

theorem Is.ty_eq : ∀ {d : Datum} {v : Value}, d.Is Δ v → v.ty = d.ty
  | tuple ds, v, h => by
    cases v <;> first | exact h.elim | skip
    have all : AreAll Δ ds _ := h
    exact congrArg Ty.tuple all.tys_eq
  | list t ds, v, h => by
    cases v <;> first | exact h.elim | skip
    exact congrArg Ty.list h.1
  | void, v, h | bool _, v, h | byte _, v, h | char _, v, h | int32 _, v, h | int64 _, v, h | float32 _, v, h
  | float64 _, v, h | string _, v, h => by
    cases v <;> first | rfl | exact h.elim

theorem AreAll.tys_eq : ∀ {ds : List Datum} {vs : List Value}, AreAll Δ ds vs → Value.tys vs = tys ds
  | [], [], _ => rfl
  | d :: ds, v :: vs, h => by rw [Value.tys, tys, Is.ty_eq h.1, AreAll.tys_eq h.2]
  | [], _ :: _, h | _ :: _, [], h => h.elim

end

variable {d : Datum} {v : Value}

theorem Is.length (h : d.Is Δ v) : v.encode.length = d.ty.size := by
  rw [v.length_encode, h.ty_eq]

mutual

/-- A value keeps its meaning while its handles do. -/
theorem Is.mono : ∀ {d : Datum} {v : Value}, d.Is Δ v →
    (∀ r ∈ v.handles, r.isNull = false → ∀ e, Δ r = some e → Δ' r = some e) → d.Is Δ' v
  | tuple ds, v, h, e => by
    cases v <;> first | exact h.elim | skip
    have all : AreAll Δ ds _ := h
    exact all.mono e
  | list t ds, v, h, e => by
    cases v with
    | list u r =>
      refine ⟨h.1, ?_⟩
      cases hr : r.isNull with
      | true => simpa [hr] using h.2
      | false => exact e r (by simp [Value.handles]) hr _ (by simpa [hr] using h.2)
    | _ => exact h.elim
  | string s, v, h, e => by
    cases v with
    | string r =>
      cases hr : r.isNull with
      | true => simpa [Is, hr] using h
      | false => simpa [Is, hr] using e r (by simp [Value.handles]) hr _ (by simpa [Is, hr] using h)
    | _ => exact h.elim
  | void, v, h, _ | bool _, v, h, _ | byte _, v, h, _ | char _, v, h, _ | int32 _, v, h, _ | int64 _, v, h, _
  | float32 _, v, h, _ | float64 _, v, h, _ => by
    cases v <;> exact h

theorem AreAll.mono : ∀ {ds : List Datum} {vs : List Value}, AreAll Δ ds vs →
    (∀ r ∈ Value.handlesOf vs, r.isNull = false → ∀ e, Δ r = some e → Δ' r = some e) → AreAll Δ' ds vs
  | [], [], _, _ => trivial
  | _ :: _, _ :: _, h, e =>
    ⟨h.1.mono fun r hr => e r (List.mem_append_left _ hr), AreAll.mono h.2 fun r hr => e r (List.mem_append_right _ hr)⟩
  | [], _ :: _, h, _ | _ :: _, [], h, _ => h.elim

end

theorem AreAll.length_eq : ∀ {ds : List Datum} {vs : List Value}, AreAll Δ ds vs → ds.length = vs.length
  | [], [], _ => rfl
  | _ :: _, _ :: _, h => congrArg (· + 1) h.2.length_eq
  | [], _ :: _, h | _ :: _, [], h => h.elim

theorem AreAll.get : ∀ {ds : List Datum} {vs : List Value}, AreAll Δ ds vs → ∀ {i : Nat} {v : Value}, vs[i]? = some v →
    ∃ d, ds[i]? = some d ∧ d.Is Δ v
  | d :: _, _ :: _, h, 0, _, hv => ⟨d, rfl, Option.some.inj hv ▸ h.1⟩
  | _ :: _, _ :: _, h, i + 1, v, hv => AreAll.get (i := i) h.2 (by simpa using hv)
  | [], [], _, _, _, hv => by simp at hv
  | [], _ :: _, h, _, _, _ | _ :: _, [], h, _, _, _ => h.elim

/-! ### Scalars -/

/-- The number that a scalar is written as. -/
def number? : Datum → Option Nat
  | bool b => some b.toNat
  | byte n => some n.toNat
  | char c => some c.toNat
  | int32 n => some n.toUInt32.toNat
  | int64 n => some n.toUInt64.toNat
  | float32 bits => some bits.toNat
  | float64 bits => some bits.toNat
  | _ => none

theorem Is.encode_eq {k : Nat} (h : d.Is Δ v) (hk : d.number? = some k) :
    v.encode = Bytes.ofNat d.ty.size k ∧ v.handles = [] ∧ k < Nat.pow 256 d.ty.size := by
  cases d <;> cases hk <;> cases v <;> first | exact h.elim | skip
  all_goals
    rw [Is] at h
    subst h
  · next b => cases b <;> decide
  · next n => exact ⟨by simp [Value.encode, ty, Ty.size, Bytes.ofNat], rfl, n.toNat_lt⟩
  · next c => exact ⟨rfl, rfl, c.val.toNat_lt⟩
  · next n => exact ⟨rfl, rfl, n.toUInt32.toNat_lt⟩
  · next n => exact ⟨rfl, rfl, n.toUInt64.toNat_lt⟩
  · next n => exact ⟨rfl, rfl, n.toNat_lt⟩
  · next n => exact ⟨rfl, rfl, n.toNat_lt⟩

/-- A scalar has one value, whatever the handles lead to. -/
theorem exists_is {k : Nat} (hk : d.number? = some k) (Δ : Denotation) : ∃ v, d.Is Δ v := by
  cases d <;> cases hk
  · next b => exact ⟨.bool b, rfl⟩
  · next n => exact ⟨.byte n, rfl⟩
  · next c => exact ⟨.char c, rfl⟩
  · next n => exact ⟨.int32 n, rfl⟩
  · next n => exact ⟨.int64 n, rfl⟩
  · next n => exact ⟨.float32 n, rfl⟩
  · next n => exact ⟨.float64 n, rfl⟩

theorem exists_number (ha : d.isAtom) (hd : d.isCell = false) : ∃ i, d.number? = some i := by
  cases d <;> first | exact ⟨_, rfl⟩ | exact Bool.noConfusion ha | exact Bool.noConfusion hd

@[simp] theorem ty_ofWord {w : Width} (a : Word w) : (ofWord a).ty = w.ty := by
  cases w <;> rfl

theorem number_ofWord {w : Width} (a : Word w) : (ofWord a).number? = some a.toNat := by
  cases w <;> rfl

@[simp] theorem atoms_ofWord {w : Width} (a : Word w) : (ofWord a).atoms = [ofWord a] := by
  cases w <;> rfl

end Datum

/-! ### Cells -/

/-- What a cell has to contain. The elements of a list lie one above another; those without a size leave no trace. -/
def Content.Tells (Δ : Denotation) : Datum → Content → Prop
  | .string s, .string x => x = s
  | .list t ds, .list u bs => u = t ∧ (t.size = 0 → ds = []) ∧
      ∃ vs, bs = Value.encodes vs ∧ Datum.AreAll Δ ds vs ∧ ∀ v ∈ vs, v.ty = t
  | _, _ => False

/-- The cells that are filled contain what their handles lead to. -/
def Heap.Tells (h : Heap) (Δ : Denotation) : Prop :=
  ∀ r d x, Δ r = some d → h.filled? r = some x → x.Tells Δ d

theorem Value.tys_of_forall {t : Ty} : ∀ {vs : List Value}, (∀ v ∈ vs, v.ty = t) → tys vs = List.replicate vs.length t
  | [], _ => rfl
  | v :: vs, h => by
    rw [tys, h v (.head _), tys_of_forall fun v hv => h v (.tail _ hv), List.length_cons, List.replicate_succ]

theorem Value.length_encodes_of {t : Ty} {vs : List Value} (h : ∀ v ∈ vs, v.ty = t) :
    (encodes vs).length = vs.length * t.size := by
  rw [length_encodes, tys_of_forall h, Ty.sizes_replicate]

/-- The handles in the content of a list are those of its elements. -/
theorem Value.listHandles {t : Ty} {vs : List Value} (h : ∀ v ∈ vs, v.ty = t) :
    (Content.list t (encodes vs)).handles = .ok (handlesOf vs) := by
  have hin := handlesIn_encodes vs [] []
  rw [tys_of_forall h, List.nil_append, List.append_nil, List.length_nil] at hin
  exact Content.handles_list (length_encodes_of h) hin

namespace Content.Tells

variable {Δ Δ' : Denotation} {d : Datum} {x : Content}

theorem readable (h : x.Tells Δ d) : ∃ hs, x.handles = .ok hs := by
  cases d <;> cases x <;> first | exact h.elim | skip
  · exact ⟨[], rfl⟩
  · obtain ⟨rfl, -, vs, rfl, -, hty⟩ := h
    exact ⟨_, Value.listHandles hty⟩

theorem mono (h : x.Tells Δ d) (e : ∀ r ∈ x.held, r.isNull = false → ∀ e, Δ r = some e → Δ' r = some e) :
    x.Tells Δ' d := by
  cases d <;> cases x <;> first | exact h.elim | skip
  · exact h
  · obtain ⟨rfl, hnil, vs, rfl, all, hty⟩ := h
    rw [Content.held_eq (Value.listHandles hty)] at e
    exact ⟨rfl, hnil, vs, rfl, all.mono e, hty⟩

end Content.Tells

theorem Heap.Tells.filled {h h' : Heap} {Δ : Denotation} (ht : h.Tells Δ)
    (hk : ∀ r x, h'.filled? r = some x → h.filled? r = some x) : h'.Tells Δ :=
  fun r d x hd hx => ht r d x hd (hk r x hx)

/-! ### Piles -/

/-- A scalar or a handle on the stack. -/
inductive Piece
  | own (d : Datum)
  /-- A handle whose reference belongs to another place. -/
  | lent (d : Datum)
  /-- A handle whose reference was given up. -/
  | spent
deriving Inhabited

namespace Piece

def size : Piece → Nat
  | own d | lent d => d.ty.size
  | spent => handleSize

def isLent : Piece → Bool
  | lent _ => true
  | _ => false

/-- Whether the piece can be dropped as it is. -/
def isIdle : Piece → Bool
  | own d => d.number?.isSome
  | lent _ => false
  | spent => true

/-- What a copy of the datum holds. -/
def lend (d : Datum) : Piece := if d.isCell then lent d else own d

/-- What is left of the datum without the reference to its cell. -/
def spend (d : Datum) : Piece := if d.isCell then spent else own d

theorem size_lend (d : Datum) : (lend d).size = d.ty.size := by
  unfold lend
  split <;> rfl

theorem size_spend (d : Datum) : (spend d).size = d.ty.size := by
  unfold spend
  split
  · next h => rw [← Datum.isHeap_ty] at h; exact (Ty.size_of_isHeap h).symm
  · rfl

theorem isIdle_spend {d : Datum} (hd : d.isAtom) : (spend d).isIdle := by
  unfold spend
  split
  · rfl
  · next h =>
    obtain ⟨i, hi⟩ := Datum.exists_number hd (by simpa using h)
    simp [isIdle, hi]

end Piece

/-- From the top down. -/
abbrev Pile := List Piece

namespace Pile

def size (s : Pile) : Nat := (s.map Piece.size).sum

def Settled (s : Pile) : Prop := ∀ x ∈ s, Piece.isLent x = false

def Idle (s : Pile) : Prop := ∀ x ∈ s, Piece.isIdle x = true

@[simp] theorem size_nil : size [] = 0 := rfl

@[simp] theorem size_cons (x : Piece) (s : Pile) : size (x :: s) = x.size + size s := by
  simp [size]

@[simp] theorem size_append (s u : Pile) : size (s ++ u) = size s + size u := by
  simp [size]

@[simp] theorem size_reverse (s : Pile) : size s.reverse = size s := by
  rw [size, List.map_reverse, List.sum_reverse, size]

@[simp] theorem settled_nil : Settled [] := by
  simp [Settled]

@[simp] theorem settled_cons {x : Piece} {s : Pile} : Settled (x :: s) ↔ x.isLent = false ∧ Settled s := by
  simp [Settled]

@[simp] theorem settled_append {s u : Pile} : Settled (s ++ u) ↔ Settled s ∧ Settled u := by
  simp only [Settled, List.mem_append, or_imp, forall_and]

theorem settled_of_idle {s : Pile} (h : s.Idle) : s.Settled := fun x hx => by
  have := h x hx
  cases x <;> first | rfl | simp [Piece.isIdle] at this

/-- The pieces of a datum. -/
def of (d : Datum) : Pile := (d.atoms.map Piece.own).reverse

/-- The pieces of data that lie one above another. -/
def ofAll (ds : List Datum) : Pile := ((Datum.atomsOf ds).map Piece.own).reverse

theorem of_tuple (ds : List Datum) : of (.tuple ds) = ofAll ds := rfl

@[simp] theorem ofAll_nil : ofAll [] = [] := rfl

@[simp] theorem ofAll_cons (d : Datum) (ds : List Datum) : ofAll (d :: ds) = ofAll ds ++ of d := by
  simp [ofAll, of, Datum.atomsOf]

@[simp] theorem ofAll_append (ds es : List Datum) : ofAll (ds ++ es) = ofAll es ++ ofAll ds := by
  simp [ofAll, Datum.atomsOf_append]

/-- A pile of atoms is as high as their types say. -/
theorem size_atoms {F : Datum → Piece} (hF : ∀ a, (F a).size = a.ty.size) (as : List Datum) :
    size (as.map F).reverse = Ty.sizes (as.map Datum.ty) := by
  rw [size_reverse]
  induction as with
  | nil => rfl
  | cons a as ih => rw [List.map_cons, size_cons, ih, hF, List.map_cons, Ty.sizes]

@[simp] theorem size_of (d : Datum) : size (of d) = d.ty.size := by
  rw [of, size_atoms fun _ => rfl, Datum.tys_atoms, Ty.sizes_atoms]

@[simp] theorem size_ofAll (ds : List Datum) : size (ofAll ds) = Ty.sizes (Datum.tys ds) := by
  rw [ofAll, size_atoms fun _ => rfl, Datum.tys_atomsOf, Ty.sizes_atomsOf]

theorem settled_own (as : List Datum) : Settled (as.map Piece.own).reverse := by
  simp only [Settled, List.mem_reverse, List.mem_map]
  rintro _ ⟨d, -, rfl⟩
  rfl

theorem settled_of (d : Datum) : Settled (of d) := settled_own _

theorem settled_ofAll (ds : List Datum) : Settled (ofAll ds) := settled_own _

@[simp] theorem of_ofWord {w : Width} (a : Word w) : of (.ofWord a) = [.own (.ofWord a)] := by
  rw [of, Datum.atoms_ofWord]
  rfl

end Pile

/-! ### Bytes of piles -/

namespace Denotation

/-- The bytes of one piece, from the bottom up, with the handles that it owns and those it has borrowed. -/
inductive Fills (Δ : Denotation) : Piece → Bytes → List Handle → List Handle → Prop
  | own {d : Datum} {v : Value} (is : d.Is Δ v) : Fills Δ (.own d) v.encode v.handles []
  | lent {d : Datum} {v : Value} (is : d.Is Δ v) : Fills Δ (.lent d) v.encode [] v.handles
  | spent {bs : Bytes} (length : bs.length = handleSize) : Fills Δ .spent bs [] []

/-- The bytes of a pile, from the top down, with its handles. -/
inductive Lays (Δ : Denotation) : Pile → Bytes → List Handle → List Handle → Prop
  | nil : Lays Δ [] [] [] []
  | cons {x : Piece} {s : Pile} {bs cs : Bytes} {rs rs' ls ls' : List Handle} (head : Δ.Fills x bs rs ls)
    (tail : Lays Δ s cs rs' ls') : Lays Δ (x :: s) (bs.reverse ++ cs) (rs.reverse ++ rs') (ls.reverse ++ ls')

variable {Δ Δ' : Denotation} {x : Piece} {s u : Pile} {bs cs : Bytes} {rs ls rs' ls' : List Handle} {d : Datum}
  {ds : List Datum} {v : Value} {vs : List Value}

theorem Fills.length (h : Δ.Fills x bs rs ls) : bs.length = x.size := by
  cases h with
  | own is | lent is => exact is.length
  | spent hl => exact hl

theorem Fills.mono (h : Δ.Fills x bs rs ls)
    (e : ∀ r ∈ rs ++ ls, r.isNull = false → ∀ e, Δ r = some e → Δ' r = some e) : Δ'.Fills x bs rs ls := by
  cases h with
  | own is => exact .own (is.mono fun r hr => e r (by simpa using hr))
  | lent is => exact .lent (is.mono fun r hr => e r (by simpa using hr))
  | spent hl => exact .spent hl

namespace Lays

theorem length (h : Δ.Lays s bs rs ls) : bs.length = s.size := by
  induction h with
  | nil => rfl
  | cons head _ ih => simp [head.length, ih]

theorem mono (h : Δ.Lays s bs rs ls)
    (e : ∀ r ∈ rs ++ ls, r.isNull = false → ∀ e, Δ r = some e → Δ' r = some e) : Δ'.Lays s bs rs ls := by
  induction h with
  | nil => exact .nil
  | cons head _ ih =>
    refine .cons (head.mono fun r hr => e r ?_) (ih fun r hr => e r ?_)
    all_goals
      simp only [List.mem_append, List.mem_reverse] at hr ⊢
      rcases hr with hr | hr <;> simp [hr]

theorem append (h : Δ.Lays s bs rs ls) (k : Δ.Lays u cs rs' ls') :
    Δ.Lays (s ++ u) (bs ++ cs) (rs ++ rs') (ls ++ ls') := by
  induction h with
  | nil => exact k
  | cons head _ ih => simpa only [List.append_assoc, List.cons_append] using Lays.cons head ih

theorem split : ∀ {s : Pile} {bs : Bytes} {rs ls : List Handle}, Δ.Lays (s ++ u) bs rs ls →
    ∃ bs₁ bs₂ rs₁ rs₂ ls₁ ls₂, bs = bs₁ ++ bs₂ ∧ rs = rs₁ ++ rs₂ ∧ ls = ls₁ ++ ls₂ ∧
      Δ.Lays s bs₁ rs₁ ls₁ ∧ Δ.Lays u bs₂ rs₂ ls₂
  | [], bs, rs, ls, h => ⟨[], bs, [], rs, [], ls, rfl, rfl, rfl, .nil, h⟩
  | x :: s, _, _, _, h => by
    cases h with
    | cons head tail =>
      obtain ⟨bs₁, bs₂, rs₁, rs₂, ls₁, ls₂, rfl, rfl, rfl, h₁, h₂⟩ := split (s := s) tail
      exact ⟨_, bs₂, _, rs₂, _, ls₂, (List.append_assoc ..).symm, (List.append_assoc ..).symm,
        (List.append_assoc ..).symm, .cons head h₁, h₂⟩

theorem lent_eq_nil (h : Δ.Lays s bs rs ls) (hs : s.Settled) : ls = [] := by
  induction h with
  | nil => rfl
  | cons head _ ih =>
    rw [Pile.settled_cons] at hs
    rw [ih hs.2, List.append_nil, List.reverse_eq_nil_iff]
    cases head with
    | own | spent => rfl
    | lent => cases hs.1

/-- The pieces of a datum are the bytes of one of its values. -/
theorem single (is : d.Is Δ v) : Δ.Lays [.own d] v.encode.reverse v.handles.reverse [] := by
  simpa using Lays.cons (.own is) .nil

mutual

theorem of_datum : ∀ {d : Datum} {v : Value}, d.Is Δ v → Δ.Lays (Pile.of d) v.encode.reverse v.handles.reverse []
  | .tuple ds, v, h => by
    cases v <;> first | exact h.elim | skip
    have all : Datum.AreAll Δ ds _ := h
    exact of_data all
  | .void, v, h => by
    cases v <;> first | exact h.elim | skip
    exact .nil
  | .bool _, v, h | .byte _, v, h | .char _, v, h | .int32 _, v, h | .int64 _, v, h | .float32 _, v, h
  | .float64 _, v, h | .string _, v, h | .list _ _, v, h => single h

theorem of_data : ∀ {ds : List Datum} {vs : List Value}, Datum.AreAll Δ ds vs →
    Δ.Lays (Pile.ofAll ds) (Value.encodes vs).reverse (Value.handlesOf vs).reverse []
  | [], [], _ => .nil
  | d :: ds, v :: vs, h => by
    rw [Pile.ofAll_cons, Value.encodes, Value.handlesOf, List.reverse_append, List.reverse_append]
    exact (of_data h.2).append (of_datum h.1)
  | [], _ :: _, h | _ :: _, [], h => h.elim

end

theorem of_single (h : Δ.Lays [.own d] bs rs ls) :
    ∃ v, d.Is Δ v ∧ bs = v.encode.reverse ∧ rs = v.handles.reverse ∧ ls = [] := by
  cases h with
  | cons head tail =>
    cases tail
    cases head with
    | own is => exact ⟨_, is, by simp⟩

mutual

theorem exists_is : ∀ {d : Datum} {bs : Bytes} {rs ls : List Handle}, Δ.Lays (Pile.of d) bs rs ls →
    ∃ v, d.Is Δ v ∧ bs = v.encode.reverse ∧ rs = v.handles.reverse ∧ ls = []
  | .tuple ds, _, _, _, h => by
    have pile : Δ.Lays (Pile.ofAll ds) _ _ _ := h
    obtain ⟨vs, all, rfl, rfl, rfl⟩ := exists_areAll pile
    exact ⟨.tuple vs, all, rfl, rfl, rfl⟩
  | .void, _, _, _, h => by
    cases h
    exact ⟨.void, trivial, rfl, rfl, rfl⟩
  | .bool _, _, _, _, h | .byte _, _, _, _, h | .char _, _, _, _, h | .int32 _, _, _, _, h | .int64 _, _, _, _, h
  | .float32 _, _, _, _, h | .float64 _, _, _, _, h | .string _, _, _, _, h | .list _ _, _, _, _, h => of_single h

theorem exists_areAll : ∀ {ds : List Datum} {bs : Bytes} {rs ls : List Handle}, Δ.Lays (Pile.ofAll ds) bs rs ls →
    ∃ vs, Datum.AreAll Δ ds vs ∧ bs = (Value.encodes vs).reverse ∧ rs = (Value.handlesOf vs).reverse ∧ ls = []
  | [], _, _, _, h => by
    cases h
    exact ⟨[], trivial, rfl, rfl, rfl⟩
  | d :: ds, _, _, _, h => by
    rw [Pile.ofAll_cons] at h
    obtain ⟨_, _, _, _, _, _, rfl, rfl, rfl, h₁, h₂⟩ := h.split
    obtain ⟨vs, all, rfl, rfl, rfl⟩ := exists_areAll h₁
    obtain ⟨v, is, rfl, rfl, rfl⟩ := exists_is h₂
    exact ⟨v :: vs, ⟨is, all⟩, by simp [Value.encodes], by simp [Value.handlesOf], rfl⟩

end

/-- A copy of atoms borrows the handles of the originals. -/
theorem lend : ∀ {as : List Datum} {bs : Bytes} {rs ls : List Handle}, (∀ a ∈ as, a.isAtom) →
    Δ.Lays (as.map Piece.own) bs rs ls → Δ.Lays (as.map Piece.lend) bs [] rs
  | [], _, _, _, _, h => by
    cases h
    exact .nil
  | a :: as, _, _, _, ha, h => by
    cases h with
    | cons head tail =>
      have ih := lend (fun b hb => ha b (.tail _ hb)) tail
      cases head with
      | own is =>
        rw [List.map_cons, Piece.lend]
        cases hc : a.isCell with
        | true => exact Lays.cons (.lent is) ih
        | false =>
          obtain ⟨i, hi⟩ := Datum.exists_number (ha a (.head _)) hc
          have := Lays.cons (Fills.own is) ih
          rw [(is.encode_eq hi).2.1] at this ⊢
          exact this

end Lays

end Denotation

end StackScript
