import Mathlib.Algebra.GroupWithZero.Nat
import StackScript.Proofs.Counting
import StackScript.Value

/-!
The layout of values in bytes. A value is a row of atoms: scalars and handles. A stack is described from the top
down, by slots that own their handles, have borrowed them, or have given them up.
-/
namespace StackScript

namespace Ty

mutual

/-- The scalars and handles that a value is made of, from the bottom up. -/
def atoms : Ty → List Ty
  | unknown | void | module => []
  | tuple items => atomsOf items
  | t => [t]

def atomsOf : List Ty → List Ty
  | [] => []
  | t :: ts => t.atoms ++ atomsOf ts

end

mutual

theorem sizes_atoms : ∀ t : Ty, sizes t.atoms = t.size
  | .tuple items => by rw [atoms, size, sizes_atomsOf items]
  | .unknown | .void | .module => rfl
  | .bool | .byte | .char | .int32 | .int64 | .float32 | .float64 | .string => rfl
  | .list _ | .function _ _ => rfl

theorem sizes_atomsOf : ∀ ts : List Ty, sizes (atomsOf ts) = sizes ts
  | [] => rfl
  | t :: ts => by rw [atomsOf, sizes_append, sizes_atoms t, sizes_atomsOf ts, sizes]

end

theorem atomsOf_eq_flatMap (ts : List Ty) : atomsOf ts = ts.flatMap atoms := by
  induction ts with
  | nil => rfl
  | cons t ts ih => rw [atomsOf, ih, List.flatMap_cons]

theorem sizes_reverse (ts : List Ty) : sizes ts.reverse = sizes ts := by
  induction ts with
  | nil => rfl
  | cons t ts ih => simp [sizes_append, sizes, ih, Nat.add_comm]

theorem size_of_isHeap {t : Ty} (h : t.isHeap) : t.size = handleSize := by
  cases t <;> first | rfl | simp [isHeap] at h

end Ty

theorem Width.size_ty (w : Width) : w.ty.size = w.size := by
  cases w <;> rfl

/-! ### Handles in bytes -/

theorem Handle.length_toBytes (r : Handle) : r.toBytes.length = handleSize := by
  simp [toBytes, handleSize]

theorem Handle.ofBytes_toBytes_append (r : Handle) (bs : Bytes) : ofBytes (r.toBytes ++ bs) = .ok r := by
  have hlt : ∀ n : UInt32, Bytes.toNat (Bytes.ofNat 4 n.toNat) = n.toNat := fun n => by
    rw [Bytes.toNat_ofNat]
    exact Nat.mod_eq_of_lt n.toNat_lt
  have h4 : ∀ (m n : Nat), (Bytes.ofNat 4 m ++ Bytes.ofNat 4 n ++ bs).take 4 = Bytes.ofNat 4 m := fun m n => by
    rw [List.append_assoc, List.take_left' (Bytes.length_ofNat 4 m)]
  have h8 : ∀ (m n : Nat), ((Bytes.ofNat 4 m ++ Bytes.ofNat 4 n ++ bs).drop 4).take 4 = Bytes.ofNat 4 n :=
    fun m n => by
      rw [List.append_assoc, List.drop_left' (Bytes.length_ofNat 4 m), List.take_left' (Bytes.length_ofNat 4 n)]
  unfold ofBytes toBytes
  have hlong : ¬(Bytes.ofNat 4 r.index.toNat ++ Bytes.ofNat 4 r.generation.toNat ++ bs).length < handleSize := by
    simp only [List.length_append, Bytes.length_ofNat, handleSize]
    omega
  rw [if_neg hlong, h4, h8, hlt, hlt]
  simp

theorem Handle.ofBytes_toBytes (r : Handle) : ofBytes r.toBytes = .ok r := by
  simpa using ofBytes_toBytes_append r []

/-! ### Slots -/

/-- A place on the stack that holds a scalar or a handle. -/
inductive Slot
  | own (t : Ty)
  /-- A handle whose reference belongs to another place. -/
  | lent (t : Ty)
  /-- A handle whose reference was given up. -/
  | spent
deriving DecidableEq, Repr

namespace Slot

def size : Slot → Nat
  | own t | lent t => t.size
  | spent => handleSize

def isLent : Slot → Bool
  | lent _ => true
  | _ => false

/-- Whether the place can be dropped as it is. -/
def isIdle : Slot → Bool
  | own t => !t.isHeap
  | lent _ => false
  | spent => true

/-- What a copy of the place holds. -/
def lend : Slot → Slot
  | own t => if t.isHeap then lent t else own t
  | s => s

end Slot

/-- From the top down. -/
abbrev Shape := List Slot

namespace Shape

def size (s : Shape) : Nat := (s.map Slot.size).sum

def Settled (s : Shape) : Prop := ∀ x ∈ s, Slot.isLent x = false

def Idle (s : Shape) : Prop := ∀ x ∈ s, Slot.isIdle x = true

@[simp] theorem size_nil : size [] = 0 := rfl

@[simp] theorem size_cons (x : Slot) (s : Shape) : size (x :: s) = x.size + size s := by
  simp [size]

@[simp] theorem size_append (s u : Shape) : size (s ++ u) = size s + size u := by
  simp [size]

@[simp] theorem settled_nil : Settled [] := by
  simp [Settled]

@[simp] theorem settled_cons {x : Slot} {s : Shape} : Settled (x :: s) ↔ x.isLent = false ∧ Settled s := by
  simp [Settled]

@[simp] theorem settled_append {s u : Shape} : Settled (s ++ u) ↔ Settled s ∧ Settled u := by
  simp only [Settled, List.mem_append, or_imp, forall_and]

/-- The slots of a value. -/
def ofTy (t : Ty) : Shape := (t.atoms.map Slot.own).reverse

/-- The slots of values that lie one below another. -/
def ofTys (ts : List Ty) : Shape := ts.flatMap ofTy

@[simp] theorem ofTys_nil : ofTys [] = [] := rfl

@[simp] theorem ofTys_cons (t : Ty) (ts : List Ty) : ofTys (t :: ts) = ofTy t ++ ofTys ts := by
  simp [ofTys]

@[simp] theorem ofTys_append (ts us : List Ty) : ofTys (ts ++ us) = ofTys ts ++ ofTys us := by
  simp [ofTys]

theorem size_own (ts : List Ty) : size (ts.map Slot.own) = Ty.sizes ts := by
  induction ts with
  | nil => rfl
  | cons t ts ih => simp [ih, Ty.sizes, Slot.size]

@[simp] theorem size_reverse (s : Shape) : size s.reverse = size s := by
  rw [size, List.map_reverse, List.sum_reverse, size]

@[simp] theorem size_ofTy (t : Ty) : size (ofTy t) = t.size := by
  rw [ofTy, size_reverse, size_own, Ty.sizes_atoms]

@[simp] theorem size_ofTys (ts : List Ty) : size (ofTys ts) = Ty.sizes ts := by
  induction ts with
  | nil => rfl
  | cons t ts ih => simp [ih, Ty.sizes]

theorem settled_ofTy (t : Ty) : Settled (ofTy t) := by
  simp only [Settled, ofTy, List.mem_reverse, List.mem_map]
  rintro _ ⟨t, -, rfl⟩
  rfl

theorem settled_ofTys (ts : List Ty) : Settled (ofTys ts) := by
  induction ts with
  | nil => simp
  | cons t ts ih => simp [settled_ofTy, ih]

theorem ofTy_of_isHeap {t : Ty} (h : t.isHeap) : ofTy t = [.own t] := by
  cases t <;> first | rfl | simp [Ty.isHeap] at h

theorem ofTy_tuple (ts : List Ty) : ofTy (.tuple ts) = ofTys ts.reverse := by
  rw [ofTy, Ty.atoms, Ty.atomsOf_eq_flatMap, ofTys, List.map_flatMap, List.reverse_flatMap]
  rfl

end Shape

/-! ### Bytes in slots -/

/-- What is known of the handles: the type of their content, and a number that no module that it refers to
exceeds. -/
abbrev Typing := Handle → Option (Ty × Nat)

namespace Typing

variable {Ψ Ψ' : Typing} {b b' : Nat}

/-- A handle of the type, with nothing beyond the bound. Texts and lists may be null. -/
def Fits (Ψ : Typing) (b : Nat) (t : Ty) (r : Handle) : Prop :=
  if r.isNull then t = .string ∨ ∃ e, t = .list e else ∃ n ≤ b, Ψ r = some (t, n)

/-- The bytes of one slot, from the bottom up, with the handles that it owns and those it has borrowed. -/
inductive Fills (Ψ : Typing) (b : Nat) : Slot → Bytes → List Handle → List Handle → Prop
  | scalar {t : Ty} {bs : Bytes} (scalar : t.isHeap = false) (length : bs.length = t.size)
      (valid : t = .char → (Bytes.toNat bs).isValidChar) : Fills Ψ b (.own t) bs [] []
  | own {t : Ty} {r : Handle} (heap : t.isHeap) (fits : Ψ.Fits b t r) : Fills Ψ b (.own t) r.toBytes [r] []
  | lent {t : Ty} {r : Handle} (heap : t.isHeap) (fits : Ψ.Fits b t r) : Fills Ψ b (.lent t) r.toBytes [] [r]
  | spent {bs : Bytes} (length : bs.length = handleSize) : Fills Ψ b .spent bs [] []

/-- The bytes of a stack of the given shape, from the top down, with its handles. -/
inductive Lays (Ψ : Typing) (b : Nat) : Shape → Bytes → List Handle → List Handle → Prop
  | nil : Lays Ψ b [] [] [] []
  | cons {x : Slot} {s : Shape} {bs cs : Bytes} {rs rs' ls ls' : List Handle}
      (head : Ψ.Fills b x bs rs ls) (tail : Lays Ψ b s cs rs' ls') :
      Lays Ψ b (x :: s) (bs.reverse ++ cs) (rs ++ rs') (ls ++ ls')

theorem Fits.mono {t : Ty} {r : Handle} (h : Ψ.Fits b t r) (hb : b ≤ b')
    (e : r.isNull = false → Ψ' r = Ψ r) : Ψ'.Fits b' t r := by
  unfold Fits at h ⊢
  cases hr : r.isNull with
  | true => simpa [hr] using h
  | false =>
    simp only [hr, Bool.false_eq_true, if_false] at h ⊢
    obtain ⟨n, hn, ht⟩ := h
    exact ⟨n, Nat.le_trans hn hb, (e hr).trans ht⟩

theorem Fills.length {x : Slot} {bs : Bytes} {rs ls : List Handle} (h : Ψ.Fills b x bs rs ls) :
    bs.length = x.size := by
  cases h with
  | scalar _ hl _ => exact hl
  | own ht _ | lent ht _ => rw [Handle.length_toBytes, Slot.size, Ty.size_of_isHeap ht]
  | spent hl => exact hl

theorem Fills.mono {x : Slot} {bs : Bytes} {rs ls : List Handle} (h : Ψ.Fills b x bs rs ls) (hb : b ≤ b')
    (e : ∀ r ∈ rs ++ ls, r.isNull = false → Ψ' r = Ψ r) : Ψ'.Fills b' x bs rs ls := by
  cases h with
  | scalar hs hl hv => exact .scalar hs hl hv
  | own ht hf => exact .own ht (hf.mono hb (e _ (by simp)))
  | lent ht hf => exact .lent ht (hf.mono hb (e _ (by simp)))
  | spent hl => exact .spent hl

theorem Fills.lent_eq_nil {x : Slot} {bs : Bytes} {rs ls : List Handle} (h : Ψ.Fills b x bs rs ls)
    (hx : x.isLent = false) : ls = [] := by
  cases h <;> first | rfl | simp [Slot.isLent] at hx

theorem Fills.owned_eq_nil {x : Slot} {bs : Bytes} {rs ls : List Handle} (h : Ψ.Fills b x bs rs ls)
    (hx : x.isIdle = true) : rs = [] := by
  cases h <;> first | rfl | simp_all [Slot.isIdle]

namespace Lays

variable {s u : Shape} {bs cs : Bytes} {rs ls rs' ls' : List Handle}

theorem length (h : Ψ.Lays b s bs rs ls) : bs.length = s.size := by
  induction h with
  | nil => rfl
  | cons head _ ih => simp [head.length, ih]

theorem mono (h : Ψ.Lays b s bs rs ls) (hb : b ≤ b') (e : ∀ r ∈ rs ++ ls, r.isNull = false → Ψ' r = Ψ r) :
    Ψ'.Lays b' s bs rs ls := by
  induction h with
  | nil => exact .nil
  | cons head _ ih =>
    refine .cons (head.mono hb fun r hr => e r ?_) (ih fun r hr => e r ?_)
    all_goals
      simp only [List.mem_append] at hr ⊢
      rcases hr with hr | hr <;> simp [hr]

theorem append (h : Ψ.Lays b s bs rs ls) (k : Ψ.Lays b u cs rs' ls') :
    Ψ.Lays b (s ++ u) (bs ++ cs) (rs ++ rs') (ls ++ ls') := by
  induction h with
  | nil => exact k
  | cons head _ ih => simpa only [List.append_assoc, List.cons_append] using Lays.cons head ih

theorem split : ∀ {s : Shape} {bs : Bytes} {rs ls : List Handle}, Ψ.Lays b (s ++ u) bs rs ls →
    ∃ bs₁ bs₂ rs₁ rs₂ ls₁ ls₂, bs = bs₁ ++ bs₂ ∧ rs = rs₁ ++ rs₂ ∧ ls = ls₁ ++ ls₂ ∧
      Ψ.Lays b s bs₁ rs₁ ls₁ ∧ Ψ.Lays b u bs₂ rs₂ ls₂
  | [], bs, rs, ls, h => ⟨[], bs, [], rs, [], ls, rfl, rfl, rfl, .nil, h⟩
  | x :: s, _, _, _, h => by
    cases h with
    | cons head tail =>
      obtain ⟨bs₁, bs₂, rs₁, rs₂, ls₁, ls₂, rfl, rfl, rfl, h₁, h₂⟩ := split (s := s) tail
      exact ⟨_, bs₂, _, rs₂, _, ls₂, (List.append_assoc ..).symm, (List.append_assoc ..).symm,
        (List.append_assoc ..).symm, .cons head h₁, h₂⟩

theorem lent_eq_nil (h : Ψ.Lays b s bs rs ls) (hs : s.Settled) : ls = [] := by
  induction h with
  | nil => rfl
  | cons head _ ih =>
    rw [Shape.settled_cons] at hs
    rw [head.lent_eq_nil hs.1, ih hs.2, List.append_nil]

theorem owned_eq_nil (h : Ψ.Lays b s bs rs ls) (hs : s.Idle) : rs = [] := by
  induction h with
  | nil => rfl
  | cons head _ ih =>
    rw [head.owned_eq_nil (hs _ (List.mem_cons_self ..)), ih fun x hx => hs x (.tail _ hx), List.append_nil]

/-! ### The slot on top -/

theorem scalar_cons {t : Ty} (h : Ψ.Lays b (.own t :: s) bs rs ls) (ht : t.isHeap = false) :
    ∃ xs cs, bs = xs ++ cs ∧ xs.length = t.size ∧ Ψ.Lays b s cs rs ls := by
  cases h with
  | cons head tail =>
    cases head with
    | scalar _ hl _ => exact ⟨_, _, rfl, by rw [List.length_reverse, hl], tail⟩
    | own hh => rw [ht] at hh; cases hh

theorem handle_cons {t : Ty} (h : Ψ.Lays b (.own t :: s) bs rs ls) (ht : t.isHeap) :
    ∃ r cs rs', bs = r.toBytes.reverse ++ cs ∧ rs = r :: rs' ∧ Ψ.Fits b t r ∧ Ψ.Lays b s cs rs' ls := by
  cases h with
  | cons head tail =>
    cases head with
    | scalar hh => rw [ht] at hh; cases hh
    | own _ hf => exact ⟨_, _, _, rfl, rfl, hf, tail⟩

theorem lent_cons {t : Ty} (h : Ψ.Lays b (.lent t :: s) bs rs ls) :
    ∃ r cs ls', bs = r.toBytes.reverse ++ cs ∧ ls = r :: ls' ∧ t.isHeap ∧ Ψ.Fits b t r ∧ Ψ.Lays b s cs rs ls' := by
  cases h with
  | cons head tail =>
    cases head with
    | lent hh hf => exact ⟨_, _, _, rfl, rfl, hh, hf, tail⟩

theorem push_scalar {t : Ty} {xs : Bytes} (h : Ψ.Lays b s bs rs ls) (ht : t.isHeap = false)
    (hl : xs.length = t.size) (hv : t ≠ .char) : Ψ.Lays b (.own t :: s) (xs ++ bs) rs ls := by
  have hr : xs.reverse.length = t.size := by rw [List.length_reverse, hl]
  have := Lays.cons (.scalar ht hr fun e => absurd e hv) h
  rwa [List.reverse_reverse] at this

theorem push_handle {t : Ty} {r : Handle} (h : Ψ.Lays b s bs rs ls) (ht : t.isHeap) (hf : Ψ.Fits b t r) :
    Ψ.Lays b (.own t :: s) (r.toBytes.reverse ++ bs) (r :: rs) ls :=
  Lays.cons (.own ht hf) h

theorem push_spent {xs : Bytes} (h : Ψ.Lays b s bs rs ls) (hl : xs.length = handleSize) :
    Ψ.Lays b (.spent :: s) (xs ++ bs) rs ls := by
  have hr : xs.reverse.length = handleSize := by rw [List.length_reverse, hl]
  have := Lays.cons (.spent hr) h
  rwa [List.reverse_reverse] at this

/-- A copy borrows the handles of what it is made of. -/
theorem lend (h : Ψ.Lays b s bs rs []) : Ψ.Lays b (s.map Slot.lend) bs [] rs := by
  generalize hls : ([] : List Handle) = ls at h
  induction h with
  | nil => exact .nil
  | cons head tail ih =>
    obtain ⟨rfl, rfl⟩ := List.append_eq_nil_iff.1 hls.symm
    cases head with
    | scalar hs hl hv =>
      simp only [List.map_cons, Slot.lend, hs]
      exact Lays.cons (.scalar hs hl hv) (ih rfl)
    | own hh hf =>
      simp only [List.map_cons, Slot.lend, hh, if_true]
      exact Lays.cons (.lent hh hf) (ih rfl)
    | spent hl => exact Lays.cons (.spent hl) (ih rfl)

end Lays

end Typing

end StackScript
