import StackScript.Proofs.Denoting
import StackScript.Proofs.Flow

/-!
What byte code computes. An instruction takes a pile of data to another one or to a fault, and code takes a course from
an address to its end. What the code refers to is looked up in a library, and its static texts in a heap; both may grow
while the code is written.
-/
namespace StackScript

/-! ### What code refers to -/

/-- The texts in a heap. -/
def Heap.texts (h : Heap) : Denotation := fun r =>
  match h.filled? r with
  | some (.string s) => some (.string s)
  | _ => none

/-- What is in the heap stays there, as long as its handles do not run out. -/
structure Heap.Retains (h h' : Heap) : Prop where
  size : h.cells.size ≤ h'.cells.size
  filled : h'.cells.size ≤ capacity → ∀ r x, h.filled? r = some x → h'.filled? r = some x

theorem Heap.Retains.refl (h : Heap) : h.Retains h := ⟨Nat.le_refl _, fun _ _ _ e => e⟩

theorem Heap.Retains.trans {h₁ h₂ h₃ : Heap} (a : h₁.Retains h₂) (b : h₂.Retains h₃) : h₁.Retains h₃ :=
  ⟨Nat.le_trans a.size b.size,
    fun hcap r x e => b.filled hcap r x (a.filled (Nat.le_trans b.size hcap) r x e)⟩

theorem Heap.Retains.texts {h h' : Heap} (k : h.Retains h') (hcap : h'.cells.size ≤ capacity) {r : Handle} {d : Datum}
    (hd : h.texts r = some d) : h'.texts r = some d := by
  unfold Heap.texts at hd
  split at hd
  · next s hs =>
    unfold Heap.texts
    rw [k.filled hcap r _ hs]
    exact hd
  · cases hd

/-- A library, and the heap that its static values refer to. -/
structure Store where
  library : Library
  heap : Heap

namespace Store

variable {w w' w'' : Store} {k : Nat}

/-- A static value stands for a datum. -/
def Denotes (w : Store) (v : Value) (d : Datum) : Prop := w.heap.cells.size ≤ Heap.capacity → d.Is w.heap.texts v

/-- A native function of the builtin module. -/
def Offers (w : Store) (i : Nat) (n : Native) : Prop := ∃ g, w.library.function? ⟨0, i⟩ = some g ∧ g.body = .native n

/-- What the code of a module refers to stays. -/
structure Extends (k : Nat) (w w' : Store) : Prop where
  values : ∀ (i : Nat) (v : Value), (w.library.get k).values[i]? = some v → (w'.library.get k).values[i]? = some v
  types : ∀ (i : Nat) (t : Ty), (w.library.get k).types[i]? = some t → (w'.library.get k).types[i]? = some t
  imports : (w'.library.get k).imports = (w.library.get k).imports
  builtin : w'.library.get 0 = w.library.get 0
  heap : w.heap.Retains w'.heap

theorem Extends.refl (k : Nat) (w : Store) : w.Extends k w :=
  ⟨fun _ _ h => h, fun _ _ h => h, rfl, rfl, .refl _⟩

theorem Extends.trans (h : w.Extends k w') (h' : w'.Extends k w'') : w.Extends k w'' :=
  ⟨fun i v e => h'.values i v (h.values i v e), fun i t e => h'.types i t (h.types i t e),
    h'.imports.trans h.imports, h'.builtin.trans h.builtin, h.heap.trans h'.heap⟩

theorem Denotes.extends {v : Value} {d : Datum} (h : w.Denotes v d) (e : w.Extends k w') : w'.Denotes v d :=
  fun hcap => (h (Nat.le_trans e.heap.size hcap)).mono fun _ _ _ _ hr => e.heap.texts hcap hr

theorem Offers.extends {i : Nat} {n : Native} (h : w.Offers i n) (e : w.Extends k w') : w'.Offers i n := by
  unfold Offers at *
  rw [Library.function?_eq] at *
  rwa [e.builtin]

end Store

/-! ### Instructions -/

/-- The number that a float is written as. -/
def FloatWidth.datum : FloatWidth → Nat → Datum
  | f32, n => .float32 (.ofNat n)
  | f64, n => .float64 (.ofNat n)

/-- What a native function makes of what is on the stack. -/
inductive Native.Acts : Native → Pile → Pile → Prop
  | concat {x y : String} {s : Pile} :
    Acts .stringConcat (.own (.string x) :: .own (.string y) :: s) (.own (.string (x ++ y)) :: s)
  | equal {x y : String} {s : Pile} :
    Acts .stringEqual (.own (.string x) :: .own (.string y) :: s) (.own (.bool (x = y)) :: s)
  | floatArith {u : FloatWidth} {op : FloatOp} {d e : Datum} {i j : Nat} {s : Pile} (left : d.number? = some i)
    (right : e.number? = some j) (size : d.ty.size = u.size) (size' : e.ty.size = u.size) :
    Acts (.floatArith u op) (.own d :: .own e :: s) (.own (u.datum (u.arith op i j)) :: s)
  | floatTest {u : FloatWidth} {c : Comparison} {d e : Datum} {i j : Nat} {s : Pile} (left : d.number? = some i)
    (right : e.number? = some j) (size : d.ty.size = u.size) (size' : e.ty.size = u.size) :
    Acts (.floatTest u c) (.own d :: .own e :: s) (.own (.bool (u.format.test c i j)) :: s)
  | floatNegate {u : FloatWidth} {d : Datum} {i : Nat} {s : Pile} (operand : d.number? = some i)
    (size : d.ty.size = u.size) :
    Acts (.floatNegate u) (.own d :: s) (.own (u.datum (u.format.neg i)) :: s)

namespace Store

/-- What the instructions of a module without jumps make of what is on the stack, over an empty frame. Where cells may
be freed, nothing is borrowed. -/
inductive Moves (w : Store) (k : Nat) : Opcode → Nat → Nat → Pile → Except Fault Pile → Prop
  | logicalNot {a b : Nat} {x : Bool} {s : Pile} :
    Moves w k .logicalNot a b (.own (.bool x) :: s) (.ok (.own (.bool !x) :: s))
  | logicalOr {a b : Nat} {x y : Bool} {s : Pile} :
    Moves w k .logicalOr a b (.own (.bool x) :: .own (.bool y) :: s) (.ok (.own (.bool (x || y)) :: s))
  | logicalAnd {a b : Nat} {x y : Bool} {s : Pile} :
    Moves w k .logicalAnd a b (.own (.bool x) :: .own (.bool y) :: s) (.ok (.own (.bool (x && y)) :: s))
  | negate {a b : Nat} {u : Width} {n : Word u} {s : Pile} :
    Moves w k (.word .negate u) a b (.own (.ofWord n) :: s) (.ok (.own (.ofWord (-n)) :: s))
  | bitNot {a b : Nat} {u : Width} {n : Word u} {s : Pile} :
    Moves w k (.word .bitNot u) a b (.own (.ofWord n) :: s) (.ok (.own (.ofWord (~~~n)) :: s))
  | compare {a b : Nat} {c : Comparison} {u : Width} {d e : Datum} {i j : Nat} {s : Pile} (left : d.number? = some i)
    (right : e.number? = some j) (size : d.ty.size = u.size) (size' : e.ty.size = u.size) :
    Moves w k (.word (.compare c) u) a b (.own d :: .own e :: s)
      (.ok (.own (.bool (Word.test c (BitVec.ofNat u.bits i : Word u) (BitVec.ofNat u.bits j))) :: s))
  | arith {a b : Nat} {op : Arith} {u : Width} {m n : Word u} {s : Pile} :
    Moves w k (.word (.arith op) u) a b (.own (.ofWord m) :: .own (.ofWord n) :: s)
      ((Word.arith op m n).map fun x => .own (.ofWord x) :: s)
  | loadStatic {a b : Nat} {v : Value} {d : Datum} {s : Pile} (value : (w.library.get k).values[a]? = some v)
    (denotes : w.Denotes v d) : Moves w k .loadStatic a b s (.ok (Pile.of d ++ s))
  | incRef {a b : Nat} {d : Datum} {s u : Pile} (offset : s.size = a) (cell : d.isCell) :
    Moves w k .incRef a b (s ++ .lent d :: u) (.ok (s ++ .own d :: u))
  | decRef {a b : Nat} {d : Datum} {s u : Pile} (offset : s.size = a) (cell : d.isCell) (settled : (s ++ u).Settled) :
    Moves w k .decRef a b (s ++ .own d :: u) (.ok (s ++ .spent :: u))
  | native {a b : Nat} {n : Native} {s u : Pile} (first : (w.library.get k).imports[0]? = some 0)
    (offers : w.Offers a n) (settled : s.Settled) (acts : n.Acts s u) : Moves w k .call1 a b s (.ok u)
  | subscript {a b : Nat} {t : Ty} {ds : List Datum} {n : Int32} {s : Pile}
    (type : (w.library.get k).types[a]? = some t) (settled : s.Settled) :
    Moves w k .subscript a b (.own (.list t ds) :: .own (.int32 n) :: s)
      (((Datum.list t ds).element (.int32 n)).map fun d => Pile.of d ++ s)
  | makeList {a b : Nat} {t : Ty} {ds : List Datum} {s : Pile} (type : (w.library.get k).types[b]? = some t)
    (count : ds.length = a) (tys : ∀ d ∈ ds, d.ty = t) :
    Moves w k .makeList a b (Pile.ofAll ds ++ s) (.ok (.own (.ofItems t ds) :: s))
  | copyVariable {a b : Nat} {d : Datum} {s u : Pile} (offset : u.size = a) (size : d.ty.size = b) :
    Moves w k .copyVariable a b (s ++ (Pile.of d ++ u))
      (.ok ((d.atoms.map Piece.lend).reverse ++ (s ++ (Pile.of d ++ u))))
  | drop {a b : Nat} {s x u : Pile} (offset : s.size = a) (size : x.size = b) (idle : x.Idle) :
    Moves w k .drop a b (s ++ (x ++ u)) (.ok (s ++ u))

/-! ### Code -/

/-- What comes of a pile at the end of the code, from an address on. -/
inductive Course (w : Store) (k : Nat) (code : Array UInt8) : Nat → Pile → Except Fault Pile → Prop
  | done {pc : Nat} {s : Pile} (end_ : code.size ≤ pc) : Course w k code pc s (.ok s)
  | step {pc a b : Nat} {op : Opcode} {s u : Pile} {out : Except Fault Pile} (fetch : Fetches code pc op a b)
    (move : w.Moves k op a b s (.ok u)) (next : Course w k code (pc + op.length) u out) : Course w k code pc s out
  | fault {pc a b : Nat} {op : Opcode} {s : Pile} {e : Fault} (fetch : Fetches code pc op a b)
    (move : w.Moves k op a b s (.error e)) : Course w k code pc s (.error e)
  | jump {pc a b : Nat} {s : Pile} {out : Except Fault Pile} (fetch : Fetches code pc .jump a b)
    (next : Course w k code (pc + 2 + a) s out) : Course w k code pc s out
  | branch {pc a b : Nat} {x : Bool} {s : Pile} {out : Except Fault Pile} (fetch : Fetches code pc .jumpIfNot a b)
    (next : Course w k code (if x then pc + 2 else pc + 2 + a) s out) : Course w k code pc (.own (.bool x) :: s) out

/-- The code between two addresses takes a pile to another one, or to a fault. -/
def Carries (w : Store) (k : Nat) (code : Array UInt8) (pc pc' : Nat) (s : Pile) (out : Except Fault Pile) : Prop :=
  ∀ final, (∀ u, out = .ok u → w.Course k code pc' u final) → (∀ e, out = .error e → final = .error e) →
    w.Course k code pc s final

namespace Carries

variable {w : Store} {k : Nat} {code : Array UInt8} {pc pc' pc'' a b : Nat} {op : Opcode} {s u : Pile} {out : Except Fault Pile}

theorem refl (w : Store) (k : Nat) (code : Array UInt8) (pc : Nat) (s : Pile) : w.Carries k code pc pc s (.ok s) :=
  fun _ hok _ => hok s rfl

theorem trans (h : w.Carries k code pc pc' s (.ok u)) (h' : w.Carries k code pc' pc'' u out) :
    w.Carries k code pc pc'' s out := fun final hok hbad =>
  h final (fun v hv => by cases hv; exact h' final hok hbad) nofun

/-- After a fault nothing follows. -/
theorem bind {α : Type} {x : Except Fault α} {f : α → Pile} {g : α → Except Fault Pile}
    (h : w.Carries k code pc pc' s (x.map f)) (h' : ∀ y, x = .ok y → w.Carries k code pc' pc'' (f y) (g y)) :
    w.Carries k code pc pc'' s (x >>= g) := by
  intro final hok hbad
  cases x with
  | ok y => exact h final (fun v hv => by cases hv; exact h' y rfl final hok hbad) nofun
  | error e => exact h final nofun fun _ he => by cases he; exact hbad e rfl

theorem step (fetch : Fetches code pc op a b) (move : w.Moves k op a b s out) :
    w.Carries k code pc (pc + op.length) s out := by
  intro final hok hbad
  cases out with
  | ok u => exact .step fetch move (hok u rfl)
  | error e =>
    rw [hbad e rfl]
    exact .fault fetch move

theorem jump (fetch : Fetches code pc .jump a b) (size : pc' = pc + 2 + a) : w.Carries k code pc pc' s (.ok s) :=
  fun _ hok _ => .jump fetch (size ▸ hok s rfl)

theorem branch {x : Bool} (fetch : Fetches code pc .jumpIfNot a b)
    (next : w.Carries k code (if x then pc + 2 else pc + 2 + a) pc' s out) :
    w.Carries k code pc pc' (.own (.bool x) :: s) out := fun final hok hbad =>
  .branch fetch (next final hok hbad)

end Carries

end Store

end StackScript
