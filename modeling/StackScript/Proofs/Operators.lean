import StackScript.Compile.Expr
import StackScript.Proofs.Calling

/-!
Operators, lists and indices. Each is carried out on operands of its types and leaves a value of its type.
-/
namespace StackScript

namespace Lowering

/-- An operator on operands of the given types, the top one first. -/
def Lowers (ts : List Ty) (r : Ty) : Lowering → Prop
  | opcode op => op.arity = 0 ∧ ∀ (v : View) (k frame : Nat) (s : Shape),
      v.Moves k frame op 0 0 (Shape.ofTys ts ++ s) (Shape.ofTy r ++ s)
  | native n => n ≠ .listLength ∧ n.signature.params = ts ∧ n.signature.result = r
  | negated n => n ≠ .listLength ∧ n.signature.params = ts ∧ n.signature.result = .bool ∧ r = .bool

theorem arity_word (op : WordOp) (w : Width) : (Opcode.word op w).arity = 0 := by
  have all : ∀ op ∈ WordOp.all, ∀ w ∈ Width.all, (Opcode.word op w).arity = 0 := by decide +kernel
  exact all op op.mem_all w (by cases w <;> decide)

theorem lowers_arith (op : Arith) (w : Width) : Lowers [w.ty, w.ty] w.ty (opcode (.word (.arith op) w)) :=
  ⟨arity_word _ w, fun v k frame s => by cases w <;> exact .arith⟩

theorem lowers_negate (w : Width) : Lowers [w.ty] w.ty (opcode (.word .negate w)) :=
  ⟨arity_word _ w, fun v k frame s => by cases w <;> exact .negate⟩

theorem lowers_bitNot (w : Width) : Lowers [w.ty] w.ty (opcode (.word .bitNot w)) :=
  ⟨arity_word _ w, fun v k frame s => by cases w <;> exact .bitNot⟩

theorem eq_of_width? {t : Ty} {w : Width} (h : width? t = some w) : t = w.ty := by
  cases t <;> cases h <;> rfl

theorem eq_of_floatWidth? {t : Ty} {w : FloatWidth} (h : floatWidth? t = some w) : t = w.ty := by
  cases t <;> cases h <;> rfl

theorem ofArith?_lowers {op : Arith} {t : Ty} {l : Lowering} (h : ofArith? op t = some l) : l.Lowers [t, t] t := by
  unfold ofArith? at h
  split at h
  · next w hw =>
    cases h
    rw [eq_of_width? hw]
    exact lowers_arith op w
  · next w _ hw =>
    obtain ⟨fop, -, rfl⟩ := Option.map_eq_some_iff.1 h
    rw [eq_of_floatWidth? hw]
    exact ⟨by simp, rfl, rfl⟩
  · split at h
    · next ht =>
      cases h
      rw [ht.1]
      exact ⟨by simp, rfl, rfl⟩
    · cases h

theorem comparisonWidth?_spec {c : Comparison} {t : Ty} {w : Width} (h : comparisonWidth? c t = some w) :
    t.isHeap = false ∧ t.size = w.size ∧ t.atoms = [t] := by
  unfold comparisonWidth? at h
  split at h
  · split at h
    · cases h
      exact ⟨rfl, rfl, rfl⟩
    · cases h
  · cases h
    exact ⟨rfl, rfl, rfl⟩
  · rw [eq_of_width? h]
    cases w <;> exact ⟨rfl, rfl, rfl⟩

theorem ofComparison?_lowers {c : Comparison} {t : Ty} {l : Lowering} (h : ofComparison? c t = some l) :
    l.Lowers [t, t] .bool := by
  unfold ofComparison? at h
  split at h
  · next w hw =>
    cases h
    obtain ⟨hheap, hsize, hatoms⟩ := comparisonWidth?_spec hw
    refine ⟨arity_word _ w, fun v k frame s => ?_⟩
    have ht : Shape.ofTys [t, t] = [.own t, .own t] := by simp [Shape.ofTy, hatoms]
    rw [ht]
    exact .compare hheap hsize
  · next w _ hw =>
    cases h
    rw [eq_of_floatWidth? hw]
    exact ⟨by simp, rfl, rfl⟩
  · split at h
    · cases h
    · next ht =>
      rw [Decidable.not_not] at ht
      subst ht
      split at h
      · cases h
        exact ⟨by simp, rfl, rfl⟩
      · split at h
        · cases h
          exact ⟨by simp, rfl, rfl, rfl⟩
        · cases h

end Lowering

theorem BinaryOp.lowers {op : BinaryOp} {t : Ty} {l : Lowering} (h : op.lowering? t = some l) :
    l.Lowers [t, t] (op.resultType t) := by
  cases op with
  | arith a => exact Lowering.ofArith?_lowers h
  | compare c => exact Lowering.ofComparison?_lowers h
  | and | or =>
    simp only [lowering?] at h
    split at h
    · next ht =>
      cases h
      subst ht
      exact ⟨rfl, fun v k frame s => by first | exact .logicalAnd | exact .logicalOr⟩
    · cases h

theorem UnaryOp.lowers {op : UnaryOp} {t : Ty} {l : Lowering} (h : op.lowering? t = some l) :
    l.Lowers [t] t := by
  cases op with
  | not =>
    simp only [lowering?] at h
    split at h
    · next ht =>
      cases h
      subst ht
      exact ⟨rfl, fun v k frame s => .logicalNot⟩
    · cases h
  | negate =>
    simp only [lowering?] at h
    split at h
    · next w hw =>
      cases h
      rw [Lowering.eq_of_width? hw]
      exact Lowering.lowers_negate w
    · next w _ hw =>
      cases h
      rw [Lowering.eq_of_floatWidth? hw]
      exact ⟨by simp, rfl, rfl⟩
    · cases h
  | bitNot =>
    obtain ⟨w, hw, rfl⟩ := Option.map_eq_some_iff.1 h
    rw [Lowering.eq_of_width? hw]
    exact Lowering.lowers_bitNot w

namespace Compilation

variable {o : Surroundings} {c d e : Compilation} {s u : Shape} {span : Span} {t r : Ty} {ts : List Ty}

theorem Ready.emitLowering {lowering? : Option Lowering} {sign : String} (hc : c.Ready o) (hs : s.Settled)
    (h : ∀ l, lowering? = some l → l.Lowers ts r) :
    Meets (Compile.emitLowering lowering? sign t span) c
      (fun _ d => c.Reaches o (fun _ => none) d (Shape.ofTys ts ++ s) (Shape.ofTy r ++ s)) fun _ => Failed o := by
  cases lowering? with
  | none => exact hc.failed
  | some l =>
    have hl := h l rfl
    cases l with
    | opcode op => exact (hc.emit hl.1 fun w _ => hl.2 w _ _ s).imp (fun _ d hd => hd.reaches) fun _ _ h => h
    | native n =>
      obtain ⟨hn, rfl, rfl⟩ := hl
      exact hc.callNative hs hn
    | negated n =>
      obtain ⟨hn, rfl, hr, rfl⟩ := hl
      refine (hc.callNative hs hn).seq fun _ d hd => ?_
      rw [hr] at hd
      exact (hd.ready.emit rfl fun w _ => .logicalNot).imp (fun _ e he => hd.trans he.reaches) fun _ _ h => h

theorem Ready.emitSubscript {object : Expr} (hc : c.Ready o) (hs : s.Settled) (ht : t.Known) :
    Meets (Compile.emitSubscript object t span) c (fun r d => r.Known ∧
      c.Reaches o (fun _ => none) d (Shape.ofTy t ++ .own .int32 :: s) (Shape.ofTy r ++ s)) fun _ => Failed o := by
  unfold Compile.emitSubscript
  split
  · exact hc.failed
  · next elem helem =>
    obtain rfl : t = .list elem := by cases t <;> cases helem <;> rfl
    have helem := Ty.known_list.1 ht
    split
    · exact hc.failed
    · refine (hc.typeOperand (Shape.ofTy (.list elem) ++ .own .int32 :: s)).seq fun i d ⟨hd, hi⟩ => meets_bind.2 ?_
      refine (hd.ready.emit1 rfl fun w hw => ?_).imp (fun _ e he => meets_pure.2 ⟨helem, hd.trans he.reaches⟩)
        fun _ _ h => h
      rw [hd.writes.target] at hw ⊢
      exact .subscript ((hw.modules _ (Nat.le_refl _)).types i elem hi) hs

theorem Ready.emitList {count : Nat} {elem : Option Ty} (hc : c.Ready o) (helem : ∀ t, elem = some t → t.Known)
    (hlist : ∀ t, elem = some t → u = Shape.ofTys (List.replicate count t)) :
    Meets (Compile.emitList count elem span) c
      (fun r d => r.Known ∧ c.Reaches o (fun _ => none) d (u ++ s) (Shape.ofTy r ++ s)) fun _ => Failed o := by
  unfold Compile.emitList
  cases elem with
  | none => exact hc.failed
  | some elem =>
    obtain rfl := hlist elem rfl
    refine (hc.typeOperand (Shape.ofTys (List.replicate count elem) ++ s)).seq fun i d ⟨hd, hi⟩ => meets_bind.2 ?_
    refine (hd.ready.emit2 rfl fun w hw => ?_).imp (fun _ e he => meets_pure.2 ⟨?_, hd.trans he.reaches⟩)
      fun _ _ h => h
    · rw [hd.writes.target] at hw ⊢
      exact .makeList ((hw.modules _ (Nat.le_refl _)).types i elem hi)
    · exact Ty.known_list.2 (helem elem rfl)

end Compilation

end StackScript
