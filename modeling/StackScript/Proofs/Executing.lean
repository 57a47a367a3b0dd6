import StackScript.Proofs.Performing
import StackScript.Proofs.Widens

/-!
Instructions that call native functions, and those on lists. With them, every instruction does with the bytes on the
stack what it is said to do with data.
-/
namespace StackScript

/-- The bytes of a list at the position of an element are those of the element. -/
theorem Value.element_encodes {t : Ty} : ∀ {vs : List Value}, (∀ v ∈ vs, v.ty = t) → ∀ {i : Nat} {v : Value},
    vs[i]? = some v → ((encodes vs).drop (i * t.size)).take t.size = v.encode
  | x :: vs, h, 0, v, hv => by
    obtain rfl : x = v := by simpa using hv
    rw [Nat.zero_mul, List.drop_zero, encodes, List.take_left' (by rw [length_encode, h x (.head _)])]
  | x :: vs, h, i + 1, v, hv => by
    rw [encodes, Nat.succ_mul, Nat.add_comm, ← List.drop_drop,
      List.drop_left' (by rw [length_encode, h x (.head _)])]
    exact element_encodes (fun v hv => h v (.tail _ hv)) (by simpa using hv)

theorem Value.handles_of_mem : ∀ {vs : List Value} {v : Value}, v ∈ vs → ∀ {r : Handle}, r ∈ v.handles → r ∈ handlesOf vs
  | _ :: _, _, .head _, _, hr => List.mem_append_left _ hr
  | _ :: _, _, .tail _ hv, _, hr => List.mem_append_right _ (handles_of_mem hv hr)

theorem Bytes.ofNat_mod (n x : Nat) : ofNat n (x % Nat.pow 256 n) = ofNat n x := by
  have := ofNat_toNat (ofNat n x)
  rwa [length_ofNat, toNat_ofNat] at this

theorem Datum.AreAll.count {Δ : Denotation} {t : Ty} {ds : List Datum} {vs : List Value} (all : AreAll Δ ds vs)
    (tys : ∀ v ∈ vs, v.ty = t) (hnil : t.size = 0 → ds = []) : Content.count t (Value.encodes vs) = ds.length := by
  rcases Nat.eq_zero_or_pos t.size with h0 | hpos
  · rw [hnil h0, Content.count, if_pos h0, List.length_nil]
  · rw [Content.count_eq hpos (Value.length_encodes_of tys), all.length_eq]

namespace Store

variable {w : Store} {roots held : List Handle} {Δ : Denotation} {s u : Pile} {m : Machine} {d e : Datum}
  {k : Nat} {out : Except Fault Pile} {α : Type}

namespace Shows

open Run

/-! ### Native functions -/

theorem pushString {x : String} (h : w.Shows roots Δ [] s m) :
    Meets (Run.pushString x) m (fun _ => w.After roots (.ok (.own (.string x) :: s))) (Failing out) :=
  have told : Content.Tells Δ (.string x) (.string x) := rfl
  Shows.pushCell h rfl told

theorem pushFloat {v : FloatWidth} {i : Nat} {ok : Unit → Machine → Prop} (h : w.Shows roots Δ held s m)
    (hok : ∀ m', w.Shows roots Δ held (.own (v.datum i) :: s) m' → ok () m') :
    Meets (Run.pushNat v.size i) m ok (Failing out) := by
  cases v with
  | f32 => exact h.push_scalar (d := .float32 (.ofNat i)) rfl (Bytes.ofNat_mod 4 i).symm hok
  | f64 => exact h.push_scalar (d := .float64 (.ofNat i)) rfl (Bytes.ofNat_mod 8 i).symm hok

theorem acts {n : Native} (h : w.Shows roots Δ [] s m) (acts : n.Acts s u) (hs : s.Settled) :
    Meets n.run m (fun _ => w.After roots (.ok u)) (Failing out) := by
  cases acts with
  | concat =>
    simp only [Pile.settled_cons] at hs
    exact meets_bind.2 (h.pullString (by simp [hs]) fun _ h₁ => meets_bind.2 (h₁.pullString hs.2.2 fun _ h₂ =>
      h₂.pushString))
  | equal =>
    simp only [Pile.settled_cons] at hs
    exact meets_bind.2 (h.pullString (by simp [hs]) fun _ h₁ => meets_bind.2 (h₁.pullString hs.2.2 fun _ h₂ =>
      h₂.pushBool fun _ h₃ => h₃.after))
  | @floatArith v op d e i j s left right size size' =>
    exact meets_bind.2 (h.pullNat left size fun _ h₁ => meets_bind.2 (h₁.pullNat right size' fun _ h₂ =>
      h₂.pushFloat fun _ h₃ => h₃.after))
  | floatTest left right size size' =>
    exact meets_bind.2 (h.pullNat left size fun _ h₁ => meets_bind.2 (h₁.pullNat right size' fun _ h₂ =>
      h₂.pushBool fun _ h₃ => h₃.after))
  | @floatNegate v d i s operand size =>
    exact meets_bind.2 (h.pullNat operand size fun _ h₁ => h₁.pushFloat fun _ h₂ => h₂.after)

/-! ### Lists -/

/-- The bytes of a value are pushed whose handles belong to a cell, and references to its cells are taken. -/
theorem pushShared {v : Value} (h : w.Shows roots Δ held s m) (is : d.Is Δ v)
    (live : ∀ r ∈ v.handles, r.isNull = false → m.heap.Holds r) {ok : Unit → Machine → Prop}
    (hok : ∀ m', w.Shows roots Δ held (Pile.of d ++ s) m' → ok () m') :
    Meets (do push v.encode; increfTop v.ty) m ok (Failing out) := by
  obtain ⟨bytes, rs, ls, hm, lays, balanced, tells, hls, knows⟩ := h
  obtain ⟨heap, e, balanced₁, hsize, hfilled⟩ := balanced.increfs live
  refine meets_bind.2 (meets_push hm (fun m₁ hm₁ => meets_bind.2 ?_) (failing_overflow out _ m))
  have hl : v.encode.reverse.length = v.ty.size := by rw [List.length_reverse, v.length_encode]
  refine meets_top hm₁ hl (meets_bind.2 ?_)
  have hat := v.handlesAt_encode [] []
  rw [List.nil_append, List.append_nil, List.length_nil] at hat
  rw [List.reverse_reverse]
  refine meets_lift hat (meets_onHeap hm₁ e fun m₂ hm₂ => hok m₂ ⟨v.encode.reverse ++ bytes, v.handles.reverse ++ rs, ls,
    hm₂.heap ▸ hm₂, ( Denotation.Lays.of_datum is).append lays, ?_, ?_, fun r hr hn => ?_, knows⟩)
  · rw [hm₂.heap, List.append_assoc]
    exact balanced₁.perm ((List.reverse_perm v.handles).symm.append_right _)
  · rw [hm₂.heap]
    exact tells.filled fun r x hx => hfilled r ▸ hx
  · rw [hm₂.heap, Heap.holds_iff, hfilled r, ← Heap.holds_iff]
    exact hls r hr hn

/-- An index that is out of bounds breaks off the run. -/
theorem subscript {t : Ty} {ds : List Datum} {n : Int32} (hs : s.Settled)
    (h : w.Shows roots Δ [] (.own (.list t ds) :: .own (.int32 n) :: s) m) :
    Meets (Run.subscript t) m
      (fun _ => w.After roots (((Datum.list t ds).element (.int32 n)).map fun d => Pile.of d ++ s))
      (Failing (((Datum.list t ds).element (.int32 n)).map fun d => Pile.of d ++ s)) := by
  refine meets_bind.2 (h.pullHandle rfl fun r m₁ beyond h₁ => meets_bind.2 (h₁.pullInt32 fun m₂ h₂ => meets_bind.2 ?_))
  obtain ⟨u, vs, hlist, hnil, all, tys, live⟩ := h₂.list beyond
  refine meets_readHeap h₂.located hlist ?_
  simp only [all.count tys hnil, Datum.element]
  generalize (if n.toInt < 0 then _ else _ : Int) = position
  split
  · next hout => exact meets_bind.2 (h₂.decref hs fun _ m₃ h₃ _ => .inr rfl)
  · next hin =>
    rw [not_or, Int.not_lt, Int.not_le] at hin
    have hlt : position.toNat < vs.length := by
      rw [← all.length_eq]
      omega
    obtain ⟨d, hd, is⟩ := all.get (List.getElem?_eq_getElem hlt)
    have hget : ds.getD position.toNat .void = d := by rw [List.getD_eq_getElem?_getD, hd, Option.getD_some]
    have hmem := List.getElem_mem hlt
    generalize hv : vs[position.toNat] = v at *
    have hbytes := Value.element_encodes tys (List.getElem?_eq_some_iff.2 ⟨hlt, hv⟩)
    have hheld : ∀ q ∈ v.handles, q ∈ Value.handlesOf vs := fun q hq => Value.handles_of_mem hmem hq
    rw [hget, hbytes, ← tys v hmem]
    rw [← bind_assoc]
    exact meets_bind.2 (h₂.pushShared is (fun q hq => live q (hheld q hq)) fun m₃ h₃ =>
      meets_bind.2 (h₃.decref (by simp [Pile.settled_of, hs]) fun _ m₄ h₄ => h₄.after))

/-- The elements are pulled as bytes. -/
theorem makeList {t : Ty} {ds : List Datum} (tys : ∀ d ∈ ds, d.ty = t)
    (h : w.Shows roots Δ [] (Pile.ofAll ds ++ s) m) :
    Meets (do
      let bytes ← pull (ds.length * t.size)
      if ds.length = 0 then pushHandle .null else pushHandle (← alloc (.list t bytes))
      return (none : Option α)) m (w.Done roots (.ok (.own (.ofItems t ds) :: s))) (Failing out) := by
  obtain ⟨bytes, rs, ls, hm, lays, balanced, tells, hls, knows⟩ := h
  obtain ⟨_, ys, _, rs₂, _, ls₂, rfl, rfl, rfl, h₁, h₂⟩ := lays.split
  obtain ⟨vs, all, rfl, rfl, rfl⟩ := h₁.exists_areAll
  have htys : ∀ v ∈ vs, v.ty = t := fun v hv => by
    obtain ⟨i, hi⟩ := List.getElem?_of_mem hv
    obtain ⟨d, hd, is⟩ := all.get hi
    rw [is.ty_eq, tys d (List.mem_of_getElem? hd)]
  have hl : (Value.encodes vs).length = ds.length * t.size := by rw [Value.length_encodes_of htys, all.length_eq]
  refine meets_bind.2 (meets_pull hm (by rw [List.length_reverse, hl]) fun m₁ hm₁ => ?_)
  rw [List.reverse_reverse]
  split
  · next hn =>
    obtain rfl := List.eq_nil_of_length_eq_zero hn
    obtain rfl := List.eq_nil_of_length_eq_zero (all.length_eq.symm.trans hn)
    have null : (Datum.ofItems t []).Beyond Δ .null := by
      rw [Datum.ofItems, ite_self]
      exact ⟨.list t .null, ⟨rfl, rfl⟩, rfl, rfl⟩
    exact meets_bind.2 (meets_pushHandle hm₁ (fun m₂ hm₂ => finished ⟨_, .null :: rs₂, ls₂, hm₂.heap ▸ hm₂,
      h₂.push_cell null, hm₂.heap ▸ balanced.consNull rfl, hm₂.heap ▸ tells, hm₂.heap ▸ hls, knows⟩)
      (failing_overflow out _ m₁))
  · have told : Content.Tells Δ (.ofItems t ds) (.list t (Value.encodes vs)) := by
      refine ⟨rfl, fun h0 => if_pos h0, ?_⟩
      by_cases h0 : t.size = 0
      · refine ⟨[], List.eq_nil_of_length_eq_zero (by rw [hl, h0, Nat.mul_zero]), ?_, nofun⟩
        rw [if_pos h0]
        exact trivial
      · refine ⟨vs, rfl, ?_, htys⟩
        rwa [if_neg h0]
    have hheld : (Content.list t (Value.encodes vs)).held = Value.handlesOf vs := Content.held_eq (Value.listHandles htys)
    have h' : w.Shows roots Δ (Content.list t (Value.encodes vs)).held s m₁ := by
      refine ⟨ys, rs₂, ls₂, hm₁.heap ▸ hm₁, h₂, ?_, hm₁.heap ▸ tells, hm₁.heap ▸ hls, knows⟩
      rw [hm₁.heap, hheld]
      refine balanced.perm ?_
      rw [List.append_assoc, List.nil_append]
      exact ((List.reverse_perm _).append_right _).trans (List.perm_append_comm_assoc ..)
    rw [← bind_assoc]
    exact meets_done (h'.pushCell rfl told)

end Shows

/-! ### Steps -/

open Run

/-- What an instruction leads to that does not jump. -/
def Behind (w : Store) (roots : List Handle) (a : Activation) (out : Except Fault Pile) (o : Option Activation)
    (m : Machine) : Prop :=
  o = some a ∧ w.After roots out m

variable {a : Activation} {op : Opcode} {x y : Nat}

theorem Moves.jumpDistance (move : w.Moves k op x y s out) : Run.jumpDistance op x = pure 0 := by
  cases move <;> rfl

/-- The instructions that call nothing. -/
theorem Moves.execute (move : w.Moves a.function.module op x y s out) (hop : op ≠ .call1) (hbase : a.base = 0)
    (statics : ∀ v ∈ (w.library.get a.function.module).values, ∀ r ∈ v.handles, r ∈ roots)
    (hcap : w.heap.cells.size ≤ Heap.capacity) (h : w.Shows roots Δ [] s m) :
    Meets (Run.execute w.library a op x y) m (w.Done roots out) (Failing out) := by
  unfold Run.execute
  cases move with
  | logicalNot => exact meets_bind.2 (h.pullBool fun _ h₁ => meets_bind.2 (h₁.pushBool fun _ h₂ => h₂.finished))
  | logicalOr | logicalAnd =>
    exact meets_bind.2 (h.pullBool fun _ h₁ => meets_bind.2 (h₁.pullBool fun _ h₂ =>
      meets_bind.2 (h₂.pushBool fun _ h₃ => h₃.finished)))
  | negate => exact Shows.meets_done h.negate
  | bitNot => exact Shows.meets_done h.bitNot
  | compare left right size size' => exact Shows.meets_done (h.compare left right size size')
  | arith => exact Shows.meets_done h.arith
  | loadStatic value denotes =>
    refine meets_bind.2 (meets_lift (Library.findValue_eq value) ?_)
    rw [← bind_assoc]
    exact Shows.meets_done (h.loadStatic (denotes hcap) (statics _ (Array.mem_of_getElem? value)))
  | incRef offset cell => simpa only [bind_assoc] using Shows.meets_done (h.incRef offset cell)
  | decRef offset cell settled => exact h.decRef offset cell settled
  | native => exact absurd rfl hop
  | subscript type settled =>
    exact meets_bind.2 (meets_lift (Library.findType_eq type) (Shows.meets_done (h.subscript settled)))
  | makeList type count tys =>
    subst count
    exact meets_bind.2 (meets_lift (Library.findType_eq type) (h.makeList tys))
  | copyVariable offset size =>
    rw [hbase, Nat.zero_add]
    exact Shows.meets_done (h.copy size offset)
  | drop offset size idle => exact Shows.meets_done (h.drop offset size idle)

theorem After.notice {e : Event} {bad : Fault → Machine → Prop} (h : w.After roots out m) :
    Meets (Run.notice e) m (fun _ => w.After roots out) bad := by
  refine meets_modify.2 ?_
  split
  · intro hcap
    obtain ⟨u, Δ, rfl, hu⟩ := h hcap
    exact ⟨u, Δ, rfl, hu.same ⟨rfl, hu.located.frames, rfl⟩⟩
  · exact h

/-- A native function runs in place. -/
theorem Shows.enter {n : Native} {i : Nat} (offers : w.Offers i n) (acts : n.Acts s u) (hs : s.Settled)
    (h : w.Shows roots Δ [] s m) :
    Meets (Run.enter w.library ⟨0, i⟩) m (w.Done roots (.ok u)) (Failing out) := by
  obtain ⟨g, hg, hb⟩ := offers
  refine meets_bind.2 (meets_lift (Library.findFunction_eq hg) ?_)
  rw [hb]
  refine meets_bind.2 (meets_notice h.located fun m₁ hm₁ => meets_bind.2 ?_)
  refine (Shows.acts (h.same hm₁) acts hs).imp (fun _ m₂ h₂ => meets_bind.2 ?_) fun _ _ h => h
  exact h₂.notice.imp (fun _ _ h₃ => ⟨rfl, h₃⟩) fun _ _ h => h

theorem Moves.meets (move : w.Moves a.function.module op x y s out) (hbase : a.base = 0)
    (statics : ∀ v ∈ (w.library.get a.function.module).values, ∀ r ∈ v.handles, r ∈ roots)
    (hcap : w.heap.cells.size ≤ Heap.capacity) (h : w.Shows roots Δ [] s m) :
    Meets (perform w.library a op x y) m (w.Behind roots { a with cursor := a.cursor + op.length } out)
      (Failing out) := by
  unfold perform
  rw [move.jumpDistance, pure_bind, Nat.add_zero]
  by_cases hop : op = .call1
  · subst hop
    cases move with
    | native first offers settled acts =>
      refine meets_bind.2 (meets_bind.2 (meets_lift (Library.findImport_eq first) (meets_pure.2 (meets_bind.2 ?_))))
      refine (h.enter offers acts settled).imp ?_ fun _ _ h => h
      rintro o m' ⟨rfl, after⟩
      exact ⟨rfl, after⟩
  · refine meets_bind.2 ((move.execute hop hbase statics hcap h).imp ?_ fun _ _ h => h)
    rintro o m' ⟨rfl, after⟩
    exact ⟨rfl, after⟩

end Store

end StackScript
