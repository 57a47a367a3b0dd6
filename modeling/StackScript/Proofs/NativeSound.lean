import StackScript.Proofs.StepSound

/-!
Native functions and operations on words keep to their signatures.
-/
namespace StackScript

theorem FloatWidth.isHeap_ty (w : FloatWidth) : w.ty.isHeap = false := by
  cases w <;> rfl

theorem FloatWidth.size_ty (w : FloatWidth) : w.ty.size = w.size := by
  cases w <;> rfl

theorem FloatWidth.ty_ne_char (w : FloatWidth) : w.ty ≠ .char := by
  cases w <;> nofun

theorem FloatWidth.ofTy_ty (w : FloatWidth) : Shape.ofTy w.ty = [.own w.ty] := by
  cases w <;> rfl

theorem Width.isHeap_ty (w : Width) : w.ty.isHeap = false := by
  cases w <;> rfl

theorem Width.ty_ne_char (w : Width) : w.ty ≠ .char := by
  cases w <;> nofun

namespace View

variable {v : View} {Ψ : Typing} {b : Nat} {s : Shape} {others : List Handle} {rest : Bytes}
  {frames : List Frame} {m : Machine}

open Run

theorem Holding.list {e : Ty} {r : Handle} (h : v.Holding Ψ b s (r :: others) rest frames m)
    (hf : Ψ.Fits b (.list e) r) :
    m.heap.list r = .ok (.unknown, []) ∨
      ∃ n ≤ b, ∃ k bs rs, m.heap.list r = .ok (e, bs) ∧ m.heap.filled? r = some (.list e bs) ∧
        Ψ.Lays n (Shape.ofTys (List.replicate k e)) bs.reverse rs [] := by
  unfold Heap.list
  cases hn : r.isNull with
  | true => exact .inl rfl
  | false =>
    obtain ⟨x, n, hnb, hx, hx', hc⟩ := h.content hf hn
    cases hc with
    | list lays => exact .inr ⟨n, hnb, _, _, _, by simp [hx', bind, Except.bind], hx, lays⟩

theorem Holding.listLength {e : Ty} (h : v.Holding Ψ b (.own (.list e) :: s) others rest frames m)
    (hs : s.Settled) :
    Meets Native.listLength.run m (fun _ => v.Leads Ψ b (.own .int32 :: s) others rest frames) v.Broken := by
  refine meets_bind.2 (h.pullHandle rfl fun r m₁ h₁ hf => meets_bind.2 ?_)
  have tail (p : Ty × Bytes) : Meets (Run.decref r >>= fun _ => pushInt32 (.ofNat (Content.count p.1 p.2))) m₁
      (fun _ => v.Leads Ψ b (.own .int32 :: s) others rest frames) v.Broken :=
    meets_bind.2 (h₁.decref hs fun _ m₂ h₂ =>
      h₂.pushNat (t := .int32) rfl (by decide) rfl fun m₃ h₃ => h₃.leads)
  obtain ⟨⟨d, bs⟩, hp⟩ : ∃ p, m₁.heap.list r = .ok p := by
    rcases h₁.list hf with e | ⟨_, _, _, _, _, e, _⟩ <;> exact ⟨_, e⟩
  exact meets_readHeap h₁.at hp (tail (d, bs))

theorem Holding.native {n : Native} (hn : n ≠ .listLength)
    (h : v.Holding Ψ b (Shape.ofTys n.signature.params ++ s) others rest frames m) (hs : s.Settled) :
    Meets n.run m (fun _ => v.Leads Ψ b (Shape.ofTy n.signature.result ++ s) others rest frames) v.Broken := by
  cases n with
  | listLength => exact absurd rfl hn
  | stringConcat =>
    have h : v.Holding Ψ b (.own .string :: .own .string :: s) others rest frames m := h
    exact meets_bind.2 (h.pullString (by simp [hs, Slot.isLent]) fun x m₁ h₁ =>
      meets_bind.2 (h₁.pullString hs fun y m₂ h₂ => h₂.pushString))
  | stringEqual =>
    have h : v.Holding Ψ b (.own .string :: .own .string :: s) others rest frames m := h
    exact meets_bind.2 (h.pullString (by simp [hs, Slot.isLent]) fun x m₁ h₁ =>
      meets_bind.2 (h₁.pullString hs fun y m₂ h₂ => h₂.pushBool fun m₃ h₃ => h₃.leads))
  | stringLength =>
    have h : v.Holding Ψ b (.own .string :: s) others rest frames m := h
    exact meets_bind.2 (h.pullString hs fun x m₁ h₁ => h₁.pushNat rfl (by decide) rfl fun m₂ h₂ => h₂.leads)
  | print =>
    have h : v.Holding Ψ b (.own .string :: s) others rest frames m := h
    refine meets_bind.2 (h.pullString hs fun x m₁ h₁ => ?_)
    obtain ⟨bytes, rs, ls, hm, lays, sound, hls⟩ := h₁
    exact meets_record hm fun m₂ hm₂ => Holding.leads
      ⟨bytes, rs, ls, hm₂.heap ▸ hm₂, lays, hm₂.heap ▸ sound, hm₂.heap ▸ hls⟩
  | int32ToInt64 =>
    have h : v.Holding Ψ b (.own .int32 :: s) others rest frames m := h
    exact meets_bind.2 (h.pullInt32 fun x m₁ h₁ => h₁.pushNat rfl (by decide) rfl fun m₂ h₂ => h₂.leads)
  | int64ToInt32 =>
    have h : v.Holding Ψ b (.own .int64 :: s) others rest frames m := h
    exact meets_bind.2 (h.pullInt64 fun x m₁ h₁ => h₁.pushNat rfl (by decide) rfl fun m₂ h₂ => h₂.leads)
  | int32ToFloat64 =>
    have h : v.Holding Ψ b (.own .int32 :: s) others rest frames m := h
    exact meets_bind.2 (h.pullInt32 fun x m₁ h₁ => h₁.pushNat rfl (by decide) rfl fun m₂ h₂ => h₂.leads)
  | float64ToInt32 =>
    have h : v.Holding Ψ b (.own .float64 :: s) others rest frames m := h
    exact meets_bind.2 (h.pullNat rfl rfl fun x m₁ h₁ => h₁.pushNat rfl (by decide) rfl fun m₂ h₂ => h₂.leads)
  | int32ToString =>
    have h : v.Holding Ψ b (.own .int32 :: s) others rest frames m := h
    exact meets_bind.2 (h.pullInt32 fun x m₁ h₁ => h₁.pushString)
  | int64ToString =>
    have h : v.Holding Ψ b (.own .int64 :: s) others rest frames m := h
    exact meets_bind.2 (h.pullInt64 fun x m₁ h₁ => h₁.pushString)
  | float64ToString =>
    have h : v.Holding Ψ b (.own .float64 :: s) others rest frames m := h
    exact meets_bind.2 (h.pullNat rfl rfl fun x m₁ h₁ => h₁.pushString)
  | floatArith w op =>
    have h : v.Holding Ψ b (.own w.ty :: .own w.ty :: s) others rest frames m := by
      simpa [Native.signature, FloatWidth.ofTy_ty] using h
    have hw := FloatWidth.isHeap_ty w
    have hn := FloatWidth.size_ty w
    refine meets_bind.2 (h.pullNat hw hn fun x m₁ h₁ => meets_bind.2 (h₁.pullNat hw hn fun y m₂ h₂ =>
      h₂.pushNat hw (FloatWidth.ty_ne_char w) hn fun m₃ h₃ => ?_))
    simpa [Native.signature, FloatWidth.ofTy_ty] using h₃.leads
  | floatTest w c =>
    have h : v.Holding Ψ b (.own w.ty :: .own w.ty :: s) others rest frames m := by
      simpa [Native.signature, FloatWidth.ofTy_ty] using h
    have hw := FloatWidth.isHeap_ty w
    have hn := FloatWidth.size_ty w
    exact meets_bind.2 (h.pullNat hw hn fun x m₁ h₁ => meets_bind.2 (h₁.pullNat hw hn fun y m₂ h₂ =>
      h₂.pushBool fun m₃ h₃ => h₃.leads))
  | floatNegate w =>
    have h : v.Holding Ψ b (.own w.ty :: s) others rest frames m := by
      simpa [Native.signature, FloatWidth.ofTy_ty] using h
    have hw := FloatWidth.isHeap_ty w
    have hn := FloatWidth.size_ty w
    refine meets_bind.2 (h.pullNat hw hn fun x m₁ h₁ =>
      h₁.pushNat hw (FloatWidth.ty_ne_char w) hn fun m₂ h₂ => ?_)
    simpa [Native.signature, FloatWidth.ofTy_ty] using h₂.leads

/-! ### Words -/

theorem allows_arith {w : Width} {op : Arith} {x y : Word w} {e : Fault} (h : Word.arith op x y = .error e) :
    v.Allows e := by
  cases op <;> simp only [Word.arith, reduceCtorEq] at h
  all_goals
    split at h <;> cases h
    trivial

theorem Holding.pushWord {w : Width} {x : Word w} {ok : Unit → Machine → Prop}
    (h : v.Holding Ψ b s others rest frames m)
    (hok : ∀ m', v.Holding Ψ b (.own w.ty :: s) others rest frames m' → ok () m') :
    Meets (pushWord x) m ok v.Broken :=
  h.pushNat (Width.isHeap_ty w) (Width.ty_ne_char w) (Width.size_ty w) hok

theorem Holding.broken {e : Fault} (h : v.Holding Ψ b s others rest frames m) (he : v.Allows e) : v.Broken e m := by
  obtain ⟨bytes, rs, ls, hm, lays, sound, hls⟩ := h
  exact sound.broken he

theorem Holding.arith {w : Width} {op : Arith}
    (h : v.Holding Ψ b (.own w.ty :: .own w.ty :: s) others rest frames m) :
    Meets (runWord w (.arith op)) m (fun _ => v.Leads Ψ b (.own w.ty :: s) others rest frames) v.Broken := by
  have hw := Width.isHeap_ty w
  have hn := Width.size_ty w
  refine meets_bind.2 (h.pullWord hw hn fun x m₁ h₁ => meets_bind.2 (h₁.pullWord hw hn fun y m₂ h₂ =>
    meets_bind.2 ?_))
  cases he : Word.arith op x y with
  | error e => exact h₂.broken (allows_arith he)
  | ok z => exact h₂.pushWord fun m₃ h₃ => h₃.leads

theorem Holding.compare {w : Width} {c : Comparison} {t : Ty} (ht : t.isHeap = false) (hn : t.size = w.size)
    (h : v.Holding Ψ b (.own t :: .own t :: s) others rest frames m) :
    Meets (runWord w (.compare c)) m (fun _ => v.Leads Ψ b (.own .bool :: s) others rest frames) v.Broken :=
  meets_bind.2 (h.pullWord ht hn fun _ _ h₁ => meets_bind.2 (h₁.pullWord ht hn fun _ _ h₂ =>
    h₂.pushBool fun _ h₃ => h₃.leads))

theorem Holding.negate {w : Width} (h : v.Holding Ψ b (.own w.ty :: s) others rest frames m) :
    Meets (runWord w .negate) m (fun _ => v.Leads Ψ b (.own w.ty :: s) others rest frames) v.Broken :=
  meets_bind.2 (h.pullWord (Width.isHeap_ty w) (Width.size_ty w) fun _ _ h₁ => h₁.pushWord fun _ h₂ => h₂.leads)

theorem Holding.bitNot {w : Width} (h : v.Holding Ψ b (.own w.ty :: s) others rest frames m) :
    Meets (runWord w .bitNot) m (fun _ => v.Leads Ψ b (.own w.ty :: s) others rest frames) v.Broken :=
  meets_bind.2 (h.pullWord (Width.isHeap_ty w) (Width.size_ty w) fun _ _ h₁ => h₁.pushWord fun _ h₂ => h₂.leads)

end View

end StackScript
