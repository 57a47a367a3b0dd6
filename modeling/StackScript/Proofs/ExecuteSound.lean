import StackScript.Proofs.NativeSound

/-!
Instructions that do not call. Each leads from a stack in the shape that it expects to one in the shape that it
leaves.
-/
namespace StackScript

theorem Signature.closureLayout_eq (s : Signature) : s.closureLayout = s.closureTypes.reverse := by
  simp [closureLayout, closureTypes]

namespace Library

variable {l : Library}

theorem findFunction_eq {r : FunctionRef} {g : Function} (h : l.function? r = some g) : l.findFunction r = .ok g := by
  simp [findFunction, h]

theorem findType_eq {k i : Nat} {t : Ty} (h : (l.get k).types[i]? = some t) : l.findType k i = .ok t := by
  simp [findType, h]

theorem findValue_eq {k i : Nat} {x : Value} (h : (l.get k).values[i]? = some x) : l.findValue k i = .ok x := by
  simp [findValue, h]

theorem findImport_eq {k i id : Nat} (h : (l.get k).imports[i]? = some id) : l.findImport k i = .ok id := by
  simp [findImport, h]

end Library

theorem Shape.Idle.settled {s : Shape} (h : s.Idle) : s.Settled := by
  intro x hx
  have := h x hx
  cases x <;> first | rfl | simp [Slot.isIdle] at this

namespace View

variable {v : View} {Ψ : Typing} {k b frame : Nat} {s u w : Shape} {others : List Handle} {rest : Bytes}
  {frames : List Frame} {m : Machine} {t : Ty}

open Run

theorem Callee.mono {f : FunctionRef} {ts : List Ty} {r : Ty} (h : v.Callee k f ts r) (hk : k ≤ b) :
    v.Callee b f ts r :=
  ⟨Nat.le_trans h.below hk, h.alive, h.known⟩

/-- The slots of a value are pulled as bytes. -/
theorem Holding.split (h : v.Holding Ψ b (w ++ s) others rest frames m) (hw : w.Settled) :
    ∃ xs ys rs₁ rs₂ ls, m.At (xs ++ (ys ++ rest)) frames m.heap ∧ Ψ.Lays b w xs rs₁ [] ∧
      Ψ.Lays b s ys rs₂ ls ∧ v.Sound Ψ m.heap (rs₁ ++ (rs₂ ++ others)) ∧
      ∀ r ∈ ls, r.isNull = false → m.heap.Holds r := by
  obtain ⟨bytes, rs, ls, hm, lays, sound, hls⟩ := h
  obtain ⟨xs, ys, rs₁, rs₂, ls₁, ls₂, rfl, rfl, rfl, h₁, h₂⟩ := lays.split
  obtain rfl := h₁.lent_eq_nil hw
  rw [List.append_assoc] at hm sound
  exact ⟨xs, ys, rs₁, rs₂, ls₂, hm, h₁, h₂, sound, hls⟩

theorem Holding.invoke (h : v.Holding Ψ b (Shape.ofTy t ++ s) others rest frames m) (hs : s.Settled) {α : Type}
    {ok : α → Machine → Prop} {x : Run α}
    (hok : ∀ m', v.Holding Ψ b s others rest frames m' → Meets x m' ok v.Broken) :
    Meets (do
      let y ← pullValue t
      let m ← get
      record (.invoked y (y.text m.heap))
      onHeap y.decref
      x) m ok v.Broken := by
  obtain ⟨xs, ys, rs₁, rs₂, ls, hm, h₁, h₂, sound, -⟩ := h.split (Shape.settled_ofTy t)
  obtain rfl := h₂.lent_eq_nil hs
  have hd : Ψ.Lays b (Shape.ofTy t) xs.reverse.reverse rs₁ [] := by rwa [List.reverse_reverse]
  obtain ⟨y, hy, hh, -⟩ := hd.decode
  have hl : xs.length = t.size := by simpa using h₁.length
  refine meets_bind.2 (meets_pullValue hm hl hy fun m₁ hm₁ => meets_bind.2 (meets_get.2 (meets_bind.2 ?_)))
  refine meets_record hm₁ fun m₂ hm₂ => meets_bind.2 ?_
  have sound₂ : v.Sound Ψ m.heap (y.handles ++ (rs₂ ++ others)) := by
    rw [hh]
    exact sound.perm ((List.reverse_perm rs₁).symm.append_right _)
  obtain ⟨heap, e, sound₃, -⟩ := sound₂.decrefs
  exact meets_onHeap hm₂ e fun m₃ hm₃ => hok m₃ ⟨ys, rs₂, [], hm₃.heap ▸ hm₃, h₂, hm₃.heap ▸ sound₃, by simp⟩

theorem Holding.loadStatic {x : Value} {i : Nat} (hk : k ≤ b) (ha : (v.library.get k).alive)
    (hx : (v.library.get k).values[i]? = some x) (h : v.Holding Ψ b s others rest frames m) {α : Type}
    {ok : α → Machine → Prop} {y : Run α}
    (hok : ∀ m', v.Holding Ψ b (Shape.ofTy x.ty ++ s) others rest frames m' → Meets y m' ok v.Broken) :
    Meets (do
      onHeap x.incref
      pushValue x
      y) m ok v.Broken := by
  obtain ⟨bytes, rs, ls, hm, lays, sound, hls⟩ := h
  have hmem : x ∈ (v.library.get k).values := Array.mem_of_getElem? hx
  have hd := (sound.statics k x ha hmem).mono hk fun _ _ _ => rfl
  have live : ∀ r ∈ x.handles, r.isNull = false → m.heap.Holds r := fun r hr hn =>
    sound.holds_static (mem_statics hmem hr) hn
  obtain ⟨heap, e, sound₁, hsize, hfilled⟩ := sound.increfs live
  refine meets_bind.2 (meets_onHeap hm e fun m₁ hm₁ => meets_bind.2 ?_)
  refine meets_push hm₁ (fun m₂ hm₂ => hok m₂ ⟨x.encode.reverse ++ bytes, x.handles.reverse ++ rs, ls, ?_,
    hd.append lays, ?_, fun r hr hn => ?_⟩) ((hm₁.heap ▸ sound₁ : v.Sound Ψ m₁.heap _).broken trivial)
  · rw [List.append_assoc]
    exact hm₂.heap ▸ hm₂
  · rw [hm₂.heap, List.append_assoc]
    exact sound₁.perm ((List.reverse_perm x.handles).symm.append_right _)
  · rw [hm₂.heap, Heap.holds_iff, hfilled r, ← Heap.holds_iff]
    exact hls r hr hn

theorem Holding.makeClosure {f : FunctionRef} {captured ps : List Ty} {r : Ty} {types : List Ty}
    (h : v.Holding Ψ b (Shape.ofTys captured ++ s) others rest frames m) (hc : v.Callee b f (captured ++ ps) r)
    (ht : types = captured.reverse) {α : Type} {ok : α → Machine → Prop} {y : Run α}
    (hok : ∀ m', v.Leads Ψ b (.own (.function ps r) :: s) others rest frames m' → Meets y m' ok v.Broken) :
    Meets (do
      let bytes ← pull (Ty.sizes types)
      pushClosure f types bytes
      y) m ok v.Broken := by
  subst ht
  obtain ⟨xs, ys, rs₁, rs₂, ls, hm, h₁, h₂, sound, hls⟩ := h.split (Shape.settled_ofTys captured)
  have hl : xs.length = Ty.sizes captured.reverse := by
    rw [Ty.sizes_reverse]
    simpa using h₁.length
  have h₁' : Ψ.Lays b (Shape.ofTys captured) xs.reverse.reverse rs₁ [] := by rwa [List.reverse_reverse]
  have hheld : (Content.closure ⟨f, captured.reverse, xs.reverse⟩).held = rs₁.reverse :=
    Content.held_eq (Typing.Lays.closureHandles (by simpa using h₁))
  refine meets_bind.2 (meets_pull hm hl fun m₁ hm₁ => meets_bind.2 ?_)
  refine (meets_pushCell (t := .function ps r) (n := b) (hm₁.heap ▸ hm₁) h₂ ?_ (hm₁.heap ▸ hls)
    (.closure hc rfl h₁') (Nat.le_refl b) rfl).imp (fun _ m₂ h => hok m₂ h) fun _ _ h => h
  rw [hheld, hm₁.heap]
  exact sound.perm ((List.reverse_perm rs₁).symm.append_right _)

/-! ### Handles below the top -/

theorem Holding.incRef {n : Nat} (hn : s.size = n) (h : v.Holding Ψ b (s ++ .lent t :: u) others rest frames m)
    {α : Type} {ok : α → Machine → Prop} {y : Run α}
    (hok : ∀ m', v.Holding Ψ b (s ++ .own t :: u) others rest frames m' → Meets y m' ok v.Broken) :
    Meets (do
      incref (← readStack fun s => s.handleAt n)
      y) m ok v.Broken := by
  obtain ⟨bytes, rs, ls, hm, lays, sound, hls⟩ := h
  obtain ⟨xs, _, rs₁, rs₂, ls₁, _, rfl, rfl, rfl, h₁, h₂⟩ := lays.split
  obtain ⟨r, ys, ls₂, rfl, rfl, ht, hf, h₂⟩ := h₂.lent_cons
  rw [List.append_assoc, List.append_assoc] at hm
  obtain ⟨heap, e, sound₁, hsize, hfilled⟩ := sound.incref (hls r (by simp))
  refine meets_bind.2 (meets_handleAt hm (h₁.length.trans hn) (meets_bind.2 (meets_incref hm e fun m₁ hm₁ =>
    hok m₁ ⟨xs ++ (r.toBytes.reverse ++ ys), rs₁ ++ r :: rs₂, ls₁ ++ ls₂, ?_, h₁.append (h₂.push_handle ht hf), ?_,
      fun q hq hn => ?_⟩)))
  · rw [List.append_assoc, List.append_assoc]
    exact hm₁.heap ▸ hm₁
  · rw [hm₁.heap]
    exact sound₁.perm ((List.perm_middle.symm).append_right others)
  · rw [hm₁.heap, Heap.holds_iff, hfilled q, ← Heap.holds_iff]
    refine hls q ?_ hn
    rcases List.mem_append.1 hq with hq | hq <;> simp [hq]

theorem Holding.decRef {n : Nat} (hn : s.size = n) (ht : t.isHeap) (hs : (s ++ u).Settled)
    (h : v.Holding Ψ b (s ++ .own t :: u) others rest frames m) {α : Type} {ok : α → Machine → Prop} {y : Run α}
    (hok : ∀ m', v.Holding Ψ b (s ++ .spent :: u) others rest frames m' → Meets y m' ok v.Broken) :
    Meets (do
      let r ← readStack fun s => s.handleAt n
      if ← Run.decref r then setStack fun s => s.clearHandleAt n
      y) m ok v.Broken := by
  obtain ⟨bytes, rs, ls, hm, lays, sound, -⟩ := h
  obtain ⟨xs, _, rs₁, _, ls₁, ls₂, rfl, rfl, rfl, h₁, h₂⟩ := lays.split
  obtain ⟨r, ys, rs₂, rfl, rfl, hf, h₂⟩ := h₂.handle_cons ht
  rw [Shape.settled_append] at hs
  obtain rfl := h₁.lent_eq_nil hs.1
  obtain rfl := h₂.lent_eq_nil hs.2
  rw [List.append_assoc, List.append_assoc] at hm
  have sound₁ : v.Sound Ψ m.heap (r :: ((rs₁ ++ rs₂) ++ others)) :=
    sound.perm (List.perm_middle.append_right others)
  obtain ⟨heap, freed, e, sound₂, -⟩ := sound₁.decref
  have hr : r.toBytes.reverse.length = handleSize := by rw [List.length_reverse, r.length_toBytes]
  refine meets_bind.2 (meets_handleAt hm (h₁.length.trans hn) (meets_bind.2 (meets_decref hm e fun m₁ hm₁ => ?_)))
  have next {zs : Bytes} (hz : zs.length = handleSize) (m₂ : Machine)
      (hm₂ : m₂.At (xs ++ (zs ++ (ys ++ rest))) frames heap) :
      v.Holding Ψ b (s ++ .spent :: u) others rest frames m₂ := by
    refine ⟨xs ++ (zs ++ ys), rs₁ ++ rs₂, [] ++ [], ?_, h₁.append (h₂.push_spent hz), hm₂.heap ▸ sound₂, by simp⟩
    rw [List.append_assoc, List.append_assoc]
    exact hm₂.heap ▸ hm₂
  cases freed with
  | false => exact hok m₁ (next hr m₁ hm₁)
  | true =>
    exact meets_bind.2 (meets_clearHandleAt hm₁ (h₁.length.trans hn) hr fun m₂ hm₂ =>
      hok m₂ (next List.length_replicate m₂ hm₂))

/-! ### Copies and drops -/

theorem Holding.copy {start size : Nat} (hw : w.Settled) (hsize : w.size = size)
    (hstart : u.size + rest.length = start) (h : v.Holding Ψ b (s ++ w ++ u) others rest frames m) {α : Type}
    {ok : α → Machine → Prop} {y : Run α}
    (hok : ∀ m', v.Holding Ψ b (w.map Slot.lend ++ (s ++ w ++ u)) others rest frames m' → Meets y m' ok v.Broken) :
    Meets (do
      setStack fun s => s.copy start size
      y) m ok v.Broken := by
  obtain ⟨bytes, rs, ls, hm, lays, sound, hls⟩ := h
  obtain ⟨_, zs, _, rs₃, _, ls₃, rfl, rfl, rfl, h₀, h₃⟩ := lays.split
  obtain ⟨xs, ys, rs₁, rs₂, ls₁, ls₂, rfl, rfl, rfl, h₁, h₂⟩ := h₀.split
  obtain rfl := h₂.lent_eq_nil hw
  have hm' : m.At (xs ++ (ys ++ (zs ++ rest))) frames m.heap := by simpa only [List.append_assoc] using hm
  refine meets_bind.2 (meets_copy hm' (by rw [List.length_append, h₃.length, hstart]) (h₂.length.trans hsize)
    (fun m₁ hm₁ => hok m₁ ⟨ys ++ (xs ++ ys ++ zs), [] ++ (rs₁ ++ rs₂ ++ rs₃), rs₂ ++ (ls₁ ++ [] ++ ls₃), ?_,
      h₂.lend.append ((h₁.append h₂).append h₃), hm₁.heap ▸ sound, fun r hr hn => ?_⟩) (sound.broken trivial))
  · simp only [List.append_assoc]
    exact hm₁.heap ▸ hm₁
  · rw [hm₁.heap]
    rcases List.mem_append.1 hr with hr | hr
    · exact sound.holds (by simp [hr]) hn
    · exact hls r hr hn

theorem Holding.drop {skip size : Nat} (hs : s.size = skip) (hsize : w.size = size) (hw : w.Idle)
    (h : v.Holding Ψ b (s ++ w ++ u) others rest frames m) {α : Type} {ok : α → Machine → Prop} {y : Run α}
    (hok : ∀ m', v.Holding Ψ b (s ++ u) others rest frames m' → Meets y m' ok v.Broken) :
    Meets (do
      setStack fun s => s.drop skip size
      y) m ok v.Broken := by
  obtain ⟨bytes, rs, ls, hm, lays, sound, hls⟩ := h
  obtain ⟨_, zs, _, rs₃, _, ls₃, rfl, rfl, rfl, h₀, h₃⟩ := lays.split
  obtain ⟨xs, ys, rs₁, rs₂, ls₁, ls₂, rfl, rfl, rfl, h₁, h₂⟩ := h₀.split
  obtain rfl := h₂.lent_eq_nil (Shape.Idle.settled hw)
  obtain rfl := h₂.owned_eq_nil hw
  have hm' : m.At (xs ++ (ys ++ (zs ++ rest))) frames m.heap := by simpa only [List.append_assoc] using hm
  refine meets_bind.2 (meets_drop hm' (h₁.length.trans hs) (h₂.length.trans hsize) fun m₁ hm₁ =>
    hok m₁ ⟨xs ++ zs, rs₁ ++ rs₃, ls₁ ++ ls₃, ?_, h₁.append h₃, ?_, ?_⟩)
  · rw [List.append_assoc]
    exact hm₁.heap ▸ hm₁
  · rw [List.append_nil] at sound
    exact hm₁.heap ▸ sound
  · rw [List.append_nil] at hls
    exact hm₁.heap ▸ hls

/-! ### Lists and closures -/

/-- Bytes are pushed whose handles belong to a cell. They are in place once references are taken. -/
theorem Holding.push_shared {bs : Bytes} {rs' : List Handle} (h : v.Holding Ψ b s others rest frames m)
    (lays : Ψ.Lays b w bs.reverse rs' []) (hold : ∀ r ∈ rs', r.isNull = false → m.heap.Holds r)
    {ok : Unit → Machine → Prop}
    (hok : ∀ m₁ rest₁, m₁.At (bs.reverse ++ rest₁) frames m.heap →
      (∀ (ok' : Unit → Machine → Prop) bad', (∀ m', v.Holding Ψ b (w ++ s) others rest frames m' → ok' () m') →
        Meets (onHeap fun h => Heap.increfs rs'.reverse h) m₁ ok' bad') → ok () m₁) :
    Meets (push bs) m ok v.Broken := by
  obtain ⟨bytes, rs, ls, hm, hlays, sound, hls⟩ := h
  have live : ∀ r ∈ rs'.reverse, r.isNull = false → m.heap.Holds r := fun r hr hn => hold r (List.mem_reverse.1 hr) hn
  obtain ⟨heap, e, sound₁, hsize, hfilled⟩ := sound.increfs live
  refine meets_push hm (fun m₁ hm₁ => hok m₁ _ hm₁ fun ok' bad' hok' => ?_) (sound.broken trivial)
  refine meets_onHeap hm₁ e fun m₂ hm₂ => hok' m₂ ⟨bs.reverse ++ bytes, rs' ++ rs, ls, ?_, lays.append hlays, ?_,
    fun r hr hn => ?_⟩
  · rw [List.append_assoc]
    exact hm₂.heap ▸ hm₂
  · rw [hm₂.heap, List.append_assoc]
    exact sound₁.perm ((List.reverse_perm rs').append_right _)
  · rw [hm₂.heap, Heap.holds_iff, hfilled r, ← Heap.holds_iff]
    exact hls r hr hn

theorem Holding.filled_held {r q : Handle} {x : Content} (h : v.Holding Ψ b s others rest frames m)
    (hx : m.heap.filled? r = some x) (hq : q ∈ x.held) (hn : q.isNull = false) : m.heap.Holds q := by
  obtain ⟨_, _, _, _, _, sound, _⟩ := h
  exact sound.filled_held hx hq hn

theorem Holding.subscript (h : v.Holding Ψ b (.own (.list t) :: .own .int32 :: s) others rest frames m)
    (hs : s.Settled) :
    Meets (subscript t) m (fun _ => v.Holding Ψ b (Shape.ofTy t ++ s) others rest frames) v.Broken := by
  refine meets_bind.2 (h.pullHandle rfl fun r m₁ h₁ hf => meets_bind.2 ?_)
  refine h₁.pullInt32 fun index m₂ h₂ => meets_bind.2 ?_
  have hbound (p : Ty × Bytes) (position : Int) (hp : m₂.heap.list r = .ok p)
      (hin : ¬(position < 0 ∨ (Content.count t p.2 : Int) ≤ position)) :
      ∃ rs, Ψ.Lays b (Shape.ofTy t) ((p.2.drop (position.toNat * t.size)).take t.size).reverse rs [] ∧
        ∀ q ∈ rs, q.isNull = false → m₂.heap.Holds q := by
    rw [not_or, Int.not_lt, Int.not_le] at hin
    rcases h₂.list hf with e | ⟨n, hn, k, bs, rs, e, hx, lays⟩
    · rw [e] at hp
      cases hp
      have hzero : Content.count t [] = 0 := by simp [Content.count]
      rw [hzero] at hin
      omega
    · rw [e] at hp
      cases hp
      have hpos : 0 < t.size := Nat.pos_of_ne_zero fun h0 => by
        rw [Content.count, if_pos h0] at hin
        omega
      have hl : bs.length = k * t.size := by
        have := lays.length
        rwa [List.length_reverse, Shape.size_ofTys, Ty.sizes_replicate] at this
      rw [Content.count_eq hpos hl] at hin
      obtain ⟨rs', h', hmem⟩ := (lays.mono hn fun _ _ _ => rfl).element position.toNat (by omega)
      refine ⟨rs', h', fun q hq hn => h₂.filled_held hx ?_ hn⟩
      rw [Content.held_eq lays.listHandles]
      exact List.mem_reverse.2 (hmem q hq)
  obtain ⟨⟨d, bytes⟩, hp⟩ : ∃ p, m₂.heap.list r = .ok p := by
    rcases h₂.list hf with e | ⟨_, _, _, _, _, e, _⟩ <;> exact ⟨_, e⟩
  refine meets_readHeap h₂.at hp ?_
  simp only
  generalize (if index.toInt < 0 then _ else _ : Int) = position
  split
  · exact meets_bind.2 (h₂.decref hs fun _ m₃ h₃ => h₃.broken trivial)
  · next hin =>
    obtain ⟨rs, lays, hold⟩ := hbound _ position hp hin
    have hl := lays.length
    rw [List.length_reverse, Shape.size_ofTy] at hl
    refine meets_bind.2 (h₂.push_shared lays hold fun m₃ rest₃ hm₃ take => meets_bind.2 ?_)
    refine meets_bind.2 (meets_top hm₃ (by rwa [List.length_reverse]) (meets_bind.2 ?_))
    have hat := lays.handlesAt [] []
    rw [List.append_nil, List.nil_append, List.length_nil] at hat
    rw [List.reverse_reverse]
    exact meets_lift hat (take _ _ fun m₄ h₄ => meets_bind.2 (h₄.decref (by simp [Shape.settled_ofTy, hs]) fun _ m₅ h₅ => h₅))

theorem Holding.makeList {n : Nat} (h : v.Holding Ψ b (Shape.ofTys (List.replicate n t) ++ s) others rest frames m)
    {α : Type} {ok : α → Machine → Prop} {y : Run α}
    (hok : ∀ m', v.Leads Ψ b (.own (.list t) :: s) others rest frames m' → Meets y m' ok v.Broken) :
    Meets (do
      let bytes ← pull (n * t.size)
      if n = 0 then pushHandle .null else pushHandle (← alloc (.list t bytes))
      y) m ok v.Broken := by
  obtain ⟨xs, ys, rs₁, rs₂, ls, hm, h₁, h₂, sound, hls⟩ := h.split (Shape.settled_ofTys _)
  have hl : xs.length = n * t.size := by
    rw [h₁.length, Shape.size_ofTys, Ty.sizes_replicate]
  have h₁' : Ψ.Lays b (Shape.ofTys (List.replicate n t)) xs.reverse.reverse rs₁ [] := by rwa [List.reverse_reverse]
  refine meets_bind.2 (meets_pull hm hl fun m₁ hm₁ => ?_)
  split
  · next hn =>
    subst hn
    cases h₁
    refine meets_bind.2 (meets_pushHandle hm₁ (fun m₂ hm₂ => hok m₂ (Holding.leads
      ⟨Handle.null.toBytes.reverse ++ ys, .null :: rs₂, ls, ?_, h₂.push_handle rfl (.inr ⟨t, rfl⟩), ?_,
        hm₂.heap ▸ hls⟩)) ((hm₁.heap ▸ sound : v.Sound Ψ m₁.heap _).broken trivial))
    · rw [List.append_assoc]
      exact hm₂.heap ▸ hm₂
    · rw [hm₂.heap]
      exact sound.consNull rfl
  · have hheld : (Content.list t xs.reverse).held = rs₁.reverse := Content.held_eq h₁'.listHandles
    rw [← bind_assoc, meets_bind]
    refine (meets_pushCell (t := .list t) (n := b) (hm₁.heap ▸ hm₁) h₂ ?_ (hm₁.heap ▸ hls) (.list h₁')
      (Nat.le_refl b) rfl).imp (fun _ m₂ h => hok m₂ h) fun _ _ h => h
    rw [hheld, hm₁.heap]
    exact sound.perm ((List.reverse_perm rs₁).symm.append_right _)

/-- A closure is pulled, and what it captured lies on its arguments like the frame of its function. -/
theorem Holding.openClosure {ps : List Ty} {r : Ty}
    (h : v.Holding Ψ b (.own (.function ps r) :: (Shape.ofTys ps ++ s)) others rest frames m) (hs : s.Settled) :
    Meets (openClosure v.library) m
      (fun f m' => ∃ ts, v.Callee b f ts r ∧ v.Holding Ψ b (Shape.ofTys ts ++ s) others rest frames m')
      v.Broken := by
  refine meets_bind.2 (h.pullHandle rfl fun q m₁ h₁ hf => meets_bind.2 ?_)
  have hn : q.isNull = false := by
    cases hq : q.isNull with
    | false => rfl
    | true => simp [Typing.Fits, hq] at hf
  obtain ⟨x, n, hnb, hx, hcontent, hc⟩ := h₁.content hf hn
  cases hc with
  | @closure _ _ captured c rs callee types lays =>
    have hclosure : m₁.heap.closure q = .ok c := by simp [Heap.closure, hcontent, bind, Except.bind]
    have hhandles : (Content.closure c).handles = .ok rs.reverse :=
      Typing.Lays.closureHandles (by rwa [types, List.reverse_reverse])
    refine meets_readHeap h₁.at hclosure (meets_bind.2 ?_)
    refine h₁.push_shared (lays.mono hnb fun _ _ _ => rfl) (fun p hp hpn => h₁.filled_held hx
      (by rw [Content.held_eq hhandles]; exact List.mem_reverse.2 hp) hpn) fun m₂ rest₂ hm₂ take => ?_
    refine meets_bind.2 (meets_lift hhandles (meets_bind.2 (take _ _ fun m₃ h₃ => meets_bind.2 ?_)))
    have hsettled : (Shape.ofTys captured ++ (Shape.ofTys ps ++ s)).Settled := by
      simp [Shape.settled_ofTys, hs]
    refine h₃.decref hsettled fun _ m₄ h₄ => ?_
    rw [callee.alive]
    refine ⟨captured ++ ps, callee.mono hnb, ?_⟩
    rwa [Shape.ofTys_append, List.append_assoc]

/-- A function is about to be entered, with its frame on top; the shape is the one after its return. -/
def Entering (v : View) (Ψ : Typing) (b : Nat) (u : Shape) (others : List Handle) (rest : Bytes)
    (frames : List Frame) (f : FunctionRef) (m : Machine) : Prop :=
  ∃ ts r s, u = Shape.ofTy r ++ s ∧ v.Callee b f ts r ∧ s.Settled ∧
    v.Holding Ψ b (Shape.ofTys ts ++ s) others rest frames m

/-- After an instruction the stack has the next shape, unless a function is to be entered first. -/
def Moved (v : View) (Ψ : Typing) (b : Nat) (u : Shape) (others : List Handle) (rest : Bytes)
    (frames : List Frame) : Option FunctionRef → Machine → Prop
  | none => v.Leads Ψ b u others rest frames
  | some f => v.Entering Ψ b u others rest frames f

theorem Leads.moved (h : v.Leads Ψ b u others rest frames m) :
    Meets (pure none) m (v.Moved Ψ b u others rest frames) v.Broken := h

theorem Holding.moved (h : v.Holding Ψ b u others rest frames m) :
    Meets (pure none) m (v.Moved Ψ b u others rest frames) v.Broken := h.leads.moved

theorem meets_moved {α : Type} {x : Run α}
    (h : Meets x m (fun _ => v.Leads Ψ b u others rest frames) v.Broken) :
    Meets (x >>= fun _ => pure none) m (v.Moved Ψ b u others rest frames) v.Broken :=
  h.seq fun _ _ h' => h'.moved

theorem Moves.meets {a : Activation} {op : Opcode} {x y : Nat}
    (move : v.Moves a.function.module frame op x y s u) (hbase : a.base = rest.length + frame)
    (hk : a.function.module ≤ b) (ha : (v.library.get a.function.module).alive)
    (h : v.Holding Ψ b s others rest frames m) :
    Meets (Run.execute v.library a op x y) m (v.Moved Ψ b u others rest frames) v.Broken := by
  unfold Run.execute
  cases move with
  | logicalNot => exact meets_bind.2 (h.pullBool fun _ _ h₁ => meets_bind.2 (h₁.pushBool fun _ h₂ => h₂.moved))
  | logicalOr | logicalAnd =>
    exact meets_bind.2 (h.pullBool fun _ _ h₁ => meets_bind.2 (h₁.pullBool fun _ _ h₂ =>
      meets_bind.2 (h₂.pushBool fun _ h₃ => h₃.moved)))
  | negate => exact meets_moved h.negate
  | bitNot => exact meets_moved h.bitNot
  | compare scalar size => exact meets_moved (h.compare scalar size)
  | arith => exact meets_moved h.arith
  | execute settled =>
    exact (h.openClosure settled).seq fun f m' ⟨ts, callee, h'⟩ => ⟨ts, _, _, rfl, callee, settled, h'⟩
  | invoke type settled =>
    exact meets_bind.2 (meets_lift (Library.findType_eq type) (h.invoke settled fun _ h' => h'.moved))
  | loadStatic value =>
    exact meets_bind.2 (meets_lift (Library.findValue_eq value) (h.loadStatic hk ha value fun _ h' => h'.moved))
  | loadFunction callee =>
    obtain ⟨g, hg, -⟩ := callee.known
    refine meets_bind.2 (meets_lift (Library.findFunction_eq hg) (meets_moved ?_))
    obtain ⟨bytes, rs, ls, hm, lays, sound, hls⟩ := h
    have nothing : v.Callee b _ ([] ++ _) _ := callee.mono hk
    exact meets_pushCell (n := b) hm lays sound hls (.closure nothing rfl .nil) (Nat.le_refl b) rfl
  | makeClosure function callee =>
    exact meets_bind.2 (meets_lift (Library.findFunction_eq function)
      (h.makeClosure (callee.mono hk) (Signature.closureLayout_eq _) fun _ h' => h'.moved))
  | incRef offset => exact h.incRef offset fun _ h' => h'.moved
  | decRef offset heap settled => exact h.decRef offset heap settled fun _ h' => h'.moved
  | call calls callee settled =>
    cases calls with
    | here => exact meets_pure.2 ⟨_, _, _, rfl, callee.mono hk, settled, h⟩
    | first import_ =>
      exact meets_bind.2 (meets_lift (Library.findImport_eq import_) ⟨_, _, _, rfl, callee.mono hk, settled, h⟩)
    | any import_ =>
      exact meets_bind.2 (meets_lift (Library.findImport_eq import_) ⟨_, _, _, rfl, callee.mono hk, settled, h⟩)
  | subscript type settled =>
    exact meets_bind.2 (meets_lift (Library.findType_eq type)
      (meets_moved ((h.subscript settled).imp (fun _ _ h' => h'.leads) fun _ _ h => h)))
  | makeList type =>
    exact meets_bind.2 (meets_lift (Library.findType_eq type) (h.makeList fun _ h' => h'.moved))
  | copyVariable offset size settled => exact h.copy settled size (by omega) fun _ h' => h'.moved
  | copyArgument offset size settled =>
    have hle : ¬a.base < x + y := by omega
    simp only [if_neg hle]
    exact h.copy settled size (by omega) fun _ h' => h'.moved
  | drop offset size idle => exact h.drop offset size idle fun _ h' => h'.moved

end View

end StackScript
