import StackScript.Proofs.Emitting

/-!
Taking and giving up the handles of values on the stack. They are found at the offsets of their slots; what is left
of a value that gave up its handles can be dropped.
-/
namespace StackScript

namespace Ty

/-- Offsets of the handles among scalars and handles that lie one above another. -/
def handleSlots (base : Nat) : List Ty → List Nat
  | [] => []
  | t :: ts => (if t.isHeap then [base] else []) ++ handleSlots (base + t.size) ts

theorem handleSlots_append (base : Nat) (ts us : List Ty) :
    handleSlots base (ts ++ us) = handleSlots base ts ++ handleSlots (base + sizes ts) us := by
  induction ts generalizing base with
  | nil => rfl
  | cons t ts ih => simp only [List.cons_append, handleSlots, ih, sizes, List.append_assoc, Nat.add_assoc]

mutual

theorem slotsFrom_eq : ∀ (t : Ty) (base : Nat), t.slotsFrom base = handleSlots base t.atoms
  | .tuple ts, base => slotsOf_eq ts base
  | .unknown, _ | .void, _ | .module, _ => rfl
  | .bool, _ | .byte, _ | .char, _ | .int32, _ | .int64, _ | .float32, _ | .float64, _ => rfl
  | .string, _ | .list _, _ | .function _ _, _ => rfl

theorem slotsOf_eq : ∀ (ts : List Ty) (base : Nat), slotsOf base ts = handleSlots base (atomsOf ts)
  | [], _ => rfl
  | t :: ts, base => by
    rw [slotsOf, atomsOf, handleSlots_append, slotsFrom_eq t, slotsOf_eq ts, sizes_atoms]

end

mutual

theorem pos_of_mem_atoms : ∀ {t a : Ty}, a ∈ t.atoms → 0 < a.size
  | .tuple ts, _, h => pos_of_mem_atomsOf h
  | .unknown, _, h | .void, _, h | .module, _, h => by simp [atoms] at h
  | .bool, _, h | .byte, _, h | .char, _, h | .int32, _, h | .int64, _, h | .float32, _, h | .float64, _, h
  | .string, _, h | .list _, _, h | .function _ _, _, h => by
    rw [atoms, List.mem_singleton] at h
    · subst h
      simp [size, handleSize]
    all_goals nofun

theorem pos_of_mem_atomsOf : ∀ {ts : List Ty} {a : Ty}, a ∈ atomsOf ts → 0 < a.size
  | [], _, h => by simp [atomsOf] at h
  | t :: ts, _, h => by
    rw [atomsOf, List.mem_append] at h
    exact h.elim pos_of_mem_atoms pos_of_mem_atomsOf

end

end Ty

/-! ### Spent values -/

/-- A place without the handle that it owned. -/
def Slot.spend : Slot → Slot
  | .own t => if t.isHeap then .spent else .own t
  | s => s

namespace Shape

def spend (s : Shape) : Shape := s.map Slot.spend

@[simp] theorem spend_nil : spend [] = [] := rfl

@[simp] theorem spend_append (s u : Shape) : spend (s ++ u) = spend s ++ spend u := by
  simp [spend]

@[simp] theorem size_spend (s : Shape) : size (spend s) = size s := by
  induction s with
  | nil => rfl
  | cons a s ih =>
    have ha : a.spend.size = a.size := by
      cases a with
      | own t =>
        by_cases ht : t.isHeap
        · simp [Slot.spend, Slot.size, ht, Ty.size_of_isHeap ht]
        · simp [Slot.spend, ht]
      | _ => rfl
    rw [spend, List.map_cons, size_cons, size_cons, ha]
    exact congrArg _ ih

theorem idle_spend {s : Shape} (h : s.Settled) : (spend s).Idle := by
  intro a ha
  obtain ⟨b, hb, rfl⟩ := List.mem_map.1 ha
  have := h b hb
  cases b with
  | own t => by_cases ht : t.isHeap <;> simp [Slot.spend, Slot.isIdle, ht]
  | lent t => simp [Slot.isLent] at this
  | spent => rfl

theorem settled_spend {s : Shape} (h : s.Settled) : (spend s).Settled := fun a ha => by
  have := idle_spend h a ha
  cases a <;> first | rfl | simp [Slot.isIdle] at this

theorem ofTy_of_size {t : Ty} (h : t.size = 0) : ofTy t = [] := by
  cases ha : t.atoms with
  | nil => rw [ofTy, ha]; rfl
  | cons a as =>
    have hpos : 0 < a.size := Ty.pos_of_mem_atoms (t := t) (by rw [ha]; exact .head _)
    rw [← Ty.sizes_atoms, ha, Ty.sizes] at h
    omega

theorem ofTys_of_sizes {ts : List Ty} (h : Ty.sizes ts = 0) : ofTys ts = [] := by
  induction ts with
  | nil => rfl
  | cons t ts ih =>
    rw [Ty.sizes, Nat.add_eq_zero_iff] at h
    rw [ofTys_cons, ofTy_of_size h.1, ih h.2, List.append_nil]

theorem lend_ofTy (t : Ty) : (ofTy t).map Slot.lend = (t.atoms.map fun a => (Slot.own a).lend).reverse := by
  rw [ofTy, List.map_reverse, List.map_map]
  rfl

theorem spend_ofTy (t : Ty) : spend (ofTy t) = (t.atoms.map fun a => (Slot.own a).spend).reverse := by
  rw [spend, ofTy, List.map_reverse, List.map_map]
  rfl

end Shape

namespace Compilation

variable {o : Surroundings} {c d e : Compilation} {s u y z : Shape} {span : Span} {op : Opcode} {t : Ty}

/-! ### Loops over handles -/

theorem size_atoms {F : Ty → Slot} (hF : ∀ a, (F a).size = a.size) (as : List Ty) :
    Shape.size (as.map F).reverse = Ty.sizes as := by
  rw [Shape.size_reverse]
  induction as with
  | nil => rfl
  | cons a as ih => rw [List.map_cons, Shape.size_cons, ih, hF, Ty.sizes]

/-- The handles among some atoms are changed from the bottom up, by an instruction that takes the distance of one
below the top. -/
theorem Ready.eachHandle (op : Opcode) (span : Span) {F G : Ty → Slot} {f : Nat → Nat} (hop : op.arity = 1) (hF : ∀ a, (F a).size = a.size)
    (same : ∀ a, a.isHeap = false → F a = G a)
    (move : ∀ (c : Compilation) (p q : List Ty) (a : Ty), a.isHeap →
      c.Steps o op (Shape.size (y ++ (q.map F).reverse)) 0
        (y ++ (q.map F).reverse ++ F a :: ((p.map G).reverse ++ z))
        (y ++ (q.map F).reverse ++ G a :: ((p.map G).reverse ++ z))) :
    ∀ (as p : List Ty) (base : Nat) {c : Compilation}, c.Ready o →
      (∀ i j, i + handleSize + j = base + Ty.sizes as → f i = y.size + j) →
      Meets (((Ty.handleSlots base as).map f).forM fun n => Compile.emit1 op n span) c
        (fun _ d => c.Emits o d (y ++ ((as.map F).reverse ++ ((p.map G).reverse ++ z)))
          (y ++ (((p ++ as).map G).reverse ++ z))) fun _ => Failed o
  | [], p, base, c, hc, _ => by
    refine meets_pure.2 ?_
    simpa using Emits.refl hc (y ++ ((p.map G).reverse ++ z))
  | a :: as, p, base, c, hc, hf => by
    have rest {d : Compilation} (hd : d.Ready o) :
        Meets (((Ty.handleSlots (base + a.size) as).map f).forM fun n => Compile.emit1 op n span) d
          (fun _ e => d.Emits o e (y ++ ((as.map F).reverse ++ (((p ++ [a]).map G).reverse ++ z)))
            (y ++ (((p ++ a :: as).map G).reverse ++ z))) fun _ => Failed o := by
      have := hd.eachHandle op span hop hF same move as (p ++ [a]) (base + a.size) fun i j hij =>
        hf i j (by rw [hij, Ty.sizes]; omega)
      simpa using this
    have shape : y ++ (((a :: as).map F).reverse ++ ((p.map G).reverse ++ z)) =
        y ++ (as.map F).reverse ++ F a :: ((p.map G).reverse ++ z) := by simp
    have shape' : y ++ ((as.map F).reverse ++ (((p ++ [a]).map G).reverse ++ z)) =
        y ++ (as.map F).reverse ++ G a :: ((p.map G).reverse ++ z) := by simp
    rw [Ty.handleSlots, shape]
    rw [shape'] at rest
    cases ha : a.isHeap with
    | false =>
      rw [same a ha]
      exact rest hc
    | true =>
      have hsize := Ty.size_of_isHeap ha
      have hdist : f base = Shape.size (y ++ (as.map F).reverse) := by
        rw [Shape.size_append, size_atoms hF]
        exact hf base (Ty.sizes as) (by rw [Ty.sizes, hsize]; omega)
      refine meets_bind.2 ?_
      rw [hdist]
      exact (hc.emit1 hop (move c p as a ha)).imp
        (fun _ d hd => (rest hd.reaches.ready).imp (fun _ e he => hd.trans he) fun _ _ h => h) fun _ _ h => h

theorem size_lend (a : Ty) : (Slot.own a).lend.size = a.size := by
  by_cases ha : a.isHeap <;> simp [Slot.lend, ha, Slot.size]

/-- A value gives up its handles. -/
theorem Ready.releaseAt (span : Span) {f : Nat → Nat} (hc : c.Ready o) (ha : y.Settled) (hb : z.Settled)
    (hf : ∀ i j, i + handleSize + j = t.size → f i = y.size + j) :
    Meets (Compile.releaseAt (t.slots.map f) span) c
      (fun _ d => c.Emits o d (y ++ (Shape.ofTy t ++ z)) (y ++ (Shape.spend (Shape.ofTy t) ++ z)))
      fun _ => Failed o := by
  have settled : ∀ as : List Ty, Shape.Settled (as.map fun a => (Slot.own a).spend).reverse := fun as => by
    rw [← List.map_reverse]
    intro x hx
    obtain ⟨a, -, rfl⟩ := List.mem_map.1 hx
    by_cases h : a.isHeap <;> simp [Slot.spend, Slot.isLent, h]
  have settled' : ∀ as : List Ty, Shape.Settled (as.map Slot.own).reverse := fun as => by
    rw [← List.map_reverse]
    intro x hx
    obtain ⟨a, -, rfl⟩ := List.mem_map.1 hx
    rfl
  have := hc.eachHandle .decRef span (F := Slot.own) (G := fun a => (Slot.own a).spend) (y := y)
    (z := z) (f := f) rfl (fun _ => rfl) (fun a ha => by simp [Slot.spend, ha])
    (fun c p q a hh w _ => by
      have hsp : (Slot.own a).spend = .spent := by simp [Slot.spend, hh]
      rw [hsp]
      refine .decRef rfl hh ?_
      simp only [Shape.settled_append]
      exact ⟨⟨ha, settled' q⟩, settled p, hb⟩)
    t.atoms [] 0 fun i j hij => hf i j (by rw [hij, Ty.sizes_atoms, Nat.zero_add])
  rw [Compile.releaseAt, Ty.slots, Ty.slotsFrom_eq, Shape.spend_ofTy]
  simpa [Shape.ofTy] using this

/-- The copy of a value takes references of its own. -/
theorem Ready.retain (hc : c.Ready o) :
    Meets (Compile.retain t span) c
      (fun _ d => c.Emits o d ((Shape.ofTy t).map Slot.lend ++ s) (Shape.ofTy t ++ s)) fun _ => Failed o := by
  have := hc.eachHandle .incRef span (F := fun a => (Slot.own a).lend) (G := Slot.own) (y := [])
    (z := s) (f := fun slot => t.size - slot - handleSize) rfl size_lend
    (fun a ha => by simp [Slot.lend, ha])
    (fun c p q a hh w _ => by
      have hl : (Slot.own a).lend = .lent a := by simp [Slot.lend, hh]
      rw [hl]
      exact .incRef rfl)
    t.atoms [] 0 fun i j hij => by
      rw [Ty.sizes_atoms] at hij
      rw [Shape.size_nil]
      omega
  rw [Compile.retain, Ty.distances, Ty.slots, Ty.slotsFrom_eq, Shape.lend_ofTy]
  simpa [Shape.ofTy] using this

/-! ### Dropping -/

/-- Bytes that hold no handles any more are removed from under others. -/
theorem Ready.dropUnder (span : Span) {m n : Nat} (hc : c.Ready o) (hm : y.size = m) (hn : u.size = n) (hu : u.Idle)
    (hnil : n = 0 → u = []) :
    Meets (if 0 < n then Compile.emit2 .drop m n span else pure ()) c
      (fun _ d => c.Emits o d (y ++ (u ++ z)) (y ++ z)) fun _ => Failed o := by
  split
  · refine hc.emit2 rfl fun w _ => ?_
    rw [← List.append_assoc]
    exact .drop hm hn hu
  · next h =>
    rw [hnil (by omega)]
    exact .refl hc _

theorem Ready.dropThen {m n : Nat} {α : Type} {k : Unit → Compile α} {ok : α → Compilation → Prop} (hc : c.Ready o)
    (hm : y.size = m) (hn : u.size = n) (hu : u.Idle) (hnil : n = 0 → u = [])
    (hk : ∀ d, c.Emits o d (y ++ (u ++ z)) (y ++ z) → Meets (k ()) d ok fun _ => Failed o) :
    Meets (if 0 < n then Compile.emit2 .drop m n span >>= k else k ()) c ok fun _ => Failed o := by
  have h := hc.dropUnder span (z := z) hm hn hu hnil
  split
  · next hpos =>
    rw [if_pos hpos] at h
    exact h.seq fun _ d hd => hk d hd
  · next hpos =>
    rw [if_neg hpos] at h
    exact hk c h

theorem Ready.sink {n : Nat} (hc : c.Ready o) (hl : c.Level (u ++ s)) (hu : u.size = n)
    (hs : c.draft.frame ≤ s.size) :
    Meets (Compile.sink n) c (fun _ d => c.Reaches o (fun _ => none) d s s ∧ d.Level s) fun _ => Failed o := by
  refine ⟨Reaches.setDepth hc (c.draft.depth - n) s, ?_⟩
  rw [Level, Shape.size_append, hu] at hl
  change c.draft.frame + (c.draft.depth - n) = s.size
  omega

/-- The value on top is given up. -/
theorem Ready.discard (hc : c.Ready o) (hs : s.Settled) (hl : c.Level (Shape.ofTy t ++ s))
    (hframe : c.draft.frame ≤ s.size) :
    Meets (Compile.discard t span) c
      (fun _ d => c.Reaches o (fun _ => none) d (Shape.ofTy t ++ s) s ∧ d.Level s) fun _ => Failed o := by
  refine meets_bind.2 ((hc.releaseAt span (y := []) Shape.settled_nil hs fun i j hij => ?_).imp
    (fun _ d hd => ?_) fun _ _ h => h)
  · rw [Shape.size_nil]
    omega
  refine hd.reaches.ready.dropThen (y := []) (z := s) rfl (by simp) (Shape.idle_spend (Shape.settled_ofTy t))
    (fun h => by rw [Shape.ofTy_of_size h, Shape.spend_nil]) fun e he => ?_
  have hde := hd.trans he
  refine (hde.reaches.ready.sink (u := Shape.ofTy t) (s := s) ?_ (by simp) ?_).imp
    (fun _ e' ⟨hr, hl'⟩ => ⟨hde.reaches.trans hr, hl'⟩) fun _ _ h => h
  · rw [Level, hde.reaches.writes.frame, hde.depth]
    exact hl
  · rwa [hde.reaches.writes.frame]

/-! ### Values that lie one above another -/

/-- Variables with their places, from a place on upwards. -/
def Stacked (n : Nat) : List (Nat × Ty) → Prop
  | [] => True
  | (offset, t) :: rest => offset = n ∧ Stacked (n + t.size) rest

/-- The slots of variables that lie one above another. -/
def stack (locals : List (Nat × Ty)) : Shape := Shape.ofTys (locals.map (·.2)).reverse

@[simp] theorem stack_nil : stack [] = [] := rfl

@[simp] theorem stack_cons (p : Nat × Ty) (locals : List (Nat × Ty)) :
    stack (p :: locals) = stack locals ++ Shape.ofTy p.2 := by
  simp [stack]

@[simp] theorem stack_append (ps qs : List (Nat × Ty)) : stack (ps ++ qs) = stack qs ++ stack ps := by
  simp [stack]

theorem settled_stack (locals : List (Nat × Ty)) : (stack locals).Settled := Shape.settled_ofTys _

theorem size_stack (locals : List (Nat × Ty)) : (stack locals).size = Ty.sizes (locals.map (·.2)) := by
  rw [stack, Shape.size_ofTys, Ty.sizes_reverse]

theorem Ready.releaseStack (depth frame : Nat) : ∀ {locals : List (Nat × Ty)} {n : Nat} {z : Shape}
    {c : Compilation}, c.Ready o → y.Settled → z.Settled → Stacked n locals → z.size = frame + n →
      frame + depth = (y ++ (stack locals ++ z)).size →
      Meets (locals.forM fun (offset, t) =>
        Compile.releaseAt (t.slots.map fun slot => depth - (offset + slot) - handleSize) span)
        c (fun _ d => c.Emits o d (y ++ (stack locals ++ z)) (y ++ ((stack locals).spend ++ z)))
        fun _ => Failed o
  | [], n, z, c, hc, _, _, _, _, _ => Emits.refl hc _
  | (offset, t) :: rest, n, z, c, hc, ha, hb, hst, hn, hdepth => by
    obtain ⟨rfl, hst⟩ := hst
    simp only [stack_cons, Shape.size_append, Shape.size_ofTy] at hdepth
    have hsettled := Shape.settled_append.2 ⟨ha, settled_stack rest⟩
    refine meets_bind.2 ((hc.releaseAt span (t := t) (y := y ++ stack rest) hsettled hb fun i j hij => ?_).imp
      (fun _ d hd => ?_) fun _ _ h => h)
    · rw [Shape.size_append]
      omega
    have := hd.reaches.ready.releaseStack depth frame (z := (Shape.ofTy t).spend ++ z) ha
      (Shape.settled_append.2 ⟨Shape.settled_spend (Shape.settled_ofTy t), hb⟩) hst
      (by simp only [Shape.size_append, Shape.size_spend, Shape.size_ofTy]; omega)
      (by simp only [Shape.size_append, Shape.size_spend, Shape.size_ofTy]; omega)
    refine this.imp (fun _ e he => ?_) fun _ _ h => h
    simp only [stack_cons, Shape.spend_append, List.append_assoc] at hd he ⊢
    exact hd.trans he

/-- The variables of a block are removed from under its value. -/
theorem Ready.releaseLocals {locals : List (Nat × Ty)} {n : Nat} (hc : c.Ready o) (hs : s.Settled)
    (hst : Stacked n locals) (hn : s.size = c.draft.frame + n) (hl : c.Level (Shape.ofTy t ++ (stack locals ++ s))) :
    Meets (Compile.releaseLocals locals t span) c
      (fun _ d => c.Emits o d (Shape.ofTy t ++ (stack locals ++ s)) (Shape.ofTy t ++ s)) fun _ => Failed o := by
  refine meets_bind.2 (meets_getDraft.2 (meets_bind.2 ?_))
  refine (hc.releaseStack _ _ (Shape.settled_ofTy t) hs hst hn hl).imp (fun _ d hd => ?_) fun _ _ h => h
  refine (hd.reaches.ready.dropUnder span (by simp) (by rw [Shape.size_spend, size_stack])
    (Shape.idle_spend (settled_stack locals)) fun h => ?_).imp (fun _ e he => hd.trans he) fun _ _ h => h
  rw [stack, Shape.ofTys_of_sizes (by rwa [Ty.sizes_reverse]), Shape.spend_nil]

/-! ### Frames -/

theorem releaseAt_append (as bs : List Nat) : Compile.releaseAt (as ++ bs) span =
    Compile.releaseAt as span >>= fun _ => Compile.releaseAt bs span := by
  simp only [Compile.releaseAt, List.forM_eq_forM, List.forM_append]

theorem Ready.releaseFrom (span : Span) : ∀ {l : List Ty} {y : Shape} {c : Compilation}, c.Ready o → y.Settled →
    z.Settled → Meets (Compile.releaseAt (Draft.distancesFrom y.size l) span) c
      (fun _ d => c.Emits o d (y ++ (Shape.ofTys l ++ z)) (y ++ ((Shape.ofTys l).spend ++ z)))
      fun _ => Failed o
  | [], y, c, hc, _, _ => Emits.refl hc _
  | t :: ts, y, c, hc, ha, hb => by
    have hsettled := Shape.settled_append.2 ⟨Shape.settled_ofTys ts, hb⟩
    have hdist : t.distances.map (y.size + ·) =
        t.slots.map fun slot => y.size + (t.size - slot - handleSize) := by
      rw [Ty.distances, List.map_map]
      rfl
    have hfirst := hc.releaseAt span (t := t) (f := fun slot => y.size + (t.size - slot - handleSize))
      ha hsettled fun i j hij => by omega
    rw [Draft.distancesFrom, releaseAt_append, hdist]
    refine hfirst.seq fun _ d hd => ?_
    have := hd.reaches.ready.releaseFrom span (l := ts) (y := y ++ (Shape.ofTy t).spend)
      (Shape.settled_append.2 ⟨ha, Shape.settled_spend (Shape.settled_ofTy t)⟩) hb
    simp only [Shape.size_append, Shape.size_spend, Shape.size_ofTy] at this
    refine this.imp (fun _ e he => ?_) fun _ _ h => h
    simp only [Shape.ofTys_cons, Shape.spend_append, List.append_assoc] at hd he ⊢
    exact hd.trans he

/-- The frame is removed from under the result. -/
theorem Ready.releaseFrame (hc : c.Ready o) (sg : Signature) (t : Ty) (span : Span) :
    Meets (Compile.releaseFrame sg t span) c
      (fun _ d => c.Emits o d (Shape.ofTy t ++ Shape.ofTys (Draft.frameTypes sg)) (Shape.ofTy t)) fun _ => Failed o := by
  have hframe := hc.releaseFrom span (l := Draft.frameTypes sg) (y := Shape.ofTy t) (z := [])
    (Shape.settled_ofTy t) Shape.settled_nil
  rw [Shape.size_ofTy] at hframe
  refine hframe.seq fun _ d hd => ?_
  have hsize : sg.frameSize = Ty.sizes (Draft.frameTypes sg) := by
    simp only [Signature.frameSize, Signature.closureSize, Draft.frameTypes, Ty.sizes_append]
  have hdrop := hd.reaches.ready.dropUnder span (z := []) (y := Shape.ofTy t) (m := t.size)
    (n := sg.frameSize) (u := (Shape.ofTys (Draft.frameTypes sg)).spend) (by simp)
    (by rw [Shape.size_spend, Shape.size_ofTys, hsize]) (Shape.idle_spend (Shape.settled_ofTys _))
    fun h => by rw [Shape.ofTys_of_sizes (hsize ▸ h), Shape.spend_nil]
  refine hdrop.imp (fun _ e he => ?_) fun _ _ h => h
  simpa only [List.append_nil] using hd.trans he

/-! ### Tuples -/

theorem otherDistances_append (total skip : Nat) : ∀ (i pos : Nat) (as bs : List Ty),
    Compile.otherDistances total skip i pos (as ++ bs) = Compile.otherDistances total skip i pos as ++
      Compile.otherDistances total skip (i + as.length) (pos + Ty.sizes as) bs
  | _, _, [], _ => rfl
  | i, pos, a :: as, bs => by
    rw [List.cons_append, Compile.otherDistances, otherDistances_append, Compile.otherDistances, List.append_assoc,
      List.length_cons, Ty.sizes, Nat.add_assoc i, Nat.add_comm 1, Nat.add_assoc pos]

/-- Items that are not the one left out give up their handles. -/
theorem Ready.releaseItems (span : Span) (total skip : Nat) : ∀ {l : List Ty} {i p : Nat} {z : Shape} {c : Compilation},
    c.Ready o → y.Settled → z.Settled → (∀ j < l.length, i + j ≠ skip) →
      total = p + Ty.sizes l + y.size →
      Meets (Compile.releaseAt (Compile.otherDistances total skip i p l) span) c
        (fun _ d => c.Emits o d (y ++ (Shape.ofTys l.reverse ++ z))
          (y ++ ((Shape.ofTys l.reverse).spend ++ z))) fun _ => Failed o
  | [], i, pos, z, c, hc, _, _, _, _ => Emits.refl hc _
  | t :: ts, i, pos, z, c, hc, ha, hb, hne, htotal => by
    have hi : i ≠ skip := hne 0 (by simp)
    rw [Ty.sizes] at htotal
    rw [Compile.otherDistances, if_neg hi, releaseAt_append]
    have hsettled := Shape.settled_append.2 ⟨ha, Shape.settled_ofTys ts.reverse⟩
    have hfirst := hc.releaseAt span (t := t) (f := fun slot => total - (pos + slot) - handleSize)
      hsettled hb fun i j hij => by
        rw [Shape.size_append, Shape.size_ofTys, Ty.sizes_reverse]
        omega
    refine hfirst.seq fun _ d hd => ?_
    have := hd.reaches.ready.releaseItems span total skip (l := ts) (i := i + 1) (p := pos + t.size)
      (z := (Shape.ofTy t).spend ++ z) ha
      (Shape.settled_append.2 ⟨Shape.settled_spend (Shape.settled_ofTy t), hb⟩)
      (fun j hj => by
        have := hne (j + 1) (Nat.succ_lt_succ hj)
        omega) (by omega)
    refine this.imp (fun _ e he => ?_) fun _ _ h => h
    simp only [List.reverse_cons, Shape.ofTys_append, Shape.ofTys_cons, Shape.ofTys_nil, List.append_nil,
      Shape.spend_append, List.append_assoc] at hd he ⊢
    exact hd.trans he

/-- One item of a tuple is kept. -/
theorem Ready.selectItem {object : Expr} {i : Nat} (hc : c.Ready o) (hs : s.Settled) (ht : t.Known) :
    Meets (Compile.selectItem object t i span) c
      (fun r d => r.Known ∧ c.Reaches o (fun _ => none) d (Shape.ofTy t ++ s) (Shape.ofTy r ++ s))
      fun _ => Failed o := by
  unfold Compile.selectItem
  split
  · next items =>
    split
    · exact hc.failed
    · next item hitem =>
      obtain ⟨hlt, he⟩ := List.getElem?_eq_some_iff.1 hitem
      obtain ⟨pre, post, rfl, hpre⟩ : ∃ pre post, items = pre ++ item :: post ∧ pre.length = i :=
        ⟨items.take i, items.drop (i + 1), by rw [← he, List.getElem_cons_drop, List.take_append_drop],
          List.length_take_of_le (Nat.le_of_lt hlt)⟩
      have htake : (pre ++ item :: post).take i = pre := List.take_left' hpre
      have hsize : (Ty.tuple (pre ++ item :: post)).size = Ty.sizes pre + (item.size + Ty.sizes post) := by
        rw [Ty.size, Ty.sizes_append, Ty.sizes]
      have hshape : Shape.ofTy (.tuple (pre ++ item :: post)) =
          Shape.ofTys post.reverse ++ (Shape.ofTy item ++ Shape.ofTys pre.reverse) := by
        simp [Shape.ofTy_tuple]
      have hknown : item.Known := (Ty.known_tuple.1 ht) item (by simp)
      have hitemSettled := Shape.settled_ofTy item
      have hpostSettled := Shape.settled_ofTys post.reverse
      rw [htake, hsize, hshape, otherDistances_append, releaseAt_append, Compile.otherDistances, if_pos (by omega),
        List.nil_append]
      have hbelow := hc.releaseItems span (Ty.sizes pre + (item.size + Ty.sizes post)) i (l := pre)
        (i := 0) (p := 0) (y := Shape.ofTys post.reverse ++ Shape.ofTy item) (z := s)
        (Shape.settled_append.2 ⟨hpostSettled, hitemSettled⟩) hs (fun j hj => by omega)
        (by
          rw [Shape.size_append, Shape.size_ofTys, Ty.sizes_reverse, Shape.size_ofTy]
          omega)
      refine meets_bind.2 (hbelow.seq fun _ d hd => ?_)
      have hspentSettled := Shape.settled_spend (Shape.settled_ofTys pre.reverse)
      have habove := hd.reaches.ready.releaseItems span (Ty.sizes pre + (item.size + Ty.sizes post)) i
        (l := post) (i := pre.length + 1) (p := Ty.sizes pre + item.size) (y := [])
        (z := Shape.ofTy item ++ ((Shape.ofTys pre.reverse).spend ++ s)) Shape.settled_nil
        (Shape.settled_append.2 ⟨hitemSettled, Shape.settled_append.2 ⟨hspentSettled, hs⟩⟩)
        (fun j hj => by omega) (by rw [Shape.size_nil]; omega)
      simp only [Nat.zero_add]
      refine habove.imp (fun _ e he => ?_) fun _ _ h => h
      have hde := hd.trans (by simpa only [List.append_assoc, List.nil_append] using he)
      refine hde.reaches.ready.dropThen (y := []) (u := (Shape.ofTys post.reverse).spend)
        (z := Shape.ofTy item ++ ((Shape.ofTys pre.reverse).spend ++ s)) rfl
        (by rw [Shape.size_spend, Shape.size_ofTys, Ty.sizes_reverse]; omega)
        (Shape.idle_spend hpostSettled)
        (fun h => by rw [Shape.ofTys_of_sizes (by rw [Ty.sizes_reverse]; omega), Shape.spend_nil]) fun f hf => ?_
      refine hf.reaches.ready.dropThen (y := Shape.ofTy item) (u := (Shape.ofTys pre.reverse).spend) (z := s)
        (by simp) (by rw [Shape.size_spend, Shape.size_ofTys, Ty.sizes_reverse])
        (Shape.idle_spend (Shape.settled_ofTys _))
        (fun h => by rw [Shape.ofTys_of_sizes (by rwa [Ty.sizes_reverse]), Shape.spend_nil]) fun g hg => ?_
      refine meets_pure.2 ⟨hknown, ?_⟩
      have hall := (hde.trans (by simpa only [List.nil_append] using hf)).trans hg
      simpa only [List.append_assoc] using hall.reaches
  · exact hc.failed

end Compilation

end StackScript
