import StackScript.Proofs.Hosting

/-!
References in data that code takes and gives up. The handles of a datum are found at the offsets of their slots; what is
left of a datum that gave up its references can be dropped.
-/
namespace StackScript

/-! ### Spent data -/

namespace Datum

mutual

theorem atoms_of_size : ∀ {d : Datum}, d.ty.size = 0 → d.atoms = []
  | .tuple ds, h => show atomsOf ds = [] from atomsOf_of_sizes h
  | .void, _ => rfl

theorem atomsOf_of_sizes : ∀ {ds : List Datum}, Ty.sizes (tys ds) = 0 → atomsOf ds = []
  | [], _ => rfl
  | d :: ds, h => by
    rw [tys, Ty.sizes, Nat.add_eq_zero_iff] at h
    rw [atomsOf, atoms_of_size h.1, atomsOf_of_sizes h.2, List.append_nil]

end

end Datum

namespace Pile

/-- What is left of a datum without the references to its cells. -/
def spent (d : Datum) : Pile := (d.atoms.map Piece.spend).reverse

/-- What is left of data that lie one above another. -/
def spentAll (ds : List Datum) : Pile := ((Datum.atomsOf ds).map Piece.spend).reverse

@[simp] theorem spentAll_nil : spentAll [] = [] := rfl

@[simp] theorem spentAll_cons (d : Datum) (ds : List Datum) : spentAll (d :: ds) = spentAll ds ++ spent d := by
  simp [spentAll, spent, Datum.atomsOf]

@[simp] theorem spentAll_append (ds es : List Datum) : spentAll (ds ++ es) = spentAll es ++ spentAll ds := by
  simp [spentAll, Datum.atomsOf_append]

@[simp] theorem size_spent (d : Datum) : size (spent d) = d.ty.size := by
  rw [spent, size_atoms Piece.size_spend, Datum.tys_atoms, Ty.sizes_atoms]

@[simp] theorem size_spentAll (ds : List Datum) : size (spentAll ds) = Ty.sizes (Datum.tys ds) := by
  rw [spentAll, size_atoms Piece.size_spend, Datum.tys_atomsOf, Ty.sizes_atomsOf]

theorem idle_spent (d : Datum) : Idle (spent d) := by
  simp only [Idle, spent, List.mem_reverse, List.mem_map]
  rintro _ ⟨a, ha, rfl⟩
  exact Piece.isIdle_spend (Datum.isAtom_of_mem ha)

theorem idle_spentAll (ds : List Datum) : Idle (spentAll ds) := by
  simp only [Idle, spentAll, List.mem_reverse, List.mem_map]
  rintro _ ⟨a, ha, rfl⟩
  exact Piece.isIdle_spend (Datum.isAtom_of_mem_all ha)

theorem settled_spend (as : List Datum) : Settled (as.map Piece.spend).reverse := by
  simp only [Settled, List.mem_reverse, List.mem_map]
  rintro _ ⟨a, -, rfl⟩
  unfold Piece.spend
  split <;> rfl

theorem settled_spent (d : Datum) : Settled (spent d) := settled_spend _

theorem settled_spentAll (ds : List Datum) : Settled (spentAll ds) := settled_spend _

end Pile

namespace Compilation

variable {c d e : Compilation} {op : Opcode} {span : Span} {t : Ty} {P Q : Pile → Pile → Prop}

/-- Code was written that takes piles to others and leaves the depth of the draft. -/
structure Brings (P : Pile → Pile → Prop) (c d : Compilation) : Prop where
  grows : c.Grows d
  depth : d.draft.depth = c.draft.depth
  converts : ∀ s u, P s u → c.Converts d s (.ok u)

theorem Brings.refl (hc : c.Hosts) : Brings Eq c c :=
  ⟨.refl hc _, rfl, fun s _ h => h ▸ converts_refl c s⟩

theorem Brings.trans (h : Brings P c d) (k : Brings Q d e) : Brings (fun s t => ∃ u, P s u ∧ Q u t) c e :=
  ⟨h.grows.trans k.grows, k.depth.trans h.depth, fun _ _ ⟨_, hu, hv⟩ =>
    (h.converts _ _ hu).trans (k.converts _ _ hv) h.grows k.grows⟩

theorem Brings.imp (h : Brings P c d) (f : ∀ s u, Q s u → P s u) : Brings Q c d :=
  ⟨h.grows, h.depth, fun s u hq => h.converts s u (f s u hq)⟩

theorem Adds.brings {a b : Nat} (h : Adds op a b c d) (moves : ∀ (w : Store) (k : Nat) (s u : Pile), P s u →
    w.Moves k op a b s (.ok u)) : Brings P c d :=
  ⟨h.grows, h.depth, fun s u hu => h.converts fun w _ => moves w _ s u hu⟩

/-! ### Loops over handles -/

/-- The pieces of cells change one by one, each while those below it have changed already. -/
def Turns (op : Opcode) (F G : Datum → Piece) (y z : Pile) : Prop :=
  ∀ (w : Store) (k : Nat) (p q : List Datum) (a : Datum), a.isCell →
    w.Moves k op (Pile.size (y ++ (q.map F).reverse)) 0 (y ++ (q.map F).reverse ++ F a :: ((p.map G).reverse ++ z))
      (.ok (y ++ (q.map F).reverse ++ G a :: ((p.map G).reverse ++ z)))

/-- How the handles among atoms of some types change. -/
def Turned (op : Opcode) (F G : Datum → Piece) (f : Nat → Nat) (base : Nat) (ts : List Ty) (s u : Pile) : Prop :=
  ∃ (y z : Pile) (as p : List Datum), as.map Datum.ty = ts ∧ Turns op F G y z ∧
    (∀ i j, i + handleSize + j = base + Ty.sizes ts → f i = y.size + j) ∧
    s = y ++ ((as.map F).reverse ++ ((p.map G).reverse ++ z)) ∧ u = y ++ (((p ++ as).map G).reverse ++ z)

/-- The handles among atoms change from the bottom up, by an instruction that takes the distance of one below the top. -/
theorem Hosts.eachHandle (op : Opcode) (span : Span) {F G : Datum → Piece} {f : Nat → Nat} (hop : op.arity = 1)
    (hF : ∀ a, (F a).size = a.ty.size) (same : ∀ a, a.isCell = false → F a = G a) :
    ∀ (ts : List Ty) (base : Nat) {c : Compilation}, c.Hosts →
      Meets (((Ty.handleSlots base ts).map f).forM fun n => Compile.emit1 op n span) c
        (fun _ d => Brings (Turned op F G f base ts) c d) fun _ _ => True
  | [], base, c, hc => by
    refine meets_pure.2 ((Brings.refl hc).imp ?_)
    rintro _ _ ⟨y, z, as, p, has, -, -, rfl, rfl⟩
    obtain rfl := List.map_eq_nil_iff.1 has
    simp
  | t :: ts, base, c, hc => by
    have rest {d : Compilation} (hd : d.Hosts) := hd.eachHandle op span (f := f) hop hF same ts (base + t.size)
    -- The first atom has turned, and the others are to follow.
    have next {y z : Pile} {a : Datum} {as p : List Datum} (has : as.map Datum.ty = ts) (ha : a.ty = t)
        (turns : Turns op F G y z)
        (hf : ∀ i j, i + handleSize + j = base + Ty.sizes (t :: ts) → f i = y.size + j) :
        Turned op F G f (base + t.size) ts (y ++ (as.map F).reverse ++ G a :: ((p.map G).reverse ++ z))
          (y ++ (((p ++ a :: as).map G).reverse ++ z)) :=
      ⟨y, z, as, p ++ [a], has, turns, fun i j hij => hf i j (by rw [hij, Ty.sizes]; omega), by simp, by simp⟩
    rw [Ty.handleSlots]
    split
    · next ht =>
      refine (hc.emit1 hop (f base) span).seq fun _ d hd => ?_
      have first : Brings (fun s u => ∃ (y z : Pile) (a : Datum) (as p : List Datum), as.map Datum.ty = ts ∧ a.ty = t ∧
          Turns op F G y z ∧
          f base = Pile.size (y ++ (as.map F).reverse) ∧
          s = y ++ (as.map F).reverse ++ F a :: ((p.map G).reverse ++ z) ∧
          u = y ++ (as.map F).reverse ++ G a :: ((p.map G).reverse ++ z)) c d := by
        refine hd.brings ?_
        rintro w k _ _ ⟨y, z, a, as, p, has, ha, turns, hbase, rfl, rfl⟩
        rw [hbase]
        exact turns w k p as a (by rw [← Datum.isHeap_ty, ha]; exact ht)
      refine (rest hd.grows.hosts).imp (fun _ e he => (first.trans he).imp ?_) fun _ _ h => h
      rintro _ _ ⟨y, z, as, p, has, turns, hf, rfl, rfl⟩
      obtain ⟨a, as, rfl, ha, has⟩ := List.map_eq_cons_iff.1 has
      refine ⟨_, ⟨y, z, a, as, p, has, ha, turns, ?_, by simp, rfl⟩, next has ha turns hf⟩
      have hsize := Ty.size_of_isHeap ht
      rw [Pile.size_append, Pile.size_atoms hF, has]
      exact hf base (Ty.sizes ts) (by rw [Ty.sizes, hsize]; omega)
    · next ht =>
      refine (rest hc).imp (fun _ d hd => hd.imp ?_) fun _ _ h => h
      rintro _ _ ⟨y, z, as, p, has, turns, hf, rfl, rfl⟩
      obtain ⟨a, as, rfl, ha, has⟩ := List.map_eq_cons_iff.1 has
      have hsame := same a (by rw [← Datum.isHeap_ty, ha]; simpa using ht)
      have shape : y ++ (((a :: as).map F).reverse ++ ((p.map G).reverse ++ z)) =
          y ++ (as.map F).reverse ++ G a :: ((p.map G).reverse ++ z) := by simp [hsame]
      rw [shape]
      exact next has ha turns hf

theorem turns_decRef {y z : Pile} (hy : y.Settled) (hz : z.Settled) : Turns .decRef .own Piece.spend y z := by
  intro w k p q a ha
  have spend : Piece.spend a = .spent := if_pos ha
  rw [spend]
  refine .decRef rfl ha ?_
  simp only [Pile.settled_append]
  exact ⟨⟨hy, Pile.settled_own q⟩, Pile.settled_spend p, hz⟩

theorem turns_incRef (z : Pile) : Turns .incRef Piece.lend .own [] z := by
  intro w k p q a ha
  have lend : Piece.lend a = .lent a := if_pos ha
  rw [lend]
  exact .incRef rfl ha

/-- A datum gives up its references. -/
theorem Hosts.releaseAt (hc : c.Hosts) (t : Ty) (f : Nat → Nat) (span : Span) :
    Meets (Compile.releaseAt (t.slots.map f) span) c (fun _ d => Brings (fun s u => ∃ (y z : Pile) (v : Datum),
      v.ty = t ∧ y.Settled ∧ z.Settled ∧ (∀ i j, i + handleSize + j = t.size → f i = y.size + j) ∧
        s = y ++ (Pile.of v ++ z) ∧ u = y ++ (Pile.spent v ++ z)) c d) fun _ _ => True := by
  rw [Compile.releaseAt, Ty.slots, Ty.slotsFrom_eq]
  refine (hc.eachHandle .decRef span (F := .own) (G := Piece.spend) rfl (fun _ => rfl)
    (fun a ha => by simp [Piece.spend, ha]) t.atoms 0).imp (fun _ d hd => hd.imp ?_) fun _ _ h => h
  rintro _ _ ⟨y, z, v, rfl, hy, hz, hf, rfl, rfl⟩
  refine ⟨y, z, v.atoms, [], v.tys_atoms, turns_decRef hy hz, fun i j hij => hf i j ?_, rfl, rfl⟩
  rw [hij, Ty.sizes_atoms, Nat.zero_add]

/-- The copy of a datum takes references of its own. -/
theorem Hosts.retain (hc : c.Hosts) (t : Ty) (span : Span) :
    Meets (Compile.retain t span) c (fun _ d => Brings (fun s u => ∃ (z : Pile) (v : Datum), v.ty = t ∧
      s = (v.atoms.map Piece.lend).reverse ++ z ∧ u = Pile.of v ++ z) c d) fun _ _ => True := by
  rw [Compile.retain, Ty.distances, Ty.slots, Ty.slotsFrom_eq]
  refine (hc.eachHandle .incRef span (F := Piece.lend) (G := .own) rfl Piece.size_lend
    (fun a ha => by simp [Piece.lend, ha]) t.atoms 0).imp (fun _ d hd => hd.imp ?_) fun _ _ h => h
  rintro _ _ ⟨z, v, rfl, rfl, rfl⟩
  refine ⟨[], z, v.atoms, [], v.tys_atoms, turns_incRef z, fun i j hij => ?_, rfl, rfl⟩
  rw [Ty.sizes_atoms] at hij
  rw [Pile.size_nil]
  change v.ty.size - i - handleSize = 0 + j
  omega

/-! ### Dropping -/

/-- Pieces that hold no references are removed from under others. -/
theorem Hosts.dropUnder (hc : c.Hosts) (m n : Nat) (span : Span) :
    Meets (if 0 < n then Compile.emit2 .drop m n span else pure ()) c (fun _ d => Brings (fun s u => ∃ y x z : Pile,
      y.size = m ∧ x.size = n ∧ x.Idle ∧ (n = 0 → x = []) ∧ s = y ++ (x ++ z) ∧ u = y ++ z) c d) fun _ _ => True := by
  split
  · refine (hc.emit2 rfl m n span).imp (fun _ d hd => hd.brings ?_) fun _ _ h => h
    rintro w k _ _ ⟨y, x, z, hm, hn, hx, -, rfl, rfl⟩
    exact .drop hm hn hx
  · next h =>
    refine (Brings.refl hc).imp ?_
    rintro _ _ ⟨y, x, z, -, -, -, hnil, rfl, rfl⟩
    rw [hnil (by omega), List.nil_append]

theorem Hosts.dropThen {m n : Nat} {α : Type} {k : Unit → Compile α} {ok : α → Compilation → Prop} (hc : c.Hosts)
    (hk : ∀ d, Brings (fun s u => ∃ y x z : Pile, y.size = m ∧ x.size = n ∧ x.Idle ∧ (n = 0 → x = []) ∧
      s = y ++ (x ++ z) ∧ u = y ++ z) c d → Meets (k ()) d ok fun _ _ => True) :
    Meets (if 0 < n then Compile.emit2 .drop m n span >>= k else k ()) c ok fun _ _ => True := by
  have h := hc.dropUnder m n span
  split
  · next hpos =>
    rw [if_pos hpos] at h
    exact h.seq fun _ d hd => hk d hd
  · next hpos =>
    rw [if_neg hpos] at h
    exact hk c h

/-- The draft counts other bytes. -/
theorem Hosts.setDepth (hc : c.Hosts) (n : Nat) : c.Grows { c with draft := { c.draft with depth := n } } :=
  hc.draft ⟨rfl, rfl, rfl, rfl, rfl, .refl _⟩ hc.code

theorem Converts.setDepth {s : Pile} {out : Except Fault Pile} (h : c.Converts d s out) (n : Nat) :
    c.Converts { d with draft := { d.draft with depth := n } } s out := h

/-- The datum on top is given up. -/
theorem Hosts.discard (hc : c.Hosts) (t : Ty) (span : Span) :
    Meets (Compile.discard t span) c (fun _ d => c.Grows d ∧ d.draft.depth = c.draft.depth - t.size ∧
      ∀ v s, Datum.ty v = t → s.Settled → c.Converts d (Pile.of v ++ s) (.ok s)) fun _ _ => True := by
  refine (hc.releaseAt t _ span).seq fun _ d hd => ?_
  refine hd.grows.hosts.dropThen fun e he => ?_
  have hde := hd.trans he
  refine ⟨hde.grows.trans (he.grows.hosts.setDepth _), congrArg (· - t.size) hde.depth, fun v s hv hs => ?_⟩
  refine (hde.converts _ _ ⟨_, ⟨[], s, v, hv, Pile.settled_nil, hs, fun i j hij => ?_, rfl, rfl⟩, [], Pile.spent v, s, rfl,
    by rw [Pile.size_spent, hv], Pile.idle_spent v, fun h => ?_, rfl, rfl⟩).setDepth _
  · rw [Pile.size_nil]
    omega
  · rw [Pile.spent, Datum.atoms_of_size (hv ▸ h)]
    rfl

/-! ### Data that lie one above another -/

theorem Hosts.releaseStack (depth : Nat) (span : Span) : ∀ {locals : List (Nat × Ty)} {n : Nat} {c : Compilation},
    c.Hosts → Stacked n locals →
      Meets (locals.forM fun (offset, t) =>
        Compile.releaseAt (t.slots.map fun slot => depth - (offset + slot) - handleSize) span) c
        (fun _ d => Brings (fun s u => ∃ (y z : Pile) (vs : List Datum), Datum.tys vs = locals.map (·.2) ∧ y.Settled ∧
          z.Settled ∧ z.size = n ∧ s.size = depth ∧ s = y ++ (Pile.ofAll vs ++ z) ∧
          u = y ++ (Pile.spentAll vs ++ z)) c d) fun _ _ => True
  | [], n, c, hc, _ => by
    refine meets_pure.2 ((Brings.refl hc).imp ?_)
    rintro _ _ ⟨y, z, vs, hvs, -, -, -, -, rfl, rfl⟩
    cases vs with
    | nil => rfl
    | cons => cases hvs
  | (offset, t) :: rest, n, c, hc, hst => by
    obtain ⟨rfl, hst⟩ := hst
    refine (hc.releaseAt t _ span).seq fun _ d hd => ?_
    refine (hd.grows.hosts.releaseStack depth span hst).imp (fun _ e he => (hd.trans he).imp ?_) fun _ _ h => h
    rintro _ _ ⟨y, z, vs, hvs, hy, hz, hn, hdepth, rfl, rfl⟩
    cases vs with
    | nil => cases hvs
    | cons v vs =>
      rw [Datum.tys, List.map_cons, List.cons.injEq] at hvs
      obtain ⟨rfl, hvs⟩ := hvs
      refine ⟨_, ⟨y ++ Pile.ofAll vs, z, v, rfl, Pile.settled_append.2 ⟨hy, Pile.settled_ofAll vs⟩, hz, fun i j hij => ?_,
        by simp, rfl⟩, y, Pile.spent v ++ z, vs, hvs, hy, Pile.settled_append.2 ⟨Pile.settled_spent v, hz⟩, ?_, ?_, by simp,
        by simp⟩
      · simp only [Pile.size_append, Pile.size_ofAll, Pile.ofAll_cons, Pile.size_of] at hdepth ⊢
        omega
      · rw [Pile.size_append, Pile.size_spent, hn, Nat.add_comm]
      · simp only [Pile.size_append, Pile.size_ofAll, Pile.ofAll_cons, Pile.size_of, Pile.size_spent] at hdepth ⊢
        omega

theorem spentAll_of_sizes {vs : List Datum} (h : Ty.sizes (Datum.tys vs) = 0) : Pile.spentAll vs = [] := by
  rw [Pile.spentAll, Datum.atomsOf_of_sizes h]
  rfl

/-- The variables of a block are removed from under its value. -/
theorem Hosts.releaseLocals {locals : List (Nat × Ty)} {n : Nat} (hc : c.Hosts) (hst : Stacked n locals) (t : Ty)
    (span : Span) : Meets (Compile.releaseLocals locals t span) c (fun _ d => Brings (fun s u => ∃ (v : Datum)
      (vs : List Datum) (z : Pile), v.ty = t ∧ Datum.tys vs = locals.map (·.2) ∧ z.Settled ∧ z.size = n ∧
        s.size = c.draft.depth ∧ s = Pile.of v ++ (Pile.ofAll vs ++ z) ∧ u = Pile.of v ++ z) c d) fun _ _ => True := by
  refine meets_bind.2 (meets_getDraft.2 (meets_bind.2 ?_))
  refine (hc.releaseStack _ span hst).imp (fun _ d hd => ?_) fun _ _ h => h
  refine (hd.grows.hosts.dropUnder t.size _ span).imp (fun _ e he => (hd.trans he).imp ?_) fun _ _ h => h
  rintro _ _ ⟨v, vs, z, hv, hvs, hz, hn, hdepth, rfl, rfl⟩
  refine ⟨_, ⟨_, z, vs, hvs, Pile.settled_of v, hz, hn, hdepth, rfl, rfl⟩, _, _, z, ?_, ?_, Pile.idle_spentAll vs,
    fun h => spentAll_of_sizes (hvs ▸ h), rfl, rfl⟩
  · rw [Pile.size_of, hv]
  · rw [Pile.size_spentAll, hvs]

/-! ### Tuples -/

/-- Items that are not the one left out give up their references. -/
theorem Hosts.releaseItems (span : Span) (total skip : Nat) : ∀ {l : List Ty} {i p : Nat} {c : Compilation}, c.Hosts →
    (∀ j < l.length, i + j ≠ skip) →
      Meets (Compile.releaseAt (Compile.otherDistances total skip i p l) span) c
        (fun _ d => Brings (fun s u => ∃ (y z : Pile) (vs : List Datum), Datum.tys vs = l ∧ y.Settled ∧ z.Settled ∧
          total = p + Ty.sizes l + y.size ∧ s = y ++ (Pile.ofAll vs ++ z) ∧ u = y ++ (Pile.spentAll vs ++ z)) c d)
        fun _ _ => True
  | [], i, p, c, hc, _ => by
    refine meets_pure.2 ((Brings.refl hc).imp ?_)
    rintro _ _ ⟨y, z, vs, hvs, -, -, -, rfl, rfl⟩
    cases vs with
    | nil => rfl
    | cons => cases hvs
  | t :: ts, i, p, c, hc, hne => by
    have hi : i ≠ skip := hne 0 (by simp)
    rw [Compile.otherDistances, if_neg hi, releaseAt_append]
    refine (hc.releaseAt t _ span).seq fun _ d hd => ?_
    refine (hd.grows.hosts.releaseItems span total skip (l := ts) (i := i + 1) (p := p + t.size) fun j hj => ?_).imp
      (fun _ e he => (hd.trans he).imp ?_) fun _ _ h => h
    · have := hne (j + 1) (Nat.succ_lt_succ hj)
      omega
    rintro _ _ ⟨y, z, vs, hvs, hy, hz, htotal, rfl, rfl⟩
    cases vs with
    | nil => cases hvs
    | cons v vs =>
      rw [Datum.tys, List.cons.injEq] at hvs
      obtain ⟨rfl, rfl⟩ := hvs
      rw [Ty.sizes] at htotal
      refine ⟨_, ⟨y ++ Pile.ofAll vs, z, v, rfl, Pile.settled_append.2 ⟨hy, Pile.settled_ofAll vs⟩, hz, fun a b hab => ?_,
        by simp, rfl⟩, y, Pile.spent v ++ z, vs, rfl, hy, Pile.settled_append.2 ⟨Pile.settled_spent v, hz⟩, ?_, by simp,
        by simp⟩
      · rw [Pile.size_append, Pile.size_ofAll]
        omega
      · omega

theorem exists_of_tys_eq {vs : List Datum} {pre post : List Ty} {t : Ty} (h : Datum.tys vs = pre ++ t :: post) :
    ∃ as v bs, vs = as ++ v :: bs ∧ Datum.tys as = pre ∧ Datum.ty v = t ∧ Datum.tys bs = post := by
  simp only [Datum.tys_eq_map] at h ⊢
  obtain ⟨as, us, rfl, has, hus⟩ := List.map_eq_append_iff.1 h
  obtain ⟨v, bs, rfl, hv, hbs⟩ := List.map_eq_cons_iff.1 hus
  exact ⟨as, v, bs, rfl, has, hv, hbs⟩

/-- One item of a tuple is kept. -/
theorem Hosts.selectItem (hc : c.Hosts) (object : Expr) (t : Ty) (i : Nat) (span : Span) :
    Meets (Compile.selectItem object t i span) c (fun r d => (∃ items, t = .tuple items ∧ items[i]? = some r) ∧
      Brings (fun s u => ∃ (vs : List Datum) (z : Pile), .tuple (Datum.tys vs) = t ∧ z.Settled ∧
        s = Pile.ofAll vs ++ z ∧ u = Pile.of (vs.getD i .void) ++ z) c d) fun _ _ => True := by
  unfold Compile.selectItem
  split
  · next items =>
    split
    · trivial
    · next item hitem =>
      obtain ⟨hlt, he⟩ := List.getElem?_eq_some_iff.1 hitem
      obtain ⟨pre, post, rfl, hpre⟩ : ∃ pre post, items = pre ++ item :: post ∧ pre.length = i :=
        ⟨items.take i, items.drop (i + 1), by rw [← he, List.getElem_cons_drop, List.take_append_drop],
          List.length_take_of_le (Nat.le_of_lt hlt)⟩
      have htake : (pre ++ item :: post).take i = pre := List.take_left' hpre
      have hsize : (Ty.tuple (pre ++ item :: post)).size = Ty.sizes pre + (item.size + Ty.sizes post) := by
        rw [Ty.size, Ty.sizes_append, Ty.sizes]
      rw [htake, hsize, otherDistances_append, releaseAt_append, Compile.otherDistances, if_pos (by omega),
        List.nil_append]
      generalize htotal : Ty.sizes pre + (item.size + Ty.sizes post) = total
      refine meets_bind.2 ((hc.releaseItems span total i fun j hj => by omega).seq fun _ d hd => ?_)
      refine (hd.grows.hosts.releaseItems span total i fun j hj => by omega).imp (fun _ e he => ?_) fun _ _ h => h
      refine he.grows.hosts.dropThen fun f hf => hf.grows.hosts.dropThen fun g hg => ?_
      refine meets_pure.2 ⟨⟨_, rfl, hitem⟩, (((hd.trans he).trans hf).trans hg).imp ?_⟩
      rintro _ _ ⟨vs, z, hvs, hz, rfl, rfl⟩
      obtain ⟨as, v, bs, rfl, rfl, rfl, rfl⟩ := exists_of_tys_eq (Ty.tuple.inj hvs)
      have hlen : as.length = i := by rw [← hpre, Datum.tys_eq_map, List.length_map]
      have hget : (as ++ v :: bs).getD i .void = v := by simp [← hlen]
      have settled := (Pile.settled_append.2 ⟨Pile.settled_ofAll bs, Pile.settled_of v⟩)
      have settled' := Pile.settled_append.2 ⟨Pile.settled_of v, Pile.settled_append.2 ⟨Pile.settled_spentAll as, hz⟩⟩
      refine ⟨_, ⟨_, ⟨_, ⟨Pile.ofAll bs ++ Pile.of v, z, as, rfl, settled, hz, ?_, by simp, rfl⟩,
        [], Pile.of v ++ (Pile.spentAll as ++ z), bs, rfl, Pile.settled_nil, settled', ?_, by simp, rfl⟩,
        [], Pile.spentAll bs, Pile.of v ++ (Pile.spentAll as ++ z), rfl, ?_, Pile.idle_spentAll bs,
          fun h => spentAll_of_sizes ?_, by simp, rfl⟩,
        Pile.of v, Pile.spentAll as, z, Pile.size_of v, Pile.size_spentAll as, Pile.idle_spentAll as, spentAll_of_sizes,
        by simp, by rw [hget]⟩
      · simp only [Pile.size_append, Pile.size_ofAll, Pile.size_of]
        omega
      · rw [Pile.size_nil]
        omega
      · rw [Pile.size_spentAll]
        omega
      · omega
  · trivial

end Compilation

end StackScript
