import StackScript.Proofs.Course
import StackScript.Proofs.ExecuteSound

/-!
What the machine does with data. Bytes on the stack show a pile of data, and every reference in them is counted; an
instruction leaves the bytes of the pile that it is said to make, unless the stack overflows or the heap outgrows its
handles.
-/
namespace StackScript

namespace Datum

/-- A cell that a handle leads to. -/
def Beyond (Δ : Denotation) (d : Datum) (r : Handle) : Prop :=
  ∃ v, d.Is Δ v ∧ v.encode = r.toBytes ∧ v.handles = [r]

variable {Δ : Denotation} {d : Datum} {v : Value} {r : Handle}

theorem Is.beyond (h : d.Is Δ v) (hd : d.isCell) : ∃ r, d.Beyond Δ r ∧ v.encode = r.toBytes ∧ v.handles = [r] := by
  cases d <;> first | exact Bool.noConfusion hd | skip
  all_goals
    cases v <;> first | exact h.elim | skip
    exact ⟨_, ⟨_, h, rfl, rfl⟩, rfl, rfl⟩

theorem Beyond.string {s : String} (h : (Datum.string s).Beyond Δ r) :
    if r.isNull then s = "" else Δ r = some (.string s) := by
  obtain ⟨v, is, -, hr⟩ := h
  cases v <;> first | exact is.elim | skip
  cases hr
  exact is

theorem Beyond.list {t : Ty} {ds : List Datum} (h : (Datum.list t ds).Beyond Δ r) :
    if r.isNull then ds = [] else Δ r = some (.list t ds) := by
  obtain ⟨v, is, -, hr⟩ := h
  cases v <;> first | exact is.elim | skip
  cases hr
  exact is.2

theorem beyond_of_some (hd : d.isCell) (hn : r.isNull = false) (h : Δ r = some d) : d.Beyond Δ r := by
  cases d <;> first | exact Bool.noConfusion hd | skip
  · exact ⟨.string r, by simp [Is, hn, h], rfl, rfl⟩
  · next t _ => exact ⟨.list t r, by simp [Is, hn, h], rfl, rfl⟩

end Datum

namespace Denotation.Lays

variable {Δ : Denotation} {s : Pile} {bs : Bytes} {rs ls : List Handle} {d : Datum} {r : Handle}

theorem cell_cons (h : Δ.Lays (.own d :: s) bs rs ls) (hd : d.isCell) :
    ∃ r cs rs', bs = r.toBytes.reverse ++ cs ∧ rs = r :: rs' ∧ d.Beyond Δ r ∧ Δ.Lays s cs rs' ls := by
  cases h with
  | cons head tail =>
    cases head with
    | own is =>
      obtain ⟨r, beyond, he, hr⟩ := is.beyond hd
      exact ⟨r, _, _, by rw [he], by rw [hr]; rfl, beyond, tail⟩

theorem lent_cons (h : Δ.Lays (.lent d :: s) bs rs ls) (hd : d.isCell) :
    ∃ r cs ls', bs = r.toBytes.reverse ++ cs ∧ ls = r :: ls' ∧ d.Beyond Δ r ∧ Δ.Lays s cs rs ls' := by
  cases h with
  | cons head tail =>
    cases head with
    | lent is =>
      obtain ⟨r, beyond, he, hr⟩ := is.beyond hd
      exact ⟨r, _, _, by rw [he], by rw [hr]; rfl, beyond, tail⟩

theorem push_cell (h : Δ.Lays s bs rs ls) (hd : d.Beyond Δ r) :
    Δ.Lays (.own d :: s) (r.toBytes.reverse ++ bs) (r :: rs) ls := by
  obtain ⟨v, is, he, hr⟩ := hd
  have := Lays.cons (.own is) h
  rwa [he, hr] at this

theorem push_spent {xs : Bytes} (h : Δ.Lays s bs rs ls) (hl : xs.length = handleSize) :
    Δ.Lays (.spent :: s) (xs ++ bs) rs ls := by
  have head : Δ.Fills .spent xs.reverse [] [] := .spent (by rw [List.length_reverse, hl])
  have := Lays.cons head h
  rwa [List.reverse_reverse] at this

theorem scalar_cons {i : Nat} (h : Δ.Lays (.own d :: s) bs rs ls) (hd : d.number? = some i) :
    ∃ cs, bs = (Bytes.ofNat d.ty.size i).reverse ++ cs ∧ Δ.Lays s cs rs ls := by
  cases h with
  | cons head tail =>
    cases head with
    | own is =>
      obtain ⟨he, hr, -⟩ := is.encode_eq hd
      exact ⟨_, by rw [he], by rw [hr]; exact tail⟩

theorem push_scalar {i : Nat} (h : Δ.Lays s bs rs ls) (hd : d.number? = some i) :
    Δ.Lays (.own d :: s) ((Bytes.ofNat d.ty.size i).reverse ++ bs) rs ls := by
  obtain ⟨v, is⟩ := d.exists_is hd Δ
  obtain ⟨he, hr, -⟩ := is.encode_eq hd
  have := Lays.cons (.own is) h
  rwa [he, hr] at this

theorem owned_eq_nil (h : Δ.Lays s bs rs ls) (hs : s.Idle) : rs = [] := by
  induction h with
  | nil => rfl
  | cons head _ ih =>
    rw [ih fun x hx => hs x (.tail _ hx), List.append_nil, List.reverse_eq_nil_iff]
    cases head with
    | own is =>
      obtain ⟨i, hi⟩ := Option.isSome_iff_exists.1 (hs _ (.head _))
      exact (is.encode_eq hi).2.1
    | lent | spent => rfl

end Denotation.Lays

namespace Store

variable {w : Store} {roots held : List Handle} {Δ : Denotation} {s u x : Pile} {m m' : Machine} {d e : Datum}
  {r : Handle} {k a b : Nat} {op : Opcode} {out : Except Fault Pile}

/-- What waits for the result of the code. -/
def host : Frame := ⟨none, 0, 0⟩

/-- The static texts are among what the handles lead to. -/
def Knows (w : Store) (roots : List Handle) (Δ : Denotation) : Prop :=
  ∀ r ∈ roots, ∀ d, w.heap.texts r = some d → Δ r = some d

/-- The stack shows a pile of data. Its references are counted with those at hand and the roots. -/
def Shows (w : Store) (roots : List Handle) (Δ : Denotation) (held : List Handle) (s : Pile) (m : Machine) : Prop :=
  ∃ bs rs ls, m.At bs [host] m.heap ∧ Δ.Lays s bs rs ls ∧ m.heap.Balanced (rs ++ (held ++ roots)) ∧ m.heap.Tells Δ ∧
    (∀ r ∈ ls, r.isNull = false → m.heap.Holds r) ∧ w.Knows roots Δ

/-- What the stack shows after an instruction, unless the heap has outgrown its handles. -/
def After (w : Store) (roots : List Handle) (out : Except Fault Pile) (m : Machine) : Prop :=
  m.heap.cells.size ≤ Heap.capacity → ∃ u Δ, out = .ok u ∧ w.Shows roots Δ [] u m

/-- How an instruction may fail. -/
def Failing (out : Except Fault Pile) (e : Fault) (m : Machine) : Prop :=
  m.heap.cells.size ≤ Heap.capacity → (∃ n, e = .stackOverflow n) ∨ out = .error e

theorem failing_overflow (out : Except Fault Pile) (n : Nat) (m : Machine) : Failing out (.stackOverflow n) m :=
  fun _ => .inl ⟨n, rfl⟩

/-- What an instruction leads to that calls nothing. -/
def Done {α : Type} (w : Store) (roots : List Handle) (out : Except Fault Pile) (f : Option α) (m : Machine) : Prop :=
  f = none ∧ w.After roots out m

namespace Shows

theorem located (h : w.Shows roots Δ held s m) : m.At m.stack.bytes [host] m.heap := by
  obtain ⟨_, _, _, hm, -⟩ := h
  exact ⟨rfl, hm.frames, rfl⟩

theorem same (h : w.Shows roots Δ held s m) (hm : m'.At m.stack.bytes [host] m.heap) : w.Shows roots Δ held s m' := by
  obtain ⟨bs, rs, ls, h₀, lays, balanced, tells, hls, knows⟩ := h
  exact ⟨bs, rs, ls, ⟨hm.bytes.trans h₀.bytes, hm.frames, rfl⟩, lays, hm.heap ▸ balanced, hm.heap ▸ tells,
    hm.heap ▸ hls, knows⟩

theorem after (h : w.Shows roots Δ [] u m) : w.After roots (.ok u) m := fun _ => ⟨u, Δ, rfl, h⟩

/-! ### Scalars -/

theorem pull_scalar {i : Nat} (h : w.Shows roots Δ held (.own d :: s) m) (hd : d.number? = some i) :
    ∃ bytes, m.At ((Bytes.ofNat d.ty.size i).reverse ++ bytes) [host] m.heap ∧
      ∀ m', m'.At bytes [host] m.heap → w.Shows roots Δ held s m' := by
  obtain ⟨bs, rs, ls, hm, lays, balanced, tells, hls, knows⟩ := h
  obtain ⟨cs, rfl, tail⟩ := lays.scalar_cons hd
  exact ⟨cs, hm, fun m' hm' => ⟨cs, rs, ls, hm'.heap ▸ hm', tail, hm'.heap ▸ balanced, hm'.heap ▸ tells,
    hm'.heap ▸ hls, knows⟩⟩

open Run

section

variable {α : Type} {ok : α → Machine → Prop} {bad : Fault → Machine → Prop}

theorem pullNat {i n : Nat} {ok : Nat → Machine → Prop} (h : w.Shows roots Δ held (.own d :: s) m)
    (hd : d.number? = some i) (hn : d.ty.size = n) (hok : ∀ m', w.Shows roots Δ held s m' → ok i m') :
    Meets (Run.pullNat n) m ok bad := by
  obtain ⟨v, is⟩ := d.exists_is hd Δ
  have hlt := (is.encode_eq hd).2.2
  obtain ⟨bytes, hm, next⟩ := h.pull_scalar hd
  refine meets_pullNat hm (by simp [hn]) fun m' hm' => ?_
  rw [List.reverse_reverse, Bytes.toNat_ofNat, Nat.mod_eq_of_lt hlt]
  exact hok m' (next m' hm')

theorem pullWord {v : Width} {n : Word v} {ok : Word v → Machine → Prop}
    (h : w.Shows roots Δ held (.own (.ofWord n) :: s) m) (hok : ∀ m', w.Shows roots Δ held s m' → ok n m') :
    Meets (Run.pullWord v) m ok bad := by
  unfold Run.pullWord
  refine meets_bind.2 (h.pullNat (Datum.number_ofWord n) (by rw [Datum.ty_ofWord, Width.size_ty]) fun m' h' => ?_)
  rw [BitVec.ofNat_toNat, BitVec.setWidth_eq]
  exact hok m' h'

theorem pullBool {x : Bool} {ok : Bool → Machine → Prop} (h : w.Shows roots Δ held (.own (.bool x) :: s) m)
    (hok : ∀ m', w.Shows roots Δ held s m' → ok x m') : Meets Run.pullBool m ok bad := by
  obtain ⟨bytes, hm, next⟩ := h.pull_scalar (show (Datum.bool x).number? = some x.toNat from rfl)
  refine meets_bind.2 (meets_pull hm (by simp [Datum.ty, Ty.size]) fun m' hm' => meets_pure.2 ?_)
  rw [List.reverse_reverse]
  have hx : (Bytes.ofNat (Datum.bool x).ty.size x.toNat != [0]) = x := by cases x <;> decide
  rw [hx]
  exact hok m' (next m' hm')

theorem pullInt32 {n : Int32} {ok : Int32 → Machine → Prop} (h : w.Shows roots Δ held (.own (.int32 n) :: s) m)
    (hok : ∀ m', w.Shows roots Δ held s m' → ok n m') : Meets Run.pullInt32 m ok bad := by
  refine meets_bind.2 (h.pullNat (i := n.toUInt32.toNat) rfl rfl fun m' h' => meets_pure.2 ?_)
  have hn : (UInt32.ofNat n.toUInt32.toNat).toInt32 = n := by simp
  rw [hn]
  exact hok m' h'

theorem push_scalar {i : Nat} {bs : Bytes} {ok : Unit → Machine → Prop} (h : w.Shows roots Δ held s m)
    (hd : d.number? = some i) (hbs : bs = Bytes.ofNat d.ty.size i)
    (hok : ∀ m', w.Shows roots Δ held (.own d :: s) m' → ok () m') :
    Meets (Run.push bs) m ok (Failing out) := by
  obtain ⟨bytes, rs, ls, hm, lays, balanced, tells, hls, knows⟩ := h
  refine meets_push hm (fun m' hm' => hok m' ⟨bs.reverse ++ bytes, rs, ls, hm'.heap ▸ hm', ?_, hm'.heap ▸ balanced,
    hm'.heap ▸ tells, hm'.heap ▸ hls, knows⟩) (failing_overflow out _ m)
  rw [hbs]
  exact lays.push_scalar hd

theorem pushNat {i n : Nat} {ok : Unit → Machine → Prop} (h : w.Shows roots Δ held s m) (hd : d.number? = some i)
    (hn : d.ty.size = n) (hok : ∀ m', w.Shows roots Δ held (.own d :: s) m' → ok () m') :
    Meets (Run.pushNat n i) m ok (Failing out) :=
  h.push_scalar hd (by rw [hn]) hok

theorem pushBool {x : Bool} {ok : Unit → Machine → Prop} (h : w.Shows roots Δ held s m)
    (hok : ∀ m', w.Shows roots Δ held (.own (.bool x) :: s) m' → ok () m') :
    Meets (Run.pushBool x) m ok (Failing out) :=
  h.push_scalar (d := .bool x) rfl (by cases x <;> rfl) hok

theorem pushWord {v : Width} {n : Word v} {ok : Unit → Machine → Prop} (h : w.Shows roots Δ held s m)
    (hok : ∀ m', w.Shows roots Δ held (.own (.ofWord n) :: s) m' → ok () m') :
    Meets (Run.pushWord n) m ok (Failing out) :=
  h.pushNat (Datum.number_ofWord n) (by rw [Datum.ty_ofWord, Width.size_ty]) hok

/-! ### Cells -/

/-- The handle on top leaves the stack; its reference is still held. -/
theorem pullHandle {ok : Handle → Machine → Prop} (h : w.Shows roots Δ held (.own d :: s) m) (hd : d.isCell)
    (hok : ∀ r m', d.Beyond Δ r → w.Shows roots Δ (r :: held) s m' → ok r m') : Meets Run.pullHandle m ok bad := by
  obtain ⟨bytes, rs, ls, hm, lays, balanced, tells, hls, knows⟩ := h
  obtain ⟨r, cs, rs', rfl, rfl, beyond, lays⟩ := lays.cell_cons hd
  exact meets_pullHandle hm fun m' hm' => hok r m' beyond ⟨cs, rs', ls, hm'.heap ▸ hm', lays,
    hm'.heap ▸ balanced.perm List.perm_middle.symm, hm'.heap ▸ tells, hm'.heap ▸ hls, knows⟩

theorem decref {ok : Bool → Machine → Prop} (h : w.Shows roots Δ (r :: held) s m) (hs : s.Settled)
    (hok : ∀ freed m', w.Shows roots Δ held s m' → ok freed m') : Meets (Run.decref r) m ok bad := by
  obtain ⟨bytes, rs, ls, hm, lays, balanced, tells, hls, knows⟩ := h
  obtain rfl := lays.lent_eq_nil hs
  obtain ⟨heap, freed, e, balanced', keeps⟩ := (balanced.perm List.perm_middle).decref
  exact meets_decref hm e fun m' hm' => hok freed m' ⟨bytes, rs, [], hm'.heap ▸ hm', lays, hm'.heap ▸ balanced',
    hm'.heap ▸ tells.filled keeps.filled, by simp, knows⟩

/-- What a reference at hand leads to is in the heap. -/
theorem content (h : w.Shows roots Δ (r :: held) s m) (hn : r.isNull = false) (hr : Δ r = some d) :
    ∃ x, m.heap.filled? r = some x ∧ m.heap.content r = .ok x ∧ x.Tells Δ d := by
  obtain ⟨bytes, rs, ls, hm, lays, balanced, tells, hls, knows⟩ := h
  obtain ⟨x, hx⟩ := Heap.holds_iff.1 (balanced.holds (.inl (by simp)) hn)
  obtain ⟨c, hcell⟩ := Heap.filled?_eq_some.1 hx
  exact ⟨x, hx, by simp [Heap.content, hcell], tells r d x hr hx⟩

theorem string {y : String} (h : w.Shows roots Δ (r :: held) s m) (hr : (Datum.string y).Beyond Δ r) :
    m.heap.string r = .ok y := by
  have beyond := hr.string
  unfold Heap.string
  cases hn : r.isNull with
  | true =>
    rw [if_pos hn] at beyond
    rw [beyond]
    rfl
  | false =>
    rw [hn] at beyond
    obtain ⟨x, -, hx, tells⟩ := h.content hn (by simpa using beyond)
    cases x <;> first | exact tells.elim | skip
    obtain rfl := tells
    simp [hx, bind, Except.bind]

/-- The bytes of a list. -/
theorem list {t : Ty} {ds : List Datum} (h : w.Shows roots Δ (r :: held) s m) (hr : (Datum.list t ds).Beyond Δ r) :
    ∃ u vs, m.heap.list r = .ok (u, Value.encodes vs) ∧ (t.size = 0 → ds = []) ∧ Datum.AreAll Δ ds vs ∧
      (∀ v ∈ vs, v.ty = t) ∧ ∀ q ∈ Value.handlesOf vs, q.isNull = false → m.heap.Holds q := by
  have beyond := hr.list
  unfold Heap.list
  cases hn : r.isNull with
  | true =>
    rw [if_pos hn] at beyond
    subst beyond
    exact ⟨.unknown, [], rfl, fun _ => rfl, trivial, nofun, nofun⟩
  | false =>
    rw [hn] at beyond
    obtain ⟨x, hfilled, hx, tells⟩ := h.content hn (by simpa using beyond)
    cases x <;> first | exact tells.elim | skip
    obtain ⟨rfl, hnil, vs, rfl, all, tys⟩ := tells
    refine ⟨_, vs, by simp only [Bool.false_eq_true, if_false, hx]; rfl, hnil, all, tys, fun q hq hqn => ?_⟩
    obtain ⟨_, _, _, _, _, balanced, _⟩ := h
    obtain ⟨c, hcell⟩ := Heap.filled?_eq_some.1 hfilled
    exact balanced.holds (.inr (Heap.mem_inner hcell (by rwa [Content.held_eq (Value.listHandles tys)]))) hqn

theorem pullString {y : String} {ok : String → Machine → Prop} (h : w.Shows roots Δ held (.own (.string y) :: s) m)
    (hs : s.Settled) (hok : ∀ m', w.Shows roots Δ held s m' → ok y m') : Meets Run.pullString m ok bad :=
  meets_bind.2 (h.pullHandle rfl fun _ _ beyond h₁ => meets_bind.2 (meets_readHeap h₁.located (h₁.string beyond)
    (meets_bind.2 (h₁.decref hs fun _ m₂ h₂ => hok m₂ h₂))))

/-- A new cell takes over the references to what it contains, and its handle is pushed. -/
theorem pushCell {x : Content} (h : w.Shows roots Δ x.held s m) (hd : d.isCell) (hx : x.Tells Δ d) :
    Meets (alloc x >>= pushHandle) m (fun _ => w.After roots (.ok (.own d :: s))) (Failing out) := by
  obtain ⟨bytes, rs, ls, hm, lays, balanced, tells, hls, knows⟩ := h
  refine meets_bind.2 (meets_alloc hm fun m₁ hm₁ => meets_pushHandle hm₁ (fun m₂ hm₂ hcap => ?_)
    (failing_overflow out _ m₁))
  rw [hm₂.heap] at hcap
  have allocates := Heap.allocates balanced.tidy x hcap
  generalize (m.heap.alloc x).1 = h' at *
  generalize (m.heap.alloc x).2 = r at *
  have perm : (rs ++ (x.held ++ roots)).Perm (x.held ++ (rs ++ roots)) := by
    rw [← List.append_assoc, ← List.append_assoc]
    exact List.perm_append_comm.append_right roots
  have balanced' := (balanced.perm perm).alloc hx.readable hcap allocates
  have fresh {q : Handle} (hq : m.heap.Holds q) : q ≠ r := by
    rintro rfl
    rw [Heap.Holds, allocates.fresh] at hq
    cases hq
  have hn : r.isNull = false := by
    obtain ⟨c, -, hc⟩ := allocates.self
    exact balanced'.isNull_of_cell hc
  -- The new handle was free before, so that nothing that is still in use changes its meaning.
  have agree {q : Handle} (hq : m.heap.Holds q) {d' : Datum} (hd' : Δ q = some d') :
      (fun p => if p = r then some d else Δ p) q = some d' := by
    simp only [if_neg (fresh hq), hd']
  refine ⟨_, fun q => if q = r then some d else Δ q, rfl, r.toBytes.reverse ++ bytes, r :: rs, ls, hm₂.heap ▸ hm₂, ?_,
    hm₂.heap ▸ balanced', ?_, fun q hq hqn => ?_, fun q hq d' hd' => ?_⟩
  · refine (lays.mono fun q hq hqn d' hd' => agree ?_ hd').push_cell (Datum.beyond_of_some hd hn (by simp))
    rcases List.mem_append.1 hq with hq | hq
    · exact balanced.holds (.inl (List.mem_append_left _ hq)) hqn
    · exact hls q hq hqn
  · intro q d' y hq hy
    rw [hm₂.heap] at hy
    by_cases hqr : q = r
    · subst hqr
      obtain ⟨c, -, hc⟩ := allocates.self
      rw [Heap.filled?, hc] at hy
      cases hy
      simp only [if_pos] at hq
      cases hq
      exact hx.mono fun p hp hpn d' hd' => agree (balanced.holds (.inl (by simp [hp])) hpn) hd'
    · have hy' : m.heap.filled? q = some y := by rwa [Heap.filled?, ← allocates.others q hqr]
      obtain ⟨c, hc⟩ := Heap.filled?_eq_some.1 hy'
      simp only [if_neg hqr] at hq
      exact (tells q d' y hq hy').mono fun p hp hpn d' hd' =>
        agree (balanced.holds (.inr (Heap.mem_inner hc hp)) hpn) hd'
  · rw [hm₂.heap, Heap.Holds, allocates.others q (fresh (hls q hq hqn))]
    exact hls q hq hqn
  · have hold := knows q hq d' hd'
    by_cases hqr : q = r
    · subst hqr
      exact absurd rfl (fresh (balanced.holds (.inl (by simp [hq])) hn))
    · simp only [if_neg hqr, hold]

/-! ### Instructions on scalars -/

theorem finished (h : w.Shows roots Δ [] u m) :
    Meets (pure (none : Option α)) m (w.Done roots (.ok u)) (Failing out) :=
  ⟨rfl, h.after⟩

theorem meets_done {x : Run Unit} {result : Except Fault Pile}
    (h : Meets x m (fun _ => w.After roots result) (Failing out)) :
    Meets (x >>= fun _ => pure (none : Option α)) m (w.Done roots result) (Failing out) :=
  h.seq fun _ _ h' => ⟨rfl, h'⟩

theorem negate {v : Width} {n : Word v} (h : w.Shows roots Δ [] (.own (.ofWord n) :: s) m) :
    Meets (runWord v .negate) m (fun _ => w.After roots (.ok (.own (.ofWord (-n)) :: s))) (Failing out) :=
  meets_bind.2 (h.pullWord fun _ h₁ => h₁.pushWord fun _ h₂ => h₂.after)

theorem bitNot {v : Width} {n : Word v} (h : w.Shows roots Δ [] (.own (.ofWord n) :: s) m) :
    Meets (runWord v .bitNot) m (fun _ => w.After roots (.ok (.own (.ofWord (~~~n)) :: s))) (Failing out) :=
  meets_bind.2 (h.pullWord fun _ h₁ => h₁.pushWord fun _ h₂ => h₂.after)

theorem compare {c : Comparison} {v : Width} {i j : Nat} (h : w.Shows roots Δ [] (.own d :: .own e :: s) m)
    (hd : d.number? = some i) (he : e.number? = some j) (hds : d.ty.size = v.size) (hes : e.ty.size = v.size) :
    Meets (runWord v (.compare c)) m (fun _ => w.After roots
      (.ok (.own (.bool (Word.test c (BitVec.ofNat v.bits i : Word v) (BitVec.ofNat v.bits j))) :: s))) (Failing out) :=
  meets_bind.2 (meets_bind.2 (h.pullNat hd hds fun _ h₁ => meets_pure.2 (meets_bind.2 (meets_bind.2
    (h₁.pullNat he hes fun _ h₂ => meets_pure.2 (h₂.pushBool fun _ h₃ => h₃.after))))))

/-- Division by zero and exponents that are too large break off the run. -/
theorem arith {op : Arith} {v : Width} {n k : Word v}
    (h : w.Shows roots Δ [] (.own (.ofWord n) :: .own (.ofWord k) :: s) m) :
    Meets (runWord v (.arith op)) m (fun _ => w.After roots ((Word.arith op n k).map fun x => .own (.ofWord x) :: s))
      (Failing ((Word.arith op n k).map fun x => .own (.ofWord x) :: s)) := by
  refine meets_bind.2 (h.pullWord fun _ h₁ => meets_bind.2 (h₁.pullWord fun m₂ h₂ => meets_bind.2 ?_))
  cases Word.arith op n k with
  | ok x => exact meets_lift rfl (h₂.pushWord fun _ h₃ => h₃.after)
  | error e => exact fun _ => .inr rfl

/-! ### Instructions on handles -/

theorem holds_root (h : w.Shows roots Δ held s m) (hr : r ∈ roots) (hn : r.isNull = false) : m.heap.Holds r := by
  obtain ⟨_, _, _, _, _, balanced, _⟩ := h
  exact balanced.holds (.inl (by simp [hr])) hn

/-- A value is pushed, and references to its cells are taken. -/
theorem loadStatic {v : Value} (h : w.Shows roots Δ [] s m) (hv : d.Is w.heap.texts v) (hr : ∀ r ∈ v.handles, r ∈ roots) :
    Meets (onHeap v.incref >>= fun _ => pushValue v) m (fun _ => w.After roots (.ok (Pile.of d ++ s))) (Failing out) := by
  have live : ∀ r ∈ v.handles, r.isNull = false → m.heap.Holds r := fun r hv hn => h.holds_root (hr r hv) hn
  obtain ⟨bytes, rs, ls, hm, lays, balanced, tells, hls, knows⟩ := h
  have is : d.Is Δ v := hv.mono fun r hv _ e he => knows r (hr r hv) e he
  obtain ⟨heap, e, balanced₁, hsize, hfilled⟩ := balanced.increfs live
  refine meets_bind.2 (meets_onHeap hm e fun m₁ hm₁ => meets_push hm₁ (fun m₂ hm₂ => after ⟨v.encode.reverse ++ bytes,
    v.handles.reverse ++ rs, ls, hm₂.heap ▸ hm₂, ( Denotation.Lays.of_datum is).append lays, ?_, ?_, fun r hr hn => ?_,
    knows⟩) (failing_overflow out _ m₁))
  · rw [hm₂.heap, List.append_assoc]
    exact balanced₁.perm ((List.reverse_perm v.handles).symm.append_right _)
  · rw [hm₂.heap]
    exact tells.filled fun r x hx => hfilled r ▸ hx
  · rw [hm₂.heap, Heap.holds_iff, hfilled r, ← Heap.holds_iff]
    exact hls r hr hn

theorem incRef {n : Nat} (hn : s.size = n) (hd : d.isCell) (h : w.Shows roots Δ [] (s ++ .lent d :: u) m) :
    Meets (do incref (← readStack fun s => s.handleAt n)) m (fun _ => w.After roots (.ok (s ++ .own d :: u)))
      (Failing out) := by
  obtain ⟨bytes, rs, ls, hm, lays, balanced, tells, hls, knows⟩ := h
  obtain ⟨xs, _, rs₁, rs₂, ls₁, _, rfl, rfl, rfl, h₁, h₂⟩ := lays.split
  obtain ⟨r, ys, ls₂, rfl, rfl, beyond, h₂⟩ := h₂.lent_cons hd
  obtain ⟨heap, e, balanced₁, hsize, hfilled⟩ := balanced.incref (hls r (by simp))
  refine meets_bind.2 (meets_handleAt hm (h₁.length.trans hn) (meets_incref hm e fun m₁ hm₁ => after
    ⟨xs ++ (r.toBytes.reverse ++ ys), rs₁ ++ r :: rs₂, ls₁ ++ ls₂, hm₁.heap ▸ hm₁, h₁.append (h₂.push_cell beyond), ?_, ?_,
      fun q hq hqn => ?_, knows⟩))
  · rw [hm₁.heap]
    exact balanced₁.perm ((List.perm_middle.symm).append_right _)
  · rw [hm₁.heap]
    exact tells.filled fun r x hx => hfilled r ▸ hx
  · rw [hm₁.heap, Heap.holds_iff, hfilled q, ← Heap.holds_iff]
    refine hls q ?_ hqn
    rcases List.mem_append.1 hq with hq | hq <;> simp [hq]

theorem decRef {n : Nat} (hn : s.size = n) (hd : d.isCell) (hs : (s ++ u).Settled)
    (h : w.Shows roots Δ [] (s ++ .own d :: u) m) :
    Meets (do
      let r ← readStack fun s => s.handleAt n
      if ← Run.decref r then setStack fun s => s.clearHandleAt n
      return (none : Option α)) m (w.Done roots (.ok (s ++ .spent :: u))) (Failing out) := by
  obtain ⟨bytes, rs, ls, hm, lays, balanced, tells, -, knows⟩ := h
  obtain ⟨xs, _, rs₁, _, ls₁, ls₂, rfl, rfl, rfl, h₁, h₂⟩ := lays.split
  obtain ⟨r, ys, rs₂, rfl, rfl, -, h₂⟩ := h₂.cell_cons hd
  rw [Pile.settled_append] at hs
  obtain rfl := h₁.lent_eq_nil hs.1
  obtain rfl := h₂.lent_eq_nil hs.2
  have balanced₁ : m.heap.Balanced (r :: ((rs₁ ++ rs₂) ++ ([] ++ roots))) :=
    balanced.perm (List.perm_middle.append_right _)
  obtain ⟨heap, freed, e, balanced₂, keeps⟩ := balanced₁.decref
  have hr : r.toBytes.reverse.length = handleSize := by rw [List.length_reverse, r.length_toBytes]
  refine meets_bind.2 (meets_handleAt hm (h₁.length.trans hn) (meets_bind.2 (meets_decref hm e fun m₁ hm₁ => ?_)))
  have next {zs : Bytes} (hz : zs.length = handleSize) (m₂ : Machine) (hm₂ : m₂.At (xs ++ (zs ++ ys)) [host] heap) :
      w.Shows roots Δ [] (s ++ .spent :: u) m₂ :=
    ⟨xs ++ (zs ++ ys), rs₁ ++ rs₂, [] ++ [], hm₂.heap ▸ hm₂, h₁.append (h₂.push_spent hz), hm₂.heap ▸ balanced₂,
      hm₂.heap ▸ tells.filled keeps.filled, by simp, knows⟩
  cases freed with
  | false => exact (next hr m₁ hm₁).finished
  | true =>
    exact meets_bind.2 (meets_clearHandleAt hm₁ (h₁.length.trans hn) hr fun m₂ hm₂ =>
      (next List.length_replicate m₂ hm₂).finished)

theorem copy {start size : Nat} (hsize : d.ty.size = size) (hstart : u.size = start)
    (h : w.Shows roots Δ [] (s ++ (Pile.of d ++ u)) m) :
    Meets (setStack fun s => s.copy start size) m
      (fun _ => w.After roots (.ok ((d.atoms.map Piece.lend).reverse ++ (s ++ (Pile.of d ++ u))))) (Failing out) := by
  obtain ⟨bytes, rs, ls, hm, lays, balanced, tells, hls, knows⟩ := h
  obtain ⟨xs, _, rs₁, _, ls₁, _, rfl, rfl, rfl, h₁, h₀⟩ := lays.split
  obtain ⟨ys, zs, rs₂, rs₃, ls₂, ls₃, rfl, rfl, rfl, h₂, h₃⟩ := h₀.split
  have hl := h₂.length
  rw [Pile.size_of, hsize] at hl
  have lent : Δ.Lays (d.atoms.map Piece.lend).reverse ys [] rs₂ := by
    have own : Δ.Lays (d.atoms.reverse.map Piece.own) ys rs₂ ls₂ := by
      rw [List.map_reverse]
      exact h₂
    rw [← List.map_reverse]
    exact own.lend fun a ha => Datum.isAtom_of_mem (List.mem_reverse.1 ha)
  refine meets_copy hm (h₃.length.trans hstart) hl (fun m₁ hm₁ => after ⟨_, _, _, hm₁.heap ▸ hm₁, lent.append lays, ?_,
    hm₁.heap ▸ tells, fun r hr hn => ?_, knows⟩) (failing_overflow out _ m)
  · rw [hm₁.heap, List.nil_append]
    exact balanced
  · rw [hm₁.heap]
    rcases List.mem_append.1 hr with hr | hr
    · exact balanced.holds (.inl (by simp [hr])) hn
    · exact hls r hr hn

theorem drop {skip size : Nat} (hs : s.size = skip) (hsize : x.size = size) (hx : x.Idle)
    (h : w.Shows roots Δ [] (s ++ (x ++ u)) m) :
    Meets (setStack fun s => s.drop skip size) m (fun _ => w.After roots (.ok (s ++ u))) (Failing out) := by
  obtain ⟨bytes, rs, ls, hm, lays, balanced, tells, hls, knows⟩ := h
  obtain ⟨xs, _, rs₁, _, ls₁, _, rfl, rfl, rfl, h₁, h₀⟩ := lays.split
  obtain ⟨ys, zs, rs₂, rs₃, ls₂, ls₃, rfl, rfl, rfl, h₂, h₃⟩ := h₀.split
  obtain rfl := h₂.lent_eq_nil (Pile.settled_of_idle hx)
  obtain rfl := h₂.owned_eq_nil hx
  exact meets_drop hm (h₁.length.trans hs) (h₂.length.trans hsize) fun m₁ hm₁ => after
    ⟨xs ++ zs, rs₁ ++ rs₃, ls₁ ++ ls₃, hm₁.heap ▸ hm₁, h₁.append h₃, hm₁.heap ▸ balanced, hm₁.heap ▸ tells,
      hm₁.heap ▸ hls, knows⟩

end

end Shows

end Store

end StackScript
