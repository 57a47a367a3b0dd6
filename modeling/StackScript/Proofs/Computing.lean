import StackScript.Proofs.Expressions
import StackScript.Proofs.Rendering

/-!
Operators on data. Each is carried out by an instruction or by a native function, which makes of the operands on the
stack what the evaluator makes of the data that they stand for.
-/
namespace StackScript

/-! ### Data of a type -/

namespace Datum

variable {d x y z : Datum} {w : Width} {t : Ty}

theorem exists_word (h : d.ty = w.ty) : ∃ a : Word w, d = ofWord a := by
  cases w <;> cases d <;> cases h
  · next n => exact ⟨n.toBitVec, rfl⟩
  · next n => exact ⟨n.toBitVec, rfl⟩
  · next n => exact ⟨n.toBitVec, rfl⟩

theorem exists_bool (h : d.ty = .bool) : ∃ b, d = bool b := by
  cases d <;> cases h
  exact ⟨_, rfl⟩

theorem exists_string (h : d.ty = .string) : ∃ s, d = string s := by
  cases d <;> cases h
  exact ⟨_, rfl⟩

theorem exists_tuple {ts : List Ty} (h : d.ty = .tuple ts) : ∃ ds, d = tuple ds ∧ tys ds = ts := by
  cases d <;> cases h
  exact ⟨_, rfl, rfl⟩

theorem exists_list (h : d.ty = .list t) : ∃ ds, d = list t ds := by
  cases d <;> cases h
  exact ⟨_, rfl⟩

theorem fits_bool (b : Bool) : (bool b).Fits .bool := ⟨rfl, trivial⟩

theorem fits_ofWord (a : Word w) : (ofWord a).Fits w.ty := by
  cases w <;> exact ⟨rfl, trivial⟩

theorem fits_datum (u : FloatWidth) (n : Nat) : (u.datum n).Fits u.ty := by
  cases u <;> exact ⟨rfl, trivial⟩

theorem pile_datum (u : FloatWidth) (n : Nat) : Pile.of (u.datum n) = [.own (u.datum n)] := by
  cases u <;> rfl

theorem exists_datum {u : FloatWidth} (h : d.ty = u.ty) : ∃ n, d = u.datum n ∧ d.number? = some n ∧ d.ty.size = u.size := by
  cases u <;> cases d <;> cases h
  · next bits => exact ⟨bits.toNat, by simp [FloatWidth.datum], rfl, rfl⟩
  · next bits => exact ⟨bits.toNat, by simp [FloatWidth.datum], rfl, rfl⟩

end Datum

/-! ### Lowerings -/

/-- What an operator makes of a pile, once it is carried out in a module with the native functions. -/
def Lowering.Takes (s : Pile) (out : Except Fault Pile) : Lowering → Prop
  | opcode op => ∀ (w : Store) (k : Nat), w.Moves k op 0 0 s out
  | native n => ∃ u, n.Acts s u ∧ out = .ok u
  | negated n => ∃ b u, n.Acts s (.own (.bool b) :: u) ∧ out = .ok (.own (.bool !b) :: u)

theorem compare_natCast (a b : Nat) : compare (a : Int) (b : Int) = compare a b := by
  simp only [compare, compareOfLessAndEq, Int.ofNat_lt, Int.ofNat_inj]

namespace Datum

variable {x y z : Datum} {t : Ty}

theorem arith_ofWord {w : Width} (op : Arith) (m n : Word w) :
    (ofWord m).arith op (ofWord n) = (Word.arith op m n).map ofWord := by
  cases w <;> rfl

theorem arith_datum {u : FloatWidth} {op : Arith} {fop : FloatOp} (h : Lowering.floatOp? op = some fop) (m n : Nat) :
    (u.datum m).arith op (u.datum n) = .ok (u.datum (u.arith fop m n)) := by
  cases u <;> simp [FloatWidth.datum, arith, h, FloatWidth.arith]

theorem takes_arith {op : Arith} {l : Lowering} (h : Lowering.ofArith? op t = some l) (hx : x.Fits t) (hy : y.Fits t)
    (s : Pile) : l.Takes (Pile.of x ++ (Pile.of y ++ s)) ((x.arith op y).map fun z => Pile.of z ++ s) := by
  unfold Lowering.ofArith? at h
  split at h
  · next w hw =>
    cases h
    obtain rfl := Lowering.eq_of_width? hw
    obtain ⟨m, rfl⟩ := exists_word hx.ty
    obtain ⟨n, rfl⟩ := exists_word hy.ty
    intro v k
    rw [arith_ofWord, Pile.of_ofWord, Pile.of_ofWord]
    have move : v.Moves k (.word (.arith op) w) 0 0 _ _ := .arith (m := m) (n := n) (s := s)
    cases hr : Word.arith op m n <;> simpa [hr, Except.map] using move
  · next u _ hw =>
    obtain ⟨fop, hop, rfl⟩ := Option.map_eq_some_iff.1 h
    obtain rfl := Lowering.eq_of_floatWidth? hw
    obtain ⟨m, rfl, hm, size⟩ := exists_datum hx.ty
    obtain ⟨n, rfl, hn, size'⟩ := exists_datum hy.ty
    rw [arith_datum hop, pile_datum, pile_datum]
    exact ⟨_, .floatArith hm hn size size', by rw [Except.map, pile_datum]; rfl⟩
  · split at h
    · next ht =>
      cases h
      obtain ⟨rfl, rfl⟩ := ht
      obtain ⟨a, rfl⟩ := exists_string hx.ty
      obtain ⟨b, rfl⟩ := exists_string hy.ty
      exact ⟨_, .concat, rfl⟩
    · cases h

/-- The words of numbers are ordered as the numbers are. -/
theorem test_of {w : Width} {i j : Nat} {m n : Nat} (c : Comparison)
    (hm : Word.toInt (BitVec.ofNat w.bits i : Word w) = m) (hn : Word.toInt (BitVec.ofNat w.bits j : Word w) = n) :
    Word.test c (BitVec.ofNat w.bits i : Word w) (BitVec.ofNat w.bits j) = c.ofOrdering (compare m n) := by
  rw [Word.test, hm, hn, compare_natCast]

theorem toInt_byte (a : UInt8) : Word.toInt (BitVec.ofNat Width.w8.bits a.toNat : Word .w8) = a.toNat :=
  congrArg Nat.cast (Nat.mod_eq_of_lt a.toNat_lt)

/-- Code points stay below the sign bit. -/
theorem toInt_char (a : Char) : Word.toInt (BitVec.ofNat Width.w32.bits a.toNat : Word .w32) = a.toNat := by
  have small : a.toNat < 0x110000 := by
    have := a.valid
    simp only [UInt32.isValidChar, Nat.isValidChar] at this
    change a.val.toNat < _
    omega
  change (BitVec.ofNat 32 a.toNat).toInt = _
  rw [BitVec.toInt_ofNat', Int.bmod_eq_of_le]
  · omega
  · omega

theorem ofNat_toNat {w : Width} (a : Word w) : (BitVec.ofNat w.bits a.toNat : Word w) = a := by
  simp

/-- A scalar that is compared at a width is written as a word of the same order. -/
theorem exists_ordinal {c : Comparison} {w : Width} (h : Lowering.comparisonWidth? c t = some w) (hx : x.Fits t) :
    ∃ i, x.number? = some i ∧ Pile.of x = [.own x] ∧ x.ty.size = w.size ∧
      ∀ {y : Datum} {j : Nat}, y.Fits t → y.number? = some j →
        Word.test c (BitVec.ofNat w.bits i : Word w) (BitVec.ofNat w.bits j) = x.test c y := by
  unfold Lowering.comparisonWidth? at h
  split at h
  · split at h
    · cases h
      obtain ⟨a, rfl⟩ := exists_bool hx.ty
      refine ⟨_, rfl, rfl, rfl, fun hy hj => ?_⟩
      obtain ⟨b, rfl⟩ := exists_bool hy.ty
      cases hj
      cases a <;> cases b <;> rfl
    · cases h
  · cases h
    obtain ⟨hx, -⟩ := hx
    cases x <;> cases hx
    refine ⟨_, rfl, rfl, rfl, fun {y _} hy hj => ?_⟩
    obtain ⟨hy, -⟩ := hy
    cases y <;> cases hy
    cases hj
    exact test_of c (toInt_char _) (toInt_char _)
  · obtain rfl := Lowering.eq_of_width? h
    cases w with
    | w8 =>
      obtain ⟨a, rfl⟩ := exists_word hx.ty
      refine ⟨_, rfl, rfl, rfl, fun hy hj => ?_⟩
      obtain ⟨b, rfl⟩ := exists_word hy.ty
      cases hj
      exact test_of c (toInt_byte _) (toInt_byte _)
    | w32 | w64 =>
      obtain ⟨a, rfl⟩ := exists_word hx.ty
      refine ⟨_, rfl, rfl, rfl, fun hy hj => ?_⟩
      obtain ⟨b, rfl⟩ := exists_word hy.ty
      cases hj
      exact congrArg₂ (Word.test c) (ofNat_toNat a) (ofNat_toNat b)

theorem takes_test {c : Comparison} {l : Lowering} (h : Lowering.ofComparison? c t = some l) (hx : x.Fits t)
    (hy : y.Fits t) (s : Pile) :
    l.Takes (Pile.of x ++ (Pile.of y ++ s)) (.ok (.own (.bool (x.test c y)) :: s)) := by
  unfold Lowering.ofComparison? at h
  split at h
  · next w hw =>
    cases h
    obtain ⟨i, hi, pile, size, same⟩ := exists_ordinal hw hx
    obtain ⟨j, hj, pile', size', -⟩ := exists_ordinal hw hy
    intro v k
    rw [pile, pile', ← same hy hj]
    exact .compare hi hj size size'
  · next u _ hw =>
    cases h
    obtain rfl := Lowering.eq_of_floatWidth? hw
    obtain ⟨m, rfl, hm, size⟩ := exists_datum hx.ty
    obtain ⟨n, rfl, hn, size'⟩ := exists_datum hy.ty
    rw [pile_datum, pile_datum]
    refine ⟨_, .floatTest hm hn size size', ?_⟩
    cases u <;> simp only [FloatWidth.datum, test, number?, Option.some.injEq] at hm hn ⊢ <;> rw [hm, hn] <;> rfl
  · split at h
    · cases h
    · next ht =>
      rw [Decidable.not_not] at ht
      subst ht
      obtain ⟨a, rfl⟩ := exists_string hx.ty
      obtain ⟨b, rfl⟩ := exists_string hy.ty
      split at h
      · next hc =>
        cases h
        subst hc
        exact ⟨_, .equal, rfl⟩
      · split at h
        · next hc =>
          cases h
          subst hc
          exact ⟨_, _, .equal, by simp [test]⟩
        · cases h

theorem fits_arith {op : Arith} {l : Lowering} (h : Lowering.ofArith? op t = some l) (hx : x.Fits t) (hy : y.Fits t)
    (hz : x.arith op y = .ok z) : z.Fits t := by
  unfold Lowering.ofArith? at h
  split at h
  · next w hw =>
    obtain rfl := Lowering.eq_of_width? hw
    obtain ⟨m, rfl⟩ := exists_word hx.ty
    obtain ⟨n, rfl⟩ := exists_word hy.ty
    rw [arith_ofWord] at hz
    cases hr : Word.arith op m n with
    | error e => simp [hr, Except.map] at hz
    | ok a =>
      simp only [hr, Except.map, Except.ok.injEq] at hz
      exact hz ▸ fits_ofWord a
  · next u _ hw =>
    obtain ⟨fop, hop, rfl⟩ := Option.map_eq_some_iff.1 h
    obtain rfl := Lowering.eq_of_floatWidth? hw
    obtain ⟨m, rfl, -⟩ := exists_datum hx.ty
    obtain ⟨n, rfl, -⟩ := exists_datum hy.ty
    rw [arith_datum hop] at hz
    exact Except.ok.inj hz ▸ fits_datum u _
  · split at h
    · next ht =>
      obtain ⟨rfl, rfl⟩ := ht
      obtain ⟨a, rfl⟩ := exists_string hx.ty
      obtain ⟨b, rfl⟩ := exists_string hy.ty
      cases hz
      exact ⟨rfl, trivial⟩
    · cases h

end Datum

section

variable {x y z : Datum} {t : Ty} {l : Lowering}

theorem BinaryOp.takes {op : BinaryOp} (h : op.lowering? t = some l) (hx : x.Fits t) (hy : y.Fits t) (s : Pile) :
    l.Takes (Pile.of x ++ (Pile.of y ++ s)) ((op.apply x y).map fun z => Pile.of z ++ s) := by
  cases op with
  | arith op => exact Datum.takes_arith h hx hy s
  | compare c => exact Datum.takes_test h hx hy s
  | and | or =>
    simp only [lowering?] at h
    split at h
    · next ht =>
      cases h
      subst ht
      obtain ⟨a, rfl⟩ := Datum.exists_bool hx.ty
      obtain ⟨b, rfl⟩ := Datum.exists_bool hy.ty
      exact fun _ _ => by first | exact .logicalAnd | exact .logicalOr
    · cases h

theorem BinaryOp.fits {op : BinaryOp} (h : op.lowering? t = some l) (hx : x.Fits t) (hy : y.Fits t)
    (hz : op.apply x y = .ok z) : z.Fits (op.resultType t) := by
  cases op with
  | arith op => exact Datum.fits_arith h hx hy hz
  | compare c =>
    cases hz
    exact Datum.fits_bool _
  | and | or =>
    simp only [lowering?] at h
    split at h
    · next ht =>
      subst ht
      obtain ⟨a, rfl⟩ := Datum.exists_bool hx.ty
      obtain ⟨b, rfl⟩ := Datum.exists_bool hy.ty
      cases hz
      exact Datum.fits_bool _
    · cases h

/-- A unary operator, with what comes of its operand. -/
theorem UnaryOp.takes {op : UnaryOp} (h : op.lowering? t = some l) (hx : x.Fits t) (s : Pile) :
    l.Takes (Pile.of x ++ s) (.ok (Pile.of (op.apply x) ++ s)) ∧ (op.apply x).Fits t := by
  cases op with
  | not =>
    simp only [lowering?] at h
    split at h
    · next ht =>
      cases h
      subst ht
      obtain ⟨a, rfl⟩ := Datum.exists_bool hx.ty
      exact ⟨fun _ _ => .logicalNot, Datum.fits_bool _⟩
    · cases h
  | negate =>
    simp only [lowering?] at h
    split at h
    · next w hw =>
      cases h
      obtain rfl := Lowering.eq_of_width? hw
      obtain ⟨n, rfl⟩ := Datum.exists_word hx.ty
      have apply : UnaryOp.apply .negate (.ofWord n) = .ofWord (-n) := by cases w <;> rfl
      rw [apply, Pile.of_ofWord, Pile.of_ofWord]
      exact ⟨fun _ _ => .negate, Datum.fits_ofWord _⟩
    · next u _ hw =>
      cases h
      obtain rfl := Lowering.eq_of_floatWidth? hw
      obtain ⟨n, rfl, hn, size⟩ := Datum.exists_datum hx.ty
      have apply : UnaryOp.apply .negate (u.datum n) = u.datum (u.format.neg n) := by
        cases u <;> simp only [FloatWidth.datum, Datum.number?, Option.some.injEq] at hn ⊢ <;>
          simp only [UnaryOp.apply, hn] <;> rfl
      rw [apply, Datum.pile_datum, Datum.pile_datum]
      exact ⟨⟨_, .floatNegate hn size, rfl⟩, Datum.fits_datum u _⟩
    · cases h
  | bitNot =>
    obtain ⟨w, hw, rfl⟩ := Option.map_eq_some_iff.1 h
    obtain rfl := Lowering.eq_of_width? hw
    obtain ⟨n, rfl⟩ := Datum.exists_word hx.ty
    have apply : UnaryOp.apply .bitNot (.ofWord n) = .ofWord (~~~n) := by cases w <;> rfl
    rw [apply, Pile.of_ofWord, Pile.of_ofWord]
    exact ⟨fun _ _ => .bitNot, Datum.fits_ofWord _⟩

end

namespace Compilation

variable {c d e : Compilation} {Γ : Context} {span : Span} {t : Ty}

/-! ### Native functions -/

/-- The module may have changed before anything was written. -/
theorem Brings.behind {P : Pile → Pile → Prop} (h : c.Grows d) (hd : d.draft = c.draft) (k : Brings P d e) : Brings P c e :=
  ⟨h.trans k.grows, k.depth.trans (congrArg Draft.depth hd), fun s u hu =>
    (converts_of_draft hd s).trans (k.converts s u hu) h k.grows⟩

theorem Hosts.get_builtin (hc : c.Hosts) : c.library.get 0 = Builtin.module := Library.get_eq hc.builtin

/-- The first import need not be added again. -/
theorem importVisible_first {m : Module} (first : m.imports[0]? = some 0) : m.importVisible 0 = (m, some 0) := by
  have found : m.importIndex? 0 = some 0 := by
    unfold Module.importIndex?
    rw [Array.findIdx?_eq_some_iff_getElem]
    obtain ⟨hlt, e⟩ := Array.getElem?_eq_some_iff.1 first
    exact ⟨hlt, by simpa using e, nofun⟩
  unfold Module.importVisible
  rw [found]

/-- A native function is called. -/
theorem Hosts.callNative (hc : c.Hosts) (n : Native) (span : Span) :
    Meets (Compile.callNative n span) c (fun _ d => Brings (fun s u => s.Settled ∧ n.Acts s u) c d) fun _ _ => True := by
  obtain ⟨m, hm⟩ := hc.here
  have hget : c.library.get c.draft.target.module = m := Library.get_eq hm
  have hfirst : m.imports[0]? = some 0 := hget ▸ hc.imports
  obtain ⟨i, g, hi, hg, hbody, -⟩ := Builtin.findFunction_native n
  have hfun : c.library.function? ⟨0, i⟩ = some g := (Library.function?_of_module hc.builtin).trans hg
  unfold Compile.callNative
  rw [meets_bind, meets_get]
  simp only [hget, Builtin.find_of_first hc.builtin hfirst, hc.get_builtin, hi]
  refine meets_bind.2 ((meets_getFunction hfun).2 ?_)
  rw [hbody]
  dsimp only
  refine meets_bind.2 (meets_here.2 ?_)
  rw [if_neg (Ne.symm hc.user)]
  have put : c.Grows { c with library := c.library.put c.draft.target.module m } := hc.tune hm (.refl _ m) rfl
  refine meets_bind.2 (meets_bind.2 (meets_here.2 (meets_bind.2 (meets_get.2 (meets_bind.2 ((meets_onModule hm).2 ?_))))))
  rw [importVisible_first hfirst]
  refine (put.hosts.emit1 rfl i span).imp (fun _ d hd => ?_) fun _ _ h => h
  refine .behind put rfl ⟨hd.grows, hd.depth, fun s u acts => hd.converts fun w hw => ?_⟩
  have offers : Store.Offers ⟨c.library.put c.draft.target.module m, c.heap⟩ i n :=
    ⟨g, (Library.function?_of_module put.hosts.builtin).trans hg, hbody⟩
  exact .native (hw.imports ▸ put.hosts.imports) (offers.extends hw) acts.1 acts.2

/-- What carries out an operator is written. -/
theorem Hosts.emitLowering {l : Lowering} {ts : List Ty} {r : Ty} (hc : c.Hosts) (hl : l.Lowers ts r) (sign : String) (t : Ty)
    (span : Span) :
    Meets (Compile.emitLowering (some l) sign t span) c (fun _ d => c.Grows d ∧
      ∀ s out, s.Settled → l.Takes s out → c.Converts d s out) fun _ _ => True := by
  cases l with
  | opcode op =>
    exact (hc.emit hl.1).imp (fun _ d hd => ⟨hd.grows, fun s out _ takes => hd.converts fun w _ => takes w _⟩)
      fun _ _ h => h
  | native n =>
    refine (hc.callNative n span).imp (fun _ d hd => ⟨hd.grows, ?_⟩) fun _ _ h => h
    rintro s _ hs ⟨u, acts, rfl⟩
    exact hd.converts s u ⟨hs, acts⟩
  | negated n =>
    refine (hc.callNative n span).seq fun _ d hd => ?_
    refine (hd.grows.hosts.emit (rfl : Opcode.logicalNot.arity = 0)).imp (fun _ e he => ⟨hd.grows.trans he.grows, ?_⟩)
      fun _ _ h => h
    rintro s _ hs ⟨b, u, acts, rfl⟩
    exact (hd.converts s _ ⟨hs, acts⟩).trans (he.converts fun _ _ => .logicalNot) hd.grows he.grows

/-! ### Operators -/

theorem Names.operandHint (hn : c.Names Γ) {op : BinaryOp} {a b : Expr} (ha : a.isCallFree (Γ.map (·.1)))
    (hb : b.isCallFree (Γ.map (·.1))) (expected : Option Ty) :
    Meets (Compile.operandHint op a b expected) c (fun h d => h = Expr.operandIn Γ op a b expected ∧ d = c) fun _ _ => True := by
  refine meets_bind.2 (meets_bind.2 (meets_get.2 (meets_pure.2 (meets_bind.2 (meets_bind.2 (meets_get.2
    (meets_pure.2 ?_)))))))
  rw [hn.hint ha, hn.hint hb]
  cases op <;> exact meets_pure.2 ⟨rfl, rfl⟩

/-- The right operand is computed first, and the left one is expected to have its type. -/
theorem Renders.binary (op : BinaryOp) (left : Span) {r l : Ty} {v : Env → Except Fault Datum}
    {u : Env → Ty → Except Fault Datum} {x : Compile Ty} {y : Option Ty → Compile Ty} (hx : Renders Γ r v x)
    (hy : Renders Γ l (fun ρ => u ρ r) (y (some r))) (span : Span) :
    Computes Γ (op.resultType r) (fun ρ => do
        let b ← v ρ
        let a ← u ρ b.ty
        op.apply a b) (do
      let r ← x
      let l ← y (some r)
      if !l.agrees r then Compile.fail (.mismatch r l) left
      Compile.emitLowering (op.lowering? r) op.sign r span
      return op.resultType r) := by
  intro c hc hn
  refine (hx c hc hn).seq fun r d hd => ?_
  obtain ⟨rfl, known, hd, depth⟩ := hd
  refine (hy d hd.grows.hosts (hn.grows hc hd.grows)).seq fun l e he => ?_
  obtain ⟨rfl, known', he, -⟩ := he
  dsimp only
  split
  · trivial
  · next agrees =>
    obtain rfl := Ty.eq_of_agrees known' known (by simpa using agrees)
    cases hlow : op.lowering? l with
    | none => trivial
    | some low =>
      refine (he.grows.hosts.emitLowering (BinaryOp.lowers hlow) op.sign l span).seq fun _ f hf => ?_
      refine meets_pure.2 ⟨rfl, BinaryOp.known_resultType op known, ?_⟩
      · refine ((hd.both he hc depth).andThen (f := fun p => op.apply p.2 p.1) hf.1 ?_ ?_).congr ?_
        · intro p s hp hs
          rw [List.append_assoc]
          exact hf.2 _ _ (by simp [Pile.settled_of, hs]) (BinaryOp.takes hlow hp.2 hp.1 s)
        · exact fun p z hp hz => BinaryOp.fits hlow hp.2 hp.1 hz
        · intro ρ hρ
          cases hv : v ρ with
          | error f => rfl
          | ok b =>
            have hb := hd.fits ρ b hρ hv
            simp only [bind, Except.bind, hb.ty]
            cases u ρ l <;> rfl

theorem Renders.unary {op : UnaryOp} {v : Env → Except Fault Datum} {x : Compile Ty} (hx : Renders Γ t v x) (span : Span) :
    Computes Γ t (fun ρ => (v ρ).map op.apply) (do
      let t ← x
      Compile.emitLowering (op.lowering? t) op.sign t span
      return t) := by
  intro c hc hn
  refine (hx c hc hn).seq fun t d hd => ?_
  obtain ⟨rfl, known, hd, -⟩ := hd
  cases hlow : op.lowering? t with
  | none => trivial
  | some low =>
    refine (hd.grows.hosts.emitLowering (UnaryOp.lowers hlow) op.sign t span).seq fun _ e he => ?_
    refine meets_pure.2 ⟨rfl, known, (hd.andThen (f := fun x => .ok (op.apply x)) he.1 (fun x s hx hs => ?_)
      fun x y hx hy => ?_).congr fun ρ _ => ?_⟩
    · exact he.2 _ _ (by simp [Pile.settled_of, hs]) (UnaryOp.takes hlow hx s).1
    · cases hy
      exact (UnaryOp.takes hlow hx []).2
    · cases v ρ <;> rfl

end Compilation

end StackScript
