import StackScript.Proofs.Flow

/-!
Code under construction. Finished code fits a draft if it has the bytes of the draft, and in the operand of every
jump the distance to where its label was bound.
-/
namespace StackScript

/-! ### Fetching -/

theorem WordOp.mem_all (op : WordOp) : op ∈ all := by
  cases op with
  | compare c => cases c <;> decide
  | arith a => cases a <;> decide
  | _ => decide

namespace Opcode

theorem mem_table (op : Opcode) : op ∈ table.toList := by
  cases op with
  | word op w =>
    have hw : w ∈ Width.all := by cases w <;> decide
    simp [table, op.mem_all, hw]
  | _ => simp [table]

theorem ofByte?_toByte (op : Opcode) : ofByte? op.toByte = some op := by
  have all : ∀ op ∈ table.toList, ofByte? op.toByte = some op := by decide +kernel
  exact all op op.mem_table

end Opcode

theorem fetches_of {code : Array UInt8} {pc n : Nat} {op : Opcode} (byte : code[pc]? = some op.toByte)
    (hn : op.arity = n) (size : pc + n < code.size) :
    Fetches code pc op (if 1 ≤ n then (code.getD (pc + 1) 0).toNat else 0)
      (if 2 ≤ n then (code.getD (pc + 2) 0).toNat else 0) := by
  refine ⟨_, byte, ?_⟩
  have hsize : ¬ code.size < pc + op.length := by
    rw [Opcode.length, hn]
    omega
  simp only [Instruction.read, Opcode.ofByte?_toByte, if_neg hsize, hn]

/-- The fault of a bound jump whose target is before the byte after its operand, or too far behind it. -/
def Patch.far (p : Patch) : Option JumpTooFar :=
  match p.target with
  | none => none
  | some t => if p.operand + 1 ≤ t ∧ t - (p.operand + 1) < 256 then none else some ⟨p.operand + 1, t⟩

namespace Code

variable {c d e : Code} {code : Array UInt8} {op : Opcode} {a b : UInt8}

/-! ### Growing -/

/-- What is written stays, and jumps are added behind it. -/
structure Extends (c d : Code) : Prop where
  bytes : ∃ bs, d.bytes = c.bytes ++ bs
  patches : ∃ ps, d.patches = c.patches ++ ps ∧ ∀ p ∈ ps, c.size ≤ p.operand

theorem Extends.refl (c : Code) : c.Extends c :=
  ⟨⟨#[], by simp⟩, #[], by simp, by simp⟩

theorem Extends.size_le (h : c.Extends d) : c.size ≤ d.size := by
  obtain ⟨bs, hbs⟩ := h.bytes
  simp [size, hbs]

theorem Extends.trans (h : c.Extends d) (k : d.Extends e) : c.Extends e := by
  have hsize := h.size_le
  obtain ⟨⟨bs, hbs⟩, ps, hps, hp⟩ := h
  obtain ⟨⟨cs, hcs⟩, qs, hqs, hq⟩ := k
  refine ⟨⟨bs ++ cs, by rw [hcs, hbs, Array.append_assoc]⟩, ps ++ qs, by rw [hqs, hps, Array.append_assoc], ?_⟩
  intro p hp'
  rcases Array.mem_append.1 hp' with hp' | hp'
  · exact hp p hp'
  · exact Nat.le_trans hsize (hq p hp')

theorem extends_byte (c : Code) (a : UInt8) : c.Extends (c.byte a) :=
  ⟨⟨#[a], by simp [byte]⟩, #[], by simp [byte], by simp⟩

theorem extends_opcode (c : Code) (op : Opcode) : c.Extends (c.opcode op) := extends_byte c op.toByte

@[simp] theorem size_opcode (c : Code) (op : Opcode) : (c.opcode op).size = c.size + 1 := size_byte c op.toByte

@[simp] theorem patches_byte (c : Code) (a : UInt8) : (c.byte a).patches = c.patches := rfl

@[simp] theorem patches_opcode (c : Code) (op : Opcode) : (c.opcode op).patches = c.patches := rfl

/-- The operands of the jumps are different bytes. -/
structure Valid (c : Code) : Prop where
  inside : ∀ p ∈ c.patches, p.operand < c.size
  distinct : (c.patches.toList.map Patch.operand).Nodup

theorem valid_empty : ({} : Code).Valid :=
  ⟨by simp, by simp⟩

theorem Valid.byte (h : c.Valid) (a : UInt8) : (c.byte a).Valid :=
  ⟨fun p hp => Nat.lt_of_lt_of_le (h.inside p hp) (by simp), h.distinct⟩

theorem Valid.opcode (h : c.Valid) (op : Opcode) : (c.opcode op).Valid := h.byte op.toByte

/-! ### Fitting -/

structure Fits (c : Code) (code : Array UInt8) : Prop where
  size : c.size ≤ code.size
  bytes : ∀ i < c.size, (∀ p ∈ c.patches, p.operand ≠ i) → code[i]? = c.bytes[i]?
  jumps : ∀ p ∈ c.patches, ∀ t, p.target = some t →
    ∃ d : UInt8, code[p.operand]? = some d ∧ t = p.operand + 1 + d.toNat

theorem Fits.of_extends (h : d.Fits code) (hd : c.Extends d) : c.Fits code := by
  have hsize := hd.size_le
  obtain ⟨⟨bs, hbs⟩, ps, hps, hp⟩ := hd
  refine ⟨Nat.le_trans hsize h.size, fun i hi hfree => ?_, fun p hp' => h.jumps p (by simp [hps, hp'])⟩
  rw [h.bytes i (Nat.lt_of_lt_of_le hi hsize) fun p hp' => ?_, hbs, Array.getElem?_append_left hi]
  rcases Array.mem_append.1 (hps ▸ hp') with hp' | hp'
  · exact hfree p hp'
  · exact fun e => absurd (hp p hp') (Nat.not_le.2 (e ▸ hi))

/-- The byte that was written after the code so far. -/
theorem Fits.byte (h : d.Fits code) (hc : c.Valid) (hd : (c.byte a).Extends d) : code[c.size]? = some a := by
  have h' := h.of_extends hd
  rw [h'.bytes c.size (by simp) fun p hp => Nat.ne_of_lt (hc.inside p hp)]
  exact Array.getElem?_push_size

theorem Fits.fetches (h : d.Fits code) (hc : c.Valid) (hop : op.arity = 0) (hd : (c.opcode op).Extends d) :
    Fetches code c.size op 0 0 := by
  have hsize := (h.of_extends hd).size
  rw [size_opcode] at hsize
  simpa using fetches_of (n := 0) (h.byte hc hd) hop (by omega)

theorem Fits.fetches1 (h : d.Fits code) (hc : c.Valid) (hop : op.arity = 1)
    (hd : ((c.opcode op).byte a).Extends d) : Fetches code c.size op a.toNat 0 := by
  have hsize := (h.of_extends hd).size
  have ha := h.byte (hc.opcode op) hd
  simp only [size_opcode, size_byte] at hsize ha
  have hb := h.byte hc ((extends_byte _ a).trans hd)
  simpa [Array.getD_eq_getD_getElem?, ha] using fetches_of (n := 1) hb hop (by omega)

theorem Fits.fetches2 (h : d.Fits code) (hc : c.Valid) (hop : op.arity = 2)
    (hd : (((c.opcode op).byte a).byte b).Extends d) : Fetches code c.size op a.toNat b.toNat := by
  have hsize := (h.of_extends hd).size
  have hb := h.byte ((hc.opcode op).byte a) hd
  have ha := h.byte (hc.opcode op) ((extends_byte _ b).trans hd)
  simp only [size_opcode, size_byte] at hsize ha hb
  have ho := h.byte hc ((extends_byte _ a).trans ((extends_byte _ b).trans hd))
  simpa [Array.getD_eq_getD_getElem?, ha, hb] using fetches_of (n := 2) ho hop (by omega)

/-! ### Jumps -/

theorem size_jump (c : Code) (op : Opcode) : (c.jump op).1.size = c.size + 2 := by
  simp [jump, size, byte, opcode]

theorem patches_jump (c : Code) (op : Opcode) :
    (c.jump op).1.patches = c.patches.push ⟨c.size + 1, none⟩ := by
  simp [jump, lastAddress]

theorem extends_jump (c : Code) (op : Opcode) : c.Extends (c.jump op).1 := by
  refine ⟨⟨#[op.toByte, 0], by simp [jump, byte, opcode, ← Array.toList_inj]⟩, #[⟨c.size + 1, none⟩], ?_, ?_⟩
  · rw [patches_jump, Array.append_singleton]
  · simp

theorem Valid.jump (h : c.Valid) (op : Opcode) : (c.jump op).1.Valid := by
  refine ⟨fun p hp => ?_, ?_⟩
  · rw [size_jump]
    rw [patches_jump, Array.mem_push] at hp
    rcases hp with hp | rfl
    · exact Nat.lt_of_lt_of_le (h.inside p hp) (by omega)
    · exact Nat.lt_succ_self _
  · rw [patches_jump, Array.toList_push, List.map_append, List.nodup_append]
    refine ⟨h.distinct, by simp, fun x hx y hy => ?_⟩
    obtain ⟨p, hp, rfl⟩ := List.mem_map.1 hx
    have hy' : y = c.size + 1 := by simpa using hy
    have := h.inside p (by simpa using hp)
    omega

@[simp] theorem size_bind (c : Code) (label : Nat) : (c.bind label).size = c.size := rfl

theorem operands_bind (c : Code) (label : Nat) :
    (c.bind label).patches.toList.map Patch.operand = c.patches.toList.map Patch.operand := by
  rw [bind, Array.toList_modify]
  refine List.ext_getElem? fun i => ?_
  simp only [List.getElem?_map, List.getElem?_modify]
  cases c.patches.toList[i]? with
  | none => rfl
  | some p =>
    simp only [Option.map_some]
    split <;> rfl

theorem mem_operands_bind {label i : Nat} :
    (∃ p ∈ (c.bind label).patches, p.operand = i) ↔ ∃ p ∈ c.patches, p.operand = i := by
  have := operands_bind c label
  constructor
  · rintro ⟨p, hp, rfl⟩
    have hmem : p.operand ∈ (c.bind label).patches.toList.map Patch.operand :=
      List.mem_map.2 ⟨p, by simpa using hp, rfl⟩
    rw [this] at hmem
    simpa using hmem
  · rintro ⟨p, hp, rfl⟩
    have hmem : p.operand ∈ c.patches.toList.map Patch.operand := List.mem_map.2 ⟨p, by simpa using hp, rfl⟩
    rw [← this] at hmem
    simpa using hmem

theorem Valid.bind (h : c.Valid) (label : Nat) : (c.bind label).Valid := by
  refine ⟨fun p hp => ?_, by rw [operands_bind]; exact h.distinct⟩
  obtain ⟨q, hq, e⟩ := mem_operands_bind.1 ⟨p, hp, rfl⟩
  exact e ▸ h.inside q hq

/-- A label that was open is bound behind code that goes on from its jump. -/
theorem Extends.bind (h : c.Extends d) {label : Nat} (hl : c.patches.size ≤ label) : c.Extends (d.bind label) := by
  obtain ⟨hbs, ps, hps, hp⟩ := h
  refine ⟨hbs, ps.modify (label - c.patches.size) fun p => { p with target := some d.nextAddress }, ?_, ?_⟩
  · rw [Code.bind, hps]
    refine Array.ext_getElem? fun i => ?_
    simp only [Array.getElem?_modify, Array.getElem?_append]
    by_cases hi : i < c.patches.size
    · rw [if_pos hi, if_neg (by omega), if_pos hi]
    · rw [if_neg hi, if_neg hi]
      by_cases e : label = i
      · rw [if_pos e, if_pos (by omega)]
      · rw [if_neg e, if_neg (by omega)]
  · intro p hp'
    obtain ⟨i, hi, rfl⟩ := Array.mem_iff_getElem.1 hp'
    rw [Array.getElem_modify]
    have hi' : i < ps.size := by simpa using hi
    have := hp ps[i] (Array.getElem_mem hi')
    split <;> exact this

/-- Code that fits with a bound label fits without it. -/
theorem Fits.of_bind {label : Nat} (h : (c.bind label).Fits code)
    (hopen : ∀ p, c.patches[label]? = some p → p.target = none) : c.Fits code := by
  refine ⟨h.size, fun i hi hfree => h.bytes i hi fun p hp e => ?_, fun p hp t ht => ?_⟩
  · obtain ⟨q, hq, e'⟩ := mem_operands_bind.1 ⟨p, hp, e⟩
    exact hfree q hq e'
  · obtain ⟨i, hi⟩ := Array.mem_iff_getElem?.1 hp
    refine h.jumps p (Array.mem_iff_getElem?.2 ⟨i, ?_⟩) t ht
    rw [bind, Array.getElem?_modify]
    split
    · rename_i e
      rw [hopen p (e ▸ hi)] at ht
      cases ht
    · exact hi

/-- Where a jump leads whose label was bound. -/
theorem Fits.distance {label : Nat} {p : Patch} (h : d.Fits code) (hp : c.patches[label]? = some p)
    (hd : (c.bind label).Extends d) :
    ∃ x : UInt8, code[p.operand]? = some x ∧ c.size = p.operand + 1 + x.toNat := by
  have h' := h.of_extends hd
  refine h'.jumps { p with target := some c.nextAddress } (Array.mem_iff_getElem?.2 ⟨label, ?_⟩) _ rfl
  rw [bind, Array.getElem?_modify, if_pos rfl, hp]
  rfl

/-! ### Jumps that were open -/

theorem Extends.patch {i : Nat} {p : Patch} (h : c.Extends d) (hp : c.patches[i]? = some p) :
    d.patches[i]? = some p := by
  obtain ⟨-, ps, hps, -⟩ := h
  rw [hps, Array.getElem?_append_left (Array.getElem?_eq_some_iff.1 hp).1, hp]

theorem patch_jump (c : Code) (op : Opcode) : (c.jump op).1.patches[c.patches.size]? = some ⟨c.size + 1, none⟩ := by
  rw [patches_jump]
  exact Array.getElem?_push_size

theorem extends_jump_opcode (c : Code) (op : Opcode) : (c.opcode op).Extends (c.jump op).1 := by
  refine ⟨⟨#[0], by simp [jump, byte, opcode]⟩, #[⟨c.size + 1, none⟩], ?_, ?_⟩
  · rw [patches_jump, Array.append_singleton]
    rfl
  · simp [opcode]

theorem Fits.of_jump (h : (d.bind c.patches.size).Fits code) (hd : (c.jump op).1.Extends d) : d.Fits code := by
  refine h.of_bind fun p hp => ?_
  obtain rfl := Option.some.inj ((hd.patch (c.patch_jump op)).symm.trans hp)
  rfl

theorem Fits.jump_byte (h : d.Fits code) (hc : c.Valid) (hd : (c.jump op).1.Extends d) :
    code[c.size]? = some op.toByte :=
  h.byte hc ((c.extends_jump_opcode op).trans hd)

/-- A jump leads to where its label was bound. -/
theorem Fits.jump {label : Nat} (h : e.Fits code) (hop : op.arity = 1) (hb : code[c.size]? = some op.toByte)
    (hp : d.patches[label]? = some ⟨c.size + 1, none⟩) (he : (d.bind label).Extends e) :
    ∃ x : Nat, Fetches code c.size op x 0 ∧ d.size = c.size + 2 + x := by
  obtain ⟨x, hx, hsize⟩ := h.distance hp he
  have fetch := fetches_of (n := 1) hb hop (Array.getElem?_eq_some_iff.1 hx).1
  refine ⟨x.toNat, ?_, hsize⟩
  simpa [Array.getD_eq_getD_getElem?, hx] using fetch

/-- Code that a jump leads over. -/
theorem Fits.over (h : (d.bind c.patches.size).Fits code) (hc : c.Valid) (hd : (c.jump .jumpIfNot).1.Extends d) :
    d.Fits code ∧ ∃ n : Nat, Fetches code c.size .jumpIfNot n 0 ∧ d.size = c.size + 2 + n := by
  have fits := of_jump h hd
  exact ⟨fits, h.jump rfl (fits.jump_byte hc hd) (hd.patch (patch_jump _ _)) (.refl _)⟩

/-- The second of two labels is still open while code is written behind the first. -/
theorem Extends.open_label (hd : (c.jump .jumpIfNot).1.Extends d) (he : ((d.jump .jump).1.bind c.patches.size).Extends e) :
    c.patches.size < d.patches.size ∧ e.patches[d.patches.size]? = some ⟨d.size + 1, none⟩ := by
  have hlabels : c.patches.size < d.patches.size := (Array.getElem?_eq_some_iff.1 (hd.patch (patch_jump _ _))).1
  refine ⟨hlabels, he.patch ?_⟩
  rw [Code.bind, Array.getElem?_modify, if_neg (Nat.ne_of_lt hlabels)]
  exact patch_jump _ _

/-- One of two pieces of code, the second one behind the first. -/
theorem Fits.either (h : (e.bind d.patches.size).Fits code) (hc : c.Valid) (hv : d.Valid)
    (hd : (c.jump .jumpIfNot).1.Extends d) (he : ((d.jump .jump).1.bind c.patches.size).Extends e) :
    d.Fits code ∧ e.Fits code ∧ (∃ i : Nat, Fetches code c.size .jumpIfNot i 0 ∧ d.size + 2 = c.size + 2 + i) ∧
      ∃ j : Nat, Fetches code d.size .jump j 0 ∧ e.size = d.size + 2 + j := by
  have hskip := hd.trans (extends_jump d .jump)
  obtain ⟨-, hpatch⟩ := hd.open_label he
  have fits₃ : e.Fits code := of_bind h fun p hp => by
    obtain rfl := Option.some.inj (hpatch.symm.trans hp)
    rfl
  have fits₂ : (d.jump .jump).1.Fits code := of_jump (fits₃.of_extends he) hskip
  have first := fits₃.jump rfl (fits₂.jump_byte hc hskip) (hskip.patch (patch_jump _ _)) he
  rw [size_jump] at first
  exact ⟨fits₂.of_extends (extends_jump _ _), fits₃, first, h.jump rfl (fits₂.jump_byte hv (.refl _)) hpatch (.refl _)⟩

/-! ### Resolving -/

theorem fill_spec : ∀ {ps : List Patch} {bytes code : Array UInt8}, fill bytes ps = (code, none) →
    (ps.map Patch.operand).Nodup → (∀ p ∈ ps, p.operand < bytes.size) →
    code.size = bytes.size ∧ (∀ i, (∀ p ∈ ps, p.operand ≠ i) → code[i]? = bytes[i]?) ∧
      ∀ p ∈ ps, ∀ t, p.target = some t → ∃ d : UInt8, code[p.operand]? = some d ∧ t = p.operand + 1 + d.toNat
  | [], bytes, code, h, _, _ => by
    cases h
    simp
  | p :: ps, bytes, code, h, hd, hin => by
    rw [List.map_cons, List.nodup_cons] at hd
    have hin' : ∀ q ∈ ps, q.operand < bytes.size := fun q hq => hin q (.tail _ hq)
    unfold fill at h
    cases ht : p.target with
    | none =>
      rw [ht] at h
      obtain ⟨hs, hb, hj⟩ := fill_spec h hd.2 hin'
      refine ⟨hs, fun i hi => hb i fun q hq => hi q (.tail _ hq), fun q hq t hq' => ?_⟩
      rcases List.mem_cons.1 hq with rfl | hq
      · rw [ht] at hq'
        cases hq'
      · exact hj q hq t hq'
    | some t =>
      rw [ht] at h
      dsimp only at h
      split at h
      · rename_i hle
        obtain ⟨hs, hb, hj⟩ := fill_spec h hd.2 fun q hq => by simpa using hin' q hq
        rw [Array.size_setIfInBounds] at hs
        refine ⟨hs, fun i hi => ?_, fun q hq u hu => ?_⟩
        · rw [hb i fun q hq => hi q (.tail _ hq), Array.getElem?_setIfInBounds_ne (hi p (.head _))]
        · rcases List.mem_cons.1 hq with rfl | hq
          · obtain rfl : t = u := Option.some.inj (ht.symm.trans hu)
            refine ⟨.ofNat (t - (q.operand + 1)), ?_, ?_⟩
            · rw [hb _ fun r hr e => hd.1 (List.mem_map.2 ⟨r, hr, e⟩),
                Array.getElem?_setIfInBounds_self_of_lt (hin q (.head _))]
            · rw [UInt8.toNat_ofNat_of_lt' hle.2]
              omega
          · exact hj q hq u hu
      · cases h

/-- Filling stops at the first jump that is too far. -/
theorem fill_failure : ∀ (ps : List Patch) (bytes : Array UInt8), (fill bytes ps).2 = ps.findSome? Patch.far
  | [], _ => rfl
  | p :: ps, bytes => by
    rw [List.findSome?_cons, Patch.far]
    unfold fill
    cases p.target with
    | none => exact fill_failure ps bytes
    | some t =>
      dsimp only
      split
      · exact fill_failure ps _
      · rfl

theorem Valid.fits_resolve (h : c.Valid) (hr : c.resolve = (d, none)) : c.Fits d.bytes := by
  unfold resolve at hr
  generalize hf : fill c.bytes c.patches.toList = r at hr
  obtain ⟨bytes, failure⟩ := r
  cases hr
  obtain ⟨hs, hb, hj⟩ := fill_spec hf h.distinct fun p hp => h.inside p (by simpa using hp)
  exact ⟨Nat.le_of_eq hs.symm, fun i _ hi => hb i fun p hp => hi p (by simpa using hp),
    fun p hp t ht => hj p (by simpa using hp) t ht⟩

theorem Valid.size_resolve (h : c.Valid) (hr : c.resolve = (d, none)) : d.size = c.size := by
  unfold resolve at hr
  generalize hf : fill c.bytes c.patches.toList = r at hr
  obtain ⟨bytes, failure⟩ := r
  cases hr
  exact (fill_spec hf h.distinct fun p hp => h.inside p (by simpa using hp)).1

end Code

end StackScript
