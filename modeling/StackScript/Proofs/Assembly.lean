import StackScript.Proofs.CodeLayout

/-!
Code as a sequence of whole instructions. Code under construction is one in which every jump is open, and every label
that is bound stands between two instructions. Resolving it fills in the distances, so every jump leads to where an
instruction starts, or to the end.
-/
namespace StackScript

namespace Opcode

def isJump : Opcode → Bool
  | jump | jumpIfNot => true
  | _ => false

theorem arity_of_isJump {op : Opcode} (h : op.isJump) : op.arity = 1 := by
  cases op <;> first | rfl | cases h

theorem not_isJump {op : Opcode} (h : op.arity ≠ 1) : op.isJump = false :=
  Bool.eq_false_iff.2 fun hj => h (arity_of_isJump hj)

end Opcode

namespace Code

/-- An instruction with its operands. -/
structure Item where
  op : Opcode
  args : List UInt8
  complete : args.length = op.arity

namespace Item

def bytes (it : Item) : List UInt8 := it.op.toByte :: it.args

def first (it : Item) : Nat := (it.args.getD 0 0).toNat

def second (it : Item) : Nat := (it.args.getD 1 0).toNat

theorem length_bytes (it : Item) : it.bytes.length = it.op.length := by
  rw [bytes, List.length_cons, it.complete, Opcode.length, Nat.add_comm]

end Item

def assemble (is : List Item) : List UInt8 := is.flatMap Item.bytes

/-- Where an instruction starts. -/
def offset (is : List Item) (k : Nat) : Nat := (assemble (is.take k)).length

/-- Whole instructions of which each meets a condition, and whose jumps lead to where one starts or to the end. -/
def WellFormed (ok : Opcode → Nat → Nat → Prop) (bytes : Array UInt8) : Prop :=
  ∀ i ∈ addressesFrom bytes bytes.size 0, ∃ op x y, Instruction.read bytes i (bytes.getD i 0) = .ofOpcode op x y ∧
    ok op x y ∧ (op.isJump → i + 2 + x ∈ addressesFrom bytes bytes.size 0 ∨ i + 2 + x = bytes.size)

variable {ok ok' : Opcode → Nat → Nat → Prop} {is pre post : List Item} {it new : Item} {k j n : Nat}
  {bytes code : Array UInt8} {c : Code} {p : Patch}

theorem WellFormed.mono (h : WellFormed ok bytes) (hok : ∀ op x y, ok op x y → ok' op x y) : WellFormed ok' bytes :=
  fun i hi => by
    obtain ⟨op, x, y, hr, h, hj⟩ := h i hi
    exact ⟨op, x, y, hr, hok op x y h, hj⟩

/-! ### Offsets -/

theorem assemble_append (is js : List Item) : assemble (is ++ js) = assemble is ++ assemble js := List.flatMap_append

theorem assemble_cons (it : Item) (is : List Item) : assemble (it :: is) = it.bytes ++ assemble is := rfl

theorem assemble_split (h : is[k]? = some it) :
    assemble is = assemble (is.take k) ++ (it.bytes ++ assemble (is.drop (k + 1))) := by
  obtain ⟨hk, rfl⟩ := List.getElem?_eq_some_iff.1 h
  rw [← assemble_cons, List.getElem_cons_drop hk, ← assemble_append, List.take_append_drop]

theorem offset_length (is : List Item) : offset is is.length = (assemble is).length := by
  rw [offset, List.take_length]

theorem offset_succ (h : is[k]? = some it) : offset is (k + 1) = offset is k + it.op.length := by
  rw [offset, List.take_add_one, h, Option.toList_some, assemble_append, List.length_append, ← offset, assemble_cons,
    List.length_append, it.length_bytes]
  rfl

theorem offset_append (h : k ≤ is.length) : offset (is ++ post) k = offset is k := by
  rw [offset, List.take_append_of_le_length h, offset]

theorem length_le_assemble (is : List Item) : is.length ≤ (assemble is).length := by
  induction is with
  | nil => exact Nat.le_refl _
  | cons it is ih =>
    rw [assemble_cons, List.length_append, it.length_bytes, List.length_cons, Opcode.length]
    omega

/-! ### Reading -/

/-- An instruction is read where its bytes stand. -/
theorem read_item {i : Nat} (it : Item) (stands : ∀ n < it.bytes.length, bytes[i + n]? = it.bytes[n]?) :
    Instruction.read bytes i (bytes.getD i 0) = .ofOpcode it.op it.first it.second := by
  have length : it.bytes.length = it.op.arity + 1 := by rw [it.length_bytes, Opcode.length, Nat.add_comm]
  have size : ¬ bytes.size < i + it.op.length := by
    have last := stands it.op.arity (by omega)
    rw [List.getElem?_eq_getElem (by omega)] at last
    have := (Array.getElem?_eq_some_iff.1 last).1
    rw [Opcode.length]
    omega
  have start : bytes.getD i 0 = it.op.toByte := by
    rw [Array.getD_eq_getD_getElem?, ← Nat.add_zero i, stands 0 (by omega)]
    rfl
  have operand (n : Nat) : (if n + 1 ≤ it.op.arity then (bytes.getD (i + (n + 1)) 0).toNat else 0) =
      (it.args.getD n 0).toNat := by
    split
    · next hn =>
      rw [Array.getD_eq_getD_getElem?, stands (n + 1) (by omega), List.getD_eq_getElem?_getD]
      rfl
    · next hn =>
      rw [List.getD_eq_getElem?_getD, List.getElem?_eq_none (by rw [it.complete]; omega)]
      rfl
  rw [start]
  simp only [Instruction.read, Opcode.ofByte?_toByte, if_neg size]
  rw [operand 0, operand 1]
  rfl

theorem read_assemble (hb : bytes.toList = assemble is) (h : is[k]? = some it) :
    Instruction.read bytes (offset is k) (bytes.getD (offset is k) 0) = .ofOpcode it.op it.first it.second := by
  refine read_item it fun n hn => ?_
  rw [← Array.getElem?_toList, hb, assemble_split h, offset, List.getElem?_append_right (Nat.le_add_right _ _),
    Nat.add_sub_cancel_left, List.getElem?_append_left hn]

theorem addressesFrom_assemble : ∀ (post pre : List Item) (fuel : Nat), post.length ≤ fuel →
    bytes.toList = assemble (pre ++ post) →
    addressesFrom bytes fuel (assemble pre).length =
      (List.range post.length).map fun k => offset (pre ++ post) (pre.length + k)
  | [], pre, fuel, _, hb => by
    have none : bytes[(assemble pre).length]? = none := by
      rw [← Array.getElem?_toList, hb, List.append_nil]
      exact List.getElem?_eq_none (Nat.le_refl _)
    cases fuel with
    | zero => rfl
    | succ fuel =>
      rw [addressesFrom, none]
      rfl
  | it :: post, pre, 0, h, _ => by cases h
  | it :: post, pre, fuel + 1, h, hb => by
    have here : (pre ++ it :: post)[pre.length]? = some it := by simp
    have start : offset (pre ++ it :: post) pre.length = (assemble pre).length := by
      rw [offset_append (Nat.le_refl _), offset_length]
    have byte : bytes[(assemble pre).length]? = some it.op.toByte := by
      rw [← Array.getElem?_toList, hb, assemble_append, List.getElem?_append_right (Nat.le_refl _), Nat.sub_self]
      rfl
    have next : (assemble pre).length + it.op.length = (assemble (pre ++ [it])).length := by
      rw [assemble_append, List.length_append, assemble_cons, List.length_append, it.length_bytes]
      rfl
    have rest := addressesFrom_assemble post (pre ++ [it]) fuel (Nat.le_of_succ_le_succ h) (by simpa using hb)
    rw [addressesFrom, byte]
    dsimp only
    rw [Opcode.ofByte?_toByte, Option.map_some, Option.getD_some, next, rest, List.length_cons, List.range_succ_eq_map,
      List.map_cons, Nat.add_zero, start, List.map_map]
    refine congrArg _ (List.map_congr_left fun k _ => ?_)
    rw [Function.comp_apply, List.append_assoc, List.length_append, List.singleton_append, List.length_singleton,
      Nat.succ_eq_add_one, Nat.add_assoc, Nat.add_comm 1 k]

/-- Instructions start where they were put. -/
theorem mem_addressesFrom (hb : bytes.toList = assemble is) :
    n ∈ addressesFrom bytes bytes.size 0 ↔ ∃ k < is.length, offset is k = n := by
  have hsize : is.length ≤ bytes.size := by
    rw [← Array.length_toList, hb]
    exact length_le_assemble is
  have all := addressesFrom_assemble is [] bytes.size hsize hb
  change addressesFrom bytes bytes.size 0 = _ at all
  rw [all]
  simp

/-! ### Finished code -/

structure Assembles (ok : Opcode → Nat → Nat → Prop) (is : List Item) (bytes : Array UInt8) : Prop where
  bytes : bytes.toList = assemble is
  ok : ∀ it ∈ is, ok it.op it.first it.second
  lands : ∀ (k : Nat) (it : Item), is[k]? = some it → it.op.isJump →
    ∃ j ≤ is.length, offset is j = offset is k + 2 + it.first

theorem Assembles.wellFormed (h : Assembles ok is bytes) : WellFormed ok bytes := by
  intro i hi
  obtain ⟨k, hk, rfl⟩ := (mem_addressesFrom h.bytes).1 hi
  have hit := List.getElem?_eq_getElem hk
  refine ⟨_, _, _, read_assemble h.bytes hit, h.ok _ (List.getElem_mem hk), fun hj => ?_⟩
  obtain ⟨j, hjl, e⟩ := h.lands k _ hit hj
  rw [← e]
  rcases Nat.lt_or_eq_of_le hjl with hlt | rfl
  · exact .inl ((mem_addressesFrom h.bytes).2 ⟨j, hlt, rfl⟩)
  · rw [offset_length, ← h.bytes]
    exact .inr rfl

/-- One instruction that is no jump is code. -/
theorem wellFormed_single (it : Item) (hj : it.op.isJump = false) (hit : ok it.op it.first it.second)
    (hb : bytes.toList = it.bytes) : WellFormed ok bytes := by
  suffices whole : Assembles ok [it] bytes from whole.wellFormed
  refine ⟨by rw [hb, assemble_cons]; exact (List.append_nil _).symm, ?_, ?_⟩
  · rintro it' h
    obtain rfl := List.mem_singleton.1 h
    exact hit
  · intro k it' h hj'
    obtain rfl := List.mem_singleton.1 (List.mem_of_getElem? h)
    rw [hj] at hj'
    cases hj'

/-! ### Code that is written on -/

/-- What is written stays, and jumps are added behind it, whether labels are bound or not. -/
structure Follows (c d : Code) : Prop where
  bytes : ∃ bs, d.bytes = c.bytes ++ bs
  operands : ∃ new, d.patches.toList.map Patch.operand = c.patches.toList.map Patch.operand ++ new ∧ ∀ i ∈ new, c.size ≤ i

variable {d e : Code}

theorem Follows.refl (c : Code) : c.Follows c := ⟨⟨#[], by simp⟩, [], by simp, nofun⟩

theorem Follows.trans (h : c.Follows d) (k : d.Follows e) : c.Follows e := by
  obtain ⟨⟨bs, hbs⟩, new, hnew, hi⟩ := h
  obtain ⟨⟨cs, hcs⟩, new', hnew', hi'⟩ := k
  have hsize : c.size ≤ d.size := by simp [size, hbs]
  refine ⟨⟨bs ++ cs, by rw [hcs, hbs, Array.append_assoc]⟩, new ++ new', by rw [hnew', hnew, List.append_assoc], fun i h => ?_⟩
  rcases List.mem_append.1 h with h | h
  · exact hi i h
  · exact Nat.le_trans hsize (hi' i h)

theorem Extends.follows (h : c.Extends d) : c.Follows d := by
  obtain ⟨bytes, ps, hps, hp⟩ := h
  refine ⟨bytes, ps.toList.map Patch.operand, by simp [hps], fun i hi => ?_⟩
  obtain ⟨p, hp', rfl⟩ := List.mem_map.1 hi
  exact hp p (by simpa using hp')

theorem follows_bind (c : Code) (label : Nat) : c.Follows (c.bind label) :=
  ⟨⟨#[], by simp [Code.bind]⟩, [], by rw [operands_bind, List.append_nil], nofun⟩

/-- Bytes that are no operands of jumps are installed as they were written. -/
theorem Follows.byte {i : Nat} (h : c.Follows d) (hd : d.Valid) (hr : d.resolve = (e, none)) (hi : i < c.size)
    (free : ∀ p ∈ c.patches, p.operand ≠ i) : e.bytes[i]? = c.bytes[i]? := by
  obtain ⟨⟨bs, hbs⟩, new, hnew, hge⟩ := h
  have hlt : i < d.size := by
    simp only [size, hbs, Array.size_append]
    exact Nat.lt_of_lt_of_le hi (Nat.le_add_right _ _)
  rw [(hd.fits_resolve hr).bytes i hlt fun p hp e => ?_, hbs, Array.getElem?_append_left hi]
  have hmem : p.operand ∈ d.patches.toList.map Patch.operand := List.mem_map.2 ⟨p, by simpa using hp, rfl⟩
  rw [hnew, e] at hmem
  rcases List.mem_append.1 hmem with hmem | hmem
  · obtain ⟨q, hq, e⟩ := List.mem_map.1 hmem
    exact free q (by simpa using hq) e
  · exact Nat.not_lt.2 (hge i hmem) hi

/-- One more instruction is written, which is no open jump. -/
structure Ends (c d : Code) (it : Item) : Prop where
  bytes : d.bytes.toList = c.bytes.toList ++ it.bytes
  patches : d.patches = c.patches

/-- What is written is what is installed. -/
theorem Ends.read {code : Code} (h : c.Ends d it) (hc : c.Valid) (follows : d.Follows e) (he : e.Valid)
    (hr : e.resolve = (code, none)) :
    Instruction.read code.bytes c.size (code.bytes.getD c.size 0) = .ofOpcode it.op it.first it.second := by
  refine read_item it fun n hn => ?_
  have hd : d.size = c.size + it.bytes.length := by
    rw [size, ← Array.length_toList, h.bytes, List.length_append]
    rfl
  have free : ∀ p ∈ d.patches, p.operand ≠ c.size + n := fun p hp e => by
    have := hc.inside p (h.patches ▸ hp)
    omega
  rw [follows.byte he hr (by omega) free, ← Array.getElem?_toList, h.bytes, size, ← Array.length_toList,
    List.getElem?_append_right (Nat.le_add_right _ _), Nat.add_sub_cancel_left]

/-! ### Code under construction -/

/-- A patch belongs to a jump, and its label stands before an instruction or at the end. -/
def Places (is : List Item) (p : Patch) : Prop :=
  ∃ k it, is[k]? = some it ∧ it.op.isJump ∧ p.operand = offset is k + 1 ∧
    ∀ t, p.target = some t → ∃ j ≤ is.length, t = offset is j

structure Drafts (ok : Opcode → Nat → Nat → Prop) (is : List Item) (c : Code) : Prop where
  bytes : c.bytes.toList = assemble is
  ok : ∀ it ∈ is, ok it.op it.first it.second
  opens : ∀ it ∈ is, it.op.isJump → it.first = 0
  patches : ∀ p ∈ c.patches, Places is p

/-- Code under construction that consists of whole instructions. -/
def Drafted (ok : Opcode → Nat → Nat → Prop) (c : Code) : Prop := ∃ is, Drafts ok is c

theorem Drafted.mono (h : Drafted ok c) (hok : ∀ op x y, ok op x y → ok' op x y) : Drafted ok' c := by
  obtain ⟨is, h⟩ := h
  exact ⟨is, { h with ok := fun it hit => hok _ _ _ (h.ok it hit) }⟩

theorem drafted_empty : Drafted ok {} := ⟨[], rfl, nofun, nofun, nofun⟩

theorem size_of_bytes (hb : c.bytes.toList = assemble is) : c.size = offset is is.length := by
  rw [offset_length, ← hb]
  rfl

theorem Places.append (h : Places is p) (post : List Item) : Places (is ++ post) p := by
  obtain ⟨k, it, hk, hj, e, ht⟩ := h
  have hlt := (List.getElem?_eq_some_iff.1 hk).1
  refine ⟨k, it, by rw [List.getElem?_append_left hlt, hk], hj, by rw [e, offset_append (Nat.le_of_lt hlt)], fun t h => ?_⟩
  obtain ⟨j, hjl, e⟩ := ht t h
  exact ⟨j, by rw [List.length_append]; omega, by rw [e, offset_append hjl]⟩

/-- One more instruction is written. -/
theorem Drafts.append {d : Code} (h : Drafts ok is c) (new : Item) (hok : ok new.op new.first new.second)
    (hj : new.op.isJump → new.first = 0) (hb : d.bytes.toList = c.bytes.toList ++ new.bytes)
    (hp : ∀ p ∈ d.patches, p ∈ c.patches ∨ Places (is ++ [new]) p) : Drafts ok (is ++ [new]) d := by
  refine ⟨?_, fun it hit => ?_, fun it hit => ?_, fun p hp' => (hp p hp').elim (fun hp => (h.patches p hp).append _) id⟩
  · rw [hb, h.bytes, assemble_append, assemble_cons]
    exact congrArg _ (List.append_nil _).symm
  · rcases List.mem_append.1 hit with hit | hit
    · exact h.ok it hit
    · exact List.mem_singleton.1 hit ▸ hok
  · rcases List.mem_append.1 hit with hit | hit
    · exact h.opens it hit
    · exact List.mem_singleton.1 hit ▸ hj

section

variable {op : Opcode} {a b : UInt8}

theorem Drafts.opcode (h : Drafts ok is c) (hop : op.arity = 0) (hok : ok op 0 0) :
    Drafts ok (is ++ [⟨op, [], hop.symm⟩]) (c.opcode op) :=
  h.append ⟨op, [], hop.symm⟩ hok (fun _ => rfl) Array.toList_push fun _ hp => .inl hp

theorem Drafts.opcode1 (h : Drafts ok is c) (hop : op.arity = 1) (hj : op.isJump = false) (hok : ok op a.toNat 0) :
    Drafts ok (is ++ [⟨op, [a], hop.symm⟩]) ((c.opcode op).byte a) := by
  refine h.append ⟨op, [a], hop.symm⟩ hok (fun e => ?_) ?_ fun _ hp => .inl hp
  · rw [hj] at e
    cases e
  · simp [Code.opcode, byte, Item.bytes]

theorem Drafts.opcode2 (h : Drafts ok is c) (hop : op.arity = 2) (hok : ok op a.toNat b.toNat) :
    Drafts ok (is ++ [⟨op, [a, b], hop.symm⟩]) (((c.opcode op).byte a).byte b) := by
  refine h.append ⟨op, [a, b], hop.symm⟩ hok (fun e => ?_) ?_ fun _ hp => .inl hp
  · rw [Opcode.arity_of_isJump e] at hop
    cases hop
  · simp [Code.opcode, byte, Item.bytes]

theorem Drafts.jump (h : Drafts ok is c) (hj : op.isJump) (hok : ok op 0 0) :
    Drafts ok (is ++ [⟨op, [0], (Opcode.arity_of_isJump hj).symm⟩]) (c.jump op).1 := by
  let new : Item := ⟨op, [0], (Opcode.arity_of_isJump hj).symm⟩
  have place : Places (is ++ [new]) ⟨c.size + 1, none⟩ := by
    refine ⟨is.length, _, List.getElem?_concat_length, hj, ?_, nofun⟩
    rw [offset_append (Nat.le_refl _), size_of_bytes h.bytes]
  refine h.append new hok (fun _ => rfl) ?_ fun p hp => ?_
  · simp [Code.jump, Code.opcode, byte, Item.bytes, new]
  · rw [patches_jump, Array.mem_push] at hp
    exact hp.imp id fun e => by rwa [e]

theorem Drafts.bind (h : Drafts ok is c) (label : Nat) : Drafts ok is (c.bind label) := by
  refine { h with patches := fun p hp => ?_ }
  obtain ⟨i, hi⟩ := Array.mem_iff_getElem?.1 hp
  rw [Code.bind, Array.getElem?_modify] at hi
  split at hi
  · obtain ⟨q, hq, rfl⟩ := Option.map_eq_some_iff.1 hi
    obtain ⟨k, it, hk, hj, e, -⟩ := h.patches q (Array.mem_of_getElem? hq)
    refine ⟨k, it, hk, hj, e, fun t ht => ⟨is.length, Nat.le_refl _, ?_⟩⟩
    rw [← size_of_bytes h.bytes]
    exact (Option.some.inj ht).symm
  · exact h.patches p (Array.mem_of_getElem? hi)

theorem Drafted.opcode (h : Drafted ok c) (hop : op.arity = 0) (hok : ok op 0 0) : Drafted ok (c.opcode op) :=
  h.imp' _ fun _ h => h.opcode hop hok

theorem Drafted.opcode1 (h : Drafted ok c) (hop : op.arity = 1) (hj : op.isJump = false) (hok : ok op a.toNat 0) :
    Drafted ok ((c.opcode op).byte a) := h.imp' _ fun _ h => h.opcode1 hop hj hok

theorem Drafted.opcode2 (h : Drafted ok c) (hop : op.arity = 2) (hok : ok op a.toNat b.toNat) :
    Drafted ok (((c.opcode op).byte a).byte b) := h.imp' _ fun _ h => h.opcode2 hop hok

theorem Drafted.jump (h : Drafted ok c) (hj : op.isJump) (hok : ok op 0 0) : Drafted ok (c.jump op).1 :=
  h.imp' _ fun _ h => h.jump hj hok

theorem Drafted.bind (h : Drafted ok c) (label : Nat) : Drafted ok (c.bind label) := h.imp fun _ h => h.bind label

end

/-! ### Instructions behind instructions -/

/-- The code under construction consists of these instructions, whatever they are. -/
abbrev Consists (is : List Item) (c : Code) : Prop := Drafts (fun _ _ _ => True) is c

/-- Whatever instructions the code consists of, more are written behind them. -/
def Continues (c d : Code) : Prop := ∀ is, Consists is c → ∃ new, Consists (is ++ new) d

section

variable {d e : Code} {op : Opcode}

theorem Continues.refl (c : Code) : c.Continues c := fun is h => ⟨[], by rwa [List.append_nil]⟩

theorem Continues.trans (h : c.Continues d) (k : d.Continues e) : c.Continues e := fun is hc => by
  obtain ⟨new, hd⟩ := h is hc
  obtain ⟨more, he⟩ := k _ hd
  exact ⟨new ++ more, by rwa [← List.append_assoc]⟩

theorem continues_opcode (c : Code) (hop : op.arity = 0) : c.Continues (c.opcode op) :=
  fun _ h => ⟨_, h.opcode hop trivial⟩

theorem continues_opcode1 (c : Code) (a : UInt8) (hop : op.arity = 1) (hj : op.isJump = false) :
    c.Continues ((c.opcode op).byte a) := fun _ h => ⟨_, h.opcode1 hop hj trivial⟩

theorem continues_opcode2 (c : Code) (a b : UInt8) (hop : op.arity = 2) : c.Continues (((c.opcode op).byte a).byte b) :=
  fun _ h => ⟨_, h.opcode2 hop trivial⟩

theorem continues_jump (c : Code) (hj : op.isJump) : c.Continues (c.jump op).1 := fun _ h => ⟨_, h.jump hj trivial⟩

theorem continues_bind (c : Code) (label : Nat) : c.Continues (c.bind label) :=
  fun is h => ⟨[], by rw [List.append_nil]; exact h.bind label⟩

end

/-! ### Filling in distances -/

/-- Another operand for an instruction that has one. -/
def Item.withArg (it : Item) (b : UInt8) (h : it.op.arity = 1) : Item := ⟨it.op, [b], h.symm⟩

section

variable {b : UInt8} (hit : is[k]? = some it) (hop : it.op.arity = 1)
include hit

theorem assemble_set : assemble (is.set k (it.withArg b hop)) = (assemble is).set (offset is k + 1) b := by
  obtain ⟨op, args, complete⟩ := it
  obtain ⟨a, rfl⟩ := List.length_eq_one_iff.1 (complete.trans hop)
  have hk := (List.getElem?_eq_some_iff.1 hit).1
  have set : (is.set k (Item.withArg ⟨op, [a], complete⟩ b hop))[k]? = some (Item.withArg ⟨op, [a], complete⟩ b hop) :=
    List.getElem?_set_self hk
  rw [assemble_split set, assemble_split hit, List.take_set_of_le (Nat.le_refl k), List.drop_set_of_lt (Nat.lt_succ_self k),
    offset, List.set_append_right _ _ (Nat.le_add_right _ _), Nat.add_sub_cancel_left]
  rfl

theorem offset_set (j : Nat) : offset (is.set k (it.withArg b hop)) j = offset is j := by
  unfold offset
  rw [List.take_set]
  by_cases hj : k < j
  · have hit' : (is.take j)[k]? = some it := by rw [List.getElem?_take_of_lt hj, hit]
    rw [assemble_set hit' hop, List.length_set]
  · rw [List.set_eq_of_length_le (by rw [List.length_take]; omega)]

theorem Places.set (h : Places is p) : Places (is.set k (it.withArg b hop)) p := by
  obtain ⟨i, it', hi, hj, e, ht⟩ := h
  have same : ∃ it'', (is.set k (it.withArg b hop))[i]? = some it'' ∧ it''.op.isJump := by
    rw [List.getElem?_set]
    split
    · next hki =>
      subst hki
      rw [if_pos (List.getElem?_eq_some_iff.1 hit).1]
      obtain rfl := Option.some.inj (hit.symm.trans hi)
      exact ⟨_, rfl, hj⟩
    · exact ⟨it', hi, hj⟩
  obtain ⟨it'', hi'', hj''⟩ := same
  refine ⟨i, it'', hi'', hj'', by rw [e, offset_set hit hop], fun t h => ?_⟩
  obtain ⟨j, hjl, e⟩ := ht t h
  exact ⟨j, by rwa [List.length_set], by rw [e, offset_set hit hop]⟩

/-- A jump is given its distance. -/
theorem Assembles.set (h : Assembles ok is bytes) (hok : ok it.op b.toNat 0) (hj : j ≤ is.length)
    (target : offset is j = offset is k + 2 + b.toNat) :
    Assembles ok (is.set k (it.withArg b hop)) (bytes.setIfInBounds (offset is k + 1) b) := by
  refine ⟨?_, fun it' hit' => ?_, fun i it' hi hjump => ?_⟩
  · rw [Array.toList_setIfInBounds, h.bytes, assemble_set hit hop]
  · rcases List.mem_or_eq_of_mem_set hit' with hit' | rfl
    · exact h.ok it' hit'
    · exact hok
  · rw [List.length_set]
    simp only [offset_set hit hop]
    rw [List.getElem?_set] at hi
    split at hi
    · next hki =>
      subst hki
      rw [if_pos (List.getElem?_eq_some_iff.1 hit).1] at hi
      obtain rfl := Option.some.inj hi
      exact ⟨j, hj, target⟩
    · exact h.lands i it' hi hjump

end

/-- All other instructions stay. -/
theorem Assembles.fill (hok : ∀ (op : Opcode) (x : Nat), op.isJump → ok op x 0) : ∀ {ps : List Patch} {is : List Item}
    {bytes : Array UInt8}, Assembles ok is bytes → (∀ p ∈ ps, Places is p) → fill bytes ps = (code, none) →
    ∃ is', Assembles ok is' code ∧ ∀ it ∈ is, it.op.isJump = false → it ∈ is'
  | [], is, bytes, h, _, hf => by
    cases hf
    exact ⟨is, h, fun _ among _ => among⟩
  | p :: ps, is, bytes, h, hp, hf => by
    unfold Code.fill at hf
    cases ht : p.target with
    | none =>
      rw [ht] at hf
      exact h.fill hok (fun q hq => hp q (.tail _ hq)) hf
    | some t =>
      rw [ht] at hf
      dsimp only at hf
      split at hf
      · next hle =>
        obtain ⟨k, it, hit, hj, e, htarget⟩ := hp p (.head _)
        obtain ⟨j, hjl, rfl⟩ := htarget t ht
        have hop := Opcode.arity_of_isJump hj
        rw [e] at hf hle
        have filled : Assembles ok (is.set k (it.withArg _ hop)) _ := h.set hit hop (hok _ _ hj) hjl (by
          rw [UInt8.toNat_ofNat_of_lt' hle.2]
          omega)
        obtain ⟨is', h', kept⟩ := filled.fill hok (fun q hq => (hp q (.tail _ hq)).set hit hop) hf
        refine ⟨is', h', fun other among still => kept other ?_ still⟩
        obtain ⟨n, hn⟩ := List.mem_iff_getElem?.1 among
        refine List.mem_of_getElem? (i := n) ?_
        rw [List.getElem?_set_ne, hn]
        rintro rfl
        obtain rfl := Option.some.inj (hn.symm.trans hit)
        rw [still] at hj
        cases hj
      · cases hf

/-- Code that resolves goes on consisting of its instructions, but for the distances of its jumps. -/
theorem Drafts.resolved (h : Drafts ok is c) (hok : ∀ (op : Opcode) (x : Nat), op.isJump → ok op x 0) {d : Code}
    (hr : c.resolve = (d, none)) : ∃ is', Assembles ok is' d.bytes ∧ ∀ it ∈ is, it.op.isJump = false → it ∈ is' := by
  unfold resolve at hr
  generalize hf : Code.fill c.bytes c.patches.toList = r at hr
  obtain ⟨bytes, failure⟩ := r
  cases hr
  -- A jump that is still open leads to what follows it.
  have opened : Assembles ok is c.bytes := by
    refine ⟨h.bytes, h.ok, fun k it hk hj => ⟨k + 1, (List.getElem?_eq_some_iff.1 hk).1, ?_⟩⟩
    rw [offset_succ hk, Opcode.length, Opcode.arity_of_isJump hj, h.opens it (List.mem_of_getElem? hk) hj]
  exact opened.fill hok (fun p hp => h.patches p (by simpa using hp)) hf

/-- Code that resolves is whole. -/
theorem Drafted.wellFormed (h : Drafted ok c) (hok : ∀ (op : Opcode) (x : Nat), op.isJump → ok op x 0) {d : Code}
    (hr : c.resolve = (d, none)) : WellFormed ok d.bytes := by
  obtain ⟨is, h⟩ := h
  obtain ⟨is', h', -⟩ := h.resolved hok hr
  exact h'.wellFormed

end Code

end StackScript
