import StackScript.Proofs.Actions
import StackScript.Proofs.CodeLayout

/-!
Jumps while code is written. A label is the number of its jump. It may be bound at any later time and more than once,
and other jumps may be written and bound in between; what counts in the end is where it was bound last.
-/
namespace StackScript

theorem Patch.far_of_lt {start t : Nat} (distance : 255 < t - (start + 2)) :
    Patch.far ⟨start + 1, some t⟩ = some ⟨start + 2, t⟩ := by
  refine if_neg fun near => ?_
  have near : t - (start + 2) < 256 := near.2
  omega

namespace Code

/-- A step of writing code. -/
inductive Edit
  | opcode (op : Opcode)
  | arg (b : UInt8)
  | append (d : Code)
  | jump (op : Opcode)
  | bind (label : Nat)
deriving DecidableEq, Repr

namespace Edit

def apply (c : Code) : Edit → Code
  | opcode op => c.opcode op
  | arg b => c.byte b
  | append d => c.append d
  | jump op => (c.jump op).1
  | bind label => c.bind label

/-- The bytes that it adds. -/
def bytes : Edit → Bytes
  | opcode op => [op.toByte]
  | arg b => [b]
  | append d => d.bytes.toList
  | jump op => [op.toByte, 0]
  | bind _ => []

def isJump : Edit → Bool
  | jump _ => true
  | _ => false

end Edit

def write (es : List Edit) : Code := es.foldl Edit.apply {}

/-- The label that the next jump gets. -/
def labels (es : List Edit) : Nat := es.countP Edit.isJump

/-- Where the next byte is written. -/
def address (es : List Edit) : Nat := (es.flatMap Edit.bytes).length

/-- The jump with a label, the address at which it starts, and the one at which its label was bound last. -/
inductive Jumps (es : List Edit) (label : Nat) (op : Opcode) (start : Nat) : Option Nat → Prop
  | unbound {pre post : List Edit} (written : es = pre ++ .jump op :: post) (number : labels pre = label)
    (place : address pre = start) (never : .bind label ∉ post) : Jumps es label op start none
  | bound {pre mid post : List Edit} (written : es = pre ++ .jump op :: (mid ++ .bind label :: post))
    (number : labels pre = label) (place : address pre = start) (last : .bind label ∉ post) :
    Jumps es label op start (some (address (pre ++ .jump op :: mid)))

variable {c : Code} {es fs : List Edit} {e : Edit} {op op' : Opcode} {label label' start start' : Nat}
  {target target' : Option Nat} {p : Patch}

/-! ### What is written -/

theorem labels_append (es fs : List Edit) : labels (es ++ fs) = labels es + labels fs := List.countP_append

theorem address_append (es fs : List Edit) : address (es ++ fs) = address es + address fs := by
  rw [address, List.flatMap_append, List.length_append]
  rfl

theorem address_jump (op : Opcode) (es : List Edit) : address (.jump op :: es) = 2 + address es :=
  address_append [.jump op] es

theorem write_append (es fs : List Edit) : write (es ++ fs) = fs.foldl Edit.apply (write es) := List.foldl_append

theorem bytes_apply (c : Code) (e : Edit) : (e.apply c).bytes.toList = c.bytes.toList ++ e.bytes := by
  cases e with
  | append d => exact Array.toList_append
  | bind label => exact (List.append_nil _).symm
  | _ => simp [Edit.apply, Edit.bytes, Code.opcode, byte, Code.jump]

theorem bytes_foldl (es : List Edit) (c : Code) :
    (es.foldl Edit.apply c).bytes.toList = c.bytes.toList ++ es.flatMap Edit.bytes := by
  induction es generalizing c with
  | nil => exact (List.append_nil _).symm
  | cons e es ih => rw [List.foldl_cons, ih, bytes_apply, List.flatMap_cons, List.append_assoc]

theorem bytes_write (es : List Edit) : (write es).bytes.toList = es.flatMap Edit.bytes := bytes_foldl es {}

theorem size_write (es : List Edit) : (write es).size = address es := by
  rw [address, ← bytes_write, Array.length_toList]
  rfl

theorem patches_foldl (es : List Edit) (c : Code) :
    (es.foldl Edit.apply c).patches.size = c.patches.size + labels es := by
  induction es generalizing c with
  | nil => rfl
  | cons e es ih =>
    rw [List.foldl_cons, ih, labels, labels, List.countP_cons]
    cases e with
    | jump op =>
      rw [Edit.apply, patches_jump, Array.size_push, Edit.isJump, if_pos rfl]
      omega
    | bind label =>
      rw [Edit.apply, Code.bind, Array.size_modify]
      rfl
    | _ => rfl

/-- A jump is given its label. -/
theorem patches_write (es : List Edit) : (write es).patches.size = labels es :=
  (patches_foldl es {}).trans (Nat.zero_add _)

theorem Valid.append (h : c.Valid) (d : Code) : (c.append d).Valid :=
  ⟨fun p hp => Nat.lt_of_lt_of_le (h.inside p hp) (by simp), h.distinct⟩

theorem Valid.apply (h : c.Valid) (e : Edit) : (e.apply c).Valid := by
  cases e with
  | opcode op => exact h.opcode op
  | arg b => exact h.byte b
  | append d => exact h.append d
  | jump op => exact h.jump op
  | bind label => exact h.bind label

theorem Valid.foldl (h : c.Valid) (es : List Edit) : (es.foldl Edit.apply c).Valid := by
  induction es generalizing c with
  | nil => exact h
  | cons e es ih => exact ih (h.apply e)

theorem valid_write (es : List Edit) : (write es).Valid := valid_empty.foldl es

/-! ### What is recorded -/

theorem patch_apply (h : c.patches[label]? = some p) (free : e ≠ .bind label) :
    (e.apply c).patches[label]? = some p := by
  cases e with
  | jump op => exact (c.extends_jump op).patch h
  | bind other =>
    rw [Edit.apply, Code.bind, Array.getElem?_modify, if_neg fun same => free (congrArg _ same)]
    exact h
  | _ => exact h

/-- A record stays as it is while its label is not bound. -/
theorem patch_foldl (h : c.patches[label]? = some p) (free : .bind label ∉ es) :
    (es.foldl Edit.apply c).patches[label]? = some p := by
  induction es generalizing c with
  | nil => exact h
  | cons e es ih =>
    rw [List.mem_cons, not_or] at free
    exact ih (patch_apply h (Ne.symm free.1)) free.2

theorem patch_bind (h : c.patches[label]? = some p) :
    (c.bind label).patches[label]? = some ⟨p.operand, some c.size⟩ := by
  rw [Code.bind, Array.getElem?_modify, if_pos rfl, h]
  rfl

/-- Binding labels does not move operands. -/
theorem operand_foldl (es : List Edit) (h : c.patches[label]? = some p) :
    ∃ target, (es.foldl Edit.apply c).patches[label]? = some ⟨p.operand, target⟩ := by
  induction es generalizing c p with
  | nil => exact ⟨p.target, h⟩
  | cons e es ih =>
    by_cases same : e = .bind label
    · subst same
      obtain ⟨target, found⟩ := ih (patch_bind h)
      exact ⟨target, found⟩
    · exact ih (patch_apply h same)

theorem patch_opened (es : List Edit) (op : Opcode) :
    ((write es).jump op).1.patches[labels es]? = some ⟨address es + 1, none⟩ := by
  rw [← patches_write, ← size_write]
  exact patch_jump _ op

theorem Jumps.patch (h : Jumps es label op start target) : (write es).patches[label]? = some ⟨start + 1, target⟩ := by
  cases h with
  | unbound written number place never =>
    subst written number place
    rw [write_append, List.foldl_cons]
    exact patch_foldl (patch_opened _ op) never
  | @bound pre mid post written number place last =>
    subst written number place
    obtain ⟨before, found⟩ := operand_foldl mid (patch_opened pre op)
    have size : (mid.foldl Edit.apply ((write pre).jump op).1).size = address (pre ++ .jump op :: mid) := by
      rw [← size_write, write_append, List.foldl_cons, Edit.apply]
    rw [write_append, List.foldl_cons, List.foldl_append, List.foldl_cons, ← size]
    -- What the label was bound to before is forgotten.
    exact patch_foldl (patch_bind found) last

/-! ### Every label has its jump -/

theorem exists_jump : ∀ {es : List Edit} {label : Nat}, label < labels es →
    ∃ pre op post, es = pre ++ .jump op :: post ∧ labels pre = label
  | [], _, h => absurd h (Nat.not_lt_zero _)
  | e :: es, label, h => by
    have count : labels (e :: es) = labels [e] + labels es := labels_append [e] es
    have behind (fewer : label - labels [e] < labels es) (enough : labels [e] ≤ label) :
        ∃ pre op post, e :: es = pre ++ .jump op :: post ∧ labels pre = label := by
      obtain ⟨pre, op, post, rfl, number⟩ := exists_jump fewer
      refine ⟨e :: pre, op, post, rfl, ?_⟩
      have count : labels (e :: pre) = labels [e] + labels pre := labels_append [e] pre
      omega
    cases e with
    | jump op =>
      have one : labels [.jump op] = 1 := rfl
      cases label with
      | zero => exact ⟨[], op, es, rfl, rfl⟩
      | succ label => exact behind (by omega) (by omega)
    | _ => exact behind (by simpa [labels, Edit.isJump] using h) (Nat.zero_le _)

theorem exists_last (h : e ∈ es) : ∃ mid post, es = mid ++ e :: post ∧ e ∉ post := by
  obtain ⟨post, mid, reversed, last⟩ := List.eq_append_cons_of_mem (List.mem_reverse.2 h)
  refine ⟨mid.reverse, post.reverse, ?_, fun mem => last (List.mem_reverse.1 mem)⟩
  rw [← List.reverse_reverse es, reversed]
  simp

theorem exists_jumps (h : label < labels es) : ∃ op start target, Jumps es label op start target := by
  obtain ⟨pre, op, post, rfl, number⟩ := exists_jump h
  by_cases bound : .bind label ∈ post
  · obtain ⟨mid, rest, rfl, last⟩ := exists_last bound
    exact ⟨op, address pre, _, .bound rfl number rfl last⟩
  · exact ⟨op, address pre, none, .unbound rfl number rfl bound⟩

/-- The records are those of the jumps. -/
theorem patch_iff : (write es).patches[label]? = some p ↔
    ∃ op start target, Jumps es label op start target ∧ p = ⟨start + 1, target⟩ := by
  constructor
  · intro h
    have inside := (Array.getElem?_eq_some_iff.1 h).1
    obtain ⟨op, start, target, jumps⟩ := exists_jumps (patches_write es ▸ inside)
    exact ⟨op, start, target, jumps, Option.some.inj (h.symm.trans jumps.patch)⟩
  · rintro ⟨op, start, target, jumps, rfl⟩
    exact jumps.patch

/-! ### Where the jumps are -/

theorem Jumps.split (h : Jumps es label op start target) :
    ∃ pre post, es = pre ++ .jump op :: post ∧ address pre = start := by
  cases h with
  | unbound written _ place _ => exact ⟨_, _, written, place⟩
  | bound written _ place _ => exact ⟨_, _, written, place⟩

/-- A jump leads forward. -/
theorem Jumps.le {t : Nat} (h : Jumps es label op start (some t)) : start + 2 ≤ t := by
  cases h with
  | bound written number place last =>
    rw [address_append, address_jump, place]
    omega

theorem Jumps.bytes (h : Jumps es label op start target) :
    (write es).bytes[start]? = some op.toByte ∧ (write es).bytes[start + 1]? = some 0 := by
  obtain ⟨pre, post, rfl, rfl⟩ := h.split
  have all : (write (pre ++ .jump op :: post)).bytes.toList =
      pre.flatMap Edit.bytes ++ (op.toByte :: 0 :: post.flatMap Edit.bytes) := by
    rw [bytes_write, List.flatMap_append, List.flatMap_cons]
    rfl
  rw [← Array.getElem?_toList, ← Array.getElem?_toList, all, address, List.getElem?_append_right (Nat.le_refl _),
    List.getElem?_append_right (Nat.le_add_right _ 1), Nat.sub_self, Nat.add_sub_cancel_left]
  exact ⟨rfl, rfl⟩

/-- No jump starts at the operand of another. -/
theorem Jumps.apart (h : Jumps es label op start target) (k : Jumps es label' op' start' target') :
    start ≠ start' + 1 := by
  obtain ⟨pre, post, first, rfl⟩ := h.split
  obtain ⟨pre', post', second, rfl⟩ := k.split
  -- One of the two was written first, and takes two bytes.
  rcases List.append_eq_append_iff.1 (first.symm.trans second) with ⟨mid, rfl, -⟩ | ⟨mid, rfl, rest⟩
  · rw [address_append]
    omega
  · cases mid with
    | nil =>
      rw [List.append_nil]
      omega
    | cons e mid =>
      cases (List.cons.inj rest).1
      rw [address_append, address_jump]
      omega

/-- A place has one jump. -/
theorem Jumps.unique (h : Jumps es label op start target) (k : Jumps es label' op' start target') :
    label = label' ∧ target = target' := by
  have operand {n : Nat} {q : Patch} (found : (write es).patches[n]? = some q) :
      ((write es).patches.toList.map Patch.operand)[n]? = some q.operand := by
    rw [List.getElem?_map, Array.getElem?_toList, found]
    rfl
  -- Both have the same operand, and operands of different jumps are different bytes.
  have first := operand h.patch
  have same : label = label' :=
    (List.getElem?_inj (List.getElem?_eq_some_iff.1 first).1 (valid_write es).distinct).1
      (first.trans (operand k.patch).symm)
  subst same
  exact ⟨rfl, (Patch.mk.inj (Option.some.inj (h.patch.symm.trans k.patch))).2⟩

/-! ### Filling in -/

/-- Only operands of bound jumps are written, also before a failure. -/
theorem fill_frame {i : Nat} : ∀ {ps : List Patch} {bytes : Array UInt8},
    (∀ p ∈ ps, ∀ t, p.target = some t → p.operand ≠ i) → (fill bytes ps).1[i]? = bytes[i]?
  | [], _, _ => rfl
  | p :: ps, bytes, other => by
    have behind (bytes : Array UInt8) : (fill bytes ps).1[i]? = bytes[i]? :=
      fill_frame fun q hq => other q (.tail _ hq)
    unfold fill
    split
    · exact behind bytes
    · next t bound =>
      dsimp only
      split
      · rw [behind, Array.getElem?_setIfInBounds_ne (other p (.head _) t bound)]
      · rfl

theorem resolve_eq (c : Code) :
    c.resolve = (⟨(fill c.bytes c.patches.toList).1, #[]⟩, (fill c.bytes c.patches.toList).2) := rfl

theorem Jumps.far_eq_none {t : Nat} (h : Jumps es label op start (some t)) :
    Patch.far ⟨start + 1, some t⟩ = none ↔ t - (start + 2) ≤ 255 := by
  have forward := h.le
  rw [Patch.far]
  dsimp only
  split
  · next near => exact iff_of_true rfl (by omega)
  · next far => exact iff_of_false (Option.some_ne_none _) (by omega)

/-- The records whose jumps are too far. -/
theorem far_eq_some {f : JumpTooFar} (h : (write es).patches[label]? = some p) : p.far = some f ↔
    ∃ op start t, Jumps es label op start (some t) ∧ 255 < t - (start + 2) ∧ f = ⟨start + 2, t⟩ := by
  constructor
  · intro far
    obtain ⟨op, start, target, jumps, rfl⟩ := patch_iff.1 h
    cases target with
    | none => cases far
    | some t =>
      have distance : 255 < t - (start + 2) := by
        refine Nat.lt_of_not_le fun near => ?_
        rw [jumps.far_eq_none.2 near] at far
        cases far
      exact ⟨op, start, t, jumps, distance, Option.some.inj (far.symm.trans (Patch.far_of_lt distance))⟩
  · rintro ⟨op, start, t, jumps, distance, rfl⟩
    obtain rfl := Option.some.inj (h.symm.trans jumps.patch)
    exact Patch.far_of_lt distance

theorem findSome?_first {α β : Type} {f : α → Option β} {xs : List α} {b : β} : xs.findSome? f = some b ↔
    ∃ (k : Nat) (a : α), xs[k]? = some a ∧ f a = some b ∧ ∀ j < k, ∀ a', xs[j]? = some a' → f a' = none := by
  rw [List.findSome?_eq_some_iff]
  constructor
  · rintro ⟨before, a, after, rfl, found, first⟩
    refine ⟨before.length, a, by simp, found, fun j less a' earlier => first a' ?_⟩
    rw [List.getElem?_append_left less] at earlier
    exact List.mem_of_getElem? earlier
  · rintro ⟨k, a, here, found, first⟩
    obtain ⟨inside, rfl⟩ := List.getElem?_eq_some_iff.1 here
    refine ⟨xs.take k, xs[k], xs.drop (k + 1), by simp, found, fun a' earlier => ?_⟩
    obtain ⟨j, less, rfl⟩ := List.mem_take_iff_getElem.1 earlier
    exact first j (by omega) _ (List.getElem?_eq_getElem _)

/-- The first jump that is too far, in the order in which the jumps were written. -/
theorem resolve_failure {f : JumpTooFar} : (write es).resolve.2 = some f ↔
    ∃ label op start t, Jumps es label op start (some t) ∧ 255 < t - (start + 2) ∧ f = ⟨start + 2, t⟩ ∧
      ∀ earlier < label, ∀ op' start' t', Jumps es earlier op' start' (some t') → t' - (start' + 2) ≤ 255 := by
  rw [resolve_eq, fill_failure, findSome?_first]
  simp only [Array.getElem?_toList]
  constructor
  · rintro ⟨label, p, found, far, first⟩
    obtain ⟨op, start, t, jumps, distance, rfl⟩ := (far_eq_some found).1 far
    exact ⟨label, op, start, t, jumps, distance, rfl, fun earlier less op' start' t' other =>
      other.far_eq_none.1 (first earlier less _ other.patch)⟩
  · rintro ⟨label, op, start, t, jumps, distance, rfl, first⟩
    refine ⟨label, _, jumps.patch, Patch.far_of_lt distance, fun earlier less q found => ?_⟩
    obtain ⟨op', start', target', other, rfl⟩ := patch_iff.1 found
    cases target' with
    | none => rfl
    | some t' => exact other.far_eq_none.2 (first earlier less op' start' t' other)

theorem resolve_success : (write es).resolve.2 = none ↔
    ∀ label op start t, Jumps es label op start (some t) → t - (start + 2) ≤ 255 := by
  rw [resolve_eq, fill_failure, List.findSome?_eq_none_iff]
  constructor
  · intro none label op start t jumps
    exact jumps.far_eq_none.1 (none _ (List.mem_of_getElem? ((Array.getElem?_toList).trans jumps.patch)))
  · intro near p mem
    obtain ⟨label, found⟩ := List.mem_iff_getElem?.1 mem
    obtain ⟨op, start, target, jumps, rfl⟩ := patch_iff.1 ((Array.getElem?_toList).symm.trans found)
    cases target with
    | none => rfl
    | some t => exact jumps.far_eq_none.2 (near label op start t jumps)

/-! ### What is left -/

section

variable {d : Code}

theorem Jumps.resolved {t : Nat} (h : Jumps es label op start (some t)) (resolved : (write es).resolve = (d, none)) :
    d.bytes[start + 1]? = some (.ofNat (t - (start + 2))) := by
  obtain ⟨x, found, distance⟩ :=
    ((valid_write es).fits_resolve resolved).jumps _ (Array.mem_of_getElem? h.patch) t rfl
  have number : t - (start + 2) = x.toNat := by
    change t = start + 1 + 1 + x.toNat at distance
    omega
  rw [number, UInt8.ofNat_toNat]
  exact found

/-- Bytes that are no operands of bound jumps. -/
theorem resolved_frame {i : Nat} (resolved : (write es).resolve = (d, none))
    (other : ∀ label op start t, Jumps es label op start (some t) → i ≠ start + 1) :
    d.bytes[i]? = (write es).bytes[i]? := by
  have filled : d.bytes = (fill (write es).bytes (write es).patches.toList).1 :=
    congrArg (fun r : Code × Option JumpTooFar => r.1.bytes) resolved.symm
  rw [filled]
  refine fill_frame fun p mem t bound => ?_
  obtain ⟨label, found⟩ := List.mem_iff_getElem?.1 mem
  obtain ⟨op, start, target, jumps, rfl⟩ := patch_iff.1 ((Array.getElem?_toList).symm.trans found)
  cases bound
  exact (other label op start t jumps).symm

end

end Code

/-! ### Jumping -/

namespace Run

variable {l : Library} {a : Activation} {op : Opcode} {x : UInt8}

theorem step_operand (byte : a.code[a.cursor]? = some op.toByte) (operand : a.code[a.cursor + 1]? = some x)
    (one : op.arity = 1) : step l a = count l a op.toByte >>= fun _ => perform l a op x.toNat 0 := by
  obtain ⟨b, found, read⟩ := fetches_of byte one (Array.getElem?_eq_some_iff.1 operand).1
  obtain rfl := Option.some.inj (found.symm.trans byte)
  rw [step_some l byte, read, Array.getD_eq_getD_getElem?, operand]
  rfl

theorem step_jump (byte : a.code[a.cursor]? = some Opcode.jump.toByte) (operand : a.code[a.cursor + 1]? = some x) :
    step l a = count l a Opcode.jump.toByte >>= fun _ =>
      pure (some { a with cursor := a.cursor + 2 + x.toNat }) :=
  step_operand byte operand rfl

theorem step_jumpIfNot (byte : a.code[a.cursor]? = some Opcode.jumpIfNot.toByte)
    (operand : a.code[a.cursor + 1]? = some x) : step l a = count l a Opcode.jumpIfNot.toByte >>= fun _ =>
      pullBool >>= fun b => pure (some { a with cursor := if b then a.cursor + 2 else a.cursor + 2 + x.toNat }) := by
  rw [step_operand byte operand rfl]
  refine congrArg (count l a _ >>= ·) (funext fun _ => ?_)
  change ((pullBool >>= fun b => pure (if b then 0 else x.toNat)) >>= fun d =>
    pure (some { a with cursor := a.cursor + 2 + d })) = _
  rw [bind_assoc]
  refine congrArg (pullBool >>= ·) (funext fun b => ?_)
  cases b <;> rfl

end Run

namespace Code

/-- The machine behind a jump that leads to an address. -/
theorem Jumps.lands {es : List Edit} {label start t : Nat} {op : Opcode} {d : Code} {l : Library} {a : Activation}
    (h : Jumps es label op start (some t)) (resolved : (write es).resolve = (d, none)) (code : a.code = d.bytes)
    (cursor : a.cursor = start) :
    (op = .jump → Run.step l a = Run.count l a op.toByte >>= fun _ => pure (some { a with cursor := t })) ∧
    (op = .jumpIfNot → Run.step l a = Run.count l a op.toByte >>= fun _ => Run.pullBool >>= fun b =>
      pure (some { a with cursor := if b then start + 2 else t })) := by
  subst cursor
  have byte : a.code[a.cursor]? = some op.toByte := by
    rw [code, resolved_frame resolved fun _ _ _ _ other => h.apart other]
    exact h.bytes.1
  have operand : a.code[a.cursor + 1]? = some (.ofNat (t - (a.cursor + 2))) := by
    rw [code]
    exact h.resolved resolved
  have near : t - (a.cursor + 2) ≤ 255 :=
    resolve_success.1 (congrArg Prod.snd resolved) label op a.cursor t h
  have target : a.cursor + 2 + (UInt8.ofNat (t - (a.cursor + 2))).toNat = t := by
    have forward := h.le
    rw [UInt8.toNat_ofNat_of_lt' (Nat.lt_succ_of_le near)]
    omega
  constructor
  · rintro rfl
    rw [Run.step_jump byte operand, target]
  · rintro rfl
    rw [Run.step_jumpIfNot byte operand, target]

/-- Every jump has a record, which points forward once its label is bound. Resolving fails at the first jump, in the order in
which they were written, whose label was bound too far behind it. Else the operands of bound jumps are the distances to
where their labels were bound last, and lead the machine there; nothing else is written, and nothing is left open. -/
theorem patching_exact (es : List Edit) :
    (∀ op, ((write es).jump op).2 = labels es) ∧
    (∀ label p, (write es).patches[label]? = some p ↔
      ∃ op start target, Jumps es label op start target ∧ p = ⟨start + 1, target⟩) ∧
    (∀ label op start t, Jumps es label op start (some t) → start + 2 ≤ t) ∧
    (∀ d, (write es).resolve = (d, none) →
      (∀ label op start t, Jumps es label op start (some t) →
        t - (start + 2) ≤ 255 ∧ d.bytes[start + 1]? = some (.ofNat (t - (start + 2))) ∧
        ∀ (l : Library) (a : Activation), a.code = d.bytes → a.cursor = start →
          (op = .jump → Run.step l a = Run.count l a op.toByte >>= fun _ => pure (some { a with cursor := t })) ∧
          (op = .jumpIfNot → Run.step l a = Run.count l a op.toByte >>= fun _ => Run.pullBool >>= fun b =>
            pure (some { a with cursor := if b then start + 2 else t }))) ∧
      (∀ label op start, Jumps es label op start none → d.bytes[start + 1]? = some 0) ∧
      (∀ i, (∀ label op start t, Jumps es label op start (some t) → i ≠ start + 1) →
        d.bytes[i]? = (write es).bytes[i]?) ∧
      d.size = (write es).size ∧ d.hasPatches = false) ∧
    ((write es).resolve.2 = none ↔ ∀ label op start t, Jumps es label op start (some t) → t - (start + 2) ≤ 255) ∧
    ∀ f, (write es).resolve.2 = some f ↔
      ∃ label op start t, Jumps es label op start (some t) ∧ 255 < t - (start + 2) ∧ f = ⟨start + 2, t⟩ ∧
        ∀ earlier < label, ∀ op' start' t', Jumps es earlier op' start' (some t') → t' - (start' + 2) ≤ 255 := by
  refine ⟨fun op => patches_write es, fun label p => patch_iff, fun label op start t h => h.le,
    fun d resolved => ⟨fun label op start t h => ?_, fun label op start h => ?_, fun i => resolved_frame resolved,
      (valid_write es).size_resolve resolved, ?_⟩, resolve_success, fun f => resolve_failure⟩
  · have near := resolve_success.1 (congrArg Prod.snd resolved) label op start t h
    exact ⟨near, h.resolved resolved, fun l a code cursor => h.lands resolved code cursor⟩
  · have kept : d.bytes[start + 1]? = (write es).bytes[start + 1]? := by
      refine resolved_frame resolved fun label' op' start' t' other same => ?_
      obtain rfl : start = start' := Nat.succ.inj same
      cases (h.unique other).2
    rw [kept]
    exact h.bytes.2
  · rw [resolve_eq] at resolved
    obtain ⟨rfl, -⟩ := Prod.mk.inj resolved
    rfl

/-- Three jumps that are open at the same time. The first label is bound before the second, the second one is bound twice, and
the third never. -/
theorem patching_exact_nested :
    let es : List Edit := [.jump .jumpIfNot, .opcode .noop, .jump .jump, .bind 0, .jump .jump, .opcode .noop, .bind 1,
      .arg 7, .bind 1]
    let d : Code := ofBytes [Opcode.jumpIfNot.toByte, 3, Opcode.noop.toByte, Opcode.jump.toByte, 4, Opcode.jump.toByte, 0,
      Opcode.noop.toByte, 7]
    (write es).resolve = (d, none) ∧ Jumps es 0 .jumpIfNot 0 (some 5) ∧ Jumps es 1 .jump 3 (some 9) ∧
      Jumps es 2 .jump 5 none ∧
      (∀ (l : Library) (f : FunctionRef) (base : Nat), Run.step l ⟨f, d.bytes, 3, base⟩ =
        Run.count l ⟨f, d.bytes, 3, base⟩ Opcode.jump.toByte >>= fun _ => pure (some ⟨f, d.bytes, 9, base⟩)) ∧
      d.bytes[6]? = some 0 := by
  intro es d
  have resolved : (write es).resolve = (d, none) := by decide
  have first : Jumps es 0 .jumpIfNot 0 (some 5) :=
    @Jumps.bound es 0 .jumpIfNot 0 [] [.opcode .noop, .jump .jump]
      [.jump .jump, .opcode .noop, .bind 1, .arg 7, .bind 1] rfl rfl rfl (by decide)
  have second : Jumps es 1 .jump 3 (some 9) :=
    @Jumps.bound es 1 .jump 3 [.jump .jumpIfNot, .opcode .noop]
      [.bind 0, .jump .jump, .opcode .noop, .bind 1, .arg 7] [] rfl rfl rfl (by decide)
  have third : Jumps es 2 .jump 5 none :=
    @Jumps.unbound es 2 .jump 5 [.jump .jumpIfNot, .opcode .noop, .jump .jump, .bind 0]
      [.opcode .noop, .bind 1, .arg 7, .bind 1] rfl rfl rfl (by decide)
  obtain ⟨-, -, -, success, -⟩ := patching_exact es
  obtain ⟨bound, unbound, -⟩ := success d resolved
  exact ⟨resolved, first, second, third,
    fun l f base => ((bound 1 .jump 3 9 second).2.2 l ⟨f, d.bytes, 3, base⟩ rfl rfl).1 rfl, unbound 2 .jump 5 third⟩

end Code

end StackScript
