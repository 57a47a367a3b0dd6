import StackScript.Proofs.Advancing
import StackScript.Proofs.CodeLayout
import StackScript.Proofs.Fetching

/-!
Where instructions start. The listing of a code, the walk over its addresses and the machine each take the bytes apart
on their own, and they agree about every code: about where an instruction starts, which bytes are none or have lost their
operands, where the next one follows and where jumps lead.
-/
namespace StackScript

/-! ### The walk over a code -/

namespace Opcode

/-- The name that a listing shows is told from what follows it by the blank after it. -/
theorem text_plain (op : Opcode) : ' ' ∉ op.text.toList ∧ ∃ c cs, op.text.toList = c :: cs ∧ c ≠ '<' := by
  have all : ∀ op ∈ table.toList, ' ' ∉ op.text.toList ∧ op.text.toList.head?.any (· ≠ '<') := by decide +kernel
  obtain ⟨blank, head⟩ := all op op.mem_table
  refine ⟨blank, ?_⟩
  cases h : op.text.toList with
  | nil => simp [h] at head
  | cons c cs => exact ⟨c, cs, rfl, by simpa [h] using head⟩

end Opcode

namespace Code

variable {bytes : Array UInt8} {i j fuel : Nat} {is js before after : List Nat} {b : UInt8}

/-- The length of what starts with a byte: of an instruction with its operands, or of a byte that is no opcode. -/
def stride (b : UInt8) : Nat := ((Opcode.ofByte? b).map Opcode.length).getD 1

theorem stride_pos (b : UInt8) : 0 < stride b := by
  unfold stride Opcode.length
  cases Opcode.ofByte? b with
  | none => exact Nat.one_pos
  | some op => exact Nat.lt_of_lt_of_le Nat.one_pos (Nat.le_add_right ..)

/-- The addresses that a walk comes to which goes on behind each instruction, until it is at the end of the code. -/
inductive Starts (bytes : Array UInt8) : Nat → List Nat → Prop
  | done {i : Nat} (ended : bytes.size ≤ i) : Starts bytes i []
  | next {i : Nat} {is : List Nat} {b : UInt8} (byte : bytes[i]? = some b) (rest : Starts bytes (i + stride b) is) :
      Starts bytes i (i :: is)

theorem starts_addressesFrom (enough : bytes.size ≤ i + fuel) : Starts bytes i (addressesFrom bytes fuel i) := by
  induction fuel generalizing i with
  | zero => exact .done enough
  | succ fuel ih =>
    rw [addressesFrom]
    cases hb : bytes[i]? with
    | none => exact .done (Array.getElem?_eq_none_iff.1 hb)
    | some b =>
      have := stride_pos b
      exact .next hb (ih (by unfold stride at *; omega))

theorem starts_addresses (c : Code) : Starts c.bytes 0 c.addresses :=
  starts_addressesFrom (Nat.le_of_eq (Nat.zero_add _).symm)

namespace Starts

theorem inside (h : Starts bytes i is) : ∀ j ∈ is, i ≤ j ∧ j < bytes.size := by
  induction h with
  | done => exact nofun
  | @next i is b byte rest ih =>
    refine List.forall_mem_cons.2 ⟨⟨Nat.le_refl i, (Array.getElem?_eq_some_iff.1 byte).1⟩, fun j hj => ?_⟩
    exact ⟨Nat.le_of_add_right_le (ih j hj).1, (ih j hj).2⟩

theorem rising (h : Starts bytes i is) : is.Pairwise (· < ·) := by
  induction h with
  | done => exact .nil
  | next byte rest ih => exact ih.cons fun j hj => Nat.lt_of_lt_of_le (Nat.lt_add_of_pos_right (stride_pos _)) (rest.inside j hj).1

/-- The walk goes on from each address that it comes to. -/
theorem split (h : Starts bytes i is) (parts : is = before ++ j :: after) :
    ∃ b, bytes[j]? = some b ∧ Starts bytes (j + stride b) after := by
  induction h generalizing before with
  | done => simp at parts
  | @next i is b byte rest ih =>
    cases before with
    | nil =>
      obtain ⟨rfl, rfl⟩ := List.cons.inj parts
      exact ⟨b, byte, rest⟩
    | cons k before => exact ih (List.cons.inj parts).2

/-- What comes first is where the walk is, unless that is the end of the code. -/
theorem head (h : Starts bytes i is) (within : i ≤ bytes.size) : is.head?.getD bytes.size = i := by
  cases h with
  | done ended => exact Nat.le_antisymm ended within
  | next => rfl

end Starts

end Code

/-! ### The lines of a listing -/

namespace Listing

variable {l : Library} {h : Heap} {m : Module} {bytes : Array UInt8} {i fuel : Nat} {is : List Nat} {b : UInt8}
  {op : Opcode}

/-- What a listing shows at an address. -/
def shown (l : Library) (h : Heap) (m : Module) (bytes : Array UInt8) (i : Nat) : String :=
  ((bytes[i]?).map fun b => (instruction l h m bytes i b).1).getD ""

/-- The lines of a listing that shows what is at addresses. -/
def linesAt (l : Library) (h : Heap) (m : Module) (bytes : Array UInt8) (is : List Nat) : List String :=
  is.map fun i => address i ++ "  " ++ shown l h m bytes i ++ "\n"

def unknownLine (b : UInt8) : String := "<unknown 0x" ++ Text.padded 2 (Text.hex b.toNat) ++ ">"

def truncatedLine (op : Opcode) : String := op.text ++ " <truncated>"

/-- The line of a jump over so many bytes, with the address that it leads to. -/
def jumpLine (op : Opcode) (distance target : Nat) : String :=
  op.text ++ " " ++ toString distance ++ "  ; -> " ++ address target

/-- The line is that of a byte which is no opcode. -/
def ShowsUnknown (line : String) : Prop := ∃ b, line = unknownLine b

/-- The line is that of an instruction which has lost operands. -/
def ShowsTruncated (line : String) : Prop := ∃ op, line = truncatedLine op

/-- The bytes behind an opcode that are its operands. -/
def operands (bytes : Array UInt8) (i : Nat) (op : Opcode) : List Nat :=
  (bytes.extract (i + 1) (i + op.length)).toList.map UInt8.toNat

theorem length_operands : (operands bytes i op).length = min (i + op.length) bytes.size - (i + 1) := by
  simp only [operands, List.length_map, Array.length_toList, Array.size_extract]

theorem instruction_unknown (known : Opcode.ofByte? b = none) : instruction l h m bytes i b = (unknownLine b, i + 1) := by
  rw [instruction, known]
  rfl

/-- Operands are missing where the code ends before the instruction does. -/
theorem instruction_truncated (known : Opcode.ofByte? b = some op) (within : i < bytes.size)
    (short : bytes.size < i + op.length) : instruction l h m bytes i b = (truncatedLine op, bytes.size) := by
  have missing : (operands bytes i op).length < op.arity := by
    rw [length_operands]
    unfold Opcode.length at short ⊢
    omega
  rw [instruction, known]
  exact if_pos missing

theorem instruction_whole (known : Opcode.ofByte? b = some op) (enough : i + op.length ≤ bytes.size) :
    instruction l h m bytes i b = (op.text ++ String.join ((operands bytes i op).map fun n => " " ++ toString n) ++
      remark l h m op ((operands bytes i op).getD 0 0) ((operands bytes i op).getD 1 0) (i + op.length), i + op.length) := by
  have there : ¬ (operands bytes i op).length < op.arity := by
    rw [length_operands]
    unfold Opcode.length at enough ⊢
    omega
  rw [instruction, known]
  exact if_neg there

/-- The listing walks over the code as the addresses do. -/
theorem codeFrom_eq (starts : Code.Starts bytes i is) (enough : bytes.size ≤ i + fuel) :
    codeFrom l h m bytes fuel i = linesAt l h m bytes is := by
  induction fuel generalizing i is with
  | zero =>
    cases starts with
    | done => rfl
    | next byte => exact absurd (Array.getElem?_eq_some_iff.1 byte).1 (Nat.not_lt.2 enough)
  | succ fuel ih =>
    cases starts with
    | done ended =>
      rw [codeFrom, Array.getElem?_eq_none_iff.2 ended]
      rfl
    | @next _ is b byte rest =>
      have shows : shown l h m bytes i = (instruction l h m bytes i b).1 := by rw [shown, byte]; rfl
      have inside := (Array.getElem?_eq_some_iff.1 byte).1
      have line : codeFrom l h m bytes (fuel + 1) i = (address i ++ "  " ++ shown l h m bytes i ++ "\n") ::
          codeFrom l h m bytes fuel (instruction l h m bytes i b).2 := by
        rw [codeFrom, byte, shows]
      suffices others : codeFrom l h m bytes fuel (instruction l h m bytes i b).2 = linesAt l h m bytes is by
        rw [line, others]
        rfl
      cases known : Opcode.ofByte? b with
      | none =>
        rw [Code.stride, known] at rest
        rw [instruction_unknown known]
        exact ih rest (by omega)
      | some op =>
        rw [Code.stride, known] at rest
        by_cases short : bytes.size < i + op.length
        · -- the walk leaves the code where the listing stops at its end, and neither shows more
          rw [instruction_truncated known inside short]
          rw [ih (.done (Nat.le_refl _)) (Nat.le_add_right ..)]
          cases rest with
          | done => rfl
          | next later => exact absurd (Array.getElem?_eq_some_iff.1 later).1 (Nat.not_lt.2 (Nat.le_of_lt short))
        · rw [instruction_whole known (Nat.not_lt.1 short)]
          refine ih rest ?_
          change bytes.size ≤ i + op.length + fuel
          unfold Opcode.length
          omega

/-- The code of a function is listed behind its head, which is all that is shown without code. -/
theorem function_code (name : String) (signature : Signature) (captures : List String) (bytes : Array UInt8) :
    function l h m ⟨name, signature, .code bytes, captures⟩ =
      function l h m ⟨name, signature, .code #[], captures⟩ ++ code l h m bytes := by
  have nothing : code l h m #[] = "" := rfl
  simp only [function, nothing, String.append_empty]

/-! ### What lines tell apart -/

theorem digits_of_toString (n : Nat) : ∃ c cs, (toString n).toList = c :: cs ∧ c.isDigit := by
  rw [Nat.toString_eq_ofList_toDigits, String.toList_ofList]
  cases h : Nat.toDigits 10 n with
  | nil => exact absurd h Nat.toDigits_ne_nil
  | cons c cs => exact ⟨c, cs, rfl, Nat.isDigit_of_mem_toDigits (by decide) (by decide) (h ▸ List.mem_cons_self ..)⟩

theorem toList_unknownLine (b : UInt8) : ∃ cs, (unknownLine b).toList = '<' :: cs := by
  simp [unknownLine]

theorem toList_truncatedLine (op : Opcode) :
    (truncatedLine op).toList = op.text.toList ++ ' ' :: '<' :: "truncated>".toList := by
  simp [truncatedLine]

theorem not_showsUnknown_append (op : Opcode) (rest : String) : ¬ ShowsUnknown (op.text ++ rest) := by
  rintro ⟨b, same⟩
  obtain ⟨-, c, cs, text, plain⟩ := op.text_plain
  obtain ⟨ds, unknown⟩ := toList_unknownLine b
  have := congrArg String.toList same
  rw [String.toList_append, text, unknown] at this
  exact plain (List.cons.inj this).1

theorem not_showsTruncated_unknown (b : UInt8) : ¬ ShowsTruncated (unknownLine b) := by
  rintro ⟨op, same⟩
  exact not_showsUnknown_append op " <truncated>" ⟨b, same.symm⟩

/-- Texts with the same first blank go on alike behind it. -/
theorem rests_of_append_blank {x y u v : List Char} (hx : ' ' ∉ x) (hy : ' ' ∉ y) (same : x ++ ' ' :: u = y ++ ' ' :: v) :
    u = v := by
  induction x generalizing y with
  | nil =>
    cases y with
    | nil => exact (List.cons.inj same).2
    | cons d y =>
      obtain ⟨rfl, -⟩ := List.cons.inj same
      exact absurd (List.mem_cons_self ..) hy
  | cons d x ih =>
    cases y with
    | nil =>
      obtain ⟨rfl, -⟩ := List.cons.inj same
      exact absurd (List.mem_cons_self ..) hx
    | cons e y => exact ih (fun h => hx (.tail _ h)) (fun h => hy (.tail _ h)) (List.cons.inj same).2

/-- Whole instructions have nothing or a digit behind their name. -/
theorem not_showsTruncated_whole {rest : String} (plain : rest = "" ∨ ∃ c, [' ', c] <+: rest.toList ∧ c.isDigit) :
    ¬ ShowsTruncated (op.text ++ rest) := by
  rintro ⟨other, same⟩
  have lists := congrArg String.toList same
  rw [toList_truncatedLine, String.toList_append] at lists
  have blank := op.text_plain.1
  rcases plain with rfl | ⟨c, ⟨cs, text⟩, digit⟩
  · refine blank ?_
    rw [String.toList_empty, List.append_nil] at lists
    rw [lists]
    simp
  · rw [← text] at lists
    rw [(List.cons.inj (rests_of_append_blank blank other.text_plain.1 lists)).1] at digit
    cases digit

/-! ### Operands as they are listed and as they are fetched -/

theorem operands_getD (enough : i + op.length ≤ bytes.size) (k : Nat) :
    (operands bytes i op).getD k 0 = if k + 1 ≤ op.arity then (bytes.getD (i + (k + 1)) 0).toNat else 0 := by
  have length : i + op.length = i + 1 + op.arity := (Nat.add_assoc i 1 op.arity).symm
  rw [List.getD_eq_getElem?_getD, operands, List.getElem?_map, Array.getElem?_toList, Array.getElem?_extract,
    Nat.min_eq_left enough, length, Nat.add_sub_cancel_left]
  by_cases inside : k + 1 ≤ op.arity
  · have there : i + (k + 1) < bytes.size := by omega
    rw [if_pos inside, if_pos (Nat.lt_of_succ_le inside), Nat.add_assoc, Nat.add_comm 1 k]
    simp [there]
  · rw [if_neg inside, if_neg fun less => inside (Nat.succ_le_of_lt less)]
    rfl

theorem read_unknown (known : Opcode.ofByte? b = none) : Instruction.read bytes i b = .unknown b := by
  rw [Instruction.read, known]

theorem read_truncated (known : Opcode.ofByte? b = some op) (short : bytes.size < i + op.length) :
    Instruction.read bytes i b = .truncated op := by
  rw [Instruction.read, known]
  exact if_pos short

theorem read_whole (known : Opcode.ofByte? b = some op) (enough : i + op.length ≤ bytes.size) :
    Instruction.read bytes i b =
      .ofOpcode op ((operands bytes i op).getD 0 0) ((operands bytes i op).getD 1 0) := by
  rw [Instruction.read, known, operands_getD enough, operands_getD enough]
  exact if_neg (Nat.not_lt.2 enough)

/-- The whole instruction shows its operands behind its name. -/
theorem not_showsTruncated (enough : i + op.length ≤ bytes.size) (first second next : Nat) :
    ¬ ShowsTruncated (op.text ++ String.join ((operands bytes i op).map fun n => " " ++ toString n) ++
      remark l h m op first second next) := by
  rw [String.append_assoc]
  refine not_showsTruncated_whole ?_
  have length : (operands bytes i op).length = op.arity := by
    rw [length_operands]
    unfold Opcode.length at enough ⊢
    omega
  cases args : operands bytes i op with
  | nil =>
    rw [args] at length
    refine .inl ?_
    cases op <;> first | rfl | cases length
  | cons n ns =>
    obtain ⟨c, cs, digits, digit⟩ := digits_of_toString n
    refine .inr ⟨c, ?_, digit⟩
    rw [List.map_cons, String.join_cons, String.toList_append, String.toList_append, String.toList_append, digits]
    exact ((List.prefix_append [' ', c] cs).trans (List.prefix_append ..)).trans (List.prefix_append ..)

theorem instruction_jump (known : Opcode.ofByte? b = some op) (jumps : op = .jump ∨ op = .jumpIfNot)
    (enough : i + op.length ≤ bytes.size) : (instruction l h m bytes i b).1 =
      jumpLine op ((operands bytes i op).getD 0 0) (i + op.length + (operands bytes i op).getD 0 0) := by
  have length : (operands bytes i op).length = 1 := by
    rw [length_operands]
    unfold Opcode.length at enough ⊢
    rcases jumps with rfl | rfl <;> simp [Opcode.arity, Opcode.code] at enough ⊢ <;> omega
  obtain ⟨n, args⟩ := List.length_eq_one_iff.1 length
  rw [instruction_whole known enough, args, jumpLine]
  -- the comment is put together from the mark of all comments and the arrow of a jump
  have arrow (target : String) : "  ; " ++ ("-> " ++ target) = "  ; -> " ++ target :=
    String.append_assoc.symm
  rcases jumps with rfl | rfl <;> simp [remark, note, arrow, String.append_assoc, String.join]

end Listing

/-! ### What the machine makes of a line -/

namespace Run

open Listing

/-- A step that has counted the instruction under its cursor, which took it to state `t`, does with the instruction what
its line in a listing tells. Behind an accepted one the function goes on at `next`, or where the line says that it
leads. -/
structure Heeds (w : Library) (a : Activation) (s t : Machine) (b : UInt8) (line : String) (next : Nat) : Prop where
  unknown : ShowsUnknown line → step w a s = .error (.unknownOpcode b) t
  truncated : ShowsTruncated line → ∃ op, line = truncatedLine op ∧
    step w a s = .error (.truncatedInstruction op.text (((w.function? a.function).map (·.name)).getD "")) t
  accepted : ¬ ShowsUnknown line → ¬ ShowsTruncated line →
    Meets (step w a) s (fun _ _ => True) fun e _ => e.ofFetch = false
  passes : ¬ ShowsUnknown line → ¬ ShowsTruncated line →
    Opcode.ofByte? b ≠ some .jump → Opcode.ofByte? b ≠ some .jumpIfNot →
    Meets (step w a) s (fun o n => (o = some { a with cursor := next } ∧ n.frames = s.frames) ∨
      ∃ f code base, o = some ⟨f, code, 0, base⟩ ∧ n.frames = ⟨some a.function, next, a.base⟩ :: s.frames)
      fun _ _ => True
  jumps : Opcode.ofByte? b = some .jump → ¬ ShowsTruncated line → ∃ distance target,
    line = jumpLine .jump distance target ∧ step w a s = .ok (some { a with cursor := target }) t
  branches : Opcode.ofByte? b = some .jumpIfNot → ¬ ShowsTruncated line → ∃ distance target,
    line = jumpLine .jumpIfNot distance target ∧
    step w a s = (pullBool >>= fun yes => pure (some { a with cursor := if yes then next else target })) t

variable {w : Library} {a : Activation} {s t : Machine} {b : UInt8} {op : Opcode} {x y next : Nat}

theorem step_counted (byte : a.code[a.cursor]? = some b) (counted : count w a b s = .ok () t) :
    step w a s = proceed w a (Instruction.read a.code a.cursor b) t := by
  rw [step_some w byte]
  change EStateM.bind _ _ s = _
  unfold EStateM.bind
  rw [counted]

/-- Instructions other than jumps go on behind their own end, also across the call of a function. -/
theorem passes_perform (jump : op ≠ .jump) (jumpIfNot : op ≠ .jumpIfNot) : Meets (perform w a op x y) t
    (fun o n => (o = some { a with cursor := a.cursor + op.length } ∧ n.frames = t.frames) ∨
      ∃ f code base, o = some ⟨f, code, 0, base⟩ ∧
        n.frames = ⟨some a.function, a.cursor + op.length, a.base⟩ :: t.frames) fun _ _ => True := by
  have still : jumpDistance op x = pure 0 := by cases op <;> first | rfl | contradiction
  unfold perform
  rw [still]
  refine meets_bind.2 (meets_pure.2 (meets_bind.2 ((Stays.execute w _ op x y t).imp (fun o n ran => ?_) fun _ _ _ => trivial)))
  cases o with
  | none => exact .inl ⟨rfl, ran.frames⟩
  | some f =>
    refine meets_bind.2 (((enter_start f n).and ((Basic.enter w f).stays n)).imp (fun o p entered => ?_) fun _ _ _ => trivial)
    obtain ⟨start, stays⟩ := entered
    have frames : p.frames = t.frames := stays.frames.trans ran.frames
    cases o with
    | none => exact .inl ⟨rfl, frames⟩
    | some callee =>
      refine .inr ⟨f, codeOf w f, p.stack.size, ?_, congrArg (_ :: ·) frames⟩
      rw [start callee rfl]

/-- The machine reads under its cursor what a listing shows there. -/
theorem heeds_shown (l : Library) (h : Heap) (m : Module) (byte : a.code[a.cursor]? = some b)
    (counted : count w a b s = .ok () t)
    (follows : a.cursor + Code.stride b ≤ a.code.size → next = a.cursor + Code.stride b) :
    Heeds w a s t b (shown l h m a.code a.cursor) next := by
  have inside := (Array.getElem?_eq_some_iff.1 byte).1
  have line : shown l h m a.code a.cursor = (instruction l h m a.code a.cursor b).1 := by rw [shown, byte]; rfl
  have stepped := step_counted byte counted
  have frames : t.frames = s.frames := ((Stays.count w a b s).of_ok counted).frames
  rw [line]
  cases known : Opcode.ofByte? b with
  | none =>
    rw [read_unknown known] at stepped
    rw [instruction_unknown known]
    have unknown : ShowsUnknown (unknownLine b) := ⟨b, rfl⟩
    exact ⟨fun _ => stepped, fun truncated => absurd truncated (not_showsTruncated_unknown b),
      fun other => absurd unknown other, fun other => absurd unknown other,
      fun jump => (by cases known.symm.trans jump), fun jump => (by cases known.symm.trans jump)⟩
  | some op =>
    by_cases short : a.code.size < a.cursor + op.length
    · rw [read_truncated known short] at stepped
      rw [instruction_truncated known inside short]
      have truncated : ShowsTruncated (truncatedLine op) := ⟨op, rfl⟩
      exact ⟨fun unknown => absurd unknown (not_showsUnknown_append op " <truncated>"), fun _ => ⟨op, rfl, stepped⟩,
        fun _ other => absurd truncated other, fun _ other => absurd truncated other,
        fun _ other => absurd truncated other, fun _ other => absurd truncated other⟩
    · have enough := Nat.not_lt.1 short
      have stride : Code.stride b = op.length := by rw [Code.stride, known]; rfl
      rw [stride] at follows
      obtain rfl := follows enough
      rw [read_whole known enough] at stepped
      have whole : ¬ ShowsTruncated (instruction l h m a.code a.cursor b).1 := by
        rw [instruction_whole known enough]
        exact not_showsTruncated enough _ _ _
      have plain : ¬ ShowsUnknown (instruction l h m a.code a.cursor b).1 := by
        rw [instruction_whole known enough, String.append_assoc]
        exact not_showsUnknown_append op _
      have performs {ok : Option Activation → Machine → Prop} {bad : Fault → Machine → Prop}
          (meets : Meets (perform w a op ((operands a.code a.cursor op).getD 0 0) ((operands a.code a.cursor op).getD 1 0)) t
            ok bad) : Meets (step w a) s ok bad := by
        unfold Meets
        rwa [stepped]
      refine ⟨fun unknown => absurd unknown plain, fun truncated => absurd truncated whole,
        fun _ _ => performs (Avoids.perform w a op _ _ t), fun _ _ jump jumpIfNot => ?_, fun jump _ => ?_, fun jump _ => ?_⟩
      · rw [← frames]
        exact performs (passes_perform (fun e => jump (known.trans (congrArg some e)))
          fun e => jumpIfNot (known.trans (congrArg some e)))
      · obtain rfl : op = .jump := Option.some.inj (known.symm.trans jump)
        exact ⟨_, _, instruction_jump known (.inl rfl) enough, stepped⟩
      · obtain rfl : op = .jumpIfNot := Option.some.inj (known.symm.trans jump)
        refine ⟨_, _, instruction_jump known (.inr rfl) enough, stepped.trans ?_⟩
        change EStateM.bind (EStateM.bind _ _) _ t = EStateM.bind _ _ t
        unfold EStateM.bind
        cases pullBool t with
        | ok yes n => cases yes <;> rfl
        | error e n => rfl

end Run

namespace Listing

/-- A listing, the walk over the addresses of the same code and the machine agree. The lines are those of the addresses,
in ascending order, and the listing comes to its end however long it may go on. A machine that has come to a listed address
refuses what the listing shows there as no instruction, and goes on from any other at the address listed next, or at the one
shown as the target of a jump. -/
theorem decoders_agree (l : Library) (h : Heap) (m : Module) :
    (∀ name signature captures bytes, function l h m ⟨name, signature, .code bytes, captures⟩ =
      function l h m ⟨name, signature, .code #[], captures⟩ ++
        String.join (linesAt l h m bytes ({ bytes := bytes } : Code).addresses)) ∧
    ∀ c : Code, (∀ fuel, c.size ≤ fuel → codeFrom l h m c.bytes fuel 0 = linesAt l h m c.bytes c.addresses) ∧
      c.addresses.Pairwise (· < ·) ∧
      ∀ before i after, c.addresses = before ++ i :: after →
        ∀ (w : Library) (a : Activation) (s t : Machine) (b : UInt8), a.code = c.bytes → a.cursor = i →
          c.bytes[i]? = some b → Run.count w a b s = .ok () t →
          Run.Heeds w a s t b (shown l h m c.bytes i) (after.head?.getD c.size) := by
  refine ⟨fun name signature captures bytes => ?_, fun c => ?_⟩
  · rw [function_code, code, codeFrom_eq (Code.starts_addresses { bytes := bytes }) (Nat.le_of_eq (Nat.zero_add _).symm)]
  · have starts := c.starts_addresses
    refine ⟨fun fuel enough => codeFrom_eq starts (enough.trans (Nat.le_of_eq (Nat.zero_add _).symm)), starts.rising, ?_⟩
    rintro before i after parts w a s t b code rfl byte counted
    obtain ⟨b', byte', rest⟩ := starts.split parts
    obtain rfl : b = b' := Option.some.inj (byte.symm.trans byte')
    rw [← code] at byte rest ⊢
    refine Run.heeds_shown l h m byte counted fun within => ?_
    change after.head?.getD c.bytes.size = _
    rw [← code]
    exact rest.head within

/-- A jump over a byte that is no opcode, to a call which has lost an operand. -/
def severed : Code := { bytes := #[70, 1, 200, 73, 1] }

theorem decoders_agree_severed :
    severed.addresses = [0, 2, 3] ∧ linesAt {} {} (.named "") severed.bytes severed.addresses =
      ["0000  JUMP 1  ; -> 0003\n", "0002  <unknown 0xc8>\n", "0003  CALL <truncated>\n"] ∧
    Run.Heeds {} ⟨⟨0, 0⟩, severed.bytes, 0, 0⟩ {} { steps := 1 } 70 (shown {} {} (.named "") severed.bytes 0) 2 ∧
    Run.Heeds {} ⟨⟨0, 0⟩, severed.bytes, 3, 0⟩ {} { steps := 1 } 73 (shown {} {} (.named "") severed.bytes 3) 5 := by
  refine ⟨by decide +kernel, by decide +kernel, ?_, ?_⟩
  · exact ((decoders_agree {} {} (.named "")).2 severed).2.2 [] 0 [2, 3] (by decide +kernel) _ _ _ _ _ rfl rfl rfl rfl
  · exact ((decoders_agree {} {} (.named "")).2 severed).2.2 [0, 2] 3 [] (by decide +kernel) _ _ _ _ _ rfl rfl rfl rfl

end Listing

end StackScript
