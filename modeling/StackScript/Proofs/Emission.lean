import StackScript.Proofs.Bodies

/-!
Operands are written as they are meant, and installed as they are written. One that a byte cannot hold, a number or the
distance of a jump, makes the compilation fail.
-/
namespace StackScript

namespace Compilation

/-- One more instruction was written. -/
def Appends (c d : Compilation) (op : Opcode) (x y : Nat) : Prop :=
  ∃ it : Code.Item, c.draft.code.Ends d.draft.code it ∧ it.op = op ∧ it.first = x ∧ it.second = y

variable {c d : Compilation} {op : Opcode} {a b : Nat} {span : Span} {f : FunctionRef}

theorem Appends.of_draft {e : Compilation} {x y : Nat} (h : e.Appends d op x y) (draft : e.draft = c.draft) : c.Appends d op x y := by
  unfold Appends at *
  rwa [draft] at h

theorem appends_emit (h : op.arity = 0) (c : Compilation) :
    Meets (Compile.emit op) c (fun _ d => c.Appends d op 0 0 ∧ d.library = c.library) fun _ _ => False :=
  ⟨⟨⟨op, [], h.symm⟩, ⟨Array.toList_push, rfl⟩, rfl, rfl, rfl⟩, rfl⟩

theorem operand_exact (op : Opcode) (n : Nat) (span : Span) (c : Compilation) :
    Meets (Compile.operand op n span) c (fun b d => b.toNat = n ∧ d = c)
      fun e _ => 256 ≤ n ∧ e = ⟨.operandTooLarge op n, span⟩ := by
  unfold Compile.operand
  split
  · next h => exact ⟨UInt8.toNat_ofNat_of_lt' h, rfl⟩
  · next h => exact ⟨Nat.not_lt.1 h, rfl⟩

theorem appends_emit1 (h : op.arity = 1) (a : Nat) (span : Span) (c : Compilation) :
    Meets (Compile.emit1 op a span) c (fun _ d => c.Appends d op a 0 ∧ d.library = c.library)
      fun e _ => 256 ≤ a ∧ e = ⟨.operandTooLarge op a, span⟩ := by
  refine (operand_exact op a span c).seq fun x d hd => ?_
  obtain ⟨rfl, rfl⟩ := hd
  exact ⟨⟨⟨op, [x], h.symm⟩, ⟨by simp [Code.opcode, Code.byte, Code.Item.bytes], rfl⟩, rfl, rfl, rfl⟩, rfl⟩

theorem appends_emit2 (h : op.arity = 2) (a b : Nat) (span : Span) (c : Compilation) :
    Meets (Compile.emit2 op a b span) c (fun _ d => c.Appends d op a b ∧ d.library = c.library) fun e _ =>
      (256 ≤ a ∧ e = ⟨.operandTooLarge op a, span⟩) ∨ 256 ≤ b ∧ e = ⟨.operandTooLarge op b, span⟩ := by
  refine meets_bind.2 ((operand_exact op a span c).imp (fun x d hd => ?_) fun _ _ h => .inl h)
  obtain ⟨rfl, rfl⟩ := hd
  refine meets_bind.2 ((operand_exact op b span d).imp (fun y d hd => ?_) fun _ _ h => .inr h)
  obtain ⟨rfl, rfl⟩ := hd
  exact ⟨⟨⟨op, [x, y], h.symm⟩, ⟨by simp [Code.opcode, Code.byte, Code.Item.bytes], rfl⟩, rfl, rfl, rfl⟩, rfl⟩

/-- What was written is read where it was written, once the function is finished. -/
theorem Appends.installed {x y : Nat} (h : c.Appends d op x y) (hc : c.draft.code.Valid) {e code : Code}
    (follows : d.draft.code.Follows e) (he : e.Valid) (hr : e.resolve = (code, none)) :
    Instruction.read code.bytes c.draft.code.size (code.bytes.getD c.draft.code.size 0) = .ofOpcode op x y := by
  obtain ⟨it, ends, rfl, rfl, rfl⟩ := h
  exact ends.read hc follows he hr

/-! ### Calls -/

/-- The function that an instruction of a module calls. -/
def Calls (l : Library) (k : Nat) (op : Opcode) (x y : Nat) (f : FunctionRef) : Prop :=
  View.Calls ⟨l, fun _ => False⟩ k op x y f

theorem imported (id : Nat) (span : Span) (c : Compilation) :
    Meets (Compile.importIndex id span) c (fun i d => d.draft = c.draft ∧ i < CompileError.importLimit ∧
      (d.library.get c.draft.target.module).imports[i]? = some id) fun _ _ => True := by
  refine meets_bind.2 (meets_here.2 (meets_bind.2 (meets_get.2 (meets_bind.2 ?_))))
  cases hm : c.library.modules[c.draft.target.module]? with
  | none =>
    unfold Compile.onModule Meets Library.update
    simp only [hm]
    trivial
  | some m =>
    refine (meets_onModule hm).2 ?_
    split
    · trivial
    · next i hi =>
      split
      · next hlt =>
        refine ⟨rfl, hlt, ?_⟩
        change ((c.library.put _ _).get _).imports[_]? = _
        rw [Library.get_put_self hm]
        exact (m.importVisible_spec id).2.2 i hi
      · trivial

/-- A call names the function that is meant, unless that is inlined. -/
theorem appends_emitCall (f : FunctionRef) (span : Span) (hc : c.library.Formed) :
    Meets (Compile.emitCall f span) c (fun _ d => ∃ op x y, c.Appends d op x y ∧
      (Calls d.library c.draft.target.module op x y f ∨ ∃ g, c.library.function? f = some g ∧ g.body = .fragment op))
      fun _ _ => True := by
  unfold Compile.emitCall
  cases hg : c.library.function? f with
  | none =>
    unfold Compile.getFunction
    simp only [meets_bind, meets_get, hg]
    trivial
  | some g =>
    refine meets_bind.2 ((meets_getFunction hg).2 ?_)
    split
    · next op hb =>
      obtain ⟨m, hm, -⟩ := Library.exists_module hg
      have hop := hc.admits hg m hm
      rw [hb] at hop
      exact (appends_emit hop c).imp (fun _ d hd => ⟨op, 0, 0, hd.1, .inr ⟨g, rfl, hb⟩⟩) fun _ _ h => h.elim
    · refine meets_bind.2 (meets_here.2 ?_)
      split
      · next hid =>
        refine (appends_emit1 rfl f.index span c).imp (fun _ d hd => ⟨_, _, _, hd.1, .inl ?_⟩) fun _ _ _ => trivial
        rw [← hid]
        exact .here
      · refine meets_bind.2 ((imported f.module span c).imp (fun i e he => ?_) fun _ _ _ => trivial)
        obtain ⟨draft, -, hi⟩ := he
        split
        · refine (appends_emit1 rfl f.index span e).imp (fun _ d hd => ⟨_, _, _, hd.1.of_draft draft, .inl ?_⟩) fun _ _ _ => trivial
          exact .first (hd.2 ▸ hi)
        · refine (appends_emit2 rfl i f.index span e).imp (fun _ d hd => ⟨_, _, _, hd.1.of_draft draft, .inl ?_⟩) fun _ _ _ => trivial
          exact .any (hd.2 ▸ hi)

/-- A body that passes a call on names the function that is meant. -/
theorem forwards (f : FunctionRef) (span : Span) (c : Compilation) :
    Meets (Compile.forwardingCode f span) c (fun bytes d => ∃ op x y,
      Instruction.read bytes 0 (bytes.getD 0 0) = .ofOpcode op x y ∧ bytes.size = op.length ∧
        Calls d.library c.draft.target.module op x y f)
      fun _ _ => True := by
  have single {l : Library} {k : Nat} (it : Code.Item) (h : Calls l k it.op it.first it.second f) {bytes : Array UInt8}
      (hb : bytes.toList = it.bytes) : ∃ op x y, Instruction.read bytes 0 (bytes.getD 0 0) = .ofOpcode op x y ∧
      bytes.size = op.length ∧ Calls l k op x y f := by
    refine ⟨_, _, _, Code.read_item it fun n hn => ?_, ?_, h⟩
    · rw [Nat.zero_add, ← Array.getElem?_toList, hb]
    · rw [← Array.length_toList, hb, it.length_bytes]
  unfold Compile.forwardingCode
  split
  · exact meets_bind.2 trivial
  · next hlt =>
    have index : (UInt8.ofNat f.index).toNat = f.index := UInt8.toNat_ofNat_of_lt' (Nat.not_le.1 hlt)
    refine meets_bind.2 (meets_here.2 ?_)
    split
    · next hid =>
      refine single ⟨.call0, [.ofNat f.index], rfl⟩ ?_ rfl
      have : Calls c.library c.draft.target.module .call0 f.index 0 ⟨c.draft.target.module, f.index⟩ := .here
      rw [← hid] at this
      simpa [Code.Item.first, Code.Item.second, index, ← hid] using this
    · refine meets_bind.2 ((imported f.module span c).imp (fun i e he => ?_) fun _ _ _ => trivial)
      obtain ⟨-, hlt, hi⟩ := he
      split
      · refine single ⟨.call1, [.ofNat f.index], rfl⟩ ?_ rfl
        have : Calls e.library c.draft.target.module .call1 f.index 0 f := .first hi
        simpa [Code.Item.first, Code.Item.second, index] using this
      · refine single ⟨.call, [.ofNat i, .ofNat f.index], rfl⟩ ?_ rfl
        have : Calls e.library c.draft.target.module .call i f.index f := .any hi
        have importer : (UInt8.ofNat i).toNat = i := UInt8.toNat_ofNat_of_lt' hlt
        simpa [Code.Item.first, Code.Item.second, index, importer] using this

/-! ### Finished functions -/

/-- A function that is finished is installed as it was written, with its jumps resolved. -/
theorem finished (t : Ty) (span : Span) (hc : c.Shaped) {g : Function} (hg : c.library.function? c.draft.target = some g) :
    Meets (Compile.endFunction t span) c (fun _ d => ∃ e code, c.draft.code.Follows e ∧ e.Valid ∧ e.resolve = (code, none) ∧
      ∃ g, d.library.function? c.draft.target = some g ∧ g.body = .code code.bytes) fun _ _ => True := by
  refine meets_bind.2 (meets_getDraft.2 ?_)
  split
  · trivial
  · next s _ =>
    refine meets_bind.2 ((Compile.Forms.releaseFrame s t span c hc (.refl _) rfl).imp (fun _ d hd => ?_) fun _ _ _ => trivial)
    obtain ⟨hd, on, -⟩ := hd
    refine meets_bind.2 (meets_getDraft.2 ?_)
    generalize hr : d.draft.code.resolve = r
    obtain ⟨code, far⟩ := r
    cases far with
    | some jump => exact meets_bind.2 trivial
    | none =>
      obtain ⟨m, hm, hi⟩ := (Library.hasFunction hg).mono on.library
      refine meets_bind.2 (meets_modify.2 ((meets_onModule
        (c := { d with unfinished := d.unfinished.filter (· ≠ c.draft.target) }) hm).2 ?_))
      let g : Function := ⟨c.draft.name, s, .code code.bytes, c.draft.captures⟩
      have installed : (m.functions.setIfInBounds c.draft.target.index g)[c.draft.target.index]? = some g :=
        Array.getElem?_setIfInBounds_self_of_lt hi
      exact ⟨_, code, on.code, hd.valid, hr, _, (Library.function?_put_self hm).trans installed, rfl⟩

end Compilation

/-- A jump leads forward, and no farther than a byte can say. -/
def Patch.Near (p : Patch) : Prop := ∀ t, p.target = some t → p.operand + 1 ≤ t ∧ t - (p.operand + 1) < 256

theorem Patch.far_eq_none (p : Patch) : p.far = none ↔ p.Near := by
  unfold Patch.far Patch.Near
  cases p.target with
  | none => exact iff_of_true rfl nofun
  | some t =>
    dsimp only
    split
    · next near => exact iff_of_true rfl fun u bound => Option.some.inj bound ▸ near
    · next far => exact iff_of_false (Option.some_ne_none _) fun near => far (near t rfl)

namespace Code

theorem fill_near (ps : List Patch) (bytes : Array UInt8) : (fill bytes ps).2 = none ↔ ∀ p ∈ ps, p.Near := by
  rw [fill_failure, List.findSome?_eq_none_iff]
  exact forall₂_congr fun p _ => p.far_eq_none

/-- Code resolves exactly if all its jumps are near. -/
theorem resolves_iff (c : Code) : (∃ d, c.resolve = (d, none)) ↔ ∀ p ∈ c.patches, p.Near := by
  have near := fill_near c.patches.toList c.bytes
  simp only [Array.mem_toList_iff] at near
  rw [← near]
  unfold resolve
  generalize fill c.bytes c.patches.toList = r
  obtain ⟨bytes, failure⟩ := r
  constructor
  · rintro ⟨d, hd⟩
    exact (Prod.mk.inj hd).2
  · rintro rfl
    exact ⟨_, rfl⟩

end Code

namespace Compile

/-- The instructions of a function are installed with the operands that they were emitted with, calls name the functions that
are meant, and jumps hold the distances to their labels. What a byte cannot hold is not written, and fails. -/
structure Exact : Prop where
  emit : ∀ (op : Opcode) (c : Compilation), op.arity = 0 →
    Meets (emit op) c (fun _ d => c.Appends d op 0 0) fun _ _ => False
  emit1 : ∀ (op : Opcode) (a : Nat) (span : Span) (c : Compilation), op.arity = 1 →
    Meets (emit1 op a span) c (fun _ d => c.Appends d op a 0) fun e _ => 256 ≤ a ∧ e = ⟨.operandTooLarge op a, span⟩
  emit2 : ∀ (op : Opcode) (a b : Nat) (span : Span) (c : Compilation), op.arity = 2 →
    Meets (emit2 op a b span) c (fun _ d => c.Appends d op a b) fun e _ =>
      (256 ≤ a ∧ e = ⟨.operandTooLarge op a, span⟩) ∨ 256 ≤ b ∧ e = ⟨.operandTooLarge op b, span⟩
  emitCall : ∀ (f : FunctionRef) (span : Span) (c : Compilation), c.Shaped →
    Meets (emitCall f span) c (fun _ d => ∃ op x y, c.Appends d op x y ∧
      (Compilation.Calls d.library c.draft.target.module op x y f ∨
        ∃ g, c.library.function? f = some g ∧ g.body = .fragment op)) fun _ _ => True
  forwardingCode : ∀ (f : FunctionRef) (span : Span) (c : Compilation),
    Meets (forwardingCode f span) c (fun bytes d => ∃ op x y,
      Instruction.read bytes 0 (bytes.getD 0 0) = .ofOpcode op x y ∧ bytes.size = op.length ∧
        Compilation.Calls d.library c.draft.target.module op x y f) fun _ _ => True
  expr : ∀ (n : Nat) (e : Expr) (expected : Option Ty) (c : Compilation), c.Shaped →
    Meets (expr (writeDeferred n) e expected) c (fun _ d => d.Shaped ∧ c.draft.code.Follows d.draft.code) fun _ _ => True
  endFunction : ∀ (t : Ty) (span : Span) (c : Compilation) (g : Function), c.Shaped →
    c.library.function? c.draft.target = some g →
    Meets (endFunction t span) c (fun _ d => ∃ e code, c.draft.code.Follows e ∧ e.Valid ∧ e.resolve = (code, none) ∧
      ∃ g, d.library.function? c.draft.target = some g ∧ g.body = .code code.bytes) fun _ _ => True
  installed : ∀ (c d : Compilation) (op : Opcode) (x y : Nat) (e code : Code), c.Shaped → c.Appends d op x y →
    d.draft.code.Follows e → e.Valid → e.resolve = (code, none) →
    Instruction.read code.bytes c.draft.code.size (code.bytes.getD c.draft.code.size 0) = .ofOpcode op x y
  jumps : ∀ c d : Code, c.Valid → c.resolve = (d, none) → ∀ p ∈ c.patches, ∀ t, p.target = some t →
    ∃ x : UInt8, d.bytes[p.operand]? = some x ∧ t = p.operand + 1 + x.toNat
  near : ∀ c : Code, (∃ d, c.resolve = (d, none)) ↔ ∀ p ∈ c.patches, p.Near

theorem emission_exact : Exact where
  emit _ c h := (Compilation.appends_emit h c).imp (fun _ _ h => h.1) fun _ _ h => h
  emit1 _ a span c h := (Compilation.appends_emit1 h a span c).imp (fun _ _ h => h.1) fun _ _ h => h
  emit2 _ a b span c h := (Compilation.appends_emit2 h a b span c).imp (fun _ _ h => h.1) fun _ _ h => h
  emitCall f span _ hc := Compilation.appends_emitCall f span hc.formed
  forwardingCode := Compilation.forwards
  expr n e expected c hc := (Forms.expr (installs_deferred n) e expected c.library _ c hc (.refl _) rfl).imp
    (fun _ _ h => ⟨h.1, h.2.1.code⟩) fun _ _ _ => trivial
  endFunction t span _ _ hc hg := Compilation.finished t span hc hg
  installed _ _ _ _ _ _ _ hc h follows he hr := h.installed hc.valid follows he hr
  jumps _ _ hc hr := (hc.fits_resolve hr).jumps
  near := Code.resolves_iff

end Compile

end StackScript
