import StackScript.Proofs.Compiling

/-!
Writing instructions. What is emitted moves the stack from one shape to the next, and handles are taken or given up
one by one at their distances below the top.
-/
namespace StackScript

namespace Compilation

variable {o : Surroundings} {x : Nat → Option Nat} {c d e : Compilation} {s u t : Shape} {op : Opcode}
  {a b : Nat} {span : Span}

/-- The draft is written further, and the depth stays. -/
structure Emits (o : Surroundings) (c d : Compilation) (s u : Shape) : Prop where
  reaches : c.Reaches o (fun _ => none) d s u
  depth : d.draft.depth = c.draft.depth

theorem Emits.refl (hc : c.Ready o) (s : Shape) : c.Emits o c s s := ⟨.refl hc _ s, rfl⟩

theorem Emits.trans (h : c.Emits o d s u) (k : d.Emits o e u t) : c.Emits o e s t :=
  ⟨h.reaches.trans k.reaches, k.depth.trans h.depth⟩

/-- What every library that the code may run in does with an instruction. -/
def Steps (o : Surroundings) (c : Compilation) (op : Opcode) (a b : Nat) (s u : Shape) : Prop :=
  ∀ w, (c.view o).Extends c.draft.target.module w → w.Moves c.draft.target.module c.draft.frame op a b s u

theorem Ready.draft (hc : c.Ready o) {d : Draft} (hd : c.draft.Writes d) (hv : d.code.Valid) :
    ({ c with draft := d } : Compilation).Ready o := by
  refine ⟨⟨hc.good.consistent, hc.good.heap, hc.good.count, hc.good.living, fun p hp => ?_, hc.good.begun,
      hc.good.alive, hc.good.user⟩,
    ?_, ?_, ?_, hv⟩
  · have old := hc.good.pending p hp
    exact ⟨old.plain, old.unbegun, old.living, old.undefined, old.sole⟩
  · exact hd.target ▸ hc.here
  · exact hd.target ▸ hc.user
  · change d.scope < (c.library.get d.target.module).scopes.size
    rw [hd.target, hd.scope]
    exact hc.scope

theorem Reaches.draft (hc : c.Ready o) {d : Draft} (hd : c.draft.Writes d) (hv : d.code.Valid)
    (flow : ∀ w code final, (c.view o).Extends c.draft.target.module w → d.code.Fits code →
      w.Flow c.draft.target.module c.draft.frame code final d.code.size u →
      w.Flow c.draft.target.module c.draft.frame code final c.draft.code.size s) :
    c.Reaches o x { c with draft := d } s u :=
  ⟨hc.draft hd hv, ⟨fun k => .refl k _, fun _ => .refl _ _, fun _ _ => rfl, rfl, rfl, fun _ h => h⟩, hd, flow⟩

/-- The depth of the draft says nothing about its code. -/
theorem Reaches.setDepth (hc : c.Ready o) (n : Nat) (s : Shape) :
    c.Reaches o x { c with draft := { c.draft with depth := n } } s s :=
  .draft hc ⟨rfl, rfl, rfl, rfl, rfl, .refl _⟩ hc.code fun _ _ _ _ _ h => h

theorem Ready.onCode (hc : c.Ready o) (k : Code → Code) (hd : c.draft.code.Extends (k c.draft.code))
    (hv : (k c.draft.code).Valid)
    (flow : ∀ w code final, (c.view o).Extends c.draft.target.module w → (k c.draft.code).Fits code →
      w.Flow c.draft.target.module c.draft.frame code final (k c.draft.code).size u →
      w.Flow c.draft.target.module c.draft.frame code final c.draft.code.size s) :
    Meets (Compile.onCode k) c (fun _ d => c.Emits o d s u) fun _ => Failed o :=
  ⟨.draft hc ⟨rfl, rfl, rfl, rfl, rfl, hd⟩ hv flow, rfl⟩

/-! ### Instructions -/

theorem Ready.emit (hc : c.Ready o) (hop : op.arity = 0) (move : c.Steps o op 0 0 s u) :
    Meets (Compile.emit op) c (fun _ d => c.Emits o d s u) fun _ => Failed o := by
  refine hc.onCode (fun code => code.opcode op) (Code.extends_opcode _ op) (hc.code.opcode op)
    fun w code final hw hfit hflow => ?_
  refine .step (hfit.fetches hc.code hop (.refl _)) (move w hw) ?_
  rw [Code.size_opcode] at hflow
  rwa [Opcode.length, hop]

theorem meets_getDraft {ok : Draft → Compilation → Prop} {bad : CompileError → Compilation → Prop} :
    Meets Compile.getDraft c ok bad ↔ ok c.draft c := Iff.rfl

theorem meets_operand {ok : UInt8 → Compilation → Prop} (hc : c.Ready o)
    (hok : a < 256 → ok (.ofNat a) c) : Meets (Compile.operand op a span) c ok fun _ => Failed o := by
  unfold Compile.operand
  split
  · next h => exact hok h
  · exact hc.failed

theorem Ready.emit1 (hc : c.Ready o) (hop : op.arity = 1) (move : c.Steps o op a 0 s u) :
    Meets (Compile.emit1 op a span) c (fun _ d => c.Emits o d s u) fun _ => Failed o := by
  refine meets_bind.2 (meets_operand hc fun ha => ?_)
  refine hc.onCode (fun code => (code.opcode op).byte _)
    ((Code.extends_opcode _ op).trans (Code.extends_byte _ _)) ((hc.code.opcode op).byte _)
    fun w code final hw hfit hflow => ?_
  have fetch := hfit.fetches1 hc.code hop (.refl _)
  rw [UInt8.toNat_ofNat_of_lt' ha] at fetch
  refine .step fetch (move w hw) ?_
  rw [Code.size_byte, Code.size_opcode] at hflow
  rwa [Opcode.length, hop]

theorem Ready.emit2 (hc : c.Ready o) (hop : op.arity = 2) (move : c.Steps o op a b s u) :
    Meets (Compile.emit2 op a b span) c (fun _ d => c.Emits o d s u) fun _ => Failed o := by
  refine meets_bind.2 (meets_operand hc fun ha => meets_bind.2 (meets_operand hc fun hb => ?_))
  refine hc.onCode (fun code => ((code.opcode op).byte _).byte _)
    ((Code.extends_opcode _ op).trans ((Code.extends_byte _ _).trans (Code.extends_byte _ _)))
    (((hc.code.opcode op).byte _).byte _) fun w code final hw hfit hflow => ?_
  have fetch := hfit.fetches2 hc.code hop (.refl _)
  rw [UInt8.toNat_ofNat_of_lt' ha, UInt8.toNat_ofNat_of_lt' hb] at fetch
  refine .step fetch (move w hw) ?_
  rw [Code.size_byte, Code.size_byte, Code.size_opcode] at hflow
  rwa [Opcode.length, hop]

end Compilation

end StackScript
