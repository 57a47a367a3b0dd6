import StackScript.Proofs.Registering

/-!
Code that calls. The function is in the module of the draft or in one that it imports, and its frame is on top of
the stack.
-/
namespace StackScript

/-! ### The builtin module -/

namespace Builtin

theorem arity_of_mem {op : Opcode} (h : op ∈ opcodes) : op.arity = 0 := by
  have all : ∀ op ∈ opcodes, op.arity = 0 := by decide +kernel
  exact all op h

/-- The number of a native function, and what stands there. -/
def numbered (n : Native) : Bool :=
  match module.findFunction? n.name with
  | some i =>
    match module.functions[i]? with
    | some g =>
      match g.body with
      | .native k => k = n && g.signature = n.signature
      | _ => false
    | none => false
  | none => false

theorem numbered_all : ∀ n ∈ Native.all, numbered n := by decide +kernel

theorem mem_natives (n : Native) : n ∈ Native.all := by
  cases n with
  | floatArith w op => cases w <;> cases op <;> decide
  | floatTest w c => cases w <;> cases c <;> decide
  | floatNegate w => cases w <;> decide
  | _ => decide

theorem findFunction_native (n : Native) : ∃ i g, module.findFunction? n.name = some i ∧
    module.functions[i]? = some g ∧ g.body = .native n ∧ g.signature = n.signature := by
  have h := numbered_all n (mem_natives n)
  unfold numbered at h
  split at h
  · next i hi =>
    split at h
    · next g hg =>
      split at h
      · next k hk =>
        simp only [Bool.and_eq_true, decide_eq_true_eq] at h
        exact ⟨i, g, hi, hg, h.1 ▸ hk, h.2⟩
      · cases h
    · cases h
  · cases h

/-- The module is found by its name in one that imports it first. -/
theorem find_of_first {l : Library} {m : Module} (builtin : l.modules[0]? = some module) (first : m.imports[0]? = some 0) :
    (m.imports.find? fun id => l.nameOf id = name) = some 0 := by
  rw [← Array.find?_toList]
  rw [← Array.getElem?_toList] at first
  cases hl : m.imports.toList with
  | nil => simp [hl] at first
  | cons a as =>
    rw [hl] at first
    obtain rfl := Option.some.inj first
    have hname : l.nameOf 0 = name := by
      rw [Library.nameOf, Library.get_eq builtin]
      rfl
    simp [hname]

end Builtin

/-- The opcodes that can be called move the stack as their signatures say. -/
theorem View.moves_opcode {v : View} {k frame : Nat} {op : Opcode} {s : Shape} (h : op ∈ Builtin.opcodes) :
    v.Moves k frame op 0 0 (Shape.ofTys op.signature.params ++ s) (Shape.ofTy op.signature.result ++ s) := by
  cases op with
  | logicalNot => exact .logicalNot
  | logicalOr => exact .logicalOr
  | logicalAnd => exact .logicalAnd
  | word op w =>
    cases op with
    | negate => cases w <;> exact .negate
    | bitNot => cases w <;> exact .bitNot
    | compare c => cases w <;> exact .compare rfl rfl
    | arith a => cases w <;> exact .arith
  | _ => exact absurd h (by decide)

theorem Signature.effectiveResult_of_known {s : Signature} (h : s.result.Known) : s.effectiveResult = s.result := by
  unfold effectiveResult
  split
  · next e => exact absurd (e ▸ h) Ty.not_known_unknown
  · rfl

theorem Opcode.signature_frame (op : Opcode) : Draft.frameTypes op.signature = op.signature.params := by
  cases op <;> rfl

theorem Builtin.effectiveResult_of_mem {op : Opcode} (h : op ∈ opcodes) :
    op.signature.effectiveResult = op.signature.result := by
  have all : ∀ op ∈ opcodes, op.signature.effectiveResult = op.signature.result := by decide +kernel
  exact all op h

namespace Compilation

variable {o : Surroundings} {x : Nat → Option Nat} {c d e : Compilation} {s u : Shape} {span : Span} {t r : Ty}
  {m : Module} {f : FunctionRef} {g : Function} {ts : List Ty} {n : Nat}

/-! ### Functions that can be called -/

theorem Evolves.callee (h : c.Evolves o x d) (callee : (c.view o).Callee n f ts r) : (d.view o).Callee n f ts r :=
  callee.extends (h.library n) (Nat.le_refl n)

theorem meets_getFunction {ok : Function → Compilation → Prop} {bad : CompileError → Compilation → Prop}
    (hg : c.library.function? f = some g) : Meets (Compile.getFunction f span) c ok bad ↔ ok g c := by
  unfold Compile.getFunction
  rw [meets_bind, meets_get]
  simp only [hg]
  rfl

theorem Ready.lawful (hc : c.Ready o) (hg : c.library.function? f = some g) (ha : (c.library.get f.module).alive) :
    (c.view o).Lawful c.Waits f g :=
  hc.good.consistent.lawful hg ha

/-- A call instruction, written for the module that it is in. -/
theorem Ready.callInstruction (hc : c.Ready o) (span : Span) (hs : s.Settled)
    (callee : (c.view o).Callee c.draft.target.module f ts r) :
    Meets (do
      if f.module = (← Compile.here) then Compile.emit1 .call0 f.index span
      else match ← Compile.importIndex f.module span with
        | 0 => Compile.emit1 .call1 f.index span
        | i => Compile.emit2 .call i f.index span) c
      (fun _ d => c.Reaches o (fun _ => none) d (Shape.ofTys ts ++ s) (Shape.ofTy r ++ s)) fun _ => Failed o := by
  have called {d : Compilation} {op : Opcode} {a b : Nat} {v : Shape} (hd : c.Reaches o (fun _ => none) d v v)
      (calls : ∀ w, (d.view o).Extends c.draft.target.module w → w.Calls c.draft.target.module op a b f) :
      d.Steps o op a b (Shape.ofTys ts ++ s) (Shape.ofTy r ++ s) := by
    intro w hw
    rw [hd.writes.target] at hw ⊢
    exact .call (calls w hw) ((hd.evolves.callee callee).extends hw (Nat.le_refl _)) hs
  refine meets_bind.2 (meets_here.2 ?_)
  split
  · next hhere =>
    refine (hc.emit1 rfl (called (.refl hc _ s) fun w _ => ?_)).imp (fun _ d hd => hd.reaches) fun _ _ h => h
    rw [← hhere]
    exact .here
  · refine (hc.importIndex (Shape.ofTys ts ++ s)).seq fun i d ⟨hd, hi, _⟩ => ?_
    have himport {w : View} (hw : (d.view o).Extends c.draft.target.module w) :
        (w.library.get c.draft.target.module).imports[i]? = some f.module :=
      (hw.modules _ (Nat.le_refl _)).imports i _ hi
    split
    · exact (hd.ready.emit1 rfl (called hd fun w hw => .first (himport hw))).imp
        (fun _ e he => hd.trans he.reaches) fun _ _ h => h
    · exact (hd.ready.emit2 rfl (called hd fun w hw => .any (himport hw))).imp
        (fun _ e he => hd.trans he.reaches) fun _ _ h => h

/-- The code of a call. A fragment is written out in place. -/
theorem Ready.emitCall (hc : c.Ready o) (span : Span) (hs : s.Settled)
    (callee : (c.view o).Callee c.draft.target.module f ts r) :
    Meets (Compile.emitCall f span) c
      (fun _ d => c.Reaches o (fun _ => none) d (Shape.ofTys ts ++ s) (Shape.ofTy r ++ s)) fun _ => Failed o := by
  obtain ⟨g, hg, cases⟩ := callee.known
  have lawful := hc.lawful hg callee.alive
  refine meets_bind.2 ((meets_getFunction hg).2 ?_)
  cases hb : g.body with
  | fragment op =>
    obtain ⟨hmem, hsig⟩ := lawful.fragment op hb
    obtain ⟨rfl, rfl⟩ : ts = op.signature.params ∧ r = op.signature.result := by
      rcases cases with ⟨-, hu⟩ | ⟨hl, -⟩ | ⟨-, -, hts, hr, -⟩
      · rw [hb] at hu
        cases hu
      · rw [hb] at hl
        cases hl
      · rw [hsig] at hts hr
        exact ⟨hts.trans op.signature_frame, hr.trans (Builtin.effectiveResult_of_mem hmem)⟩
    exact (hc.emit (Builtin.arity_of_mem hmem) fun w _ => View.moves_opcode hmem).imp (fun _ d hd => hd.reaches)
      fun _ _ h => h
  | _ => exact hc.callInstruction span hs callee

/-- Native functions are called in the builtin module, which every module imports first. -/
theorem Ready.callNative {k : Native} (hc : c.Ready o) (hs : s.Settled) (hk : k ≠ .listLength) :
    Meets (Compile.callNative k span) c (fun _ d => c.Reaches o (fun _ => none) d
      (Shape.ofTys k.signature.params ++ s) (Shape.ofTy k.signature.result ++ s)) fun _ => Failed o := by
  obtain ⟨m, hm, ha⟩ := hc.here
  have houses := hc.houses hm
  have hbuiltin : c.library.modules[0]? = some Builtin.module := hc.good.consistent.builtin
  have hzero : c.library.get 0 = Builtin.module := Library.get_eq hbuiltin
  have hfirst := houses.first hc.user
  have hfind := Builtin.find_of_first hbuiltin hfirst
  obtain ⟨i, g, hi, hg, hbody, hsig⟩ := Builtin.findFunction_native k
  have hfun : c.library.function? ⟨0, i⟩ = some g := (Library.function?_of_module hbuiltin).trans hg
  have hmem : 0 ∈ Library.references m :=
    List.mem_append_left _ (Array.mem_toList_iff.2 (Array.mem_of_getElem? hfirst))
  obtain ⟨hlt, hlive⟩ := houses.references 0 hmem
  have lawful := hc.lawful hfun hlive
  obtain ⟨hframe, hresult⟩ := lawful.fits.native k hbody hk
  have callee : (c.view o).Callee c.draft.target.module ⟨0, i⟩ k.signature.params k.signature.result := by
    refine ⟨Nat.le_of_lt hlt, hlive, g, hfun, .inr (.inr ⟨by rw [hbody]; rfl, ?_, hframe.symm, hresult.symm, ?_, ?_⟩)⟩
    · rw [hbody]
      exact fun e => hk (Body.native.inj e)
    · exact hresult ▸ lawful.result
    · rw [hbody]
      nofun
  have hget : c.library.get c.draft.target.module = m := Library.get_eq hm
  unfold Compile.callNative
  rw [meets_bind, meets_get]
  simp only [hget, hfind, hzero, hi]
  exact hc.emitCall span hs callee

/-- The type of a call to a function by its name, once the function is not pending any more. -/
theorem Ready.callResult (hc : c.Ready o) (hg : c.library.function? f = some g) (hgen : g.body.isGeneric = false)
    (hlen : g.body ≠ .native .listLength) (hbegun : ∀ p ∈ c.pending, f ≠ ⟨c.module, p.1⟩) (hf : f.module ≤ n)
    (ha : (c.library.get f.module).alive) :
    Meets (Compile.callResult f span) c (fun t d => d = c ∧ t.Known ∧ t = g.signature.effectiveResult ∧
      (c.view o).Callee n f (Draft.frameTypes g.signature) t) fun _ => Failed o := by
  have lawful := hc.lawful hg ha
  refine meets_bind.2 ((meets_getFunction hg).2 (meets_bind.2 (meets_get.2 ?_)))
  have main (h : c.unfinished.contains f = false ∨ g.signature.result.isUnknown = false) :
      (c.view o).Callee n f (Draft.frameTypes g.signature) g.signature.effectiveResult := by
    refine ⟨hf, ha, g, hg, ?_⟩
    by_cases hu : g.body = .undefined
    · rcases lawful.undefined hu with hw | hd
      · refine .inr (.inr ⟨hgen, hlen, rfl, rfl, lawful.result, fun _ => ?_⟩)
        have hmem : f ∈ c.unfinished := by
          rcases hw with ⟨hmod, p, hp, hi⟩ | hmem
          · exact absurd (by rw [← hmod, hi]) (hbegun p hp)
          · exact hmem
        have hres := h.resolve_left (by simp [hmem])
        refine (Signature.known_effectiveResult.1 lawful.result).resolve_left fun e => ?_
        rw [e] at hres
        cases hres
      · exact .inl ⟨hd, hu⟩
    · refine .inr (.inr ⟨hgen, hlen, rfl, rfl, lawful.result, fun h => ?_⟩)
      cases hb : g.body <;> simp_all [Body.isUndefined]
  split
  · exact hc.failed
  · next h =>
    rw [Bool.not_eq_true, Bool.and_eq_false_iff] at h
    exact ⟨rfl, lawful.result, rfl, main h⟩

end Compilation

end StackScript
