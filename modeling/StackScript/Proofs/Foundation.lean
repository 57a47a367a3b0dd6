import StackScript.Proofs.Programs
import StackScript.Proofs.Retiring

/-!
The library that a session begins with, and the modules that are added to it. The builtin module keeps to the
signatures of its functions, and a new module knows nothing but the living modules that it refers to.
-/
namespace StackScript

/-! ### The builtin module -/

namespace Builtin

theorem mem_functions {g : Function} (hg : g ∈ functions) :
    (∃ op ∈ opcodes, g = ⟨op.name, op.signature, .fragment op, []⟩) ∨
      ∃ n : Native, g = ⟨n.name, n.signature, .native n, []⟩ := by
  rcases List.mem_append.1 hg with h | h
  · obtain ⟨op, hop, rfl⟩ := List.mem_map.1 h
    exact .inl ⟨op, hop, rfl⟩
  · obtain ⟨n, -, rfl⟩ := List.mem_map.1 h
    exact .inr ⟨n, rfl⟩

theorem opcode_name {op : Opcode} (h : op ∈ opcodes) : op.name ≠ Plain.reserved := by
  have all : ∀ op ∈ opcodes, op.name ≠ Plain.reserved := by decide +kernel
  exact all op h

theorem native_name (n : Native) : n = .listLength ↔ n.name = Plain.reserved := by
  have all : ∀ n ∈ Native.all, (n = .listLength ↔ n.name = Plain.reserved) := by decide +kernel
  exact all n (mem_natives n)

theorem opcode_params {op : Opcode} (h : op ∈ opcodes) :
    Ty.AllKnown op.signature.params ∧ op.signature.effectiveResult.Known := by
  have all : ∀ op ∈ opcodes, Ty.anyGeneric op.signature.params = false ∧
      op.signature.effectiveResult.isGeneric = false := by decide +kernel
  exact ⟨Ty.anyGeneric_eq_false.1 (all op h).1, (all op h).2⟩

theorem native_params {n : Native} (h : n ≠ .listLength) : Ty.AllKnown n.signature.params := by
  have all : ∀ n ∈ Native.all, n ≠ .listLength → Ty.anyGeneric n.signature.params = false := by decide +kernel
  exact Ty.anyGeneric_eq_false.1 (all n (mem_natives n) h)

theorem native_result (n : Native) : n.signature.effectiveResult = n.signature.result ∧ n.signature.result.Known := by
  have all : ∀ n ∈ Native.all, n.signature.effectiveResult = n.signature.result ∧
      n.signature.result.isGeneric = false := by decide +kernel
  exact all n (mem_natives n)

theorem native_frame (n : Native) : n.signature.nonlocals = [] ∧ n.signature.bound = [] := by
  have all : ∀ n ∈ Native.all, n.signature.nonlocals = [] ∧ n.signature.bound = [] := by decide +kernel
  exact all n (mem_natives n)

theorem lawful {v : View} {waits : FunctionRef → Prop} {f : FunctionRef} {g : Function} (hg : g ∈ functions) :
    v.Lawful waits f g := by
  rcases mem_functions hg with ⟨op, hop, rfl⟩ | ⟨n, rfl⟩
  · have frame : op.signature.nonlocals = [] ∧ op.signature.bound = [] := by cases op <;> exact ⟨rfl, rfl⟩
    obtain ⟨params, result⟩ := opcode_params hop
    refine ⟨by rw [frame.1]; rfl, List.not_mem_nil, by rw [frame.1]; exact Ty.allKnown_nil,
      by rw [frame.2]; exact Ty.allKnown_nil, fun _ _ => params, result, nofun, fun o ho => ?_, nofun, nofun,
      fun bytes hb w _ => ?_, nofun⟩
    · cases ho
      exact ⟨hop, rfl⟩
    · cases hb
      exact Compilation.flow_opcode hop
  · obtain ⟨nonlocals, bound⟩ := native_frame n
    obtain ⟨result, known⟩ := native_result n
    refine ⟨by rw [nonlocals]; rfl, List.not_mem_nil, by rw [nonlocals]; exact Ty.allKnown_nil,
      by rw [bound]; exact Ty.allKnown_nil, fun _ typed => native_params fun e => typed (congrArg Body.native e),
      result ▸ known, nofun, nofun, fun e => by cases e; rfl, nofun, nofun, fun k hk _ => ?_⟩
    cases hk
    exact ⟨by rw [Draft.frameTypes, nonlocals, bound]; rfl, result⟩

/-! ### The module -/

theorem functions_foldl_define (fs : List Function) (m : Module) :
    (fs.foldl define m).functions.toList = m.functions.toList ++ fs := by
  induction fs generalizing m with
  | nil => exact (List.append_nil _).symm
  | cons f fs ih =>
    rw [List.foldl_cons, ih]
    simp [define, Module.define, Module.addFunction]

theorem mem_module {i : Nat} {g : Function} (h : module.functions[i]? = some g) : g ∈ functions := by
  have hmem := Array.mem_toList_iff.2 (Array.mem_of_getElem? h)
  rw [module, functions_foldl_define] at hmem
  exact hmem

theorem binds_define {m : Module} {g : Function} (hg : g ∈ functions) :
    (m.addFunction g).1.Binds g.name (.function m.functions.size) := by
  refine ⟨g, Array.getElem?_push_size, ?_, ?_⟩
  · rcases mem_functions hg with ⟨op, hop, rfl⟩ | ⟨n, rfl⟩
    · cases op <;> rfl
    · exact (native_frame n).2
  · rcases mem_functions hg with ⟨op, hop, rfl⟩ | ⟨n, rfl⟩
    · exact ⟨nofun, fun e => absurd e (opcode_name hop)⟩
    · rw [← native_name n]
      exact ⟨Body.native.inj, congrArg Body.native⟩

theorem sane_foldl_define {fs : List Function} : ∀ {m : Module}, (∀ g ∈ fs, g ∈ functions) → m.Sane →
    (fs.foldl define m).Sane := by
  induction fs with
  | nil => exact fun _ hm => hm
  | cons g fs ih =>
    intro m hfs hm
    refine ih (fun g hg => hfs g (.tail _ hg)) ?_
    exact (hm.extends (m.extends_addFunction g) rfl (fun _ h => h) rfl).bind ScopeTable.root
      (binds_define (hfs g (.head _)))

end Builtin

namespace Module

/-- A module into which nothing has been compiled yet. -/
structure Blank (m : Module) : Prop where
  functions : m.functions = #[]
  values : m.values = #[]
  instances : m.instances = []
  scopes : ∃ label, m.scopes = .ofModule label
  alive : m.alive

theorem Blank.sane {m : Module} (h : m.Blank) : m.Sane := by
  obtain ⟨label, hs⟩ := h.scopes
  refine ⟨?_, ?_, ?_, ?_, ?_⟩
  · rw [hs]
    intro i sc p hi hp
    rcases i with - | i
    · cases hi
      cases hp
    · cases hi
  · rw [hs]
    exact Nat.zero_lt_one
  · rw [hs]
    intro i name symbol h
    rcases i with - | i
    · cases h
    · cases h
  · rw [h.instances]
    exact nofun
  · rw [h.values]
    exact nofun

theorem blank_named (name : String) : (named name).Blank := ⟨rfl, rfl, rfl, ⟨name, rfl⟩, rfl⟩

theorem Blank.addImport {m : Module} (h : m.Blank) (id : Nat) : (m.addImport id).1.Blank :=
  ⟨h.functions, h.values, h.instances, h.scopes, h.alive⟩

theorem Blank.addVisible {m : Module} (h : m.Blank) (id : Nat) : (m.addVisible id).Blank :=
  ⟨h.functions, h.values, h.instances, h.scopes, h.alive⟩

end Module

theorem Builtin.sane : module.Sane := sane_foldl_define (fun _ h => h) (Module.blank_named name).sane

/-! ### One more module -/

namespace Library

variable {l : Library} {m : Module} {id : Nat}

theorem modules_add_lt (h : id < l.modules.size) : (l.add m).1.modules[id]? = l.modules[id]? := by
  rw [add, Array.getElem?_push, if_neg (Nat.ne_of_lt h)]

theorem modules_add_self : (l.add m).1.modules[l.modules.size]? = some m := Array.getElem?_push_size

theorem modules_add {n : Module} (h : (l.add m).1.modules[id]? = some n) :
    id = l.modules.size ∧ n = m ∨ id < l.modules.size ∧ l.modules[id]? = some n := by
  have hlt := (Array.getElem?_eq_some_iff.1 h).1
  rw [add, Array.size_push] at hlt
  rcases Nat.lt_or_eq_of_le (Nat.le_of_lt_succ hlt) with hid | rfl
  · exact .inr ⟨hid, modules_add_lt hid ▸ h⟩
  · exact .inl ⟨rfl, Option.some.inj (h.symm.trans modules_add_self)⟩

theorem get_add_lt (h : id < l.modules.size) : (l.add m).1.get id = l.get id := by
  rw [get, get, Array.getD_eq_getD_getElem?, Array.getD_eq_getD_getElem?, modules_add_lt h]

/-- Before a blank module stands at a number, the empty module does. -/
theorem get_add (hm : m.Blank) (id : Nat) : (l.get id).Extends ((l.add m).1.get id) ∧
    ((l.add m).1.get id).values = (l.get id).values ∧ (l.get id).scopes.size ≤ ((l.add m).1.get id).scopes.size := by
  rcases Nat.lt_trichotomy id l.modules.size with h | rfl | h
  · rw [get_add_lt h]
    exact ⟨.refl _, rfl, Nat.le_refl _⟩
  · rw [get_none (Array.getElem?_eq_none (Nat.le_refl _)), get_eq modules_add_self]
    exact ⟨⟨nofun, nofun, nofun, nofun, fun _ => hm.alive⟩, hm.values, Nat.zero_le _⟩
  · rw [get_none (Array.getElem?_eq_none (Nat.le_of_lt h)), get_none]
    · exact ⟨.refl _, rfl, Nat.le_refl _⟩
    · exact Array.getElem?_eq_none (by simpa [add] using Nat.succ_le_of_lt h)

theorem statics_add (hm : m.Blank) : (l.add m).1.statics = l.statics := by
  rw [statics, add, Array.toList_push, List.flatMap_append, List.flatMap_singleton, hm.values]
  exact List.append_nil _

end Library

namespace View

variable {v : View} {waits : FunctionRef → Prop} {Ψ : Typing} {h : Heap} {roots : List Handle} {m : Module}

theorem extends_add (hm : m.Blank) (hd : ∀ f, v.dead f → ∃ g, v.library.function? f = some g) (k : Nat) :
    v.Extends k ⟨(v.library.add m).1, v.dead⟩ := by
  refine ⟨fun id _ => (Library.get_add hm id).1, fun f _ hf => ⟨hf, ?_⟩⟩
  obtain ⟨g, hg⟩ := hd f hf
  obtain ⟨n, hn, -⟩ := Library.exists_module hg
  rw [Library.function?_eq, Library.function?_eq, Library.get_add_lt (Array.getElem?_eq_some_iff.1 hn).1]

theorem Consistent.add (hc : v.Consistent waits) (hm : m.Blank)
    (hr : ∀ r ∈ Library.references m, r < v.library.modules.size ∧ (v.library.get r).alive)
    (hi : m.imports[0]? = some 0) : View.Consistent ⟨(v.library.add m).1, v.dead⟩ waits := by
  have hext := extends_add hm hc.dead
  have hzero := (Array.getElem?_eq_some_iff.1 hc.builtin).1
  refine ⟨(Library.modules_add_lt hzero).trans hc.builtin, fun id n hn ha => ?_, fun id n hn ha => ?_, fun f hf => ?_⟩
  · rcases Library.modules_add hn with ⟨rfl, rfl⟩ | ⟨-, hn⟩
    · refine ⟨fun r hr' => ⟨(hr r hr').1, ?_⟩, fun _ => hi, hm.sane, fun i g hg => ?_⟩
      · rw [Library.get_add_lt (hr r hr').1]
        exact (hr r hr').2
      · rw [hm.functions] at hg
        cases hg
    · exact (hc.modules id n hn ha).extends (hext id) (Library.get_add hm id).2.2 fun i g _ _ hw => .inl hw
  · rcases Library.modules_add hn with ⟨rfl, rfl⟩ | ⟨-, hn⟩
    · rw [hm.alive] at ha
      cases ha
    · exact hc.retired id n hn ha
  · obtain ⟨g, hg⟩ := hc.dead f hf
    obtain ⟨g', hg', -⟩ := (hext f.module).function (Nat.le_refl _) hg
    exact ⟨g', hg'⟩

theorem Sound.add (hs : v.Sound Ψ h roots) (hm : m.Blank)
    (hd : ∀ f, v.dead f → ∃ g, v.library.function? f = some g) :
    View.Sound ⟨(v.library.add m).1, v.dead⟩ Ψ h roots := by
  refine hs.extends (extends_add hm hd) (Library.statics_add hm) (fun id => (Library.get_add hm id).2.1) fun id ha => ?_
  rcases Nat.lt_or_ge id v.library.modules.size with hid | hid
  · rwa [Library.get_add_lt hid] at ha
  · rw [Library.get_none (Array.getElem?_eq_none hid)]
    rfl

end View

/-! ### The first library -/

theorem Builtin.references_module : Library.references module = [] := by decide +kernel

theorem Builtin.values_module : module.values = #[] := Array.eq_empty_of_size_eq_zero (by decide +kernel)

theorem Builtin.alive_module : module.alive = true := by decide +kernel

namespace View

/-- A library with nothing but the builtin module. -/
def founded : View := ⟨⟨#[Builtin.module]⟩, fun _ => False⟩

theorem modules_founded {id : Nat} {m : Module} (h : founded.library.modules[id]? = some m) :
    id = 0 ∧ m = Builtin.module := by
  rcases id with - | id
  · exact ⟨rfl, (Option.some.inj h).symm⟩
  · cases h

theorem consistent_founded : founded.Consistent fun _ => False := by
  refine ⟨rfl, fun id m hm ha => ?_, fun id m hm ha => ?_, nofun⟩
  · obtain ⟨rfl, rfl⟩ := modules_founded hm
    refine ⟨?_, nofun, Builtin.sane, fun i g hg => Builtin.lawful (Builtin.mem_module hg)⟩
    rw [Builtin.references_module]
    exact nofun
  · obtain ⟨rfl, rfl⟩ := modules_founded hm
    rw [Builtin.alive_module] at ha
    cases ha

theorem statics_founded : founded.library.statics = [] := by
  change Builtin.module.values.toList.flatMap Value.handles ++ [] = []
  rw [Builtin.values_module]
  rfl

theorem sound_founded (Ψ : Typing) : founded.Sound Ψ {} [] := by
  refine ⟨?_, fun r x t n hx => ?_, fun id x _ hx => ?_⟩
  · rw [statics_founded]
    exact Heap.balanced_empty
  · rw [Heap.filled?, Heap.cell?_empty] at hx
    cases hx
  · cases hm : founded.library.modules[id]? with
    | none =>
      rw [Library.get_none hm] at hx
      exact absurd hx (Array.not_mem_empty x)
    | some m =>
      obtain ⟨rfl, rfl⟩ := modules_founded hm
      rw [Library.get_eq hm, Builtin.values_module] at hx
      exact absurd hx (Array.not_mem_empty x)

end View

end StackScript
