import StackScript.Compile.Function
import StackScript.Machine.Step
import StackScript.Proofs.ValueLayout

/-!
Types of byte code. An instruction moves a stack of one shape to another; code flows from an address with a shape
if every path from there on does, and ends with the shape of the result. What the code refers to is looked up in
a view of the library, which may be extended while other functions are written.
-/
namespace StackScript

namespace Library

theorem function?_eq (l : Library) (r : FunctionRef) : l.function? r = (l.get r.module).functions[r.index]? := by
  unfold function? get
  rw [Array.getD_eq_getD_getElem?]
  cases l.modules[r.module]? with
  | none => simp [default, instInhabitedModule.default]
  | some m => rfl

end Library

/-- A library, and the functions in it that will never be written. -/
structure View where
  library : Library
  dead : FunctionRef → Prop

/-- A function is left as it is, or written: then its signature stays, up to a result that was not known. -/
def Function.Extends (f g : Function) : Prop :=
  g = f ∨ (f.body = .undefined ∧ (∃ bytes, g.body = .code bytes) ∧ g.captures = f.captures ∧
    g.signature.params = f.signature.params ∧ g.signature.nonlocals = f.signature.nonlocals ∧
    g.signature.bound = f.signature.bound ∧
    (g.signature.result = f.signature.result ∨ f.signature.result = .unknown))

/-- Whether a function still has to be written. -/
def Body.isUndefined : Body → Bool
  | undefined => true
  | _ => false

/-- What stands at a number stays there. -/
structure Module.Extends (m n : Module) : Prop where
  functions : ∀ (i : Nat) (f : Function), m.functions[i]? = some f →
    ∃ g, n.functions[i]? = some g ∧ f.Extends g
  imports : ∀ (i id : Nat), m.imports[i]? = some id → n.imports[i]? = some id
  values : ∀ (i : Nat) (x : Value), m.values[i]? = some x → n.values[i]? = some x
  types : ∀ (i : Nat) (t : Ty), m.types[i]? = some t → n.types[i]? = some t
  alive : m.alive → n.alive

namespace View

variable {v w : View} {k : Nat}

/-- The modules up to a number are extended. -/
structure Extends (k : Nat) (v w : View) : Prop where
  modules : ∀ id ≤ k, (v.library.get id).Extends (w.library.get id)
  dead : ∀ f : FunctionRef, f.module ≤ k → v.dead f →
    w.dead f ∧ w.library.function? f = v.library.function? f

/-- A function that can be called with values of the given types in its frame, the top one first. -/
structure Callee (v : View) (k : Nat) (f : FunctionRef) (frame : List Ty) (result : Ty) : Prop where
  below : f.module ≤ k
  alive : (v.library.get f.module).alive
  known : ∃ g, v.library.function? f = some g ∧
    (v.dead f ∧ g.body = .undefined ∨
    g.body = .native .listLength ∧ (∃ e, frame = [.list e]) ∧ result = .int32 ∨
    g.body.isGeneric = false ∧ g.body ≠ .native .listLength ∧ frame = Draft.frameTypes g.signature ∧
      result = g.signature.effectiveResult ∧ result.Known ∧ (g.body.isUndefined → g.signature.result.Known))

/-- The function that an instruction calls. -/
inductive Calls (v : View) (k : Nat) : Opcode → Nat → Nat → FunctionRef → Prop
  | here {a b : Nat} : Calls v k .call0 a b ⟨k, a⟩
  | first {a b id : Nat} (import_ : (v.library.get k).imports[0]? = some id) : Calls v k .call1 a b ⟨id, a⟩
  | any {a b id : Nat} (import_ : (v.library.get k).imports[a]? = some id) : Calls v k .call a b ⟨id, b⟩

/-- How the instructions of a module without jumps change the shape of the stack, over a frame of the given
size. Where cells may be freed, nothing is borrowed. -/
inductive Moves (v : View) (k frame : Nat) : Opcode → Nat → Nat → Shape → Shape → Prop
  | logicalNot {a b : Nat} {s : Shape} :
    Moves v k frame .logicalNot a b (.own .bool :: s) (.own .bool :: s)
  | logicalOr {a b : Nat} {s : Shape} :
    Moves v k frame .logicalOr a b (.own .bool :: .own .bool :: s) (.own .bool :: s)
  | logicalAnd {a b : Nat} {s : Shape} :
    Moves v k frame .logicalAnd a b (.own .bool :: .own .bool :: s) (.own .bool :: s)
  | negate {a b : Nat} {w : Width} {s : Shape} :
    Moves v k frame (.word .negate w) a b (.own w.ty :: s) (.own w.ty :: s)
  | bitNot {a b : Nat} {w : Width} {s : Shape} :
    Moves v k frame (.word .bitNot w) a b (.own w.ty :: s) (.own w.ty :: s)
  | compare {a b : Nat} {c : Comparison} {w : Width} {t : Ty} {s : Shape} (scalar : t.isHeap = false)
    (size : t.size = w.size) :
    Moves v k frame (.word (.compare c) w) a b (.own t :: .own t :: s) (.own .bool :: s)
  | arith {a b : Nat} {op : Arith} {w : Width} {s : Shape} :
    Moves v k frame (.word (.arith op) w) a b (.own w.ty :: .own w.ty :: s) (.own w.ty :: s)
  | execute {a b : Nat} {ps : List Ty} {r : Ty} {s : Shape} (settled : s.Settled) :
    Moves v k frame .execute a b (.own (.function ps r) :: (Shape.ofTys ps ++ s)) (Shape.ofTy r ++ s)
  | invoke {a b : Nat} {t : Ty} {s : Shape} (type : (v.library.get k).types[a]? = some t) (settled : s.Settled) :
    Moves v k frame .invoke a b (Shape.ofTy t ++ s) s
  | loadStatic {a b : Nat} {x : Value} {s : Shape} (value : (v.library.get k).values[a]? = some x) :
    Moves v k frame .loadStatic a b s (Shape.ofTy x.ty ++ s)
  | loadFunction {a b : Nat} {ps : List Ty} {r : Ty} {s : Shape} (callee : v.Callee k ⟨k, a⟩ ps r) :
    Moves v k frame .loadFunction a b s (.own (.function ps r) :: s)
  | makeClosure {a b : Nat} {f : Function} {ps : List Ty} {r : Ty} {s : Shape}
    (function : v.library.function? ⟨k, a⟩ = some f)
    (callee : v.Callee k ⟨k, a⟩ (f.signature.closureTypes ++ ps) r) :
    Moves v k frame .makeClosure a b (Shape.ofTys f.signature.closureTypes ++ s) (.own (.function ps r) :: s)
  | incRef {a b : Nat} {t : Ty} {s u : Shape} (offset : s.size = a) :
    Moves v k frame .incRef a b (s ++ .lent t :: u) (s ++ .own t :: u)
  | decRef {a b : Nat} {t : Ty} {s u : Shape} (offset : s.size = a) (heap : t.isHeap)
    (settled : (s ++ u).Settled) :
    Moves v k frame .decRef a b (s ++ .own t :: u) (s ++ .spent :: u)
  | call {op : Opcode} {a b : Nat} {f : FunctionRef} {ts : List Ty} {r : Ty} {s : Shape}
    (calls : v.Calls k op a b f) (callee : v.Callee k f ts r) (settled : s.Settled) :
    Moves v k frame op a b (Shape.ofTys ts ++ s) (Shape.ofTy r ++ s)
  | subscript {a b : Nat} {t : Ty} {s : Shape} (type : (v.library.get k).types[a]? = some t)
    (settled : s.Settled) :
    Moves v k frame .subscript a b (.own (.list t) :: .own .int32 :: s) (Shape.ofTy t ++ s)
  | makeList {a b : Nat} {t : Ty} {s : Shape} (type : (v.library.get k).types[b]? = some t) :
    Moves v k frame .makeList a b (Shape.ofTys (List.replicate a t) ++ s) (.own (.list t) :: s)
  | copyVariable {a b : Nat} {s x u : Shape} (offset : u.size = frame + a) (size : x.size = b)
    (settled : x.Settled) :
    Moves v k frame .copyVariable a b (s ++ x ++ u) (x.map Slot.lend ++ (s ++ x ++ u))
  | copyArgument {a b : Nat} {s x u : Shape} (offset : u.size + (a + b) = frame) (size : x.size = b)
    (settled : x.Settled) :
    Moves v k frame .copyArgument a b (s ++ x ++ u) (x.map Slot.lend ++ (s ++ x ++ u))
  | drop {a b : Nat} {s x u : Shape} (offset : s.size = a) (size : x.size = b) (idle : x.Idle) :
    Moves v k frame .drop a b (s ++ x ++ u) (s ++ u)

end View

/-- The instruction that starts at an address. -/
def Fetches (code : Array UInt8) (pc : Nat) (op : Opcode) (a b : Nat) : Prop :=
  ∃ byte, code[pc]? = some byte ∧ Instruction.read code pc byte = .ofOpcode op a b

/-- Every path from an address leads to the end of the code, and there the stack has the final shape. -/
inductive View.Flow (v : View) (k frame : Nat) (code : Array UInt8) (final : Shape) : Nat → Shape → Prop
  | done {pc : Nat} (end_ : code.size ≤ pc) : Flow v k frame code final pc final
  | step {pc : Nat} {op : Opcode} {a b : Nat} {s u : Shape} (fetch : Fetches code pc op a b)
    (move : v.Moves k frame op a b s u) (next : Flow v k frame code final (pc + op.length) u) :
    Flow v k frame code final pc s
  | jump {pc a b : Nat} {s : Shape} (fetch : Fetches code pc .jump a b)
    (next : Flow v k frame code final (pc + 2 + a) s) : Flow v k frame code final pc s
  | branch {pc a b : Nat} {s : Shape} (fetch : Fetches code pc .jumpIfNot a b)
    (yes : Flow v k frame code final (pc + 2) s) (no : Flow v k frame code final (pc + 2 + a) s) :
    Flow v k frame code final pc (.own .bool :: s)

namespace View

/-- A body keeps to its signature, also when the functions around it have been written. -/
structure BodyFits (v : View) (f : FunctionRef) (g : Function) : Prop where
  code : ∀ bytes, g.body.code? = some bytes → ∀ w, v.Extends f.module w →
    w.Flow f.module (Ty.sizes (Draft.frameTypes g.signature)) bytes (Shape.ofTy g.signature.effectiveResult) 0
      (Shape.ofTys (Draft.frameTypes g.signature))
  native : ∀ n, g.body = .native n → n ≠ .listLength →
    Draft.frameTypes g.signature = n.signature.params ∧ g.signature.effectiveResult = n.signature.result

/-- Every function of a living module keeps to its signature. -/
def Fits (v : View) : Prop :=
  ∀ f g, (v.library.get f.module).alive → v.library.function? f = some g → v.BodyFits f g

end View

end StackScript
