import StackScript.Compile.Program
import StackScript.Proofs.Ageing
import StackScript.Proofs.Forming
import StackScript.Proofs.Naming

/-!
Regimes. What holds of a compilation between two steps, what a step does to it, what a failure leaves, and which types
and names occur on the way: if the actions that change the library keep to a regime, then so does all that is composed of
them.
-/
namespace StackScript

open FreeNames (paramNames)

/-! ### Functions in trees -/

/-- A function declared with this header is as required, if it can be declared at all. -/
def Header.passes (p : Header → Bool) : Except CompileError Header → Bool
  | .ok h => p h
  | .error _ => true

mutual

/-- All functions that are declared by statements inside the expression are as required. -/
def Expr.nests (p : Header → Bool) : Expr → Bool
  | .literal _ _ | .variable _ _ => true
  | .group e _ | .unary _ e _ | .field e _ _ => e.nests p
  | .binary _ a b _ | .index a b _ => a.nests p && b.nests p
  | .call f args _ => f.nests p && Expr.allNest p args
  | .tuple es _ | .list es _ => Expr.allNest p es
  | .lambda _ body _ => body.nests p
  | .block ss value _ => Stmt.allNest p ss && Expr.optionNests p value
  | .cond test yes no _ => test.nests p && yes.nests p && Expr.optionNests p no

def Expr.allNest (p : Header → Bool) : List Expr → Bool
  | [] => true
  | e :: es => e.nests p && Expr.allNest p es

def Expr.optionNests (p : Header → Bool) : Option Expr → Bool
  | none => true
  | some e => e.nests p

def Stmt.nests (p : Header → Bool) : Stmt → Bool
  | .expr e _ => e.nests p
  | .bind name written (.lambda h body _) _ => Header.passes p (h.bindTo name written) && body.nests p
  | .bind _ _ e _ => e.nests p
  | .function h body _ => p h && body.nests p

def Stmt.allNest (p : Header → Bool) : List Stmt → Bool
  | [] => true
  | s :: ss => s.nests p && Stmt.allNest p ss

end

/-- A statement of a program may declare any function of the module. Those inside it are as required. -/
def Stmt.nestsBelow (p : Header → Bool) : Stmt → Bool
  | .function _ e _ | .bind _ _ e _ | .expr e _ => e.nests p

/-- The name that a statement of a program declares in the module. -/
def Stmt.name? : Stmt → Option String
  | .function h _ _ => some h.name
  | .bind name _ _ _ => some name
  | .expr _ _ => none

/-- All functions that are declared inside others, or inside expressions of the program, are as required. -/
def Program.nests (p : Header → Bool) (q : Program) : Bool :=
  q.statements.all (Stmt.nestsBelow p) && Expr.optionNests p q.value

/-! ### Failures -/

/-- A failure that is not about captures, and not one of an instance, which may hide one that is. -/
def CompileError.isPlain (e : CompileError) : Bool :=
  match e.cause with
  | .notCaptured _ | .instantiation _ _ => false
  | _ => true

/-- A failure for which it takes more imports than are addressable. -/
def CompileError.crowds (e : CompileError) : Bool :=
  match e.cause with
  | .tooManyImports _ _ _ => true
  | _ => false

/-- A plain failure for which it takes nothing special. -/
def CompileError.isCommon (e : CompileError) : Bool := e.isPlain && !e.crowds

theorem CompileError.isCommon_iff {e : CompileError} : e.isCommon ↔ e.isPlain ∧ e.crowds = false := by
  rw [isCommon, Bool.and_eq_true_iff, Bool.not_eq_true']

/-- Whatever fails here fails in a common way. -/
def Plainly {α : Type} (r : Except CompileError α) : Prop := ∀ e, r = .error e → e.isCommon

namespace Plainly

variable {α β : Type} {r : Except CompileError α}

theorem ok (a : α) : Plainly (.ok a) := nofun

theorem error {e : CompileError} (h : e.isCommon) : Plainly (.error e : Except CompileError α) := by
  rintro _ ⟨⟩
  exact h

theorem bind {f : α → Except CompileError β} (h : Plainly r) (k : ∀ a, Plainly (f a)) : Plainly (r >>= f) := by
  cases r with
  | ok a => exact k a
  | error e => exact error (h e rfl)

theorem map {f : α → β} (h : Plainly r) : Plainly (r.map f) := by
  cases r with
  | ok a => exact ok _
  | error e => exact error (h e rfl)

theorem mapM {f : α → Except CompileError β} (h : ∀ a, Plainly (f a)) : ∀ as : List α, Plainly (as.mapM f)
  | [] => ok _
  | a :: as => by
    rw [List.mapM_cons]
    exact (h a).bind fun _ => (mapM h as).bind fun _ => ok _

mutual

theorem resolve : ∀ t : TypeExpr, Plainly t.resolve
  | .named name span => by
    unfold TypeExpr.resolve
    split
    · exact ok _
    · exact error rfl
  | .list t _ => by
    unfold TypeExpr.resolve
    exact (resolve t).map
  | .tuple ts _ => by
    unfold TypeExpr.resolve
    exact (resolveAll ts).map
  | .function ps r _ => by
    unfold TypeExpr.resolve
    exact (resolveAll ps).bind fun _ => (resolve r).bind fun _ => ok _

theorem resolveAll : ∀ ts : List TypeExpr, Plainly (TypeExpr.resolveAll ts)
  | [] => by
    unfold TypeExpr.resolveAll
    exact ok _
  | t :: ts => by
    unfold TypeExpr.resolveAll
    exact (resolve t).bind fun _ => (resolveAll ts).bind fun _ => ok _

end

theorem resolve? : ∀ t : Option TypeExpr, Plainly (TypeExpr.resolve? t)
  | none => ok _
  | some t => resolve t

theorem annotated : ∀ t : Option TypeExpr, Plainly (t.mapM TypeExpr.resolve)
  | none => ok _
  | some t => (resolve t).map

theorem signature (h : Header) : Plainly h.signature := by
  unfold Header.signature
  exact (mapM (fun p : Param => resolve? p.type?) _).bind fun _ => (resolve? _).bind fun _ => ok _

theorem signatureAs (h : Header) (expected : Option Ty) : Plainly (h.signatureAs expected) := by
  refine (signature h).bind fun s => ?_
  split
  · dsimp only
    split
    · exact bind (error rfl) fun _ => ok _
    · exact ok _
  · exact ok _

theorem bindTo (h : Header) (name : String) (written : Option TypeExpr) : Plainly (h.bindTo name written) := by
  unfold Header.bindTo
  split
  · exact ok _
  · split
    · exact ok _
    · exact error rfl
  · exact error rfl

theorem refine (name : String) : ∀ (ps ts : List Ty) (spans : List Span), Plainly (Compile.refine name ps ts spans)
  | [], _, _ | _ :: _, [], _ | _ :: _, _ :: _, [] => by
    unfold Compile.refine
    exact ok _
  | p :: ps, t :: ts, span :: spans => by
    unfold Compile.refine
    split
    · exact error rfl
    · split
      · exact error rfl
      · exact (refine name ps ts spans).map

end Plainly

/-! ### Variables -/

/-- A variable is pushed by an instruction that is told where it is and how long. -/
theorem Draft.arity_of_resolve {l : Library} {d : Draft} {name : String} {span : Span} {op : Opcode} {offset : Nat} {t : Ty}
    (h : d.resolve l name span = .ok (.stored op offset t)) : op.arity = 2 := by
  unfold resolve at h
  dsimp only at h
  split at h
  · next found _ =>
    unfold Meaning.ofLookup at h
    cases hs : found.symbol with
    | parameter _ _ t | slot _ t | nonlocal _ _ t =>
      rw [hs] at h
      cases hc : found.crossed with
      | true =>
        rw [hc] at h
        cases h
      | false =>
        rw [hc] at h
        cases h
        rfl
    | function | computed | value =>
      rw [hs] at h
      cases h
  · split at h
    · next meaning hm =>
      cases h
      obtain ⟨id, -, hid⟩ := List.exists_of_findSome?_eq_some hm
      obtain ⟨symbol, -, hsym⟩ := Option.bind_eq_some_iff.1 hid
      cases symbol <;> cases hsym
    · cases h

/-! ### Regimes -/

structure Regime where
  /-- Between two steps. -/
  Holds : Compilation → Prop
  /-- From before a step to after it, where the same function is written on. -/
  Onward : Compilation → Compilation → Prop
  /-- After a failure. -/
  Spoils : CompileError → Compilation → Prop
  /-- The type of a value. -/
  Typed : Ty → Prop
  /-- The code of a function is written. -/
  Inside : Compilation → Prop
  /-- A name may be used where the code is written. -/
  Sees : Compilation → String → Prop
  /-- A function may be used there. -/
  Callable : Compilation → FunctionRef → Prop
  /-- A function may be written that has parameters of some names, lies in a scope, and uses some names. -/
  Ready : Compilation → FunctionRef → List String → Nat → (String → Prop) → Prop
  /-- A function may be declared inside another one. -/
  nested : Header → Bool
  /-- A name may be declared in the module. -/
  Declares : String → Prop

/-- The draft is not that of a function yet. -/
structure Compilation.Resting (c : Compilation) : Prop where
  target : c.draft.target.module = c.module
  scope : c.draft.scope = ScopeTable.root

namespace Regime

variable {R : Regime} {c d : Compilation} {α β : Type} {names names' : String → Prop}

/-- An action keeps to the regime, and gives something. -/
def Keeps (R : Regime) (c : Compilation) (x : Compile α) (post : α → Compilation → Prop) : Prop :=
  R.Holds c → Meets x c (fun a d => R.Holds d ∧ R.Onward c d ∧ post a d) R.Spoils

/-- It need not give anything. -/
def Any (_ : α) (_ : Compilation) : Prop := True

/-- Names may be used in the code of a function. -/
structure Reads (R : Regime) (c : Compilation) (names : String → Prop) : Prop where
  inside : R.Inside c
  sees : ∀ n, names n → R.Sees c n

theorem Reads.sub (h : R.Reads c names) (sub : ∀ n, names' n → names n) : R.Reads c names' :=
  ⟨h.inside, fun n hn => h.sees n (sub n hn)⟩

/-- The body of a function can be compiled wherever the names may be used that it uses. -/
def Embodies (R : Regime) (names : String → Prop) (body : Option Ty → Compile Ty) : Prop :=
  ∀ d t, R.Reads d names → R.Keeps d (body t) fun u _ => R.Typed u

/-- Functions are written whose bodies are not at hand. -/
def Installs (R : Regime) (deferred : Deferred) : Prop :=
  ∀ (c : Compilation) (f : FunctionRef) (decl : FunctionDecl) (scope : Nat),
    R.Ready c f (paramNames decl.header) scope (fun n => decl.body.Uses n) → decl.body.nests R.nested →
      R.Keeps c (deferred f decl scope) Any

/-- What a name means may be used. -/
def Resolved (R : Regime) (c : Compilation) : Except CompileError Meaning → Prop
  | .ok (.stored op _ t) => op.arity = 2 ∧ R.Typed t
  | .ok (.function f) => R.Callable c f
  | .ok _ => True
  | .error e => R.Spoils e c

/-- The types of values. -/
structure Types (P : Ty → Prop) : Prop where
  known : ∀ t : Ty, t.isGeneric = false → P t
  list : ∀ t : Ty, P (.list t)
  tuple : ∀ ts : List Ty, P (.tuple ts) ↔ ∀ t ∈ ts, P t
  function : ∀ (ps : List Ty) (r : Ty), P (.function ps r) ↔ P r
  unify : ∀ a b t : Ty, P a → P b → a.unify? b = some t → P t

/-- A function with a given body is added to the module of the draft. -/
def AddsHere (c : Compilation) (g : Function) (x : Body → Compile Nat) : Prop :=
  ∀ body (d : Compilation), d.draft.target = c.draft.target →
    x body d = Compile.addFunction c.draft.target.module { g with body := body } d

theorem AddsHere.meets {g : Function} {x : Body → Compile Nat} (adds : AddsHere c g x) (target : d.draft.target = c.draft.target)
    (body : Body) {ok : Nat → Compilation → Prop} {bad : CompileError → Compilation → Prop} : Meets (x body) d ok bad ↔
      Meets (Compile.addFunction c.draft.target.module { g with body := body }) d ok bad := by
  unfold Meets
  rw [adds body d target]

/-- What is read and the small changes keep to the regime. -/
structure Basic (R : Regime) : Prop where
  types : Types R.Typed
  refl : ∀ c, R.Holds c → R.Onward c c
  trans : ∀ c d e, R.Onward c d → R.Onward d e → R.Onward c e
  /- What is known goes on being known. -/
  target : ∀ c d, R.Onward c d → d.draft.target = c.draft.target
  rests : ∀ c d, R.Onward c d → c.Resting → d.Resting
  inside : ∀ c d, R.Onward c d → R.Inside c → R.Inside d
  sees : ∀ c d n, R.Onward c d → R.Sees c n → R.Sees d n
  callable : ∀ c d f, R.Onward c d → R.Callable c f → R.Callable d f
  /- Failures. -/
  fails : ∀ c e, R.Holds c → e.isCommon → R.Spoils e c
  miscounts : ∀ c name span (n k : Nat), R.Holds c →
    R.Spoils ⟨.instantiation name ("expected " ++ toString n ++ " arguments, got " ++ toString k), span⟩ c
  releases : ∀ c e h, R.Holds c → e.isCommon → c.heap.Ages 1 h → R.Spoils e { c with heap := h }
  /- What is read. -/
  resolve : ∀ c name span, R.Holds c → R.Sees c name → R.Resolved c (c.draft.resolve c.library name span)
  captured : ∀ c f (g : Function) n, R.Holds c → R.Callable c f → c.library.function? f = some g → n ∈ g.captures → R.Sees c n
  result : ∀ c f g, R.Holds c → c.library.function? f = some g → R.Typed g.signature.effectiveResult
  value : ∀ c (id i : Nat) (v : Value), R.Holds c → (c.library.get id).values[i]? = some v → R.Typed v.ty
  /- What is changed. -/
  write : ∀ c code depth, R.Holds c → c.draft.code.Continues code →
    R.Holds { c with draft := { c.draft with code := code, depth := depth } } ∧
      R.Onward c { c with draft := { c.draft with code := code, depth := depth } }
  heap : ∀ c h, R.Holds c → c.heap.Ages 0 h → R.Holds { c with heap := h } ∧ R.Onward c { c with heap := h }
  store : ∀ c id m types (values : Array Value), R.Holds c → c.library.modules[id]? = some m →
    (∀ v : Value, v ∈ values → v ∈ m.values ∨ R.Typed v.ty) →
    R.Holds { c with library := c.library.put id { m with types := types, values := values } } ∧
      R.Onward c { c with library := c.library.put id { m with types := types, values := values } }

/-- The actions that everything is composed of keep to the regime. -/
structure Lawful (R : Regime) : Prop extends Basic R where
  slot : ∀ c name offset t, R.Inside c → R.Typed t →
    R.Keeps c (Compile.bindIn c.draft.target.module c.draft.scope name (.slot offset t)) fun _ d => R.Sees d name
  block : ∀ (c : Compilation) {α : Type} (x : Compile α) (post : α → Prop), R.Inside c →
    (∀ d, R.Inside d → (∀ n, R.Sees c n → R.Sees d n) → R.Keeps d x fun a _ => post a) →
    R.Keeps c (Compile.inBlock x) fun a _ => post a
  call : ∀ c f span, R.Keeps c (Compile.emitCall f span) Any
  forward : ∀ c f (g g' : Function) span add, c.library.function? f = some g → g'.captures = g.captures →
    g'.signature.nonlocals = g.signature.nonlocals → (g'.signature.result = g.signature.result ∨ R.Typed g'.signature.result) →
    AddsHere c g' add → R.Keeps c (Compile.forwardingBody f span >>= add) Any
  /- Functions that are written. -/
  function : ∀ c f params scope names span bodySpan body, R.Ready c f params scope names → R.Embodies names body →
    R.Keeps c (Compile.writeFunction f params scope span bodySpan body) Any
  pending : ∀ (c : Compilation) i (decl : FunctionDecl), R.Holds c → c.pending.lookup i = some decl →
    let d : Compilation := { c with pending := c.pending.filter fun p => p.1 ≠ i }
    R.Holds d ∧ R.Onward c d ∧ decl.body.nests R.nested ∧
      R.Ready d ⟨c.module, i⟩ (paramNames decl.header) ScopeTable.root fun n => decl.body.Uses n
  generic : ∀ deferred c f ts span, R.Installs deferred → R.Callable c f → Ty.anyGeneric ts = false →
    R.Keeps c (Compile.instantiate deferred f ts span) fun i d => R.Callable d ⟨f.module, i⟩
  /- Functions inside functions. -/
  declared : ∀ c (decl : FunctionDecl) s body, decl.header.signature = .ok s → R.nested decl.header → decl.body.nests R.nested →
    R.Reads c (fun n => n ∈ decl.freeNames ∧ n ≠ decl.header.name) → R.Embodies (fun n => decl.body.Uses n) body →
    R.Keeps c (Compile.declareNested decl s body) fun _ d => R.Sees d decl.header.name
  lambda : ∀ c (decl : FunctionDecl) (s : Signature) body, s.isGeneric = false → (s.result = .unknown ∨ R.Typed s.result) →
    s.params.length = decl.header.params.length → R.Reads c (fun n => n ∈ decl.freeNames) →
    R.Embodies (fun n => decl.body.Uses n) body →
    R.Keeps c (Compile.declareNested decl s body) fun i d => R.Callable d ⟨c.draft.target.module, i⟩
  /- Declarations of the module. -/
  global : ∀ (c : Compilation) (decl : FunctionDecl), c.Resting → decl.body.nests R.nested → R.Declares decl.header.name →
    R.Keeps c (Compile.declareFunction decl) Any
  computed : ∀ (c : Compilation) (name : String) (written : Option TypeExpr) (init : Expr) (span : Span), c.Resting →
    init.nests R.nested → R.Declares name → R.Keeps c (Compile.declareComputed name written init span) Any
  static : ∀ (c : Compilation) (name : String) (i : Nat), c.Resting → R.Declares name →
    R.Keeps c (Compile.bindIn c.module ScopeTable.root name (.value i)) Any
  main : ∀ c : Compilation, R.Keeps c (Compile.addFunction c.module { name := "main", signature := {} }) fun i d =>
    R.Ready d ⟨c.module, i⟩ [] ScopeTable.root fun _ => True

instance : Coe R.Lawful R.Basic := ⟨Lawful.toBasic⟩

theorem Reads.later (L : R.Basic) (h : R.Reads c names) (on : R.Onward c d) : R.Reads d names :=
  ⟨L.inside c d on h.inside, fun n hn => L.sees c d n on (h.sees n hn)⟩

namespace Keeps

variable (L : R.Basic) {x : Compile α} {post : α → Compilation → Prop} {post' : β → Compilation → Prop} {span : Span}
  {t : Ty}

/-! ### Ways to combine actions -/

theorem imp {post' : α → Compilation → Prop} (h : R.Keeps c x post) (k : ∀ a d, post a d → post' a d) : R.Keeps c x post' :=
  fun hc => (h hc).imp (fun a d hd => ⟨hd.1, hd.2.1, k a d hd.2.2⟩) fun _ _ h => h

theorem forget (h : R.Keeps c x post) : R.Keeps c x Any := h.imp fun _ _ _ => trivial

include L

theorem pure {a : α} (h : post a c) : R.Keeps c (Pure.pure a) post := fun hc => ⟨hc, L.refl c hc, h⟩

theorem done (a : α) : R.Keeps c (Pure.pure a : Compile α) Any := pure L trivial

theorem throw {e : CompileError} (h : e.isCommon) : R.Keeps c (MonadExcept.throw e : Compile α) post :=
  fun hc => L.fails c e hc h

theorem fail {cause : CompileError.Cause} (h : (⟨cause, span⟩ : CompileError).isCommon) :
    R.Keeps c (Compile.fail cause span : Compile α) post := throw L h

/-- Nothing follows a failure. -/
theorem throwing {e : CompileError} (h : e.isCommon) {y : α → Compile β} :
    R.Keeps c (MonadExcept.throw e >>= y) post' := fun hc => meets_bind.2 (L.fails c e hc h)

theorem failing {cause : CompileError.Cause} (h : (⟨cause, span⟩ : CompileError).isCommon) {y : α → Compile β} :
    R.Keeps c (Compile.fail cause span >>= y) post' := throwing L h

theorem lift {y : α → Compile β} {r : Except CompileError α} (plainly : Plainly r)
    (hy : ∀ a, r = .ok a → R.Keeps c (y a) post') : R.Keeps c (Compile.lift r >>= y) post' := fun hc => by
  refine meets_bind.2 ?_
  cases r with
  | ok a => exact hy a rfl hc
  | error e => exact L.fails c e hc (plainly e rfl)

theorem bind {y : α → Compile β} (hx : R.Keeps c x post) (hy : ∀ a d, R.Onward c d → post a d → R.Keeps d (y a) post') :
    R.Keeps c (x >>= y) post' := fun hc => (hx hc).seq fun a d hd => by
  obtain ⟨hd, on, ha⟩ := hd
  exact (hy a d on ha hd).imp (fun _ e he => ⟨he.1, L.trans c d e on he.2.1, he.2.2⟩) fun _ _ h => h

theorem seq {y : α → Compile β} (hx : R.Keeps c x post) (hy : ∀ a d, R.Onward c d → R.Keeps d (y a) post') :
    R.Keeps c (x >>= y) post' := bind L hx fun a d on _ => hy a d on

omit L in
theorem get {y : Compilation → Compile β} (hy : R.Keeps c (y c) post') : R.Keeps c (MonadState.get >>= y) post' := hy

omit L in
theorem getDraft {y : Draft → Compile β} (hy : R.Keeps c (y c.draft) post') : R.Keeps c (Compile.getDraft >>= y) post' := hy

omit L in
theorem here {y : Nat → Compile β} (hy : R.Keeps c (y c.draft.target.module) post') : R.Keeps c (Compile.here >>= y) post' := hy

omit L in
theorem getModule {y : Module → Compile β} {id : Nat} (hy : R.Keeps c (y (c.library.get id)) post') :
    R.Keeps c (Compile.getModule id >>= y) post' := hy

omit L in
theorem hint? {y : Option Ty → Compile β} {e : Expr} (hy : ∀ t, R.Keeps c (y t) post') :
    R.Keeps c (Compile.hint? e >>= y) post' := hy _

theorem getFunction {y : Function → Compile β} {f : FunctionRef}
    (hy : ∀ g, c.library.function? f = some g → R.Keeps c (y g) post') :
    R.Keeps c (Compile.getFunction f span >>= y) post' := fun hc => by
  cases hg : c.library.function? f with
  | some g => exact meets_bind.2 ((Compilation.meets_getFunction hg).2 (hy g hg hc))
  | none =>
    unfold Compile.getFunction
    simp only [meets_bind, meets_get, hg]
    exact L.fails c _ hc rfl

theorem guarded {p : Prop} [Decidable p] {y : PUnit → Compile α} {cause : CompileError.Cause}
    (h : (⟨cause, span⟩ : CompileError).isCommon) (hy : ¬p → R.Keeps c (y ⟨⟩) post) :
    R.Keeps c (if p then Compile.fail cause span >>= y else y ⟨⟩) post := by
  split
  · exact failing L h
  · next hp => exact hy hp

/-- The items of a loop are handled one by one, and what is known of the state at its begin is known at each. -/
theorem forM {y : α → Compile PUnit} {k : Compilation → Prop} (mono : ∀ d e, R.Onward d e → k d → k e) :
    ∀ (as : List α) {c : Compilation}, k c → (∀ a ∈ as, ∀ d, k d → R.Keeps d (y a) Any) →
      R.Keeps c (as.forM y) Any
  | [], _, _, _ => done L _
  | a :: as, c, hc, hy =>
    seq L (hy a (.head _) c hc) fun _ d on => forM mono as (mono c d on hc) fun b hb => hy b (.tail _ hb)

theorem loop {y : α → Compile PUnit} (hy : ∀ a d, R.Keeps d (y a) Any) (as : List α) : R.Keeps c (as.forM y) Any :=
  forM L (k := fun _ => True) (fun _ _ _ _ => trivial) as trivial fun a _ d _ => hy a d

/-! ### Code -/

theorem modifyDraft {y : Draft → Draft} (same : ∀ d, y d = { d with code := (y d).code, depth := (y d).depth })
    (on : ∀ d : Draft, d.code.Continues (y d).code) : R.Keeps c (Compile.modifyDraft y) Any := fun hc => by
  obtain ⟨holds, onward⟩ := L.write c (y c.draft).code (y c.draft).depth hc (on _)
  rw [← same] at holds onward
  exact ⟨holds, onward, trivial⟩

theorem setDepth (n : Nat) : R.Keeps c (Compile.setDepth n) Any := modifyDraft L (fun _ => rfl) fun _ => .refl _

theorem sink (n : Nat) : R.Keeps c (Compile.sink n) Any := modifyDraft L (fun _ => rfl) fun _ => .refl _

theorem onCode {y : Code → Code} (on : ∀ code : Code, code.Continues (y code)) : R.Keeps c (Compile.onCode y) Any :=
  modifyDraft L (fun _ => rfl) fun d => on d.code

section

variable {op : Opcode}

theorem emit (hop : op.arity = 0) : R.Keeps c (Compile.emit op) Any := onCode L fun code => code.continues_opcode hop

theorem operand (op : Opcode) (n : Nat) (span : Span) : R.Keeps c (Compile.operand op n span) Any := by
  unfold Compile.operand
  split
  · exact done L _
  · exact fail L rfl

theorem emit1 (hop : op.arity = 1) (hj : op.isJump = false) (a : Nat) (span : Span) :
    R.Keeps c (Compile.emit1 op a span) Any :=
  seq L (operand L op a span) fun a _ _ => onCode L fun code => code.continues_opcode1 a hop hj

theorem emit2 (hop : op.arity = 2) (a b : Nat) (span : Span) : R.Keeps c (Compile.emit2 op a b span) Any :=
  seq L (operand L op a span) fun a _ _ => seq L (operand L op b span) fun b _ _ => onCode L fun code =>
    code.continues_opcode2 a b hop

theorem jump (hj : op.isJump) : R.Keeps c (Compile.jump op) Any := fun hc => by
  obtain ⟨holds, on⟩ := L.write c (c.draft.code.jump op).1 c.draft.depth hc (c.draft.code.continues_jump hj)
  exact ⟨holds, on, trivial⟩

end

theorem bindLabel (n : Nat) : R.Keeps c (Compile.bindLabel n) Any := onCode L fun code => code.continues_bind n

theorem releaseAt (distances : List Nat) (span : Span) : R.Keeps c (Compile.releaseAt distances span) Any :=
  loop L (fun n _ => emit1 L rfl rfl n span) distances

theorem retain (t : Ty) (span : Span) : R.Keeps c (Compile.retain t span) Any :=
  loop L (fun n _ => emit1 L rfl rfl n span) t.distances

theorem discard (t : Ty) (span : Span) : R.Keeps c (Compile.discard t span) Any := by
  refine seq L (releaseAt L _ span) fun _ _ _ => ?_
  split
  · exact seq L (emit2 L rfl _ _ _) fun _ _ _ => sink L _
  · exact sink L _

theorem leaving {x : Compile Ty} (hx : R.Keeps c x fun t _ => R.Typed t) :
    R.Keeps c (Compile.leaving x) fun t _ => R.Typed t :=
  getDraft (bind L hx fun _ _ _ ht => seq L (setDepth L _) fun _ _ _ => pure L ht)

/-! ### The library -/

theorem onHeap {y : Heap → Heap × α} {p : α → Prop} (ages : ∀ heap : Heap, heap.Ages 0 (y heap).1) (h : ∀ heap, p (y heap).2) :
    R.Keeps c (Compile.onHeap y) fun a _ => p a := fun hc => by
  obtain ⟨holds, on⟩ := L.heap c (y c.heap).1 hc (ages c.heap)
  exact ⟨holds, on, h c.heap⟩

/-- What is given up before a failure. -/
theorem releasing {γ : Type} {y : Heap → Heap × γ} {cause : CompileError.Cause} (ages : ∀ heap : Heap, heap.Ages 1 (y heap).1)
    (h : (⟨cause, span⟩ : CompileError).isCommon) {k : α → Compile β} :
    R.Keeps c (Compile.onHeap y >>= fun _ => Compile.fail cause span >>= k) post' := fun hc =>
  L.releases c _ _ hc h (ages c.heap)

theorem onModule [Inhabited α] {y : Module → Module × α} {id : Nat}
    (same : ∀ m, (y m).1 = { m with types := (y m).1.types, values := (y m).1.values })
    (values : ∀ m, ∀ v ∈ (y m).1.values, v ∈ m.values ∨ R.Typed v.ty) : R.Keeps c (Compile.onModule id y) Any := fun hc => by
  cases hm : c.library.modules[id]? with
  | none =>
    unfold Compile.onModule Meets Library.update
    simp only [hm]
    exact ⟨hc, L.refl c hc, trivial⟩
  | some m =>
    obtain ⟨holds, on⟩ := L.store c id m (y m).1.types (y m).1.values hc hm (values m)
    rw [← same] at holds on
    exact (Compilation.meets_onModule hm).2 ⟨holds, on, trivial⟩

theorem addValue {v : Value} (hv : R.Typed v.ty) (id : Nat) : R.Keeps c (Compile.addValue id v) Any :=
  onModule L (fun _ => rfl) fun _ _ hu => (Array.mem_push.1 hu).imp_right (by rintro rfl; exact hv)

theorem internValue {v : Value} (hv : R.Typed v.ty) (id : Nat) :
    R.Keeps c (Compile.onModule id fun m => m.internValue v) Any := by
  refine onModule L (fun m => ?_) fun m u hu => ?_
  · unfold Module.internValue
    split <;> rfl
  · unfold Module.internValue at hu
    split at hu
    · exact .inl hu
    · exact (Array.mem_push.1 hu).imp_right (by rintro rfl; exact hv)

theorem typeOperand (t : Ty) : R.Keeps c (Compile.typeOperand t) Any := here <| by
  refine onModule L (fun m => ?_) fun m v hv => .inl ?_
  · unfold Module.addType
    split <;> rfl
  · unfold Module.addType at hv
    split at hv <;> exact hv

theorem resolve {y : Meaning → Compile β} {name : String} (hs : R.Sees c name)
    (hy : ∀ meaning, R.Resolved c (.ok meaning) → R.Keeps c (y meaning) post') :
    R.Keeps c (Compile.resolve name span >>= y) post' := fun hc => by
  have resolved := L.resolve c name span hc hs
  refine meets_bind.2 (meets_bind.2 (meets_get.2 ?_))
  unfold Compile.lift Meets
  cases hr : c.draft.resolve c.library name span with
  | ok meaning => exact hy meaning (hr ▸ resolved) hc
  | error e => exact (hr ▸ resolved : R.Resolved c (.error e))

theorem callResult {y : Ty → Compile β} {f : FunctionRef} (hy : ∀ t, R.Typed t → R.Keeps c (y t) post') :
    R.Keeps c (Compile.callResult f span >>= y) post' := fun hc => by
  refine meets_bind.2 ((getFunction L (fun g hg => get ?_) hc : Meets (Compile.callResult f span) c
    (fun t d => R.Holds d ∧ R.Onward c d ∧ d = c ∧ R.Typed t) R.Spoils).imp (fun t d hd => ?_) fun _ _ h => h)
  · exact guarded L rfl fun _ => pure L ⟨rfl, L.result c f g hc hg⟩
  · obtain ⟨holds, -, rfl, typed⟩ := hd
    exact hy t typed holds

/-! ### Calls -/

section

variable (imports : ∀ (c : Compilation) (id : Nat),
  R.Keeps c (Compile.onModule c.draft.target.module fun m => m.importVisible id) Any)
  (crowded : ∀ c e, R.Holds c → e.isPlain → R.Spoils e c)
include imports crowded

theorem importIndex (id : Nat) (span : Span) : R.Keeps c (Compile.importIndex id span) Any :=
  here (get (seq L (imports c id) fun i? d _ => by
    split
    · exact fail L rfl
    · split
      · exact done L _
      · exact fun hd => crowded d _ hd rfl))

/-- Nothing is known of the instruction that a fragment is. -/
theorem emitCall (fragments : ∀ (c : Compilation) (op : Opcode), R.Keeps c (Compile.emit op) Any) (f : FunctionRef)
    (span : Span) : R.Keeps c (Compile.emitCall f span) Any := by
  refine getFunction L fun g _ => ?_
  split
  · exact fragments c _
  · refine here ?_
    split
    · exact emit1 L rfl rfl _ _
    · refine seq L (importIndex L imports crowded f.module span) fun i _ _ => ?_
      split
      · exact emit1 L rfl rfl _ _
      · exact emit2 L rfl _ _ _

omit imports crowded in
/-- What passes a call on may be added after it was made. -/
theorem forward {f : FunctionRef} {g : Function} {add : Body → Compile Nat} (adds : AddsHere c g add)
    (h : R.Keeps c (Compile.forwardingBody f span) fun body d =>
      R.Keeps d (Compile.addFunction c.draft.target.module { g with body := body }) Any) :
    R.Keeps c (Compile.forwardingBody f span >>= add) Any :=
  bind L h fun body d on hd holds => (adds.meets (L.target c d on) body).2 (hd holds)

/-- What passes a call on is code, or a native function. -/
theorem forwardingBody (f : FunctionRef) (span : Span) :
    R.Keeps c (Compile.forwardingBody f span) fun body _ => body.isGeneric = false := by
  have code : R.Keeps c (Compile.forwardingCode f span >>= fun bytes => Pure.pure (Body.code bytes))
      fun body _ => body.isGeneric = false := by
    refine seq L (?_ : R.Keeps c _ Any) fun _ _ _ => pure L rfl
    unfold Compile.forwardingCode
    refine guarded L rfl fun _ => here ?_
    split
    · exact done L _
    · refine seq L (importIndex L imports crowded f.module span) fun i _ _ => ?_
      split <;> exact done L _
  refine getFunction L fun g _ => ?_
  split
  · exact pure L rfl
  · exact pure L rfl
  · refine here (get ?_)
    split
    · exact pure L rfl
    · exact code
  · exact code

end

end Keeps

end Regime

end StackScript
