import StackScript.Proofs.Complying
import StackScript.Proofs.Sessions
import StackScript.Proofs.Wording

/-!
What compiling a program spares. No cell is freed, unless the program fails for it, and modules go on without the names that
the program does not declare.
-/
namespace StackScript

open FreeNames (paramNames)

/-- A compilation that has freed nothing, and has given no meaning to some names. -/
structure Compilation.Spared (l : Library) (h : Heap) (declared : String → Prop) (c : Compilation) : Prop where
  heap : h.Ages 0 c.heap
  here : ∃ m, c.library.modules[c.draft.target.module]? = some m
  rooted : ∀ (id : Nat) (m : Module), c.library.modules[id]? = some m → 0 < m.scopes.size
  names : ∀ (id : Nat) (n : String), ¬ declared n → (c.library.get id).lookup? n = (l.get id).lookup? n

/-- A compilation that goes on with the same function and the same modules. -/
structure Compilation.Continues (c d : Compilation) : Prop where
  target : d.draft.target = c.draft.target
  scope : d.draft.scope = c.draft.scope
  module : d.module = c.module
  count : d.library.modules.size = c.library.modules.size

theorem Compilation.Continues.refl (c : Compilation) : c.Continues c := ⟨rfl, rfl, rfl, rfl⟩

theorem Compilation.Continues.trans {c d e : Compilation} (h : c.Continues d) (k : d.Continues e) : c.Continues e :=
  ⟨k.target.trans h.target, k.scope.trans h.scope, k.module.trans h.module, k.count.trans h.count⟩

def Regime.sparing (l : Library) (h : Heap) (declared : String → Prop) : Regime where
  Holds := Compilation.Spared l h declared
  Onward := Compilation.Continues
  Spoils _ c := h.Ages 1 c.heap
  Typed _ := True
  Inside c := c.draft.scope ≠ ScopeTable.root
  Sees _ _ := True
  Callable _ _ := True
  Ready _ _ _ _ _ := True
  nested := Header.isAdmitted false
  Declares := declared

namespace Regime.Sparing

variable {l : Library} {h : Heap} {declared : String → Prop} {c d : Compilation} {f : FunctionRef} {g : Function}
  {m n : Module} {name : String} {span : Span} {id : Nat} {t : Ty} {params : List String} {scope : Nat} {α : Type}

/-! ### Changes of one module -/

/-- A change of a module that gives no meaning to a name. -/
structure Mild (declared : String → Prop) (m n : Module) : Prop where
  rooted : m.scopes.size ≤ n.scopes.size
  names : ∀ name, ¬ declared name → n.lookup? name = m.lookup? name

theorem mild_of_eq (e : n.scopes = m.scopes) : Mild declared m n :=
  ⟨Nat.le_of_eq (congrArg _ e.symm), fun name _ => by rw [Module.lookup?, Module.lookup?, e]⟩

theorem mild_addScope (m : Module) (parent : Nat) (kind : ScopeKind) (label : String) :
    Mild declared m { m with scopes := (m.scopes.add parent kind label).1 } :=
  ⟨by simp, fun name _ => ScopeTable.get?_add m.scopes parent kind label ScopeTable.root name⟩

/-- A name is bound in another scope than that of the module, or may be declared. -/
theorem mild_bind (m : Module) (symbol : Symbol) (free : scope ≠ ScopeTable.root ∨ declared name) :
    Mild declared m { m with scopes := m.scopes.bind scope name symbol } :=
  ⟨by simp, fun other undeclared => ScopeTable.get?_bind_ne
    (free.imp Ne.symm fun known (e : other = name) => undeclared (by rwa [e])) symbol⟩

theorem put (hc : c.Spared l h declared) (hm : c.library.modules[id]? = some m) (mild : Mild declared m n) :
    ({ c with library := c.library.put id n } : Compilation).Spared l h declared ∧
      c.Continues { c with library := c.library.put id n } := by
  refine ⟨⟨hc.heap, ?_, fun j p hp => ?_, fun j name undeclared => ?_⟩, rfl, rfl, rfl, Library.size_put⟩
  · obtain ⟨p, hp⟩ := hc.here
    have inside : c.draft.target.module < (c.library.put id n).modules.size := by
      rw [Library.size_put]
      exact (Array.getElem?_eq_some_iff.1 hp).1
    exact ⟨_, Array.getElem?_eq_getElem inside⟩
  · rcases Library.modules_put hm hp with ⟨rfl, rfl⟩ | ⟨-, hp⟩
    · exact Nat.lt_of_lt_of_le (hc.rooted id m hm) mild.rooted
    · exact hc.rooted j p hp
  · by_cases e : id = j
    · subst e
      rw [Library.get_put_self hm, mild.names name undeclared, ← Library.get_eq hm]
      exact hc.names id name undeclared
    · rw [Library.get_put_ne e]
      exact hc.names j name undeclared

theorem onModule [Inhabited α] {y : Module → Module × α} (mild : ∀ m, Mild declared m (y m).1) (id : Nat) :
    (Regime.sparing l h declared).Keeps c (Compile.onModule id y) Any := fun hc => by
  cases hm : c.library.modules[id]? with
  | none =>
    unfold Compile.onModule Meets Library.update
    simp only [hm]
    exact ⟨hc, .refl c, trivial⟩
  | some m =>
    obtain ⟨hd, on⟩ := put hc hm (mild m)
    exact (Compilation.meets_onModule hm).2 ⟨hd, on, trivial⟩

theorem addFunction (g : Function) (id : Nat) : (Regime.sparing l h declared).Keeps c (Compile.addFunction id g) Any :=
  onModule (fun _ => mild_of_eq rfl) id

theorem bindIn (free : scope ≠ ScopeTable.root ∨ declared name) (id : Nat) (symbol : Symbol) :
    (Regime.sparing l h declared).Keeps c (Compile.bindIn id scope name symbol) Any :=
  onModule (fun m => mild_bind m symbol free) id

theorem importVisible (c : Compilation) (id : Nat) :
    (Regime.sparing l h declared).Keeps c (Compile.onModule c.draft.target.module fun m => m.importVisible id) Any :=
  onModule (fun m => by
    obtain ⟨-, ⟨imports, e, -⟩, -⟩ := m.importVisible_spec id
    exact mild_of_eq (by rw [e])) _

theorem fragment (c : Compilation) (op : Opcode) : (Regime.sparing l h declared).Keeps c (Compile.emit op) Any := fun hc =>
  ⟨⟨hc.heap, hc.here, hc.rooted, hc.names⟩, ⟨rfl, rfl, rfl, rfl⟩, trivial⟩

theorem spoiled (c : Compilation) (e : CompileError) (hc : (Regime.sparing l h declared).Holds c) (_ : e.isPlain) :
    (Regime.sparing l h declared).Spoils e c := hc.heap.most (Nat.zero_le 1)

theorem basic (l : Library) (h : Heap) (declared : String → Prop) : (Regime.sparing l h declared).Basic where
  types := ⟨fun _ _ => trivial, fun _ => trivial, fun _ => ⟨fun _ _ _ => trivial, fun _ => trivial⟩,
    fun _ _ => Iff.rfl, fun _ _ _ _ _ _ => trivial⟩
  refl c _ := .refl c
  trans _ _ _ on on' := on.trans on'
  target _ _ on := on.target
  rests c d on rests := ⟨by rw [on.target, on.module, rests.target], by rw [on.scope, rests.scope]⟩
  inside c d on inside := fun root => inside (on.scope ▸ root)
  sees _ _ _ _ _ := trivial
  callable _ _ _ _ _ := trivial
  fails _ _ hc _ := hc.heap.most (Nat.zero_le 1)
  miscounts _ _ _ _ _ hc := hc.heap.most (Nat.zero_le 1)
  releases _ _ _ hc _ ages := (hc.heap.trans ages).most (Nat.le_refl 1)
  resolve c name span hc _ := by
    unfold Resolved
    split
    · next resolved => exact ⟨Draft.arity_of_resolve resolved, trivial⟩
    · trivial
    · trivial
    · exact hc.heap.most (Nat.zero_le 1)
  captured _ _ _ _ _ _ _ _ := trivial
  result _ _ _ _ _ := trivial
  value _ _ _ _ _ _ := trivial
  write _ _ _ hc _ := ⟨⟨hc.heap, hc.here, hc.rooted, hc.names⟩, rfl, rfl, rfl, rfl⟩
  heap _ _ hc ages := ⟨⟨(hc.heap.trans ages).most (Nat.le_refl 0), hc.here, hc.rooted, hc.names⟩, rfl, rfl, rfl, rfl⟩
  store _ _ _ _ _ hc hm _ := put hc hm (mild_of_eq rfl)

/-! ### Functions -/

/-- The draft of a function waits while something is written in a scope of its own. -/
theorem resume (hc : c.Spared l h declared) (hd : d.Spared l h declared) (module : d.module = c.module)
    (count : d.library.modules.size = c.library.modules.size) (draft : Draft) (target : draft.target = c.draft.target)
    (scope : draft.scope = c.draft.scope) :
    ({ d with draft := draft } : Compilation).Spared l h declared ∧ c.Continues { d with draft := draft } := by
  refine ⟨⟨hd.heap, ?_, hd.rooted, hd.names⟩, target, scope, module, count⟩
  obtain ⟨m, hm⟩ := hc.here
  have inside : c.draft.target.module < d.library.modules.size := count ▸ (Array.getElem?_eq_some_iff.1 hm).1
  exact ⟨_, (congrArg (fun f : FunctionRef => d.library.modules[f.module]?) target).trans (Array.getElem?_eq_getElem inside)⟩

theorem block {x : Compile α} {post : α → Prop}
    (hx : ∀ d : Compilation, d.draft.scope ≠ ScopeTable.root → (Regime.sparing l h declared).Keeps d x fun a _ => post a) :
    (Regime.sparing l h declared).Keeps c (Compile.inBlock x) fun a _ => post a := fun hc => by
  obtain ⟨m, hm⟩ := hc.here
  obtain ⟨hd, on⟩ := put hc hm (mild_addScope m c.draft.scope .block "")
  refine meets_bind.2 (Compilation.meets_getDraft.2 (meets_bind.2 ((Compilation.meets_onModule hm).2
    (meets_bind.2 (meets_modify.2 ?_)))))
  refine Meets.seq (hx _ (Nat.ne_of_gt (hc.rooted _ m hm)) ⟨hd.heap, hd.here, hd.rooted, hd.names⟩) fun a e he => ?_
  obtain ⟨he, on', ha⟩ := he
  obtain ⟨hw, on⟩ := resume hc he on'.module (on'.count.trans on.count) { e.draft with scope := c.draft.scope }
    on'.target rfl
  exact meets_bind.2 (meets_modify.2 (meets_pure.2 ⟨hw, on, ha⟩))

/-- The draft of a function that is begun lies in a scope of its own. -/
theorem beginFunction (hc : c.Spared l h declared) :
    Meets (Compile.beginFunction f params scope span) c (fun _ d => d.Spared l h declared ∧ d.draft.scope ≠ ScopeTable.root ∧
      d.module = c.module ∧ d.library.modules.size = c.library.modules.size) fun _ d => h.Ages 1 d.heap := by
  have L := basic l h declared
  cases hg : c.library.function? f with
  | none =>
    unfold Compile.beginFunction Compile.getFunction
    simp only [meets_bind, meets_get, hg]
    exact hc.heap.most (Nat.zero_le 1)
  | some g =>
    obtain ⟨m, hm, -⟩ := Library.exists_module hg
    have own : m.scopes.size ≠ ScopeTable.root := Nat.ne_of_gt (hc.rooted _ m hm)
    obtain ⟨hd, on⟩ := put hc hm (mild_addScope m scope .function g.name)
    refine meets_bind.2 ((Compilation.meets_getFunction hg).2 (meets_bind.2 ((Compilation.meets_onModule hm).2 ?_)))
    refine (Keeps.loop L (fun p d => bindIn (.inl own) f.module p.2) _ hd).seq fun _ e he => meets_modify.2 ?_
    obtain ⟨he, on', -⟩ := he
    have inside : f.module < e.library.modules.size := by
      rw [on'.count, on.count]
      exact (Array.getElem?_eq_some_iff.1 hm).1
    exact ⟨⟨he.heap, ⟨_, Array.getElem?_eq_getElem inside⟩, he.rooted, he.names⟩, own, on'.module, on'.count.trans on.count⟩

theorem endFunction (t : Ty) (span : Span) : (Regime.sparing l h declared).Keeps c (Compile.endFunction t span) Any := by
  have L := basic l h declared
  refine Keeps.getDraft ?_
  split
  · exact Keeps.fail L rfl
  · next s _ =>
    have released : (Regime.sparing l h declared).Keeps c (Compile.releaseFrame s t span) Any := by
      refine Keeps.seq L (Keeps.releaseAt L _ _) fun _ _ _ => ?_
      split
      · exact Keeps.emit2 L rfl _ _ _
      · exact Keeps.done L _
    refine Keeps.seq L released fun _ d on => Keeps.getDraft ?_
    generalize d.draft.code.resolve = resolved
    obtain ⟨code, far⟩ := resolved
    cases far with
    | some jump => exact Keeps.failing L rfl
    | none =>
      refine fun hd => meets_bind.2 (meets_modify.2 ((onModule (fun _ => mild_of_eq rfl) _ ?_).imp (fun _ e he => ?_)
        fun _ _ h => h))
      · exact ⟨hd.heap, hd.here, hd.rooted, hd.names⟩
      · exact ⟨he.1, ⟨he.2.1.target, he.2.1.scope, he.2.1.module, he.2.1.count⟩, trivial⟩

/-- A function is written while the draft waits. -/
theorem writeFunction {body : Option Ty → Compile Ty} {bodySpan : Span} {names : String → Prop}
    (hbody : (Regime.sparing l h declared).Embodies names body) :
    (Regime.sparing l h declared).Keeps c (Compile.writeFunction f params scope span bodySpan body) Any := fun hc => by
  refine meets_bind.2 (Compilation.meets_getDraft.2 (meets_bind.2 ((beginFunction hc).imp (fun _ d hd => ?_)
    fun _ _ h => h)))
  obtain ⟨hd, own, module, count⟩ := hd
  refine meets_bind.2 (Compilation.meets_getDraft.2 ((hbody d _ ⟨own, fun _ _ => trivial⟩ hd).seq fun t e he => ?_))
  obtain ⟨he, on, -⟩ := he
  refine (endFunction t bodySpan he).seq fun _ w hw => meets_modify.2 ?_
  obtain ⟨hw, on', -⟩ := hw
  have on := on.trans on'
  obtain ⟨hr, onward⟩ := resume hc hw (on.module.trans module) (on.count.trans count) c.draft rfl rfl
  exact ⟨hr, onward, trivial⟩

/-- What a change of a module leaves is the heap. -/
theorem heap_onModule [Inhabited α] (y : Module → Module × α) (id : Nat) (c : Compilation)
    {bad : CompileError → Compilation → Prop} : Meets (Compile.onModule id y) c (fun _ d => d.heap = c.heap) bad := by
  obtain ⟨library, heap, module, draft, pending, unfinished⟩ := c
  unfold Compile.onModule Meets
  rfl

theorem instantiate {deferred : Deferred} {ts : List Ty} (hw : (Regime.sparing l h declared).Installs deferred) :
    (Regime.sparing l h declared).Keeps c (Compile.instantiate deferred f ts span) Any := by
  have L := basic l h declared
  refine Keeps.getModule ?_
  split
  · exact Keeps.done L _
  · refine Keeps.getFunction L fun g _ => ?_
    split
    · next decl scope _ =>
      refine Keeps.seq L (addFunction _ _) fun i _ _ => Keeps.seq L (onModule (fun _ => mild_of_eq rfl) _) fun _ d _ hd => ?_
      refine meets_bind.2 (meets_tryCatch.2 ((hw d ⟨f.module, i⟩ decl scope trivial decl.body.nests_lenient hd).imp
        (fun _ e he => ?_) fun _ e he => ?_))
      · exact ⟨he.1, he.2.1, trivial⟩
      · refine (heap_onModule _ f.module e).seq fun _ w same => ?_
        change h.Ages 1 w.heap
        rwa [same]
    · exact Keeps.fail L rfl

theorem declareNested {decl : FunctionDecl} {s : Signature} {body : Option Ty → Compile Ty} {names : String → Prop}
    (inside : c.draft.scope ≠ ScopeTable.root) (hbody : (Regime.sparing l h declared).Embodies names body) :
    (Regime.sparing l h declared).Keeps c (Compile.declareNested decl s body) Any := by
  have L := basic l h declared
  have written (i : Nat) (d : Compilation) : (Regime.sparing l h declared).Keeps d (do
      if !s.isGeneric then
        Compile.writeFunction ⟨c.draft.target.module, i⟩ (paramNames decl.header) c.draft.scope decl.header.span
          decl.body.span body
      return i) Any := by
    split
    · exact Keeps.seq L (writeFunction hbody) fun _ _ _ => Keeps.done L i
    · exact Keeps.done L i
  refine Keeps.getDraft (Keeps.getDraft (Keeps.getModule (Keeps.seq L (addFunction _ _) fun i d _ => ?_)))
  dsimp only
  split
  · exact Keeps.seq L (bindIn (.inl inside) _ _) fun _ e _ => written i e
  · exact written i d

/-! ### Declarations of the module -/

/-- A function waits to be written. -/
theorem enqueue (i : Nat) (decl : FunctionDecl) : (Regime.sparing l h declared).Keeps c
    (modify fun c : Compilation => { c with pending := c.pending ++ [(i, decl)] }) Any := fun hc =>
  ⟨⟨hc.heap, hc.here, hc.rooted, hc.names⟩, ⟨rfl, rfl, rfl, rfl⟩, trivial⟩

theorem declareFunction {decl : FunctionDecl} (known : declared decl.header.name) :
    (Regime.sparing l h declared).Keeps c (Compile.declareFunction decl) Any := by
  have L := basic l h declared
  refine Keeps.get (Keeps.lift L (.signature _) fun s _ => Keeps.seq L (addFunction _ _) fun i d _ => ?_)
  have named (e : Compilation) : (Regime.sparing l h declared).Keeps e
      (Compile.bindIn c.module ScopeTable.root decl.header.name (.function i)) Any := bindIn (.inr known) _ _
  split
  · exact Keeps.seq L (enqueue i decl) fun _ e _ => named e
  · exact named d

theorem declareComputed {written : Option TypeExpr} {init : Expr} (known : declared name) :
    (Regime.sparing l h declared).Keeps c (Compile.declareComputed name written init span) Any := by
  have L := basic l h declared
  exact Keeps.get (Keeps.lift L (.resolve? _) fun _ _ => Keeps.seq L (addFunction _ _) fun i _ _ =>
    Keeps.seq L (enqueue i ⟨⟨name, [], written, span⟩, init⟩) fun _ _ _ => bindIn (.inr known) _ _)

/-- Nothing that a program is made of frees a cell or binds a name that is not declared. -/
theorem lawful (l : Library) (h : Heap) (declared : String → Prop) : (Regime.sparing l h declared).Lawful where
  toBasic := basic l h declared
  slot _ _ _ _ inside _ := (bindIn (.inl inside) _ _).imp fun _ _ _ => trivial
  block _ _ _ _ _ hx := block fun d own => hx d own fun _ _ => trivial
  call _ f span := Keeps.emitCall (basic l h declared) importVisible spoiled fragment f span
  forward _ f _ _ span _ _ _ _ _ adds := Keeps.forward (basic l h declared) adds
    ((Keeps.forwardingBody (basic l h declared) importVisible spoiled f span).imp fun _ _ _ => addFunction _ _)
  function _ _ _ _ _ _ _ _ _ hbody := writeFunction hbody
  pending _ _ decl hc _ := ⟨⟨hc.heap, hc.here, hc.rooted, hc.names⟩, ⟨rfl, rfl, rfl, rfl⟩, decl.body.nests_lenient, trivial⟩
  generic _ _ _ _ _ hw _ _ := (instantiate hw).imp fun _ _ _ => trivial
  declared _ _ _ _ _ _ _ reads hbody := (declareNested reads.inside hbody).imp fun _ _ _ => trivial
  lambda _ _ _ _ _ _ _ reads hbody := (declareNested reads.inside hbody).imp fun _ _ _ => trivial
  global _ _ _ _ known := declareFunction known
  computed _ _ _ _ _ _ _ known := declareComputed known
  static _ _ _ _ known := bindIn (.inr known) _ _
  main _ := (addFunction _ _).imp fun _ _ _ => trivial

end Regime.Sparing

/-- A name that a program declares in its module. -/
def Program.Declares (p : Program) (name : String) : Prop := ∃ s ∈ p.statements, s.name? = some name

/-- A program that compiles frees nothing, and gives no meaning to names that it does not declare; one that does not compile
frees no cell twice. -/
theorem Compilation.spared_program {id : Nat} {m : Module} (w : World) (invoke : Bool) (p : Program)
    (hm : w.library.modules[id]? = some m)
    (rooted : ∀ (id : Nat) (m : Module), w.library.modules[id]? = some m → 0 < m.scopes.size) :
    Meets (Compile.program invoke p) (start w id) (fun _ c => c.Spared w.library w.machine.heap p.Declares)
      fun _ c => w.machine.heap.Ages 1 c.heap :=
  (Regime.Keeps.program (Regime.Sparing.lawful w.library w.machine.heap p.Declares) ⟨rfl, rfl⟩ invoke p.nests_lenient
    (fun s hs _ hn => ⟨s, hs, hn⟩) ⟨.refl _, ⟨m, hm⟩, rooted, fun _ _ _ => rfl⟩).imp (fun _ _ hc => hc.1) fun _ _ h => h

end StackScript
