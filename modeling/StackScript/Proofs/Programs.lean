import StackScript.Proofs.Expressions

/-!
Programs. All functions of a program are declared before any is written, so that they wait for a while; when the
program has been compiled, none waits any more.
-/
namespace StackScript

namespace Compilation

variable {o : Surroundings} {k : Nat} {c d : Compilation} {m : Module} {g : Function} {name : String} {symbol : Symbol}
  {decl : FunctionDecl} {deferred : Deferred} {span : Span} {t : Ty} {s : Shape}

/-- A program is being compiled, and none of its functions is being written. -/
structure Outside (o : Surroundings) (k : Nat) (c : Compilation) : Prop where
  good : c.Good o c.Waits
  idle : c.unfinished = []
  module : c.module = k
  here : k < o.count

theorem Outside.failed (hc : c.Outside o k) : c.Failed o := hc.good.failed

theorem Outside.exists_module (hc : c.Outside o k) : ∃ m, c.library.modules[c.module]? = some m ∧ m.alive := by
  have hlt : c.module < c.library.modules.size := by
    rw [hc.good.count, hc.module]
    exact hc.here
  have hm := Array.getElem?_eq_getElem hlt
  have ha := hc.good.alive
  rw [Library.get_eq hm] at ha
  exact ⟨_, hm, ha⟩

/-! ### Declarations -/

theorem Good.queue {i : Nat} (hc : c.Good o fun r => c.Waits r ∨ r = ⟨c.module, i⟩) (hp : c.Pends o (i, decl)) :
    Good o (Waits { c with pending := c.pending ++ [(i, decl)] }) { c with pending := c.pending ++ [(i, decl)] } := by
  refine ⟨hc.consistent.waiting fun r _ _ _ hr => ?_, hc.heap, hc.count, hc.living, fun p hp' => ?_, hc.begun, hc.alive,
    hc.user⟩
  · rcases hr with (⟨hm, p, hp, hi⟩ | hu) | rfl
    · exact .inl ⟨hm, p, List.mem_append_left _ hp, hi⟩
    · exact .inr hu
    · exact .inl ⟨rfl, _, List.mem_append_right _ (List.mem_singleton_self _), rfl⟩
  · rcases List.mem_append.1 hp' with hp' | hp'
    · have old := hc.pending p hp'
      exact ⟨old.plain, old.unbegun, old.living, old.undefined, old.sole⟩
    · obtain rfl := List.mem_singleton.1 hp'
      exact ⟨hp.plain, hp.unbegun, hp.living, hp.undefined, hp.sole⟩

theorem Outside.bindIn {bad : CompileError → Compilation → Prop} (hc : c.Outside o k)
    (hm : c.library.modules[c.module]? = some m) (hb : m.Binds name symbol) (scope : Nat) :
    Meets (Compile.bindIn c.module scope name symbol) c (fun _ d => d.Outside o k) bad := by
  obtain ⟨m', hm', ha⟩ := hc.exists_module
  obtain rfl := Option.some.inj (hm.symm.trans hm')
  exact (meets_onModule hm).2 ⟨hc.good.bind hm ha hc.good.user hb scope, hc.idle, hc.module, hc.here⟩

theorem Outside.fresh (hc : c.Outside o k) (hm : c.library.modules[c.module]? = some m) :
    ¬ o.dead ⟨c.module, m.functions.size⟩ ∧ ∀ i ∈ m.instances, i.function ≠ m.functions.size := by
  have fresh : c.library.function? ⟨c.module, m.functions.size⟩ = none := by
    rw [Library.function?_of_module (f := ⟨c.module, m.functions.size⟩) hm]
    exact Array.getElem?_eq_none (Nat.le_refl _)
  refine ⟨(hc.good.fresh fresh).1, fun i hi e => ?_⟩
  obtain ⟨g, hg, -⟩ := (hc.good.consistent.houses hm hc.good.alive).sane.records i hi
  exact absurd (Array.getElem?_eq_some_iff.1 hg).1 (by omega)

/-- A function is declared that is written later. -/
theorem Outside.enqueue (hc : c.Outside o k) (hm : c.library.modules[c.module]? = some m) (hd : decl.isPlain)
    (hu : g.body = .undefined)
    (law : ∀ (v : View) (waits : FunctionRef → Prop), waits ⟨c.module, m.functions.size⟩ →
      v.Lawful waits ⟨c.module, m.functions.size⟩ g) :
    Outside o k { c with
      library := c.library.put c.module (m.addFunction g).1
      pending := c.pending ++ [(m.functions.size, decl)] } := by
  obtain ⟨m', hm', ha⟩ := hc.exists_module
  obtain rfl := Option.some.inj (hm.symm.trans hm')
  obtain ⟨living, sole⟩ := hc.fresh hm
  have added : (m.addFunction g).1.functions[m.functions.size]? = some g := Array.getElem?_push_size
  have good := hc.good.addFunction (g := g) (fun r => c.Waits r ∨ r = ⟨c.module, m.functions.size⟩) hm ha hc.good.user
    (fun _ h => .inl h) (law _ _ (.inr rfl))
  refine ⟨Good.queue (c := { c with library := c.library.put c.module (m.addFunction g).1 }) good ⟨hd, ?_, living, ⟨g, (Library.function?_put_self hm).trans added, hu⟩, ?_⟩, hc.idle, hc.module,
    hc.here⟩
  · change _ ∉ c.unfinished
    rw [hc.idle]
    exact List.not_mem_nil
  · change ∀ i ∈ ((c.library.put c.module (m.addFunction g).1).get c.module).instances, _
    rw [Library.get_put_self hm]
    exact sole

/-- A function that is declared outside of all others captures nothing. -/
theorem lawful_global {v : View} {waits : FunctionRef → Prop} {f : FunctionRef} {sg : Signature} {label : String}
    {body : Body} (hs : Header.Declares sg)
    (hbody : body = .undefined ∧ waits f ∧ sg.isGeneric = false ∨
      ∃ decl scope, body = .generic decl scope ∧ decl.isPlain ∧ scope < (v.library.get f.module).scopes.size) :
    v.Lawful waits f ⟨label, sg, body, []⟩ := by
  have law : v.Lawful waits f ⟨label, { sg with nonlocals := ([] : List (String × Ty)).map (·.2) }, body, _⟩ :=
    lawful_declared hs nofun hbody
  have e : ({ sg with nonlocals := [] } : Signature) = sg := by rw [← hs.nonlocals]
  rwa [List.map_nil, List.map_nil, e] at law

theorem Outside.declareFunction (hc : c.Outside o k) (hd : decl.isPlain) :
    Meets (Compile.declareFunction decl) c (fun _ d => d.Outside o k) fun _ => Failed o := by
  obtain ⟨m, hm, ha⟩ := hc.exists_module
  have hname := (Header.isPlain_iff.1 (Bool.and_eq_true_iff.1 hd).1).1
  refine meets_bind.2 (meets_get.2 (meets_bind.2 (meets_lift hc.failed fun sg hsg => ?_)))
  obtain ⟨declares, -⟩ := Header.signature_spec hsg
  refine meets_bind.2 ((meets_onModule hm).2 ?_)
  have binds (body : Body) (hb : body ≠ .native .listLength) :
      (m.addFunction ⟨decl.header.name, sg, body, []⟩).1.Binds decl.header.name (.function m.functions.size) :=
    ⟨_, Array.getElem?_push_size, declares.bound, fun h => absurd h hb, fun h => absurd h hname⟩
  cases hgen : sg.isGeneric with
  | false =>
    have next := hc.enqueue (g := ⟨decl.header.name, sg, .undefined, []⟩) hm hd rfl fun v waits hw =>
      lawful_global declares (.inl ⟨rfl, hw, hgen⟩)
    exact meets_bind.2 (meets_modify.2 (next.bindIn (Library.modules_put_self hm) (binds _ nofun) _))
  | true =>
    have root := (hc.good.consistent.houses hm hc.good.alive).sane.root
    have good := hc.good.addFunction (g := ⟨decl.header.name, sg, .generic decl ScopeTable.root, []⟩) c.Waits hm ha
      hc.good.user (fun _ h => h) (lawful_global declares (.inr ⟨_, _, rfl, hd, by
        rw [Library.get_put_self hm]
        exact root⟩))
    have next : Outside o k { c with
        library := c.library.put c.module
          (m.addFunction ⟨decl.header.name, sg, .generic decl ScopeTable.root, []⟩).1 } :=
      ⟨good, hc.idle, hc.module, hc.here⟩
    exact next.bindIn (Library.modules_put_self hm) (binds _ nofun) _

/-- A binding that is computed is a function without parameters. -/
theorem Outside.declareComputed {written : Option TypeExpr} {init : Expr} (hc : c.Outside o k)
    (hn : name ≠ Plain.reserved) (hi : init.isPlain false) :
    Meets (Compile.declareComputed name written init span) c (fun _ d => d.Outside o k) fun _ => Failed o := by
  obtain ⟨m, hm, ha⟩ := hc.exists_module
  refine meets_bind.2 (meets_get.2 (meets_bind.2 (meets_lift hc.failed fun result hresult => ?_)))
  have declares : Header.Declares { result := result } :=
    ⟨rfl, rfl, Signature.known_effectiveResult.2 (Header.known_resolve? hresult)⟩
  have hd : FunctionDecl.isPlain ⟨⟨name, [], written, span⟩, init⟩ := by
    simp [FunctionDecl.isPlain, Header.isPlain_iff, hn, hi]
  have next := hc.enqueue (g := ⟨name, { result := result }, .undefined, []⟩) hm hd rfl fun v waits hw =>
    lawful_global declares (.inl ⟨rfl, hw, rfl⟩)
  have binds : (m.addFunction ⟨name, { result := result }, .undefined, []⟩).1.Binds name (.computed m.functions.size) :=
    ⟨hn, _, Array.getElem?_push_size, rfl, rfl, nofun⟩
  exact meets_bind.2 ((meets_onModule hm).2 (meets_bind.2 (meets_modify.2
    (next.bindIn (Library.modules_put_self hm) binds _))))

/-- The value of a literal has references of its own. -/
theorem describes_value {waits : FunctionRef → Prop} (hc : c.Good o waits) (v : Literal) (id : Nat) :
    ∃ h y, v.value c.heap = (h, y) ∧ y.ty.Known ∧ (h.cells.size ≤ Heap.capacity →
      ∃ Ψ, (c.view o).Sound Ψ h (y.handles ++ o.roots) ∧ Ψ.Describes id y) := by
  by_cases hv : ∃ r, v = .string r
  · obtain ⟨r, rfl⟩ := hv
    refine ⟨_, _, rfl, rfl, fun hcap => ?_⟩
    obtain ⟨Ψ, hs⟩ := hc.heap (Nat.le_trans (Heap.size_le_alloc _ _) hcap)
    obtain ⟨Ψ', hs', hf, -⟩ := View.Sound.alloc (x := .string r) hs (.string r) hcap
    exact ⟨Ψ', hs', .handle rfl (hf.mono (Nat.zero_le _) fun _ => rfl)⟩
  · obtain ⟨y, hy, hk, hh, -, hd⟩ := describes_literal (h := c.heap) fun r h => hv ⟨r, h⟩
    refine ⟨c.heap, y, hy, hk, fun hcap => ?_⟩
    obtain ⟨Ψ, hs⟩ := hc.heap hcap
    rw [hh]
    exact ⟨Ψ, hs, hd Ψ _⟩

theorem Outside.declareLiteral {written : Option TypeExpr} {v : Literal} (hc : c.Outside o k)
    (hn : name ≠ Plain.reserved) :
    Meets (Compile.declareLiteral name v written span) c (fun _ d => d.Outside o k) fun _ => Failed o := by
  obtain ⟨m, hm, ha⟩ := hc.exists_module
  refine meets_bind.2 (meets_get.2 (meets_bind.2 (meets_lift hc.failed fun expected _ => ?_)))
  obtain ⟨h, y, hy, known, sound⟩ := describes_value hc.good (v.adapt expected) c.module
  refine meets_bind.2 (meets_onHeap.2 ?_)
  rw [hy]
  dsimp only
  have bind : Meets (do
      let i ← Compile.addValue c.module y
      Compile.bindIn c.module ScopeTable.root name (.value i)) { c with heap := h } (fun _ d => d.Outside o k)
      fun _ => Failed o := by
    refine meets_bind.2 ((meets_onModule (c := { c with heap := h }) hm).2 ?_)
    have next : Outside o k { c with library := c.library.put c.module (m.addValue y).1, heap := h } :=
      ⟨hc.good.addStatic hm ha hc.good.user known sound, hc.idle, hc.module, hc.here⟩
    have binds : (m.addValue y).1.Binds name (.value m.values.size) := hn
    exact next.bindIn (Library.modules_put_self hm) binds _
  split
  · next t ht =>
    split
    · refine meets_bind.2 (meets_onHeap.2 ⟨⟨_, hc.good.consistent⟩, fun hcap => ?_, hc.good.count, hc.good.living⟩)
      have hsize : (Value.decref y h).1.cells.size = h.cells.size := Heap.size_decrefs y.handles h
      obtain ⟨Ψ, hs, -⟩ := sound (hsize ▸ hcap)
      obtain ⟨h', e, hs', -⟩ := hs.decrefs
      have e' : Value.decref y h = (h', .ok ()) := e
      rw [e']
      exact ⟨Ψ, hs'⟩
    · exact bind
  · exact bind

/-! ### Statements -/

theorem Outside.declare {stmt : Stmt} (hc : c.Outside o k) (hs : stmt.isPlain) :
    Meets (Compile.declare stmt) c (fun _ d => d.Outside o k) fun _ => Failed o := by
  unfold Compile.declare
  split
  · exact meets_pure.2 hc
  · next h body _ => exact hc.declareFunction (show FunctionDecl.isPlain ⟨h, body⟩ from hs)
  · next name written h body _ _ =>
    obtain ⟨hn, hheader, hbody⟩ : name ≠ Plain.reserved ∧ h.isPlain ∧ body.isPlain false := by
      simpa [Stmt.isPlain, Expr.isPlain] using hs
    refine meets_bind.2 (meets_lift hc.failed fun h' hbind => ?_)
    have plain : FunctionDecl.isPlain ⟨h', body⟩ := by
      simp [FunctionDecl.isPlain, Header.isPlain_bindTo hheader hn hbind, hbody]
    exact hc.declareFunction plain
  · next name written v span _ =>
    exact hc.declareLiteral (by simpa using (Bool.and_eq_true_iff.1 hs).1)
  · next name written init span _ _ =>
    obtain ⟨hn, hinit⟩ : name ≠ Plain.reserved ∧ init.isPlain false := by simpa [Stmt.isPlain] using hs
    exact hc.declareComputed hn hinit

theorem meets_typeOperand : Meets (Compile.typeOperand t) c (fun _ d => d.draft = c.draft) fun _ _ => True := rfl

/-- The value of a statement is handed over or dropped. -/
theorem Ready.finishStatement {invoke : Bool} (hc : c.Ready o) (hs : s.Settled) (hl : c.Level (Shape.ofTy t ++ s))
    (hframe : c.draft.frame ≤ s.size) :
    Meets (Compile.finishStatement invoke t span) c
      (fun _ d => c.Reaches o (fun _ => none) d (Shape.ofTy t ++ s) s ∧ d.Level s) fun _ => Failed o := by
  unfold Compile.finishStatement
  split
  · split
    · refine meets_bind.2 (((hc.typeOperand (Shape.ofTy t ++ s)).and meets_typeOperand).imp
        (fun i d ⟨⟨hd, hi⟩, hdraft⟩ => meets_bind.2 ?_) fun _ _ h => h.1)
      have move : d.Steps o .invoke i 0 (Shape.ofTy t ++ s) s := fun w hw => by
        rw [hd.writes.target] at hw ⊢
        exact .invoke ((hw.modules _ (Nat.le_refl _)).types i t hi) hs
      refine (hd.ready.emit1 rfl move).imp (fun _ e he => ?_) fun _ _ h => h
      have level : e.Level (Shape.ofTy t ++ s) := by
        rw [Level, he.reaches.writes.frame, he.depth, hdraft]
        exact hl
      have hce := hd.trans he.reaches
      refine (he.reaches.ready.sink level (Shape.size_ofTy t) (by rwa [hce.writes.frame])).imp
        (fun _ w hw => ⟨hce.trans hw.1, hw.2⟩) fun _ _ h => h
    · exact hc.discard hs hl hframe
  · next hsize =>
    have empty : Shape.ofTy t = [] := Shape.ofTy_of_size (by omega)
    rw [empty] at hl ⊢
    exact meets_pure.2 ⟨.refl hc _ s, hl⟩

/-- The statements of a program that are run leave the stack as it was. -/
theorem Ready.run {invoke : Bool} (hw : Writes o deferred) : ∀ {ss : List Stmt} {c : Compilation}, Stmt.arePlain ss →
    c.Ready o → c.Sees s → c.Level s →
    Meets (ss.forM fun (st : Stmt) => match st with
      | .expr e _ => do Compile.finishStatement invoke (← Compile.expr deferred e none) e.span
      | _ => pure ()) c
      (fun _ d => c.Reaches o (fun _ => none) d s s ∧ d.Sees s ∧ d.Level s) fun _ => Failed o
  | [], c, _, hc, hs, hl => meets_pure.2 ⟨.refl hc _ s, hs, hl⟩
  | st :: ss, c, h, hc, hs, hl => by
    obtain ⟨hst, hss⟩ : st.isPlain ∧ Stmt.arePlain ss := by simpa [Stmt.arePlain] using h
    have first : Meets (match st with
        | .expr e _ => do Compile.finishStatement invoke (← Compile.expr deferred e none) e.span
        | _ => pure ()) c
        (fun _ d => c.Reaches o (fun _ => none) d s s ∧ d.Level s) fun _ => Failed o := by
      cases st with
      | expr e espan =>
        refine (leaves_expr hw (e := e) hst none c s hc hs hl).seq fun t d hd => ?_
        obtain ⟨-, hd, level⟩ := hd
        have frame : d.draft.frame ≤ s.size := by
          rw [hd.writes.frame, ← hl]
          exact Nat.le_add_right _ _
        exact (hd.ready.finishStatement hs.settled level frame).imp (fun _ e he => ⟨hd.trans he.1, he.2⟩) fun _ _ h => h
      | _ => exact meets_pure.2 ⟨.refl hc _ s, hl⟩
    refine first.seq fun _ d hd => ?_
    refine (Ready.run hw hss hd.1.ready (hs.push (u := []) hc hd.1 Shape.settled_nil) hd.2).imp (fun _ e he => ?_)
      fun _ _ h => h
    exact ⟨hd.1.trans he.1, he.2⟩

/-! ### Programs -/

/-- A program that has been compiled: nothing waits, and `main` can be called. -/
structure Compiled (o : Surroundings) (k : Nat) (c : Compilation) (main : Nat) : Prop where
  good : c.Good o fun _ => False
  module : c.module = k
  main : ∃ g bytes, c.library.function? ⟨k, main⟩ = some g ∧ g.body = .code bytes ∧ Draft.frameTypes g.signature = []

/-- The functions that are declared are written in order. -/
theorem Outside.writeAll (hw : Writes o deferred) : ∀ {is : List Nat} {c : Compilation}, c.Outside o k →
    (∀ p ∈ c.pending, p.1 ∈ is) →
    Meets (is.forM fun i => Compile.ensureWritten deferred ⟨k, i⟩) c
      (fun _ d => d.Outside o k ∧ d.pending = []) fun _ => Failed o
  | [], c, hc, hp => by
    refine meets_pure.2 ⟨hc, List.eq_nil_iff_forall_not_mem.2 fun p hmem => ?_⟩
    exact List.not_mem_nil (hp p hmem)
  | i :: is, c, hc, hp => by
    refine (hc.good.ensureWritten hw).seq fun _ d hd => ?_
    obtain ⟨good, evolves, -, begun⟩ := hd
    have outside : d.Outside o k :=
      ⟨good, evolves.unfinished.trans hc.idle, evolves.module.trans hc.module, hc.here⟩
    refine outside.writeAll hw fun p hmem => ?_
    rcases List.mem_cons.1 (hp p (evolves.pending p hmem)) with e | hi
    · exact absurd (by rw [outside.module, e]) (begun p hmem)
    · exact hi

theorem Outside.writeMain {invoke : Bool} {p : Program} (hc : c.Outside o k) (hp : c.pending = []) (h : p.isPlain) :
    Meets (Compile.writeMain invoke p) c (fun i d => d.Compiled o k i) fun _ => Failed o := by
  obtain ⟨hss, hvalue⟩ : Stmt.arePlain p.statements ∧ Expr.isPlainOption p.value := by
    simpa [Program.isPlain] using h
  obtain ⟨m, hm, ha⟩ := hc.exists_module
  have root := (hc.good.consistent.houses hm hc.good.alive).sane.root
  have writes := writes_deferred (o := o) Compile.nestingLimit
  refine meets_bind.2 (meets_get.2 (meets_bind.2 ((meets_onModule hm).2 (meets_bind.2 ?_))))
  generalize hg : (⟨_, _, _, _⟩ : Function) = g
  have hfresh : c.library.function? ⟨c.module, m.functions.size⟩ = none := by
    rw [Library.function?_of_module (f := ⟨c.module, m.functions.size⟩) hm]
    exact Array.getElem?_eq_none (Nat.le_refl _)
  obtain ⟨living, unbegun, unqueued⟩ := hc.good.fresh hfresh
  have evolves := Evolves.addFunction (x := fun _ => none) hc.good hm g
  have good := hc.good.addFunction (g := g) (fun r => c.Waits r ∨ r = ⟨c.module, m.functions.size⟩) hm ha hc.good.user
    (fun _ h => .inl h) (by
      rw [← hg]
      exact lawful_global ⟨rfl, rfl, rfl⟩ (.inl ⟨rfl, .inr rfl, rfl⟩))
  have function : (c.library.put c.module (m.addFunction g).1).function? ⟨c.module, m.functions.size⟩ = some g :=
    (Library.function?_put_self hm).trans Array.getElem?_push_size
  have begins : Begins o { c with library := c.library.put c.module (m.addFunction g).1 }
      ⟨c.module, m.functions.size⟩ g ScopeTable.root := by
    refine ⟨good, function, by rw [← hg], living, unbegun, unqueued, evolves.alive hc.good.alive, hc.good.user, ?_⟩
    change 0 < ((c.library.put c.module _).get c.module).scopes.size
    rw [Library.get_put_self hm]
    exact root
  refine (begins.writeFunction List.not_mem_nil fun _ d s hd hs hl => ?_).imp (fun _ d hd => meets_pure.2 ?_)
    fun _ _ h => h
  · refine (Ready.run writes hss hd hs hl).seq fun _ e he => ?_
    obtain ⟨he, sees, level⟩ := he
    exact (leaves_optional writes hvalue none e s he.ready sees level).imp
      (fun t w hw => ⟨hw.1, he.trans hw.2.1, hw.2.2⟩) fun _ _ h => h
  · obtain ⟨g₁, bytes, hg₁, hb⟩ := hd.written
    obtain ⟨g₂, hg₂, hext⟩ := hd.evolves.function function
    obtain rfl := Option.some.inj (hg₁.symm.trans hg₂)
    have idle : d.unfinished = [] := hd.evolves.unfinished.trans hc.idle
    have empty : d.pending = [] := List.eq_nil_iff_forall_not_mem.2 fun q hq => by
      have : q ∈ c.pending := hd.evolves.pending q hq
      rw [hp] at this
      exact List.not_mem_nil this
    refine ⟨?_, hd.evolves.module.trans hc.module, g₁, bytes, ?_, hb, ?_⟩
    · have good := hd.good
      refine ⟨good.consistent.waiting fun r _ _ _ hr => ?_, good.heap, good.count, good.living, good.pending, good.begun,
        good.alive, good.user⟩
      rcases hr with ⟨-, q, hq, -⟩ | hr
      · rw [empty] at hq
        exact List.not_mem_nil hq
      · rw [idle] at hr
        exact List.not_mem_nil hr
    · rw [← hc.module]
      exact hg₁
    · rw [hext.frameTypes, ← hg]
      rfl

/-- A plain program is compiled, or fails and leaves the library consistent and the heap sound. -/
theorem Outside.program {p : Program} (hc : c.Outside o k) (invoke : Bool) (h : p.isPlain) :
    Meets (Compile.program invoke p) c (fun i d => d.Compiled o k i) fun _ => Failed o := by
  have declared : ∀ {ss : List Stmt} {c : Compilation}, Stmt.arePlain ss → c.Outside o k →
      Meets (ss.forM Compile.declare) c (fun _ d => d.Outside o k) fun _ => Failed o := fun {ss c} hss hc =>
    Meets.forM (fun ss d => Stmt.arePlain ss ∧ d.Outside o k) (fun st ss d hd => by
      obtain ⟨hst, hss⟩ : st.isPlain ∧ Stmt.arePlain ss := by simpa [Stmt.arePlain] using hd.1
      exact (hd.2.declare hst).imp (fun _ _ he => ⟨hss, he⟩) fun _ _ h => h) ss c ⟨hss, hc⟩ |>.imp
      (fun _ _ hd => hd.2) fun _ _ h => h
  obtain ⟨hss, -⟩ : Stmt.arePlain p.statements ∧ Expr.isPlainOption p.value := by simpa [Program.isPlain] using h
  refine meets_bind.2 (meets_get.2 ((declared hss hc).seq fun _ d hd => ?_))
  refine meets_bind.2 (meets_get.2 (meets_bind.2 ?_))
  rw [hc.module]
  refine (hd.writeAll (writes_deferred _) fun p hp => List.mem_map_of_mem hp).imp (fun _ e he => ?_) fun _ _ h => h
  exact he.1.writeMain he.2 h

end Compilation

end StackScript
