import StackScript.Proofs.Simulating

/-!
The function `main` of a program that is one expression without calls. Its code takes the empty stack to the datum of the
expression, or to the fault of its evaluation.
-/
namespace StackScript

/-- A function without parameters whose code computes a datum. -/
structure Store.Answers (w : Store) (f : FunctionRef) (g : Function) (bytes : Array UInt8) (v : Except Fault Datum) : Prop where
  function : w.library.function? f = some g
  body : g.body = .code bytes
  result : ∀ d, v = .ok d → d.ty = g.signature.effectiveResult
  course : w.Course f.module bytes 0 [] (v.map Pile.of)

/-- A module whose functions change still has what code refers to. -/
theorem Store.extends_put {l : Library} {m n : Module} {k : Nat} (hm : l.modules[k]? = some m) (user : k ≠ 0)
    (values : n.values = m.values) (types : n.types = m.types) (imports : n.imports = m.imports) (h : Heap) :
    Extends k ⟨l, h⟩ ⟨l.put k n, h⟩ := by
  have get : (l.put k n).get k = n := Library.get_put_self hm
  have old : l.get k = m := Library.get_eq hm
  refine ⟨fun i x hx => ?_, fun i x hx => ?_, ?_, Library.get_put_ne user, .refl h⟩
  · rwa [get, values, ← old]
  · rwa [get, types, ← old]
  · rw [get, imports, ← old]

namespace Compilation

variable {c d : Compilation} {m : Module} {roots : List Handle} {t : Ty} {v : Env → Except Fault Datum}

/-- The state in which the body of `main` is written. -/
def begun (c : Compilation) (m : Module) : Compilation where
  library := c.library.put c.module { m with
    functions := m.functions.push { name := "main", signature := {} }
    scopes := (m.scopes.add ScopeTable.root .function "main").1 }
  heap := c.heap
  module := c.module
  draft := { target := ⟨c.module, m.functions.size⟩, name := "main", scope := m.scopes.size }
  pending := c.pending
  unfinished := ⟨c.module, m.functions.size⟩ :: c.unfinished

section

variable (hm : c.library.modules[c.module]? = some m)
include hm

theorem get_begun : (c.begun m).library.get c.module = { m with
    functions := m.functions.push { name := "main", signature := {} }
    scopes := (m.scopes.add ScopeTable.root .function "main").1 } :=
  Library.get_put_self hm

theorem Hosts.begun (hc : c.Hosts) (here : c.draft.target.module = c.module) : (c.begun m).Hosts := by
  have table : c.table = m.scopes := Hosts.table_eq (here ▸ hm)
  have root : ScopeTable.root < m.scopes.size := Nat.lt_of_le_of_lt (Nat.zero_le _) (table ▸ hc.scope)
  have get := get_begun hm
  refine ⟨⟨_, Library.modules_put_self hm⟩, ?_, ?_, ?_, ?_, ?_, Code.valid_empty, hc.heap⟩
  · change ((c.begun m).library.get c.module).imports[0]? = _
    rw [get, ← Library.get_eq hm, ← here]
    exact hc.imports
  · exact (Library.modules_put_ne (here ▸ hc.user)).trans hc.builtin
  · change c.module ≠ 0
    exact here ▸ hc.user
  · change ((c.begun m).library.get c.module).scopes.Ordered
    rw [get]
    exact (table ▸ hc.ordered).add root _ _
  · change m.scopes.size < ((c.begun m).library.get c.module).scopes.size
    rw [get]
    simp

end

/-! ### Installing code -/

/-- What an expression computes is what the finished function answers. -/
theorem Lays.answers {code : Code} {g : Function} (h : Lays [] t v c d) (known : t.Known)
    (start : c.draft.code = {}) (level : c.draft.depth = 0) (hcode : d.draft.code.resolve = (code, none))
    (hg : g.body = .code code.bytes) (result : g.signature.result = t)
    (hm : d.library.modules[c.draft.target.module]? = some m) (declared : c.draft.target.index < m.functions.size) :
    Store.Answers ⟨d.library.put c.draft.target.module (m.setFunction c.draft.target.index g), d.heap⟩ c.draft.target g
      code.bytes (v []) := by
  have valid := h.grows.hosts.code
  refine ⟨?_, hg, fun x hx => ?_, ?_⟩
  · rw [Library.function?_put_self hm]
    exact Array.getElem?_setIfInBounds_self_of_lt declared
  · rw [Signature.effectiveResult_of_known (result ▸ known), result]
    exact (h.fits [] x ⟨rfl, nofun⟩ hx).ty
  · have user : c.draft.target.module ≠ 0 := h.grows.writes.target ▸ h.grows.hosts.user
    have later := Store.extends_put (n := m.setFunction c.draft.target.index g) hm user rfl rfl rfl d.heap
    have bears : c.Bears [] [] := ⟨Pile.settled_nil, level.symm, nofun⟩
    have carries := h.converts [] [] ⟨rfl, nofun⟩ bears _ code.bytes later (valid.fits_resolve hcode)
    have size : code.bytes.size = d.draft.code.size := valid.size_resolve hcode
    have course := carries ((v []).map Pile.of) (fun u hu => ?_) fun e he => ?_
    · rwa [start] at course
    · cases hv : v [] with
      | error e =>
        rw [hv] at hu
        cases hu
      | ok x =>
        rw [hv] at hu
        obtain rfl : Pile.of x ++ [] = u := Except.ok.inj hu
        rw [List.append_nil]
        exact .done (Nat.le_of_eq size)
    · rw [map_eq_error.1 he]
      rfl

/-- A function was written that answers a datum. -/
structure Completes (c d : Compilation) (f : FunctionRef) (v : Except Fault Datum) : Prop where
  answers : ∃ g bytes, Store.Answers d.store f g bytes v
  heap : c.heap.Retains d.heap
  accounts : ∀ {roots}, c.Accounts roots → d.Accounts roots

/-- A function without parameters is installed with the code that was written, if its jumps are not too far. -/
theorem meets_endFunction {span : Span} {ok : Unit → Compilation → Prop} {bad : CompileError → Compilation → Prop}
    (blank : d.draft.signature = {}) (hm : d.library.modules[d.draft.target.module]? = some m)
    (installed : ∀ code, d.draft.code.resolve = (code, none) → ok () { d with
      library := d.library.put d.draft.target.module (m.setFunction d.draft.target.index
        ⟨d.draft.name, { result := t }, .code code.bytes, d.draft.captures⟩)
      unfinished := d.unfinished.filter (· ≠ d.draft.target) })
    (tooFar : ∀ code jump e, d.draft.code.resolve = (code, some jump) → bad e d) :
    Meets (Compile.endFunction t span) d ok bad := by
  have resolved : ({} : Signature).resolve t = .ok { result := t } := by simp [Signature.resolve, Ty.unify?]
  have release : Compile.releaseFrame { result := t } t span = pure () := rfl
  refine meets_bind.2 (meets_getDraft.2 ?_)
  rw [blank, resolved]
  dsimp only
  rw [release]
  refine meets_bind.2 (meets_pure.2 (meets_bind.2 (meets_getDraft.2 ?_)))
  generalize hcode : d.draft.code.resolve = r at installed tooFar
  obtain ⟨code, far⟩ := r
  cases far with
  | some jump => exact tooFar code jump _ rfl
  | none =>
    exact meets_bind.2 (meets_modify.2 ((meets_onModule (c := { d with
      unfinished := d.unfinished.filter (· ≠ d.draft.target) }) hm).2 (installed code rfl)))

/-- A function without parameters is finished behind the code of an expression. -/
theorem Lays.endFunction (h : Lays [] t v c d) (known : t.Known) (start : c.draft.code = {}) (level : c.draft.depth = 0)
    (blank : c.draft.signature = {})
    (declared : c.draft.target.index < (c.library.get c.draft.target.module).functions.size) (span : Span) :
    Meets (Compile.endFunction t span) d (fun _ e => c.Completes e c.draft.target (v [])) fun _ _ => True := by
  have target : d.draft.target = c.draft.target := h.grows.writes.target
  obtain ⟨m, hm⟩ := h.grows.hosts.here
  refine meets_endFunction (h.grows.writes.signature.trans blank) hm (fun code hcode => ?_) fun _ _ _ _ => trivial
  rw [target] at hm ⊢
  have functions := h.grows.functions
  rw [Library.get_eq hm] at functions
  exact ⟨⟨_, _, h.answers known start level hcode rfl rfl hm (functions ▸ declared)⟩, h.grows.store.heap,
    fun ha => (h.grows.accounts ha).put hm rfl rfl rfl⟩

/-- The function `main` of an expression is begun, written and finished, and then the draft goes on that waited. -/
theorem meets_writeMain {e : Expr} {invoke : Bool} {ok : Nat → Compilation → Prop} {bad : CompileError → Compilation → Prop}
    (hm : c.library.modules[c.module]? = some m)
    (written : Meets (Compile.expr (Compile.writeDeferred Compile.nestingLimit) e none >>= fun t => Compile.endFunction t e.span)
      (c.begun m) (fun _ d => ok m.functions.size { d with draft := c.draft }) bad) :
    Meets (Compile.writeMain invoke ⟨[], some e⟩) c ok bad := by
  refine meets_bind.2 (meets_get.2 (meets_bind.2 ((meets_onModule hm).2 (meets_bind.2 (meets_bind.2 (meets_getDraft.2
    (meets_bind.2 (meets_bind.2 ?_))))))))
  have function : (c.library.put c.module (m.addFunction { name := "main", signature := {} }).1).function?
      ⟨c.module, m.functions.size⟩ = some { name := "main", signature := {} } :=
    (Library.function?_put_self hm).trans Array.getElem?_push_size
  refine (meets_getFunction function).2 (meets_bind.2 ((meets_onModule (Library.modules_put_self hm)).2 ?_))
  refine meets_bind.2 (meets_pure.2 (meets_modify.2 (meets_bind.2 (meets_getDraft.2 (meets_bind.2 (meets_bind.2
    (meets_pure.2 ?_)))))))
  dsimp only
  rw [Library.put_put]
  change Meets (Compile.expr _ e none) (c.begun m) _ _
  refine (meets_bind.1 written).imp (fun t d hd => hd.seq fun _ w hw => meets_modify.2 (meets_pure.2 hw)) fun _ _ h => h

/-- A program that is one expression has no functions but `main`. -/
theorem meets_program {e : Expr} {invoke : Bool} {ok : Nat → Compilation → Prop} {bad : CompileError → Compilation → Prop}
    (idle : c.pending = []) (written : Meets (Compile.writeMain invoke ⟨[], some e⟩) c ok bad) :
    Meets (Compile.program invoke ⟨[], some e⟩) c ok bad := by
  refine meets_bind.2 (meets_get.2 (meets_bind.2 (meets_pure.2 (meets_bind.2 (meets_get.2 (meets_bind.2 ?_))))))
  rw [idle]
  exact meets_pure.2 written

/-- The function `main` of an expression answers what the evaluator makes of it. -/
theorem Hosts.writeMain {e : Expr} (hc : c.Hosts) (here : c.draft.target.module = c.module) (free : e.isCallFree [])
    (invoke : Bool) : Meets (Compile.writeMain invoke ⟨[], some e⟩) c
      (fun i d => c.Completes d ⟨c.module, i⟩ (e.evalIn [] none)) fun _ _ => True := by
  obtain ⟨m, hm⟩ := hc.here
  rw [here] at hm
  refine meets_writeMain hm (meets_bind.2 ?_)
  have begun := hc.begun hm here
  refine (renders_optional (e := some e) (Γ := []) free none (c.begun m) begun nofun).imp (fun t d hd => ?_) fun _ _ h => h
  obtain ⟨ht, known, hd, -⟩ := hd
  rw [← ht] at known hd
  have declared : m.functions.size < ((c.begun m).library.get c.module).functions.size := by
    rw [get_begun hm]
    simp
  refine (hd.endFunction known rfl rfl rfl declared e.span).imp (fun _ w hw => ?_) fun _ _ h => h
  exact ⟨hw.answers, hw.heap, fun ha => hw.accounts (ha.put hm rfl rfl rfl)⟩

theorem Hosts.program {e : Expr} (hc : c.Hosts) (here : c.draft.target.module = c.module) (idle : c.pending = [])
    (free : e.isCallFree []) (invoke : Bool) : Meets (Compile.program invoke ⟨[], some e⟩) c
      (fun i d => c.Completes d ⟨c.module, i⟩ (e.evalIn [] none)) fun _ _ => True :=
  meets_program idle (hc.writeMain here free invoke)

end Compilation

end StackScript
