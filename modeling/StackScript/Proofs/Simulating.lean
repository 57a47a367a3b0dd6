import StackScript.Proofs.Nesting

/-!
Every expression without calls. Its code leaves the datum of the evaluator on the stack, or breaks off with the fault of
the evaluator; by induction on the expression, its items, its statements and its branches at once.
-/
namespace StackScript

namespace Stmt

theorem names_extend (Γ : Context) : ∀ s : Stmt, (s.extend Γ).map (·.1) = s.binds ++ Γ.map (·.1)
  | .bind _ _ _ _ => by
    rw [extend]
    rfl
  | .expr _ _ | .function _ _ _ => by
    simp [extend, binds]

/-- The names that are seen after statements are those of their context. -/
theorem names_contextAfter : ∀ (ss : List Stmt) (Γ : Context),
    (contextAfter Γ ss).map (·.1) = namesAfter (Γ.map (·.1)) ss
  | [], _ => by
    rw [contextAfter]
    rfl
  | s :: ss, Γ => by
    rw [contextAfter, names_contextAfter ss, names_extend]
    rfl

end Stmt

theorem Expr.elementIn_some (Γ : Context) (es : List Expr) (t : Ty) : elementIn Γ es (some t) = some t := by
  cases es <;> rw [elementIn]

theorem Expr.known_elementHint {expected : Option Ty} {t : Ty} (h : elementHint expected = some t) : t.Known := by
  simpa [Ty.Known] using (Option.filter_eq_some_iff.1 h).2

namespace Compilation

variable {c d : Compilation} {Γ Γ' : Context} {span : Span} {t u : Ty} {ts : List Ty} {n : Nat} {deferred : Deferred}

/-! ### The same datum -/

theorem Computes.congr {v v' : Env → Except Fault Datum} {x : Compile Ty} (h : Computes Γ t v x)
    (e : ∀ ρ, ρ.Fits Γ → v' ρ = v ρ) : Computes Γ t v' x := fun _ hc hn =>
  (h _ hc hn).imp (fun _ _ ⟨hr, known, hd⟩ => ⟨hr, known, Rendered.congr hd e⟩) fun _ _ h => h

theorem Runs.congr {α : Type} {f : α → List (Nat × Ty)} {v v' : Env → Except Fault Env} {x : Compile α}
    (h : Runs Γ Γ' f v x) (e : ∀ ρ, v' ρ = v ρ) : Runs Γ Γ' f v' x := funext e ▸ h

/-- The operands of an operator are expected to have a type. -/
theorem Computes.hinted {op : BinaryOp} {a b : Expr} {expected : Option Ty} {v : Env → Except Fault Datum}
    {x : Option Ty → Compile Ty} (ha : a.isCallFree (Γ.map (·.1))) (hb : b.isCallFree (Γ.map (·.1)))
    (h : Computes Γ t v (x (Expr.operandIn Γ op a b expected))) :
    Computes Γ t v (Compile.operandHint op a b expected >>= x) := fun c hc hn =>
  (hn.operandHint ha hb expected).seq fun _ _ ⟨hr, hd⟩ => hr ▸ hd ▸ h c hc hn

theorem renders_void : Renders Γ .void (fun _ => .ok .void) (pure .void) := fun _ hc _ =>
  meets_pure.2 ⟨rfl, rfl, .constant (.refl hc _) rfl rfl Datum.fits_void, rfl⟩

section

mutual

theorem renders_expr : ∀ {e : Expr} {Γ : Context}, e.isCallFree (Γ.map (·.1)) → ∀ expected,
    Renders Γ (e.typeIn Γ expected) (fun ρ => e.evalIn ρ expected) (Compile.expr deferred e expected)
  | .literal v span, Γ, _, expected => by
    unfold Compile.expr
    simp only [Expr.typeIn, Expr.evalIn]
    exact (computes_literal v expected span).leaving
  | .variable name span, Γ, h, expected => by
    obtain ⟨t, ht⟩ := lookup_of_contains h
    unfold Compile.expr
    simp only [Expr.typeIn, Expr.evalIn, ht]
    exact (computes_variable ht expected span).leaving
  | .group e _, Γ, h, expected => by
    unfold Compile.expr
    simp only [Expr.typeIn, Expr.evalIn]
    exact renders_expr (e := e) h expected
  | .binary op a b span, Γ, h, expected => by
    obtain ⟨ha, hb⟩ := Bool.and_eq_true_iff.1 h
    unfold Compile.expr
    simp only [Expr.typeIn, Expr.evalIn]
    have operands := Renders.binary op a.span (u := fun ρ r => a.evalIn ρ (some r))
      (y := Compile.expr deferred a) (renders_expr hb (Expr.operandIn Γ op a b expected)) (renders_expr ha _) span
    refine Computes.leaving (.hinted ha hb (operands.congr fun ρ hρ => ?_))
    rw [hρ.types]
  | .unary op e span, Γ, h, expected => by
    unfold Compile.expr
    simp only [Expr.typeIn, Expr.evalIn]
    refine ((Renders.unary (renders_expr (e := e) h expected) span).congr fun ρ _ => ?_).leaving
    cases e.evalIn ρ expected <;> rfl
  | .index a b span, Γ, h, expected => by
    obtain ⟨ha, hb⟩ := Bool.and_eq_true_iff.1 h
    unfold Compile.expr
    simp only [Expr.typeIn, Expr.evalIn]
    exact (Renders.index (renders_expr hb _) (renders_expr ha _) span).leaving
  | .field a i span, Γ, h, expected => by
    unfold Compile.expr
    simp only [Expr.typeIn, Expr.evalIn]
    refine ((Renders.field a i span (renders_expr (e := a) h none)).congr fun ρ _ => ?_).leaving
    cases a.evalIn ρ none <;> rfl
  | .tuple es _, Γ, h, expected => by
    unfold Compile.expr
    simp only [Expr.typeIn, Expr.evalIn]
    have items := renders_items (show Expr.areCallFree (Γ.map (·.1)) es from h) (Compile.itemHints expected)
    refine (items.tuple.congr fun ρ _ => ?_).leaving
    cases Expr.evalItems ρ es (Compile.itemHints expected) <;> rfl
  | .list es span, Γ, h, expected => by
    unfold Compile.expr
    simp only [Expr.typeIn, Expr.evalIn]
    have elements := renders_elements (show Expr.areCallFree (Γ.map (·.1)) es from h) (Expr.elementHint expected)
    exact ((elements fun _ => Expr.known_elementHint).list span).leaving
  | .block ss value span, Γ, h, expected => by
    obtain ⟨hss, hvalue⟩ := Bool.and_eq_true_iff.1 h
    rw [← Stmt.names_contextAfter] at hvalue
    unfold Compile.expr
    simp only [Expr.typeIn, Expr.evalIn]
    exact ((runs_statements hss).block (renders_optional hvalue expected) span).leaving
  | .cond test yes none _, Γ, h, expected => by
    obtain ⟨h, -⟩ := Bool.and_eq_true_iff.1 h
    obtain ⟨ht, hy⟩ := Bool.and_eq_true_iff.1 h
    unfold Compile.expr
    simp only [Expr.typeIn, Expr.evalIn]
    refine ((Renders.when (renders_expr ht _) (renders_expr hy _) test yes.span).congr fun ρ _ => ?_).leaving
    cases test.evalIn ρ (some .bool) with
    | error f => rfl
    | ok b => cases b.holds <;> cases yes.evalIn ρ none <;> rfl
  | .cond test yes (some no) _, Γ, h, expected => by
    obtain ⟨h, hn⟩ := Bool.and_eq_true_iff.1 h
    obtain ⟨ht, hy⟩ := Bool.and_eq_true_iff.1 h
    unfold Compile.expr
    simp only [Expr.typeIn, Expr.evalIn]
    refine ((Renders.either (r := fun ρ t => no.evalIn ρ (some t)) (z := fun t => Compile.expr deferred no (some t))
      (renders_expr ht _) (renders_expr hy _) (renders_expr hn _) test no.span).congr fun ρ hρ => ?_).leaving
    rw [hρ.types]

theorem renders_optional : ∀ {e : Option Expr} {Γ : Context}, Expr.isCallFreeOption (Γ.map (·.1)) e → ∀ expected,
    Renders Γ (Expr.optionIn Γ e expected) (fun ρ => Expr.evalOption ρ e expected) (Compile.optional deferred e expected)
  | none, Γ, _, _ => by
    unfold Compile.optional
    simp only [Expr.optionIn, Expr.evalOption]
    exact renders_void
  | some e, Γ, h, expected => by
    unfold Compile.optional
    simp only [Expr.optionIn, Expr.evalOption]
    exact renders_expr (e := e) h expected

theorem renders_items : ∀ {es : List Expr} {Γ : Context}, Expr.areCallFree (Γ.map (·.1)) es → ∀ hints,
    RendersAll Γ (Expr.typesIn Γ es hints) (fun ρ => Expr.evalItems ρ es hints) (Compile.items deferred es hints)
  | [], Γ, _, _ => by
    unfold Compile.items
    simp only [Expr.typesIn, Expr.evalItems]
    exact rendersAll_nil
  | e :: es, Γ, h, hints => by
    obtain ⟨he, hes⟩ := Bool.and_eq_true_iff.1 h
    unfold Compile.items
    simp only [Expr.typesIn, Expr.evalItems]
    exact (renders_expr he _).andAll (renders_items hes _)

theorem renders_elements : ∀ {es : List Expr} {Γ : Context}, Expr.areCallFree (Γ.map (·.1)) es → ∀ hint,
    (∀ t, hint = some t → t.Known) → RendersElements Γ (Expr.elementIn Γ es hint) es.length
      (fun ρ => Expr.evalElements ρ es hint) (Compile.elements deferred es hint)
  | [], Γ, _, hint, known => by
    unfold Compile.elements
    cases hint <;> simp only [Expr.elementIn, Expr.evalElements] <;> exact rendersElements_nil known
  | e :: es, Γ, h, none, _ => by
    obtain ⟨he, hes⟩ := Bool.and_eq_true_iff.1 h
    unfold Compile.elements
    simp only [Expr.elementIn, Expr.evalElements, Option.getD_none, List.length_cons]
    refine Renders.andElements (w := fun ρ t => Expr.evalElements ρ es (some t))
      (y := fun t => Compile.elements deferred es (some t)) (renders_expr he none) fun known => ?_
    have rest := renders_elements hes (some _) fun _ h => Option.some.inj h ▸ known
    rwa [Expr.elementIn_some] at rest
  | e :: es, Γ, h, some t, known => by
    obtain ⟨he, hes⟩ := Bool.and_eq_true_iff.1 h
    unfold Compile.elements
    simp only [Expr.elementIn, Expr.evalElements, Option.getD_some, List.length_cons]
    have rest := renders_elements hes (some t) known
    rw [Expr.elementIn_some] at rest
    exact Renders.nextElement (w := fun ρ _ => Expr.evalElements ρ es (some t)) (renders_expr he (some t)) (known t rfl) rest
      e.span

theorem runs_statements : ∀ {ss : List Stmt} {Γ : Context}, Stmt.areCallFree (Γ.map (·.1)) ss →
    Runs Γ (Stmt.contextAfter Γ ss) id (fun ρ => Stmt.evalAll ρ ss) (Compile.statements deferred ss)
  | [], Γ, _ => by
    unfold Compile.statements
    simp only [Stmt.contextAfter, Stmt.evalAll]
    exact runs_nil
  | s :: ss, Γ, h => by
    obtain ⟨hs, hss⟩ := Bool.and_eq_true_iff.1 h
    rw [← Stmt.names_extend] at hss
    unfold Compile.statements
    simp only [Stmt.contextAfter, Stmt.evalAll]
    exact (runs_statement hs).cons (runs_statements hss)

theorem runs_statement : ∀ {s : Stmt} {Γ : Context}, s.isCallFree (Γ.map (·.1)) →
    Runs Γ (s.extend Γ) Option.toList (fun ρ => s.eval ρ) (Compile.statement deferred s)
  | .expr e _, Γ, h => by
    unfold Compile.statement
    simp only [Stmt.extend, Stmt.eval]
    refine Runs.congr ((renders_expr (e := e) h none).discard e.span) fun ρ => ?_
    cases e.evalIn ρ none <;> rfl
  | .bind name written (.variable _ _) span, Γ, h | .bind name written (.literal _ _) span, Γ, h
  | .bind name written (.unary _ _ _) span, Γ, h | .bind name written (.field _ _ _) span, Γ, h
  | .bind name written (.binary _ _ _ _) span, Γ, h | .bind name written (.index _ _ _) span, Γ, h
  | .bind name written (.tuple _ _) span, Γ, h
  | .bind name written (.list _ _) span, Γ, h | .bind name written (.block _ _ _) span, Γ, h
  | .bind name written (.cond _ _ _ _) span, Γ, h | .bind name written (.group _ _) span, Γ, h => by
    unfold Compile.statement
    rw [Stmt.extend]
    simp only [Stmt.eval]
    refine Runs.congr (Renders.bind (x := Compile.expr deferred _) (renders_expr h _) span) fun ρ => ?_
    cases Expr.evalIn ρ _ (TypeExpr.annotation written) <;> rfl

end

end

end Compilation

end StackScript
