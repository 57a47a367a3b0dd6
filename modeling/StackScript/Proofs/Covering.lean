import StackScript.Proofs.Sustaining

/-!
Captures are complete. The names that a function uses are found before it is compiled, by a walk over its tree, and looked up
in the scopes that are there by then. If no function inside another one has open parameters, this is enough: nothing is used
that belongs to an enclosing function and was not captured.
-/
namespace StackScript

open FreeNames (paramNames)

theorem CompileError.Honest.ne_notCaptured {e : CompileError} (h : e.Honest) (name : String) : e.cause ≠ .notCaptured name := by
  cases h with
  | plain plain =>
    intro cause
    simp [isPlain, cause] at plain
  | count => nofun
  | body => nofun

/-- A function that is declared in a scope captures what it uses of the functions around it: a variable by its name, and for
a function whatever that one captures. -/
def FunctionDecl.Covers (decl : FunctionDecl) (m : Module) (a : Nat) : Prop :=
  ∀ (name : String) (r : Lookup), decl.body.Uses name → name ∉ paramNames decl.header →
    decl.header.name = "" ∨ name ≠ decl.header.name → m.scopes.Finds name a r → r.scope ≠ ScopeTable.root →
      (∀ t, r.symbol.ty? = some t → name ∈ (decl.captures m a).map (·.1)) ∧
        ∀ j g, r.symbol = .function j → m.functions[j]? = some g → ∀ k ∈ g.captures, k ∈ (decl.captures m a).map (·.1)

namespace Session

/-- **Captures are complete.** If no function inside another one has open parameters, neither in the standard library nor in
what a session is asked, then no compilation fails for the sake of a name that belongs to an enclosing function: neither at
once nor in the body of an instance. For whatever function is declared on the way captures all that it uses of the functions
around it. -/
theorem captures_complete {config : Config} {rs : List Request}
    (std : ∀ source, config.std = some source → Program.textIsSpecific source)
    (specific : ∀ r ∈ rs, Program.textIsSpecific r.source) :
    (∀ e, start config = .error (.compile e) → e.Honest ∧ ∀ name, e.cause ≠ .notCaptured name) ∧
      (∀ s, start config = .ok s → ∀ e, .compile e ∈ (s.serveAll rs).2 → e.Honest ∧ ∀ name, e.cause ≠ .notCaptured name) ∧
      ∀ (c : Compilation) (m : Module) (decl : FunctionDecl), c.Regular true →
        c.library.modules[c.draft.target.module]? = some m → decl.Covers m c.draft.scope := by
  obtain ⟨begun, failed⟩ := start_regular (c := config) fun _ : true => std
  refine ⟨fun e he => ?_, fun s hs e he => ?_, fun c m decl hc hm => ?_⟩
  · have honest := failed _ he rfl e rfl
    exact ⟨honest, honest.ne_notCaptured⟩
  · have honest := ((begun s hs).serveAll rs fun _ => specific).2 _ he rfl e rfl
    exact ⟨honest, honest.ne_notCaptured⟩
  · intro name r used unbound own found outer
    exact (hc.library _ m hm).covers rfl (FunctionDecl.mem_freeNames.2 ⟨used, unbound, own⟩) found outer

/-- A function that captures a parameter for itself, one that captures it for the sibling that it calls, and one that cannot. -/
def capturing : List Request :=
  [.eval "fn f(n: Int) -> Int \x7b fn a(x: Int) -> Int \x7b x + n \x7d fn b() -> Int \x7b a(1) \x7d b() \x7d",
    .eval "fn f() \x7b fn a() \x7b m \x7d \x7d"]

/-- A name that means nothing is all that fails. -/
theorem captures_complete_capturing :
    (bare.serveAll capturing).2.map Failure.message = ["Compile error: Undefined name 'm' at 1:19"] ∧
      ∀ e, .compile e ∈ (bare.serveAll capturing).2 → e.Honest := by
  have specific : ∀ r ∈ capturing, Program.textIsSpecific r.source := by decide +kernel
  refine ⟨by decide +kernel, fun e he => ?_⟩
  exact ((@captures_complete { std := none } capturing nofun specific).2.1 bare start_bare e he).1

/-- A function with open parameters is written when it is called. By then its names may have come to mean something else. -/
example : (bare.serveAll [.eval "fn outer(n: Int) -> Int \x7b fn a(x) \x7b m + x \x7d let m = n; a(1) \x7d outer(1)"]).2.map
    Failure.detail? = [some "'m' belongs to an enclosing function and is not captured here at 1:37"] := by decide +kernel

end Session

end StackScript
