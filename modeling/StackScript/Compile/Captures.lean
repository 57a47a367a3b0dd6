import StackScript.Compile.Draft

/-!
Captures. A nested function captures every free name of its body that stands for a variable of an enclosing
function, and what the enclosing functions that it names capture. The values travel as its nonlocals.
-/
namespace StackScript

namespace FreeNames

/-- Adds a name unless it is bound or known already. -/
def note (bound : List String) (name : String) (free : List String) : List String :=
  if bound.contains name || free.contains name then free else free ++ [name]

def paramNames (h : Header) : List String := h.params.map (·.name)

mutual

/-- The free names of an expression in the order of their first use, after those found before. -/
def ofExpr (bound : List String) : Expr → List String → List String
  | .literal _ _, free => free
  | .variable name _, free => note bound name free
  | .group e _, free | .unary _ e _, free | .field e _ _, free => ofExpr bound e free
  | .binary _ a b _, free | .index a b _, free => ofExpr bound b (ofExpr bound a free)
  | .call f args _, free => ofExprs bound args (ofExpr bound f free)
  | .tuple items _, free | .list items _, free => ofExprs bound items free
  | .lambda h body _, free => ofExpr (paramNames h ++ bound) body free
  | .block statements value _, free =>
    ofBlock bound statements (fun bound free => ofOption bound value free) free
  | .cond test yes no _, free => ofOption bound no (ofExpr bound yes (ofExpr bound test free))

def ofExprs (bound : List String) : List Expr → List String → List String
  | [], free => free
  | e :: es, free => ofExprs bound es (ofExpr bound e free)

def ofOption (bound : List String) : Option Expr → List String → List String
  | none, free => free
  | some e, free => ofExpr bound e free

/-- A statement binds its name for those after it, a function also for its own body. What follows the
statements sees all their names. -/
def ofBlock (bound : List String) : List Stmt → (List String → List String → List String) → List String →
    List String
  | [], last, free => last bound free
  | .expr e _ :: rest, last, free => ofBlock bound rest last (ofExpr bound e free)
  | .bind name _ (.lambda h body _) _ :: rest, last, free =>
    ofBlock (name :: bound) rest last (ofExpr (paramNames h ++ name :: bound) body free)
  | .bind name _ e _ :: rest, last, free => ofBlock (name :: bound) rest last (ofExpr bound e free)
  | .function h body _ :: rest, last, free =>
    ofBlock (h.name :: bound) rest last (ofExpr (paramNames h ++ h.name :: bound) body free)

end

end FreeNames

/-- Names used in the body of a function that it does not bind itself. -/
def FunctionDecl.freeNames (f : FunctionDecl) : List String :=
  let own := if f.header.name.isEmpty then [] else [f.header.name]
  FreeNames.ofExpr (FreeNames.paramNames f.header ++ own) f.body []

namespace Captures

/-- Adds a capture unless the name is captured already. -/
def note (c : String × Ty) (captures : List (String × Ty)) : List (String × Ty) :=
  if captures.any fun d => d.1 = c.1 then captures else captures ++ [c]

/-- What the use of one name captures in a scope of the module. Names of the module itself are not
captured. A function that is named passes on what it captures itself. -/
def ofName (m : Module) (scope : Nat) (name : String) : List (String × Ty) :=
  match m.scopes.resolve? scope name with
  | none => []
  | some found =>
    if found.scope = ScopeTable.root then []
    else match found.symbol with
      | .parameter _ _ t | .slot _ t | .nonlocal _ _ t => [(name, t)]
      | .function i =>
        match m.functions[i]? with
        | some f => f.captures.zip f.signature.nonlocals
        | none => []
      | .computed _ | .value _ => []

end Captures

/-- Names that a function declared in a scope has to capture, with their types. -/
def FunctionDecl.captures (f : FunctionDecl) (m : Module) (scope : Nat) : List (String × Ty) :=
  (f.freeNames.flatMap (Captures.ofName m scope)).foldl (fun acc c => Captures.note c acc) []

end StackScript
