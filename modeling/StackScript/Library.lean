import StackScript.Module

/-!
The library: all modules, by number. A module stays while something outside refers to it or a module that
stays imports it or sees its names; then it gives up its static values and its references to other modules.
-/
namespace StackScript

structure Library where
  modules : Array Module := #[]
deriving Inhabited

namespace Library

def get? (l : Library) (id : Nat) : Option Module := l.modules[id]?

/-- The module of a number; one that was never given has an empty module. -/
def get (l : Library) (id : Nat) : Module := l.modules.getD id default

def nameOf (l : Library) (id : Nat) : String := (l.get id).name

def add (l : Library) (m : Module) : Library × Nat := (⟨l.modules.push m⟩, l.modules.size)

/-- Changes a module and gives what the change gives. -/
def update {α : Type} [Inhabited α] (l : Library) (id : Nat) (f : Module → Module × α) : Library × α :=
  match l.modules[id]? with
  | none => (l, default)
  | some m =>
    match l with
    | ⟨modules⟩ =>
      let (m, a) := f m
      (⟨modules.setIfInBounds id m⟩, a)

def modify (l : Library) (id : Nat) (f : Module → Module) : Library := ⟨l.modules.modify id f⟩

def function? (l : Library) (r : FunctionRef) : Option Function :=
  (l.modules[r.module]?).bind fun m => m.functions[r.index]?

/-- The modules that a module refers to. -/
def references (m : Module) : List Nat := m.imports.toList ++ m.visible.toList

/-- How often each module is referred to, by modules and in a list. -/
def countReferences (l : Library) (ids : List Nat) : Array Nat :=
  (l.modules.toList.flatMap references ++ ids).foldl (fun counts id => counts.modify id (· + 1))
    (Array.replicate l.modules.size 0)

/-- Releases static values in order. A value whose handle dangles is skipped. -/
def releaseValues : List Value → Heap → Heap
  | [], h => h
  | v :: vs, h => releaseValues vs (v.decref h).1

/-- Drops references to modules one by one. A module that nothing refers to any more releases its values,
then its own references. Each round takes a reference, and each module gives its own once. -/
def dropFrom : Nat → List Nat → Array Nat → Library → Heap → Library × Heap
  | 0, _, _, l, h => (l, h)
  | _ + 1, [], _, l, h => (l, h)
  | fuel + 1, id :: rest, counts, l, h =>
    let m := l.get id
    let count := counts.getD id 0
    let counts := counts.setIfInBounds id (count - 1)
    if !m.alive || 1 < count then dropFrom fuel rest counts l h
    else
      let h := releaseValues m.values.toList h
      let l := l.modify id fun m => { m with values := #[], imports := #[], visible := #[], alive := false }
      dropFrom fuel (references m ++ rest) counts l h

/-- Drops references in order, while the roots stay referred to. -/
def drop (l : Library) (h : Heap) (roots dropped : List Nat) : Library × Heap :=
  let fuel := dropped.length + l.modules.foldl (fun n m => n + (references m).length) 0 + 1
  dropFrom fuel dropped (l.countReferences (roots ++ dropped)) l h

end Library

end StackScript
