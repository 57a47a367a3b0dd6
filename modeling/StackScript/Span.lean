/-!
Places in a source text. A position is a byte offset with its line and column; a span is a byte range
together with the line and column at which it starts.
-/
namespace StackScript

structure Position where
  offset : Nat := 0
  line : Nat := 1
  column : Nat := 1
deriving DecidableEq, Repr, Inhabited

/-- The position after a character: a line feed starts a line, any other character takes one column. -/
def Position.next (p : Position) (c : Char) : Position :=
  if c = '\n' then ⟨p.offset + c.utf8Size, p.line + 1, 1⟩
  else ⟨p.offset + c.utf8Size, p.line, p.column + 1⟩

def Position.advance (p : Position) (cs : List Char) : Position :=
  cs.foldl Position.next p

structure Span where
  start : Nat := 0
  stop : Nat := 0
  line : Nat := 0
  column : Nat := 0
deriving DecidableEq, Repr, Inhabited

namespace Span

def between (p q : Position) : Span := ⟨p.offset, q.offset, p.line, p.column⟩

/-- The span that covers both, with the line and column of the one that starts first. -/
def merge (a b : Span) : Span :=
  let first := if a.start ≤ b.start then a else b
  ⟨min a.start b.start, max a.stop b.stop, first.line, first.column⟩

def text (s : Span) : String := toString s.line ++ ":" ++ toString s.column

theorem merge_self (s : Span) : s.merge s = s := by simp [merge]

end Span

end StackScript
