import StackScript.Text.Alphabet

/-!
Blanks and lines. The blanks are the characters with the property White_Space.
-/
namespace StackScript.Text

def blanks : Ranges :=
  [(0x9, 0xD), (0x20, 0x20), (0x85, 0x85), (0xA0, 0xA0), (0x1680, 0x1680), (0x2000, 0x200A), (0x2028, 0x2029),
   (0x202F, 0x202F), (0x205F, 0x205F), (0x3000, 0x3000)]

def isBlank (c : Char) : Bool := blanks.has c

def trimEnd (s : String) : String := String.ofList (s.toList.reverse.dropWhile isBlank).reverse

def trim (s : String) : String := trimEnd (String.ofList (s.toList.dropWhile isBlank))

def allBlank (s : String) : Bool := s.toList.all isBlank

/-- The parts of a text between characters that separate, at least one part. -/
def splitAt (separates : Char → Bool) : List Char → List (List Char)
  | [] => [[]]
  | c :: cs =>
    if separates c then [] :: splitAt separates cs
    else match splitAt separates cs with
      | [] => [[c]]
      | part :: parts => (c :: part) :: parts

/-- The parts between blanks. -/
def words (s : String) : List String :=
  ((splitAt isBlank s.toList).filter fun w => !w.isEmpty).map String.ofList

def dropReturn (cs : List Char) : List Char :=
  if cs.getLast? = some '\r' then cs.dropLast else cs

/-- The lines of a text without their ends. What follows the last line end is a line unless it is empty. -/
def lines (s : String) : List String :=
  let parts := splitAt (· = '\n') s.toList
  let rest := parts.getLastD []
  ((parts.dropLast.map dropReturn) ++ (if rest.isEmpty then [] else [rest])).map String.ofList

theorem splitAt_ne_nil (separates : Char → Bool) (cs : List Char) : splitAt separates cs ≠ [] := by
  cases cs with
  | nil => simp [splitAt]
  | cons c cs =>
    rw [splitAt]
    split
    · simp
    · split <;> simp

end StackScript.Text
