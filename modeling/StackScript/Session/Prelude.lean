/-!
The standard library: a module of small functions that every input sees unless it is left out.
-/
namespace StackScript.Prelude

/-- The name of the module. -/
def name : String := "std"

def block (body : String) : String := "\x7b " ++ body ++ " \x7d"

def function (head body : String) : String := "fn " ++ head ++ " " ++ block body

def choice (test yes no : String) : String := "if " ++ test ++ " " ++ block yes ++ " else " ++ block no

/-- Each part is followed by an empty line. -/
def parts : List String :=
  ["// The standard library. Its names come after those of the machine itself.",
   "// Generic helpers",
   function "identity(x)" "x",
   function "apply(f, x)" "f(x)",
   function "twice(f, x)" "f(f(x))",
   function "square(x)" "x * x",
   function "first(pair)" "pair.0",
   function "second(pair)" "pair.1",
   function "head(xs)" "xs[0]",
   function "count(xs) -> Int32" "list_length(xs)",
   "// Int32 helpers",
   function "max(a: Int32, b: Int32) -> Int32" (choice "a > b" "a" "b"),
   function "min(a: Int32, b: Int32) -> Int32" (choice "a < b" "a" "b"),
   function "abs(x: Int32) -> Int32" (choice "x < 0" "-x" "x")]

def source : String := "\n\n".intercalate parts ++ "\n"

end StackScript.Prelude
