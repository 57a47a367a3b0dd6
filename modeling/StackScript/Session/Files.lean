import StackScript.Session.Failure

/-!
A directory of files by path, read the way a file system reads them. The directory itself may lie in others,
which are seen only as directories.
-/
namespace StackScript

/-- Bytes by path. The parts of a path are names of directories and, last, of the file. -/
abbrev Files := List (List String × ByteArray)

namespace Files

def ofNames (files : List (String × ByteArray)) : Files := files.map fun (name, bytes) => (name.splitOn "/", bytes)

inductive Node
  | file (bytes : ByteArray)
  | directory

/-- What lies at a path. -/
def node? (fs : Files) (path : List String) : Option Node :=
  match fs.lookup path with
  | some bytes => some (.file bytes)
  | none => if fs.any fun f => path.isPrefixOf f.1 then some .directory else none

/-- The names that lead to the directory above; above the directory itself lie others, of which nothing is known. -/
def parent : Option (List String) → Option (List String)
  | some (_ :: place) => some place
  | _ => none

/-- The most bytes that a name may have. -/
def longestName : Nat := 255

/-- The most bytes that a path may have. -/
def longestPath : Nat := 4095

/-- Follows the parts of a path; a directory is given by the names that lead to it, the last one first. A name is
looked at only when all before it have led to a directory. -/
def walk (fs : Files) : Option (List String) → List String → Except FileProblem Node
  | _, [] => .ok .directory
  | place?, part :: rest =>
    if part = "" ∨ part = "." then walk fs place? rest
    else if part = ".." then walk fs (parent place?) rest
    else if longestName < part.utf8ByteSize then .error .tooLong
    else match place? with
      | none => .error .missing
      | some place =>
        match fs.node? (place.reverse ++ [part]) with
        | none => .error .missing
        | some .directory => walk fs (part :: place) rest
        | some (.file bytes) => if rest.isEmpty then .ok (.file bytes) else .error .notDirectory

/-- A path from the root starts outside the directory. -/
def read (fs : Files) (path : String) : Except FileProblem String :=
  if path = "" then .error .missing
  else if longestPath < path.utf8ByteSize then .error .tooLong
  else match fs.walk (if path.startsWith "/" then none else some []) (path.splitOn "/") with
    | .error problem => .error problem
    | .ok .directory => .error .directory
    | .ok (.file bytes) =>
      match String.fromUTF8? bytes with
      | some text => .ok text
      | none => .error .notText

end Files

end StackScript
