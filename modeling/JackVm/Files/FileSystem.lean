import JackVm.Failure

/-!
# File systems

What compiling files asks of a file system. Paths are followed through links,
except that the entries of a directory are what they are themselves, and removing
a link leaves what it points to.
-/

namespace JackVm

/-- The kinds of things a path can lead to. -/
inductive EntryKind where
  | file
  | directory
deriving DecidableEq, Repr

/-- How many bytes a path may have. -/
def maxPath : Nat := 4095

class FileSystem (m : Type → Type) where
  /-- What a path leads to, if it leads anywhere. -/
  kind? : String → m (Option EntryKind)
  /-- The text of a file. -/
  read : String → m (Except FileFault String)
  /-- Makes an empty file, or empties the file that is there. -/
  create : String → m (Except FileFault Unit)
  /-- Writes the text of a file that was created. -/
  write : String → String → m (Except FileFault Unit)
  remove : String → m (Except FileFault Unit)
  /-- The names in a directory, in no particular order, and what has them. A link
  is neither a file nor a directory. -/
  list : String → m (Except FileFault (List (String × Option EntryKind)))

end JackVm
