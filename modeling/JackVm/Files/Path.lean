/-!
# Paths

A path is a text whose parts are separated by slashes. Its file name is the last
part; empty parts and parts `.` at the end do not count. The extension of a file
name follows its last dot, unless the name begins with that dot, and the stem is
what precedes it.

Paths are taken apart by `parts` and put together by `join`, which undo each
other (`join_parts`, `parts_join`).
-/

namespace JackVm.Path

/-- The parts of a path between its slashes; empty ones at doubled slashes and
at the ends. -/
def parts (path : String) : List String := (path.toList.splitOn '/').map String.ofList

def join (ps : List String) : String := "/".intercalate ps

theorem join_parts (path : String) : join (parts path) = path := by
  apply String.toList_inj.mp
  have h : "/".toList = ['/'] := rfl
  simp only [join, parts, String.toList_intercalate, List.map_map, h]
  have id_map : (path.toList.splitOn '/').map (String.toList ∘ String.ofList)
      = path.toList.splitOn '/' := by
    simp [Function.comp_def]
  rw [id_map, List.intercalate_splitOn]

theorem parts_join {ps : List String} (h : ∀ p ∈ ps, '/' ∉ p.toList) (ne : ps ≠ []) :
    parts (join ps) = ps := by
  have slash : "/".toList = ['/'] := rfl
  simp only [join, parts, String.toList_intercalate, slash]
  rw [List.splitOn_intercalate '/' (by simpa using h) (by simpa using ne)]
  simp [Function.comp_def]

/-- Whether a path begins at the root, and not where it is used. -/
def isAbsolute (path : String) : Bool := path.toList.head? = some '/'

/-- Drops empty parts and parts `.` from the end of a path (given last part
first). The part that begins the path stays. -/
def trimEnd : List String → List String
  | p :: q :: rest => if p = "" ∨ p = "." then trimEnd (q :: rest) else p :: q :: rest
  | ps => ps

/-- The parts before the file name, and the file name. There is none in `..`, `.`,
`/` and the empty path. -/
def split? (path : String) : Option (List String × String) :=
  match trimEnd (parts path).reverse with
  | [] => none
  | name :: before =>
      if name = "" ∨ name = "." ∨ name = ".." then none else some (before.reverse, name)

/-- The stem of a file name, and its extension if it has one. -/
def splitName (name : String) : String × Option String :=
  let reversed := name.toList.reverse
  match reversed.dropWhile (· ≠ '.') with
  | '.' :: c :: stem =>
      (String.ofList (c :: stem).reverse,
        some (String.ofList (reversed.takeWhile (· ≠ '.')).reverse))
  | _ => (name, none)

/-- The extension of a path's file name. -/
def extension? (path : String) : Option String :=
  (split? path).bind fun (_, name) => (splitName name).2

/-- The stem of a path's file name. -/
def stem? (path : String) : Option String :=
  (split? path).map fun (_, name) => (splitName name).1

/-- Whether a path names a source file. -/
def isSource (path : String) : Bool := extension? path = some "jack"

/-- The path of the code compiled from a source: its extension becomes `vm`. A
path without a file name stays as it is. -/
def output (path : String) : String :=
  match split? path with
  | none => path
  | some (directory, name) => join (directory ++ [(splitName name).1 ++ ".vm"])

/-- The path of the token listing of a source, in the source's directory. -/
def listing (path : String) : String :=
  match split? path with
  | none => path
  | some (directory, name) =>
      join ((trimEnd directory.reverse).reverse ++ [(splitName name).1 ++ "T.xml"])

/-- Whether a list of names comes before another or is the same: the first names
that differ decide. -/
def inOrder : List String → List String → Bool
  | [], _ => true
  | _ :: _, [] => false
  | a :: as, b :: bs => if a = b then inOrder as bs else a < b

/-- The path of what stands below a directory, given by the names on the way. -/
def below (directory : String) (names : List String) : String :=
  let ps := parts directory
  join ((if ps.getLast? = some "" then ps.dropLast else ps) ++ names)

end JackVm.Path
