import JackVm.Files.FileSystem
import JackVm.Files.Path

/-!
# File trees

A file tree is a file system as a value: a list of the entries below a root, each
at its location, and the directory in which paths are used, the home. A location
is the list of names from the root; the locations of links are not followed.

A path is resolved part by part, from the root if it begins with a slash and from
the home otherwise. A link on the way is replaced by its target, at most forty
times. Names and paths have a longest length, counted in bytes.
-/

namespace JackVm

/-- What stands at a location. -/
inductive Node where
  | file (content : ByteArray)
  | directory
  | link (target : String)

/-- What a node is itself. -/
def Node.kind? : Node → Option EntryKind
  | .file _ => some .file
  | .directory => some .directory
  | .link _ => none

/-- The names from the root. -/
abbrev Location := List String

/-- The entries below the root, each location once, and the home. The home and
the directories on the way to it always exist. -/
structure FileTree where
  entries : List (Location × Node) := []
  home : Location := ["home"]

/-- Where following a path ends, unless in an error: at something, or at a name
that nothing in an existing directory has. -/
inductive Spot where
  | taken (location : Location)
  | vacant (location : Location)
deriving DecidableEq, Repr

/-- What a path is followed for. -/
inductive Purpose where
  /-- To use what is there. -/
  | use
  /-- To make or empty a file; a name before a slash is no file's. -/
  | create
  /-- To remove what the path itself names, be it a link. -/
  | remove
deriving DecidableEq, Repr

/-- How far a path leads without following links. -/
inductive Walk where
  | done (result : Except FileFault Spot)
  /-- A link in `directory`, and the parts after it. -/
  | link (directory : Location) (target : String) (rest : List String)

/-- How many links a path may lead through. -/
def maxLinks : Nat := 40

/-- How many bytes a name may have. -/
def maxName : Nat := 255

/-- Why a path is refused before it is followed. -/
def pathFault? (path : String) : Option FileFault :=
  if path.toList.contains '\x00' then some .nulInPath
  else if path = "" then some .missing
  else if path.utf8ByteSize > maxPath then some .nameTooLong
  else none

/-- Where following a path begins that is used at a location. -/
def Location.startOf (here : Location) (path : String) : Location :=
  if Path.isAbsolute path then [] else here

namespace FileTree

def node? (t : FileTree) (location : Location) : Option Node :=
  if location.isPrefixOf t.home then some .directory else t.entries.lookup location

def isDirectory (t : FileTree) (location : Location) : Bool :=
  match t.node? location with
  | some .directory => true
  | _ => false

/-- Puts a node at a location, in place of what is there. -/
def put (t : FileTree) (location : Location) (node : Node) : FileTree :=
  if t.entries.any (·.1 = location) then
    { t with entries := t.entries.map fun e => if e.1 = location then (location, node) else e }
  else { t with entries := t.entries ++ [(location, node)] }

def erase (t : FileTree) (location : Location) : FileTree :=
  { t with entries := t.entries.filter (·.1 ≠ location) }

/-- Follows parts from a location up to the first link. -/
def walk (t : FileTree) (purpose : Purpose) (here : Location) : List String → Walk
  | [] => .done (.ok (.taken here))
  | part :: rest =>
      if !t.isDirectory here then .done (.error .notDirectory)
      else if part = "" ∨ part = "." then t.walk purpose here rest
      else if part = ".." then t.walk purpose here.dropLast rest
      else if purpose = .create ∧ rest ≠ [] ∧ rest.all (· = "") then .done (.error .isDirectory)
      else if part.utf8ByteSize > maxName then .done (.error .nameTooLong)
      else
        let there := here ++ [part]
        match t.node? there with
        | some (.link target) =>
            if purpose = .remove ∧ rest = [] then .done (.ok (.taken there))
            else .link here target rest
        | some _ => t.walk purpose there rest
        | none =>
            if rest.all (· = "") then .done (.ok (.vacant there)) else .done (.error .missing)

/-- Follows parts from a location through at most `links` links. The target of a
link is used in the link's directory. -/
def resolve (t : FileTree) (purpose : Purpose) :
    (links : Nat) → Location → List String → Except FileFault Spot
  | 0, here, parts =>
      match t.walk purpose here parts with
      | .done result => result
      | .link _ _ _ => .error .tooManyLinks
  | links + 1, here, parts =>
      match t.walk purpose here parts with
      | .done result => result
      | .link directory target rest =>
          t.resolve purpose links (directory.startOf target) (Path.parts target ++ rest)

/-- Where a path leads. -/
def find (t : FileTree) (path : String) (purpose : Purpose) : Except FileFault Spot :=
  match pathFault? path with
  | some fault => .error fault
  | none => t.resolve purpose maxLinks (t.home.startOf path) (Path.parts path)

/-- What a path leads to, with its location. -/
def nodeAt (t : FileTree) (path : String) (purpose : Purpose) :
    Except FileFault (Location × Node) :=
  match t.find path purpose with
  | .error fault => .error fault
  | .ok (.vacant _) => .error .missing
  | .ok (.taken location) =>
      match t.node? location with
      | some node => .ok (location, node)
      | none => .error .missing

/-- What a path leads to, links followed. -/
def kind? (t : FileTree) (path : String) : Option EntryKind :=
  match t.nodeAt path .use with
  | .ok (_, .directory) => some .directory
  | .ok (_, .file _) => some .file
  | _ => none

/-- The text of the file a path leads to. -/
def read (t : FileTree) (path : String) : Except FileFault String :=
  match t.nodeAt path .use with
  | .error fault => .error fault
  | .ok (_, .file content) =>
      match String.fromUTF8? content with
      | some text => .ok text
      | none => .error .notText
  | .ok (_, _) => .error .isDirectory

/-- The location where a path makes or changes a file. -/
def fileSpot (t : FileTree) (path : String) : Except FileFault Location :=
  match t.find path .create with
  | .error fault => .error fault
  | .ok (.vacant location) => .ok location
  | .ok (.taken location) =>
      if t.isDirectory location then .error .isDirectory else .ok location

/-- Writes a file where a path leads to. -/
def write (t : FileTree) (path text : String) : Except FileFault FileTree :=
  (t.fileSpot path).map fun location => t.put location (.file text.toUTF8)

/-- Removes the file or link a path names. -/
def remove (t : FileTree) (path : String) : Except FileFault FileTree :=
  match t.nodeAt path .remove with
  | .error fault => .error fault
  | .ok (_, .directory) => .error .isDirectory
  | .ok (location, _) => .ok (t.erase location)

/-- The names in a directory. The next one on the way to the home is among them. -/
def namesIn (t : FileTree) (location : Location) : List String :=
  ((t.home :: t.entries.map (·.1)).filterMap fun l =>
    if location.isPrefixOf l then (l.drop location.length).head? else none).eraseDups

/-- The entries of the directory a path leads to. -/
def list (t : FileTree) (path : String) : Except FileFault (List (String × Option EntryKind)) :=
  match t.nodeAt path .use with
  | .error fault => .error fault
  | .ok (location, .directory) =>
      .ok ((t.namesIn location).map fun name =>
        (name, (t.node? (location ++ [name])).bind Node.kind?))
  | .ok (_, _) => .error .notDirectory

/-- The files below a location, each with the names on the way to it. -/
def filesUnder (t : FileTree) (location : Location) : List (List String × ByteArray) :=
  t.entries.filterMap fun (l, node) =>
    match node with
    | .file content =>
        if location.isPrefixOf l then some (l.drop location.length, content) else none
    | _ => none

/-! ## Building a tree -/

/-- Follows parts from a location, and makes each directory that is missing. -/
def makeDirectories (t : FileTree) (here : Location) : List String → FileTree × Location
  | [] => (t, here)
  | part :: rest =>
      match t.resolve .use maxLinks here [part] with
      | .ok (.taken there) => t.makeDirectories there rest
      | _ => (t.put (here ++ [part]) .directory).makeDirectories (here ++ [part]) rest

/-- Adds a directory with the directories on the way. -/
def addDirectory (t : FileTree) (path : String) : FileTree :=
  (t.makeDirectories t.home (Path.parts path)).1

/-- Adds a file or link with the directories on the way. -/
def addNode (t : FileTree) (path : String) (node : Node) : FileTree :=
  let parts := Path.parts path
  let (t, directory) := t.makeDirectories t.home parts.dropLast
  t.put (directory ++ [parts.getLastD ""]) node

end FileTree

/-- Changes the tree, unless the change fails. -/
def changeTree (change : FileTree → Except FileFault FileTree) :
    StateM FileTree (Except FileFault Unit) := fun t =>
  match change t with
  | .ok t => (.ok (), t)
  | .error fault => (.error fault, t)

instance : FileSystem (StateM FileTree) where
  kind? path := return (← get).kind? path
  read path := return (← get).read path
  create path := changeTree (·.write path "")
  write path text := changeTree (·.write path text)
  remove path := changeTree (·.remove path)
  list path := return (← get).list path

end JackVm
