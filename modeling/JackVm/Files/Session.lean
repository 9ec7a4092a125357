import JackVm.Code.Compilation
import JackVm.Files.FileSystem
import JackVm.Files.Path
import JackVm.Listing

/-!
# Compiling files

A session compiles files one after the other. Each source is compiled to its own
output, next to it; a source that fails does not keep the others from being
compiled. All that a session carries from one file to the next is the variable
table of the last one, for inspection, and the log.
-/

namespace JackVm

/-- How files are compiled. -/
structure BuildOptions where
  runtime : Runtime := {}
  /-- Also write a token listing of each source. -/
  listTokens : Bool := false
  /-- Keep what was written for a source that fails. -/
  keepPartial : Bool := false
deriving DecidableEq, Repr

structure Session where
  table : VariableTable := {}
  log : Array Record := #[]
deriving DecidableEq, Repr

/-- What became of the sources, in their order. -/
structure Report where
  outputs : List String := []
  failures : List (String × Failure) := []
deriving DecidableEq, Repr

def Report.isClean (r : Report) : Bool := r.failures.isEmpty

/-- An action of a session on a file system, which may fail. -/
abbrev SessionM (m : Type → Type) := ExceptT Failure (StateT Session m)

namespace Session

/-- Adds records to the log. -/
def note {m : Type → Type} [MonadStateOf Session m] (rs : List Record) : m Unit :=
  modify fun s => { s with log := s.log ++ rs }

variable {m : Type → Type} [Monad m] [FileSystem m]

/-- Asks the file system for something that must not fail. -/
def require {α : Type} (request : m (Except FileFault α)) (failure : FileFault → Failure) :
    SessionM m α := do
  match ← request with
  | .ok a => return a
  | .error fault => throw (failure fault)

/-- The tokens of a source file. -/
def tokensOf (path : String) : SessionM m (List Token) := do
  if !Path.isSource path then throw (.file path .notSource)
  let source ← require (FileSystem.read path) fun fault => .file path (.unreadable fault)
  match scan source with
  | .error e => throw (.lex e)
  | .ok tokens =>
      note [.tokens path tokens.length]
      return tokens

/-- Makes an empty file for code. -/
def createOutput (path : String) : SessionM m Unit :=
  require (FileSystem.create path) fun fault => .file path (.noOutput fault)

/-- Writes the token listing of a source. -/
def writeListing (source : String) (tokens : List Token) : SessionM m Unit := do
  let path := Path.listing source
  require (FileSystem.create path) fun fault => .file path (.noListing fault)
  require (FileSystem.write path (Listing.text (tokens.map (·.toLexeme))))
    fun fault => .xml fault.message

/-- Removes the output of a source that failed. -/
def discardOutput (path : String) : SessionM m Unit := do
  let outcome ← FileSystem.remove (m := m) path
  note (Record.ofOutcome "cannot remove partial output" FileFault.message outcome)

/-- The result of compiling to a file: code that is right but cannot be written
is a failure too. -/
def outcome : Except Failure Unit → Except FileFault Unit → Except Failure Unit
  | .ok (), .error fault => .error (.io fault.message)
  | result, _ => result

/-- Compiles tokens to a file that was created. -/
def compileTo (options : BuildOptions) (className output : String) (tokens : List Token) :
    SessionM m Unit := do
  let c := Compilation.ofTokens ⟨className, options.runtime⟩ tokens {}
  modify fun s => { s with table := c.table, log := s.log ++ c.log }
  let written ← FileSystem.write (m := m) output c.sink.text
  match outcome c.result written with
  | .ok () => return
  | .error failure =>
      if !options.keepPartial then discardOutput output
      throw failure

/-- Compiles a source file and gives the path of its output. -/
def compileOne (options : BuildOptions) (path : String) : SessionM m String := do
  note [.compiling path]
  let tokens ← tokensOf path
  if options.listTokens then writeListing path tokens
  createOutput (Path.output path)
  compileTo options ((Path.stem? path).getD "") (Path.output path) tokens
  return Path.output path

/-- Searches a directory for sources, and the directories in it, and so on. A source is given by
the names on the way to it. A directory that cannot be listed ends the search. Links are not
entered, so none can lead back; and as every name makes the path longer, a search does not go
deeper than a path can. -/
def walk : (depth : Nat) → String → ExceptT FileFault m (List (List String))
  | 0, _ => throw .nameTooLong
  | depth + 1, path => do
      let entries ← ExceptT.mk (FileSystem.list path)
      let found ← entries.mapM fun (name, kind) =>
        match kind with
        | some .directory => return (← walk depth (Path.below path [name])).map (name :: ·)
        | some .file => return if Path.isSource name then [[name]] else []
        | none => return []
      return found.flatten

/-- The source files that a path stands for: itself, or all below it in the order of the names. -/
def sources (path : String) : SessionM m (List String) := do
  match ← FileSystem.kind? (m := m) path with
  | none => throw (.file path .absent)
  | some .file => if Path.isSource path then return [path] else throw (.file path .notSource)
  | some .directory =>
      let found ← require (walk maxPath path).run fun fault => .file path (.unlistable fault)
      if found.isEmpty then throw (.file path .noSources)
      return (found.mergeSort Path.inOrder).map (Path.below path)

/-- Compiles files in order, each whatever became of those before. -/
def compileEach (options : BuildOptions) : List String → StateT Session m Report
  | [] => return {}
  | path :: rest => do
      match ← (compileOne options path).run with
      | .ok output =>
          let report ← compileEach options rest
          return { report with outputs := output :: report.outputs }
      | .error failure =>
          note [.failed path]
          let report ← compileEach options rest
          return { report with failures := (path, failure) :: report.failures }

/-- Compiles all that a path stands for. -/
def compileUnder (options : BuildOptions) (path : String) : SessionM m Report := do
  compileEach (m := m) options (← sources path)

end Session

end JackVm
