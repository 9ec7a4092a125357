import JackVm.CommandLine

/-!
# The program

The command line on the file system of the machine it runs on. All that is
decided, is decided elsewhere; here files are read and written and texts are
printed.
-/

namespace JackVm

/-- What the number of an error of the operating system says about a path. Some
requests give the number negated. -/
def faultOfNumber? (code : UInt32) : Option FileFault :=
  match min code (0 - code) with
  | 20 => some .notDirectory
  | 21 => some .isDirectory
  | 36 => some .nameTooLong
  | 40 => some .tooManyLinks
  | _ => none

/-- What an error of the operating system says about a path. -/
def faultOfError (e : IO.Error) : FileFault :=
  match e with
  | .noFileOrDirectory _ _ _ => .missing
  | .inappropriateType _ code _ | .invalidArgument _ code _ =>
      (faultOfNumber? code).getD (.other (toString e))
  | _ => .other (toString e)

/-- The answer of the operating system to a request. -/
def attempt {α : Type} (request : IO α) : IO (Except FileFault α) := do
  match ← request.toBaseIO with
  | .ok a => return .ok a
  | .error e => return .error (faultOfError e)

/-- The text of a file, if its bytes are one. -/
def readText (path : String) : IO (Except FileFault String) := do
  match ← attempt (IO.FS.readBinFile path) with
  | .error fault => return .error fault
  | .ok content =>
      match String.fromUTF8? content with
      | some text => return .ok text
      | none => return .error .notText

/-- A path of the machine, as written. -/
def machinePath (path : String) :=
  IO.currentDir >>= fun here => return { here with toString := path }

/-- The entries of a directory, none of them followed through a link. -/
def entriesOf (path : String) : IO (List (String × Option EntryKind)) := do
  let entries ← (← machinePath path).readDir
  entries.toList.mapM fun entry => do
    match (← entry.path.symlinkMetadata).type with
    | .dir => return (entry.fileName, some .directory)
    | .file => return (entry.fileName, some .file)
    | _ => return (entry.fileName, none)

instance : FileSystem IO where
  kind? path := do
    if path = "" then return none
    match ← (← machinePath path).metadata.toBaseIO with
    | .error _ => return none
    | .ok data => return some (if data.type == .dir then .directory else .file)
  read := readText
  create path := attempt (IO.FS.writeFile path "")
  write path text := attempt (IO.FS.writeFile path text)
  remove path := attempt (IO.FS.removeFile path)
  list path := attempt (entriesOf path)

end JackVm

def main (arguments : List String) : IO UInt32 := do
  let exit ← JackVm.runProgram (m := IO) arguments
  (← IO.getStdout).putStr exit.output
  (← IO.getStderr).putStr exit.errors
  return exit.code
