import JackVm.Files.Session

/-!
# The command line

Arguments are read from the left, and the first one that cannot be used decides
how the program ends. An option is given at most once, as `--name value` or
`--name=value` when it takes a value; after `--` every argument is a path.
-/

namespace JackVm

/-- Why arguments cannot be used. -/
inductive UsageError where
  | unknownOption (argument : String)
  | repeated (name : String)
  | unexpectedValue (name : String)
  | missingValue (name : String)
  | emptyPath
  | extraPath (path : String)
  | missingPath
deriving DecidableEq, Repr

def UsageError.message : UsageError → String
  | .unknownOption argument => "unexpected argument '" ++ argument ++ "'"
  | .repeated name => "option '--" ++ name ++ "' is given twice"
  | .unexpectedValue name => "option '--" ++ name ++ "' takes no value"
  | .missingValue name => "option '--" ++ name ++ "' needs a value"
  | .emptyPath => "the path is empty"
  | .extraPath path => "unexpected path '" ++ path ++ "'"
  | .missingPath => "no path is given"

/-- What a program run is for. -/
inductive Request where
  | compile (path : String) (options : BuildOptions)
  | version
  | help
deriving DecidableEq, Repr

/-- The arguments read so far. -/
structure Arguments where
  path : Option String := none
  tokens : Bool := false
  keepPartial : Bool := false
  memory : Option String := none
  math : Option String := none
  string : Option String := none
deriving DecidableEq, Repr

/-- The options that take no value and change how files are compiled. -/
inductive Switch where
  | tokens
  | keepPartial
deriving DecidableEq, Repr

/-- The options that name a class of the runtime. -/
inductive Setting where
  | memory
  | math
  | string
deriving DecidableEq, Repr

/-- What an option's name stands for. -/
inductive OptionKind where
  | switch (s : Switch)
  | setting (s : Setting)
  | version
  | help
deriving DecidableEq, Repr

def OptionKind.ofName? : String → Option OptionKind
  | "tokens" => some (.switch .tokens)
  | "keep-partial" => some (.switch .keepPartial)
  | "memory-class" => some (.setting .memory)
  | "math-class" => some (.setting .math)
  | "string-class" => some (.setting .string)
  | "version" => some .version
  | "help" => some .help
  | _ => none

/-- How an argument reads. -/
inductive Argument where
  /-- From here on every argument is a path. -/
  | pathsOnly
  /-- An option by its name, with the value after `=` if there is one. -/
  | long (name : String) (value : Option String)
  /-- Options by single characters. -/
  | short (first : Char)
  | plain
deriving DecidableEq, Repr

/-- The name of an option, and the value after `=` if there is one. -/
def splitOption (cs : List Char) : String × Option String :=
  let name := String.ofList (cs.takeWhile (· ≠ '='))
  match cs.dropWhile (· ≠ '=') with
  | _ :: value => (name, some (String.ofList value))
  | [] => (name, none)

def Argument.ofText (text : String) : Argument :=
  match text.toList with
  | ['-', '-'] => .pathsOnly
  | '-' :: '-' :: cs => .long (splitOption cs).1 (splitOption cs).2
  | '-' :: c :: _ => .short c
  | _ => .plain

namespace Arguments

def setSwitch (a : Arguments) (name : String) : Switch → Except UsageError Arguments
  | .tokens => if a.tokens then .error (.repeated name) else .ok { a with tokens := true }
  | .keepPartial =>
      if a.keepPartial then .error (.repeated name) else .ok { a with keepPartial := true }

def setSetting (a : Arguments) (name value : String) : Setting → Except UsageError Arguments
  | .memory =>
      if a.memory.isSome then .error (.repeated name) else .ok { a with memory := some value }
  | .math => if a.math.isSome then .error (.repeated name) else .ok { a with math := some value }
  | .string =>
      if a.string.isSome then .error (.repeated name) else .ok { a with string := some value }

def setPath (a : Arguments) (path : String) : Except UsageError Arguments :=
  if path = "" then .error .emptyPath
  else if a.path.isSome then .error (.extraPath path)
  else .ok { a with path := some path }

def options (a : Arguments) : BuildOptions :=
  let names : Runtime := {}
  { runtime :=
      { memory := a.memory.getD names.memory
        math := a.math.getD names.math
        string := a.string.getD names.string }
    listTokens := a.tokens
    keepPartial := a.keepPartial }

/-- The request when no more arguments follow. -/
def finish (a : Arguments) : Except UsageError Request :=
  match a.path with
  | some path => .ok (.compile path a.options)
  | none => .error .missingPath

/-- Reads arguments of which every one is a path. -/
def readPaths (a : Arguments) (paths : List String) : Except UsageError Request := do
  (← paths.foldlM setPath a).finish

/-- Reads arguments from the left. -/
def read (a : Arguments) : List String → Except UsageError Request
  | [] => a.finish
  | text :: rest =>
      match Argument.ofText text with
      | .pathsOnly => a.readPaths rest
      | .plain => do read (← a.setPath text) rest
      | .short 'V' => .ok .version
      | .short 'h' => .ok .help
      | .short _ => .error (.unknownOption text)
      | .long name value =>
          match OptionKind.ofName? name, value with
          | none, _ => .error (.unknownOption text)
          | some (.setting s), some value => do read (← a.setSetting name value s) rest
          | some (.setting s), none =>
              match rest with
              | [] => .error (.missingValue name)
              | value :: rest =>
                  if Argument.ofText value = .plain then do
                    read (← a.setSetting name value s) rest
                  else .error (.missingValue name)
          | some _, some _ => .error (.unexpectedValue name)
          | some (.switch s), none => do read (← a.setSwitch name s) rest
          | some .version, none => .ok .version
          | some .help, none => .ok .help

end Arguments

/-- What the arguments of the program ask for. -/
def Request.ofArguments (arguments : List String) : Except UsageError Request :=
  Arguments.read {} arguments

/-- How a program run ends. -/
structure Exit where
  code : UInt32
  output : String := ""
  errors : String := ""
deriving DecidableEq, Repr

def usageText : String :=
  "Usage: jackc [OPTIONS] <PATH>\n"

def helpText : String :=
  "Compiles Jack classes into VM code\n\n" ++ usageText ++
  "\nArguments:\n" ++
  "  <PATH>  A .jack file, or a directory searched recursively for .jack files\n" ++
  "\nOptions:\n" ++
  "      --tokens                       Also write the token listing of each source\n" ++
  "      --keep-partial                 Keep the partial output of a file that fails\n" ++
  "      --memory-class <MEMORY_CLASS>  Class providing alloc [default: Memory]\n" ++
  "      --math-class <MATH_CLASS>      Class providing multiply and divide [default: Math]\n" ++
  "      --string-class <STRING_CLASS>  Class providing new and appendChar [default: String]\n" ++
  "  -h, --help                         Print help\n" ++
  "  -V, --version                      Print version\n"

def versionText : String := "jack_compiler 0.1.0\n"

/-- How a run ends whose sources became what the report says. -/
def Report.exit (r : Report) : Exit :=
  { code := if r.isClean then 0 else 1
    errors := r.failures.foldl
      (fun text (path, failure) => text ++ path ++ "\n" ++ failure.message ++ "\n") "" }

/-- Runs the program on a file system. -/
def runProgram {m : Type → Type} [Monad m] [FileSystem m] (arguments : List String) : m Exit := do
  match Request.ofArguments arguments with
  | .error e => return { code := 2, errors := "error: " ++ e.message ++ "\n\n" ++ usageText }
  | .ok .version => return { code := 0, output := versionText }
  | .ok .help => return { code := 0, output := helpText }
  | .ok (.compile path options) =>
      let (result, _) ← ((Session.compileUnder options path).run).run {}
      match result with
      | .ok report => return report.exit
      | .error failure => return { code := 1, errors := failure.message ++ "\n" }

end JackVm
