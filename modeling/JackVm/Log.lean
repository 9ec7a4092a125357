/-!
# Log records

What is noted while compiling. Records only tell what happened; nothing depends
on them.
-/

namespace JackVm

inductive Record where
  /-- A file or a subroutine is being compiled. -/
  | compiling (name : String)
  /-- A file was split into tokens. -/
  | tokens (path : String) (count : Nat)
  /-- A file did not compile. -/
  | failed (path : String)
  /-- Something went wrong that does not matter. -/
  | warning (what why : String)
deriving DecidableEq, Repr

/-- The level of a record and its text. -/
def Record.text : Record → String
  | .compiling name => "DEBUG compiling " ++ name
  | .tokens path count => "TRACE " ++ path ++ ": " ++ count.repr ++ " tokens"
  | .failed path => "DEBUG " ++ path ++ " failed"
  | .warning what why => "WARN " ++ what ++ ": " ++ why

/-- The record of an outcome that is passed on: a warning if it is an error. -/
def Record.ofOutcome {ε α : Type} (what : String) (message : ε → String) :
    Except ε α → List Record
  | .ok _ => []
  | .error e => [.warning what (message e)]

end JackVm
