import JackVm.Code.Scope
import JackVm.Cursor
import JackVm.Grammar.Goal
import JackVm.Sink
import JackVm.Token.Scanner

/-!
# Failures

Everything that can go wrong, each with its message. Failures in a source carry
the line they are reported on.
-/

namespace JackVm

/-- Why a token list is not a class that obeys the rules. -/
inductive Cause where
  /-- The tokens end where a goal waits. -/
  | starved (goal : Goal)
  | refused (r : Refusal)
  | static (e : StaticError)
  | cursor (fault : CursorFault)
  /-- A subroutine begins with a word that is no kind of subroutine. -/
  | noKind
  /-- There is no code for an operator. -/
  | unknownOperator (op : Char)
deriving DecidableEq, Repr

def Cause.message : Cause → String
  | .starved goal => goal.starvation
  | .refused r => r.message
  | .static e => e.message
  | .cursor fault => fault.message
  | .noKind => "Expected constructor, function or method."
  | .unknownOperator op => "Unknown operator " ++ op.toString

/-- What the file system answers to a request it does not fulfil. -/
inductive FileFault where
  | missing
  | notDirectory
  | isDirectory
  | nameTooLong
  | tooManyLinks
  /-- A path holds the character that ends texts in the file system. -/
  | nulInPath
  | notText
  | other (text : String)
deriving DecidableEq, Repr

def FileFault.message : FileFault → String
  | .missing => "No such file or directory (os error 2)"
  | .notDirectory => "Not a directory (os error 20)"
  | .isDirectory => "Is a directory (os error 21)"
  | .nameTooLong => "File name too long (os error 36)"
  | .tooManyLinks => "Too many levels of symbolic links (os error 40)"
  | .nulInPath => "file name contained an unexpected NUL byte"
  | .notText => "stream did not contain valid UTF-8"
  | .other text => text

/-- Why a path cannot be compiled. -/
inductive FileProblem where
  | notSource
  | unreadable (fault : FileFault)
  | noListing (fault : FileFault)
  | noOutput (fault : FileFault)
  | absent
  | unlistable (fault : FileFault)
  | noSources
deriving DecidableEq, Repr

def FileProblem.message : FileProblem → String
  | .notSource => "not a .jack file"
  | .unreadable fault => "fail to load file, " ++ fault.message
  | .noListing fault => "cannot create file, " ++ fault.message
  | .noOutput fault => "cannot create output file, " ++ fault.message
  | .absent => "path does not exist"
  | .unlistable fault => "cannot read directory, " ++ fault.message
  | .noSources => "There is no .jack file."

/-- Why compiling failed. -/
inductive Failure where
  | file (path : String) (problem : FileProblem)
  | lex (e : ScanError)
  | compile (cause : Cause) (line : Nat)
  /-- Writing failed, with the writer's own text. -/
  | io (text : String)
  /-- Writing a token listing failed, with the writer's own text. -/
  | xml (text : String)
deriving DecidableEq, Repr

namespace Failure

def message : Failure → String
  | .file path problem =>
      "File Exception: " ++ problem.message ++ " (Path: " ++ path ++ ")"
  | .lex e => e.message
  | .compile cause line =>
      "Compile Exception: " ++ cause.message ++ "\nLine number: " ++ line.repr
  | .io text => "IO Exception: " ++ text
  | .xml text => "XML Exception: emitter error: I/O error: " ++ text

/-- The line of a failure in a source. -/
def line? : Failure → Option Nat
  | .lex e => some e.line
  | .compile _ line => some line
  | .file _ _ | .io _ | .xml _ => none

end Failure

end JackVm
