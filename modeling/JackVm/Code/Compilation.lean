import JackVm.Code.Engine

/-!
# Compilations

A compilation is all that compiling a class leads to, whether it goes well or not.
-/

namespace JackVm

/-- What compiling leads to: the result, where the cursor is, the variables, and
what was written and noted. -/
structure Compilation where
  result : Except Failure Unit
  cursor : Cursor
  table : VariableTable
  sink : Sink
  log : Array Record

namespace Compilation

/-- How an engine has come out of a class. -/
def ofEngine (result : Except Failure Unit) (e : Engine) : Compilation where
  result := result
  cursor := e.tape.cursor
  table := e.scope.table
  sink := e.sink
  log := e.log

/-- The compilation of the class that begins after the cursor, by a new engine. The engine always
returns, so the last case does not come up. -/
def ofCursor (t : Target) (cursor : Cursor) (table : VariableTable) (sink : Sink) :
    Compilation :=
  let start : Engine := { tape := .ofCursor cursor, scope := { table := table }, sink := sink }
  match (Engine.compile t).run.run start with
  | some (result, e) => ofEngine result e
  | none => ofEngine (.ok ()) start

/-- The compilation of a token list by itself, with no variables declared. -/
def ofTokens (t : Target) (tokens : List Token) (outlet : Outlet) : Compilation :=
  ofCursor t { tokens := tokens } {} { outlet := outlet }

/-- Flushes the outlet of a compilation that went well. -/
def flush (c : Compilation) : Compilation :=
  match c.result, c.sink.outlet.flush with
  | .ok (), .error fault => { c with result := .error (.io fault.message) }
  | _, _ => c

/-- The compilation of a source text. A text that cannot be scanned leaves the
variables declared before. -/
def ofSource (t : Target) (table : VariableTable) (source : String) (outlet : Outlet) :
    Compilation :=
  match scan source with
  | .error e =>
      { result := .error (.lex e), cursor := { tokens := [] }, table := table
        sink := { outlet := outlet }, log := #[] }
  | .ok tokens => (ofTokens t tokens outlet).flush

end Compilation

end JackVm
