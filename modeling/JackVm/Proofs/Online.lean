import JackVm.Code.Compilation
import JackVm.Proofs.Feed

/-!
# Compiling one lexeme at a time

This compiler is fed one lexeme after the other and never looks back: what it has written and
declared after some lexemes does not depend on those that follow. It joins the items still to be
read, the scope of names, and the sink that takes the code. The first fault stops it for good.

Faults are located by the index of a token. Its line is looked up only at the end, when the fault
is reported.
-/

namespace JackVm

/-- Why the compiler stopped. -/
inductive Fault where
  | source (cause : Cause)
  | outlet (fault : OutletFault)
deriving DecidableEq, Repr

structure Compiler where
  items : List Item := classItems
  scope : Scope := {}
  sink : Sink := {}
  log : Array Record := #[]
  /-- The index of the next token. -/
  next : Nat := 0
  /-- The first fault and the token it is located at. -/
  stopped : Option (Fault × Nat) := none
deriving DecidableEq, Repr

namespace Compiler

def stop (c : Compiler) (fault : Fault) (position : Nat) : Compiler :=
  { c with stopped := some (fault, position) }

/-- Performs an event located at a token: checks it, then writes its code. -/
def perform (t : Target) (c : Compiler) (position : Nat) (e : Event) : Compiler :=
  match c.stopped with
  | some _ => c
  | none =>
      match c.scope.perform t e with
      | .error static => c.stop (.source (.static static)) position
      | .ok (scope, code) =>
          let log := c.log ++ c.scope.records e
          match c.sink.writeAll code with
          | (sink, none) => { c with scope := scope, sink := sink, log := log }
          | (sink, some fault) => { c with sink := sink, log := log }.stop (.outlet fault) position

/-- Performs the events of a lexeme in order. -/
def performAll (t : Target) (c : Compiler) (events : List (Place × Event)) : Compiler :=
  events.foldl (fun c (place, e) => c.perform t (place.index c.next) e) c

/-- Goes on to the items still to be read, unless a lexeme was refused. -/
def proceed (c : Compiler) (rest : Except Refusal (List Item)) : Compiler :=
  match c.stopped, rest with
  | some _, _ => c
  | none, .ok items => { c with items := items, next := c.next + 1 }
  | none, .error r => c.stop (.source (.refused r)) c.next

/-- Reads one lexeme. -/
def step (t : Target) (c : Compiler) (l : Lexeme) : Compiler :=
  match c.stopped with
  | some _ => c
  | none =>
      let fed := feed l c.items
      (c.performAll t fed.events).proceed fed.rest

/-- Reads lexemes in order. -/
def run (t : Target) (c : Compiler) (ls : List Lexeme) : Compiler := ls.foldl (step t) c

section
variable {t : Target} {c : Compiler}

theorem perform_of_stopped (h : c.stopped.isSome) (k : Nat) (e : Event) :
    c.perform t k e = c := by
  obtain ⟨stop, h⟩ := Option.isSome_iff_exists.mp h
  simp [perform, h]

theorem perform_of_running (h : c.stopped = none) (k : Nat) (e : Event) :
    c.perform t k e =
      match c.scope.perform t e with
      | .error static => c.stop (.source (.static static)) k
      | .ok (scope, code) =>
          let log := c.log ++ c.scope.records e
          match c.sink.writeAll code with
          | (sink, none) => { c with scope := scope, sink := sink, log := log }
          | (sink, some fault) => { c with sink := sink, log := log }.stop (.outlet fault) k := by
  unfold perform
  split
  · next hc => cases h.symm.trans hc
  · rfl

theorem proceed_of_stopped (h : c.stopped.isSome) (rest : Except Refusal (List Item)) :
    c.proceed rest = c := by
  obtain ⟨stop, h⟩ := Option.isSome_iff_exists.mp h
  simp [proceed, h]

theorem proceed_of_running (h : c.stopped = none) (rest : Except Refusal (List Item)) :
    c.proceed rest =
      match rest with
      | .ok items => { c with items := items, next := c.next + 1 }
      | .error r => c.stop (.source (.refused r)) c.next := by
  unfold proceed
  split
  · next hc => cases h.symm.trans hc
  · rfl
  · rfl

theorem next_perform (c : Compiler) (k : Nat) (e : Event) : (c.perform t k e).next = c.next := by
  unfold perform
  split
  · rfl
  split
  · rfl
  split <;> rfl

theorem performAll_of_stopped (h : c.stopped.isSome) : ∀ events : List (Place × Event),
    c.performAll t events = c
  | [] => rfl
  | (place, e) :: events => by
      change (c.perform t (place.index c.next) e).performAll t events = c
      rw [perform_of_stopped h, performAll_of_stopped h events]

end

@[simp] theorem run_append (t : Target) (c : Compiler) (as bs : List Lexeme) :
    c.run t (as ++ bs) = (c.run t as).run t bs := by
  simp [run]

theorem step_of_stopped {t : Target} {c : Compiler} (h : c.stopped.isSome) (l : Lexeme) :
    c.step t l = c := by
  obtain ⟨fault, h⟩ := Option.isSome_iff_exists.mp h
  simp [step, h]

/-- A fault is final: nothing that follows changes anything. -/
theorem run_of_stopped {t : Target} {c : Compiler} (h : c.stopped.isSome) (ls : List Lexeme) :
    c.run t ls = c := by
  induction ls with
  | nil => rfl
  | cons l ls ih => simpa [run, step_of_stopped h] using ih

/-- The fault when no more tokens follow. -/
def fault? (c : Compiler) : Option (Fault × Nat) :=
  c.stopped.or <| (awaited? c.items).map fun goal => (.source (.starved goal), c.next - 1)

/-- Where the compiler stands: at its fault, or at the last token read. -/
def position (c : Compiler) : Option Nat :=
  match c.stopped with
  | some (_, position) => some position
  | none => if c.next = 0 then none else some (c.next - 1)

end Compiler

/-- The failure that a fault is reported as. A class that does not even begin is
reported on line 1. -/
def Fault.report (cursor : Cursor) (position : Nat) : Fault → Failure
  | .source (.starved .classDec) => .compile (.starved .classDec) 1
  | .source cause => .compile cause (cursor.lineAt (some position))
  | .outlet fault => .io fault.message

namespace Compiler

/-- What becomes of a class whose tokens end here, and the engine that is left then. -/
def ending (c : Compiler) (tokens : List Token) : Engine.Ending :=
  (match c.fault? with
    | none => .ok ()
    | some (fault, position) => .error (fault.report { tokens := tokens } position),
    { tape := .ofCursor { tokens := tokens, position := c.position }
      scope := c.scope
      sink := c.sink
      log := c.log })

def compilation (c : Compiler) (tokens : List Token) : Compilation :=
  .ofEngine (c.ending tokens).1 (c.ending tokens).2

end Compiler

/-- The compiler after a token list, with some variables declared before it. -/
def Compilation.atEnd (t : Target) (tokens : List Token) (table : VariableTable) (sink : Sink) :
    Compiler :=
  Compiler.run t { scope := { table := table }, sink := sink } (tokens.map (·.toLexeme))

end JackVm
