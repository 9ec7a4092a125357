import JackVm.Proofs.Messages
import JackVm.Proofs.Viability

/-!
# An engine never blames itself

Some failures of the engine would tell of a defect: a step back from the first token, a step ahead
from the last, a subroutine of no kind, an operator without code. The engine reads every class as
the compiler does that is fed one lexeme at a time (`run_compile`), and that one stops only for
what lies with the tokens, or with the sink.

One class leaves the engine in some state, whether it went well or not, and the next begins there.
But a class is read so from every state.

Main statement: of classes compiled in turn on one engine, none fails with a defect
(`compileInTurn_blames_source`).
-/

namespace JackVm

namespace Compiler

variable {t : Target} {c : Compiler} {ls : List Lexeme} {fault : Fault} {k : Nat} {cause : Cause}

/-- A fault is that a lexeme stops the compiler, or that no more follow. -/
theorem exists_stop_or_starved (hc : c.stopped = none) (h : (c.run t ls).fault? = some (fault, k)) :
    (∃ before l after, ls = before ++ l :: after ∧ (c.run t before).stopped = none ∧
      Stops t (c.run t before) l fault k) ∨ ∃ goal, fault = .source (.starved goal) := by
  unfold fault? at h
  cases hstopped : (c.run t ls).stopped with
  | some stop =>
      obtain rfl : stop = (fault, k) := by simpa [hstopped] using h
      exact .inl (exists_stop hc hstopped)
  | none =>
      rw [hstopped, Option.none_or, Option.map_eq_some_iff] at h
      obtain ⟨goal, -, hgoal⟩ := h
      exact .inr ⟨goal, (Prod.mk.inj hgoal).1.symm⟩

theorem isOfSource_of_fault? (hc : c.stopped = none)
    (h : (c.run t ls).fault? = some (.source cause, k)) : cause.IsOfSource := by
  rcases exists_stop_or_starved hc h with ⟨before, l, after, -, -, hstops⟩ | ⟨goal, hgoal⟩
  · cases hstops with
    | static => trivial
    | refused => trivial
  · obtain rfl := Fault.source.inj hgoal
    trivial

/-- The scanner has looked at integer constants before the compiler does. -/
theorem ne_invalidInteger_of_fault? (hc : c.stopped = none) (hitems : c.items = classItems)
    (hls : ∀ l ∈ ls, l.Proper) (h : (c.run t ls).fault? = some (.source cause, k)) :
    cause ≠ .static .invalidInteger := by
  rintro rfl
  rcases exists_stop_or_starved hc h with ⟨before, l, after, rfl, hrunning, hstops⟩ | ⟨goal, hgoal⟩
  · rw [List.forall_mem_append, List.forall_mem_cons] at hls
    obtain ⟨hbefore, hl, -⟩ := hls
    cases hstops with
    | static he herr =>
        have hreadable := (inner_next hl hbefore hitems hrunning).1 _ he
        exact Scope.perform_ne_invalidInteger hreadable herr
  · cases hgoal

end Compiler

/-! ## One class -/

namespace Engine

variable {t : Target} {e : Engine} {failure : Failure}

theorem tokens_outcome (t : Target) (e : Engine) :
    (e.outcome t).2.tape.tokens = e.tape.tokens := Tape.tokens_ofCursor _

/-- The tokens of a source text are proper, and so are those that are still ahead. -/
theorem proper_ahead {source : String} (h : scan source = .ok e.tape.tokens) :
    ∀ l ∈ e.tape.ahead.map (·.toLexeme), l.Proper := by
  intro l hl
  apply proper_of_scan h
  rw [Tape.tokens, List.map_append]
  exact List.mem_append_right _ hl

/-- The failure lies with the sink, or its cause lies with the tokens. -/
def Blameless (tokens : List Token) (failure : Failure) : Prop :=
  (∃ fault : OutletFault, failure = .io fault.message) ∨
    ∃ cause line, failure = .compile cause line ∧ cause.BlamesSource tokens

/-- From whatever state, a class does not fail with a defect. -/
theorem blameless_of_outcome (h : (e.outcome t).1 = .error failure) :
    Blameless e.tape.tokens failure := by
  simp only [outcome, Compiler.ending] at h
  split at h
  · cases h
  · next fault k hfault =>
      obtain rfl := Except.error.inj h
      cases fault with
      | outlet fault => exact .inl ⟨fault, rfl⟩
      | source cause =>
          have hblames : cause.BlamesSource e.tape.tokens := by
            refine Cause.blamesSource (Compiler.isOfSource_of_fault? rfl hfault) ?_
            intro source hscan
            exact Compiler.ne_invalidInteger_of_fault? rfl rfl (proper_ahead hscan) hfault
          unfold Fault.report
          split
          · next heq => cases heq; exact .inr ⟨_, _, rfl, hblames⟩
          · next heq => cases heq; exact .inr ⟨_, _, rfl, hblames⟩
          · next heq => cases heq

/-- The branches that tell of a defect are there: an engine without any token gets to them, if it
is not asked for a class. -/
example (t : Target) :
    retreat.run.run { tape := {} } =
        some (.error (.compile (.cursor .atStart) 1), { tape := {} }) ∧
      (move Tape.forward).run.run { tape := {} } =
        some (.error (.compile (.cursor .atEnd) 1), { tape := {} }) ∧
      (compileSubroutineDec t).run.run { tape := {} } =
        some (.error (.compile .noKind 1), { tape := {} }) ∧
      (writeOperator t '?').run.run { tape := {} } =
        some (.error (.compile (.unknownOperator '?') 1), { tape := {} }) :=
  ⟨rfl, rfl, rfl, rfl⟩

/-! ## Classes in turn -/

/-- Compiles classes one after the other on one engine, each whatever became of those before. -/
def compileInTurn : List Target → StateT Engine Option (List (Except Failure Unit))
  | [] => return []
  | t :: ts => do
      let result ← (compile t).run
      return result :: (← compileInTurn ts)

theorem run_compileInTurn_cons (t : Target) (ts : List Target) (e : Engine) :
    (compileInTurn (t :: ts)).run e =
      ((compileInTurn ts).run (e.outcome t).2).map fun (rs, e') => ((e.outcome t).1 :: rs, e') := by
  change ((compile t).run.run e).bind (fun (r, m) => _) = _
  rw [run_compile]
  change ((compileInTurn ts).run (e.outcome t).2).bind _ = _
  cases (compileInTurn ts).run (e.outcome t).2 with
  | none => rfl
  | some r => rfl

/-- Whatever the tokens, wherever the engine stands among them, and whatever was declared and
written before: classes compiled in turn, each where the one before has left the engine, all
return, and those that fail do not do so with a defect. -/
theorem compileInTurn_blames_source (ts : List Target) (e : Engine) :
    ∃ results e', (compileInTurn ts).run e = some (results, e') ∧ results.length = ts.length ∧
      ∀ failure, .error failure ∈ results → Blameless e.tape.tokens failure := by
  induction ts generalizing e with
  | nil => exact ⟨[], e, rfl, rfl, fun _ h => absurd h List.not_mem_nil⟩
  | cons t ts ih =>
      obtain ⟨results, e', hrun, hlength, hfailures⟩ := ih (e.outcome t).2
      rw [tokens_outcome] at hfailures
      refine ⟨(e.outcome t).1 :: results, e', ?_, ?_, ?_⟩
      · rw [run_compileInTurn_cons, hrun]
        rfl
      · rw [List.length_cons, List.length_cons, hlength]
      · intro failure hmem
        rcases List.mem_cons.mp hmem with hfirst | hrest
        · exact blameless_of_outcome hfirst.symm
        · exact hfailures failure hrest

/-- A class that uses an unknown variable and breaks off, between a semicolon and an empty class
of the same name. -/
def resumedSource : String :=
  "; class A \x7bfunction int f() \x7breturn x\x7d class A \x7b\x7d"

open JackVm.Tree in
/-- An engine that has read the semicolon. -/
def resumedEngine : Engine where
  tape := {
    seen := [⟨mark ';', 1⟩]
    ahead := [word "class", ⟨.identifier, "A"⟩, mark '{', word "function", word "int",
      ⟨.identifier, "f"⟩, mark '(', mark ')', mark '{', word "return", ⟨.identifier, "x"⟩,
      mark '}', word "class", ⟨.identifier, "A"⟩, mark '{', mark '}'].map (⟨·, 1⟩) }

/-- First the engine steps back from the brace to the variable, and then it begins at the brace.
The third class is the empty one, and for a fourth there are no more tokens. -/
theorem compileInTurn_blames_source_resumed :
    scan resumedSource = .ok resumedEngine.tape.tokens ∧
      ∃ results e', (compileInTurn (List.replicate 4 ⟨"A", {}⟩)).run resumedEngine =
          some (results, e') ∧
        results = [.error (.compile (.static (.undefined "x")) 1),
          .error (.compile (.refused (.unexpected .classDec)) 1), .ok (),
          .error (.compile (.starved .classDec) 1)] ∧
        Blameless resumedEngine.tape.tokens (.compile (.static (.undefined "x")) 1) := by
  obtain ⟨results, e', hrun, -, hfailures⟩ :=
    compileInTurn_blames_source (List.replicate 4 ⟨"A", {}⟩) resumedEngine
  have hresults : results = [.error (.compile (.static (.undefined "x")) 1),
      .error (.compile (.refused (.unexpected .classDec)) 1), .ok (),
      .error (.compile (.starved .classDec) 1)] := by
    simp only [List.replicate, run_compileInTurn_cons] at hrun
    exact (Prod.mk.inj (Option.some.inj hrun)).1.symm
  refine ⟨rfl, results, e', hrun, hresults, hfailures _ ?_⟩
  rw [hresults]
  exact List.mem_cons_self

end Engine

end JackVm
