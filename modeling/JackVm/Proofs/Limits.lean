import JackVm.Proofs.Acceptance
import JackVm.Proofs.Stopping
import Mathlib.Algebra.GroupWithZero.Nat
import Mathlib.Data.List.Induction

/-!
# Outlets with a limit

Two compilers read the same lexemes; the outlet of the first takes everything, that of
the second has a limit. They do the same until a line exceeds the limit. From then on the
second stands still, having taken all lines before that one, and the first can only add
lines (`Narrows`). This is kept by every event, every lexeme and every run.

Main statement: an outlet with a limit changes nothing when all lines fit, and otherwise
takes the longest beginning of the lines that fits and reports that it is full
(`ofSource_limited`).
-/

namespace JackVm

/-! ## The size of code -/

/-- How many bytes the lines of some code have. -/
def codeSize (code : List Instruction) : Nat := (code.map (·.line.utf8ByteSize)).sum

theorem codeSize_append (code code' : List Instruction) :
    codeSize (code ++ code') = codeSize code + codeSize code' := by
  simp [codeSize]

theorem codeSize_singleton (i : Instruction) : codeSize [i] = i.line.utf8ByteSize := by
  simp [codeSize]

theorem codeSize_le {part code : List Instruction} (h : part <+: code) :
    codeSize part ≤ codeSize code := by
  obtain ⟨rest, rfl⟩ := h
  rw [codeSize_append]
  exact Nat.le_add_right _ _

theorem programText_concat (code : List Instruction) (i : Instruction) :
    programText (code ++ [i]) = programText code ++ i.line := by
  simp [programText]

/-- The text of a program is as long as its lines. -/
theorem utf8ByteSize_programText (code : List Instruction) :
    (programText code).utf8ByteSize = codeSize code := by
  induction code using List.reverseRecOn with
  | nil => rfl
  | append_singleton code i ih =>
      rw [programText_concat, String.utf8ByteSize_append, ih, codeSize_append, codeSize_singleton]

/-- `part` is a beginning of `code` that fits, and no longer one does. -/
structure IsLongestWithin (limit : Nat) (code part : List Instruction) : Prop where
  begins : part <+: code
  fits : codeSize part ≤ limit
  longest : ∀ other, other <+: code → codeSize other ≤ limit → other <+: part

/-- The code is cut after `part`: the next line exceeds the limit. -/
def CutAt (limit : Nat) (code part : List Instruction) : Prop :=
  codeSize part ≤ limit ∧ ∃ i, part ++ [i] <+: code ∧ limit < codeSize (part ++ [i])

namespace CutAt

variable {limit : Nat} {code part : List Instruction}

theorem exceeds (h : CutAt limit code part) : limit < codeSize code := by
  obtain ⟨-, i, hbegins, hi⟩ := h
  exact Nat.lt_of_lt_of_le hi (codeSize_le hbegins)

/-- What follows the cut does not matter. -/
theorem extend {more : List Instruction} (h : CutAt limit code part) (hmore : code <+: more) :
    CutAt limit more part := by
  obtain ⟨hfits, i, hbegins, hi⟩ := h
  exact ⟨hfits, i, hbegins.trans hmore, hi⟩

theorem isLongest (h : CutAt limit code part) : IsLongestWithin limit code part := by
  obtain ⟨hfits, i, hbegins, hi⟩ := h
  refine ⟨(List.prefix_append part [i]).trans hbegins, hfits, ?_⟩
  intro other hother hsize
  -- a beginning that has the line after the cut is too long
  have hshort : ¬part ++ [i] <+: other := by
    intro hlong
    have hle := codeSize_le hlong
    omega
  rcases List.prefix_or_prefix_of_prefix hother hbegins with hle | hlong
  · rcases List.prefix_concat_iff.mp hle with rfl | hpart
    · exact absurd List.prefix_rfl hshort
    · exact hpart
  · exact absurd hlong hshort

end CutAt

/-! ## Sinks -/

namespace Sink

/-- The same sink with another outlet. -/
def onto (s : Sink) (outlet : Outlet) : Sink := { s with outlet := outlet }

/-- Takes an instruction, whatever the outlet says. -/
def accept (s : Sink) (i : Instruction) : Sink :=
  { s with taken := i :: s.taken, size := s.size + i.line.utf8ByteSize }

/-- The outlet never fails, and the size is that of the lines taken. -/
structure Free (s : Sink) : Prop where
  outlet_eq : s.outlet = {}
  size_eq : s.size = codeSize s.code

@[simp] theorem code_onto (s : Sink) (outlet : Outlet) : (s.onto outlet).code = s.code := rfl

theorem code_accept (s : Sink) (i : Instruction) : (s.accept i).code = s.code ++ [i] := by
  simp [accept, code]

variable {s : Sink} {outlet : Outlet} {limit : Nat}

theorem Free.accept (hs : s.Free) (i : Instruction) : (s.accept i).Free := by
  refine ⟨hs.outlet_eq, ?_⟩
  rw [code_accept, codeSize_append, codeSize_singleton, ← hs.size_eq]
  rfl

theorem Free.write (hs : s.Free) (i : Instruction) : s.write i = .ok (s.accept i) := by
  simp [Sink.write, Outlet.admits, hs.outlet_eq, Sink.accept]

theorem Free.write_onto (hs : s.Free) (ho : outlet.limit = some limit) (i : Instruction) :
    (s.onto outlet).write i =
      if codeSize (s.code ++ [i]) ≤ limit then .ok ((s.accept i).onto outlet)
      else .error .full := by
  rw [codeSize_append, codeSize_singleton, ← hs.size_eq]
  by_cases hi : s.size + i.line.utf8ByteSize ≤ limit <;>
    simp [Sink.write, Outlet.admits, ho, Sink.accept, onto, hi]

/-- A sink that takes everything and one with a limit are offered the same code: both
take it, or the second one takes what comes before the first line too many. -/
theorem Free.writeAll (ho : outlet.limit = some limit) :
    ∀ (code : List Instruction) {s : Sink}, s.Free → codeSize s.code ≤ limit →
      ∃ s', s.writeAll code = (s', none) ∧
        ((s'.Free ∧ codeSize s'.code ≤ limit ∧
            (s.onto outlet).writeAll code = (s'.onto outlet, none)) ∨
          ∃ d, (s.onto outlet).writeAll code = (d, some .full) ∧ CutAt limit s'.code d.code)
  | [], s, hs, hfits => ⟨s, rfl, .inl ⟨hs, hfits, rfl⟩⟩
  | i :: code, s, hs, hfits => by
      have hwrite := hs.write_onto ho i
      by_cases hi : codeSize (s.code ++ [i]) ≤ limit
      · rw [if_pos hi] at hwrite
        obtain ⟨s', hfree, hcases⟩ :=
          Free.writeAll ho code (hs.accept i) (by rw [code_accept]; exact hi)
        refine ⟨s', ?_, ?_⟩
        · rw [Sink.writeAll, hs.write i]
          exact hfree
        · rw [Sink.writeAll, hwrite]
          exact hcases
      · rw [if_neg hi] at hwrite
        obtain ⟨s', hfree⟩ := Sink.writeAll_unlimited (i :: code) (congrArg Outlet.limit hs.outlet_eq)
        refine ⟨s', hfree, .inr ⟨s.onto outlet, ?_, hfits, i, ?_, by simpa using hi⟩⟩
        · rw [Sink.writeAll, hwrite]
        · rw [(Sink.writeAll_spec hfree).1, code_onto, List.prefix_append_right_inj]
          exact List.prefix_append [i] code

end Sink

/-! ## Compilers -/

namespace Compiler

variable {t : Target} {c : Compiler}

/-- The same compiler with another outlet. -/
def onto (c : Compiler) (outlet : Outlet) : Compiler := { c with sink := c.sink.onto outlet }


end Compiler

/-- The second compiler does what the first does, as far as its outlet allows: it does the
same, or it has stopped where the code of the first is cut. -/
inductive Narrows (outlet : Outlet) (limit : Nat) (c : Compiler) : Compiler → Prop where
  | same (hs : c.sink.Free) (hfits : codeSize c.sink.code ≤ limit) :
      Narrows outlet limit c (c.onto outlet)
  | full {d : Compiler} {position : Nat} (hd : d.stopped = some (.outlet .full, position))
      (hcut : CutAt limit c.sink.code d.sink.code) : Narrows outlet limit c d

namespace Narrows

variable {outlet : Outlet} {limit : Nat} {t : Target} {c d : Compiler}

theorem perform (ho : outlet.limit = some limit) (h : Narrows outlet limit c d) (place : Place)
    (e : Event) : Narrows outlet limit (c.perform t (place.index c.next) e)
      (d.perform t (place.index d.next) e) := by
  cases h with
  | full hd hcut =>
      rw [Compiler.perform_of_stopped (c := d) (by simp [hd])]
      exact .full hd (hcut.extend (c.prefix_perform _ e))
  | same hs hfits =>
      cases hc : c.stopped with
      | some stop =>
          have hsome : c.stopped.isSome := by simp [hc]
          rw [Compiler.perform_of_stopped hsome,
            Compiler.perform_of_stopped (c := c.onto outlet) hsome]
          exact .same hs hfits
      | none =>
          rw [Compiler.perform_of_running hc, Compiler.perform_of_running (c := c.onto outlet) hc]
          cases he : c.scope.perform t e with
          | error err =>
              simp only [Compiler.onto, he]
              exact .same (c := c.stop _ _) hs hfits
          | ok r =>
              obtain ⟨scope, code⟩ := r
              obtain ⟨s, hfree, ⟨hs', hfits', hsame⟩ | ⟨m, hfull, hcut⟩⟩ :=
                Sink.Free.writeAll ho code hs hfits
              · simp only [Compiler.onto, he, hfree, hsame]
                exact .same (c := { c with scope := scope, sink := s, log := _ }) hs' hfits'
              · simp only [Compiler.onto, he, hfree, hfull]
                exact .full rfl hcut

theorem performAll (ho : outlet.limit = some limit) : ∀ (events : List (Place × Event))
    {c d : Compiler}, Narrows outlet limit c d →
      Narrows outlet limit (c.performAll t events) (d.performAll t events)
  | [], _, _, h => h
  | (place, e) :: events, _, _, h => performAll ho events (h.perform ho place e)

theorem proceed (h : Narrows outlet limit c d) (rest : Except Refusal (List Item)) :
    Narrows outlet limit (c.proceed rest) (d.proceed rest) := by
  cases h with
  | full hd hcut =>
      rw [Compiler.proceed_of_stopped (c := d) (by simp [hd])]
      exact .full hd (by rw [Compiler.sink_proceed]; exact hcut)
  | same hs hfits =>
      cases hc : c.stopped with
      | some stop =>
          have hsome : c.stopped.isSome := by simp [hc]
          rw [Compiler.proceed_of_stopped hsome,
            Compiler.proceed_of_stopped (c := c.onto outlet) hsome]
          exact .same hs hfits
      | none =>
          rw [Compiler.proceed_of_running hc, Compiler.proceed_of_running (c := c.onto outlet) hc]
          cases rest with
          | ok items => exact .same (c := { c with items := items, next := c.next + 1 }) hs hfits
          | error r => exact .same (c := c.stop (.source (.refused r)) c.next) hs hfits

theorem step (ho : outlet.limit = some limit) (h : Narrows outlet limit c d) (l : Lexeme) :
    Narrows outlet limit (c.step t l) (d.step t l) := by
  cases h with
  | full hd hcut =>
      rw [Compiler.step_of_stopped (c := d) (by simp [hd])]
      exact .full hd (hcut.extend (c.prefix_step l))
  | same hs hfits =>
      cases hc : c.stopped with
      | some stop =>
          have hsome : c.stopped.isSome := by simp [hc]
          rw [Compiler.step_of_stopped hsome, Compiler.step_of_stopped (c := c.onto outlet) hsome]
          exact .same hs hfits
      | none =>
          rw [Compiler.step_of_running hc, Compiler.step_of_running (c := c.onto outlet) hc]
          exact ((Narrows.same hs hfits).performAll ho (feed l c.items).events).proceed _

/-- What every step keeps, a run keeps. -/
theorem run (ho : outlet.limit = some limit) : ∀ (ls : List Lexeme) {c d : Compiler},
    Narrows outlet limit c d → Narrows outlet limit (c.run t ls) (d.run t ls)
  | [], _, _, h => h
  | l :: ls, _, _, h => run ho ls (h.step ho l)

end Narrows

/-! ## Compilations -/

namespace Compilation

variable {outlet : Outlet} {limit : Nat}

/-- Tokens are compiled alike with a limit, or they exceed it. -/
theorem ofTokens_limited (ho : outlet.limit = some limit) (t : Target) (tokens : List Token) :
    let free := ofTokens t tokens {}
    let limited := ofTokens t tokens outlet
    (free.sink.Free ∧ codeSize free.sink.code ≤ limit ∧ limited.result = free.result ∧
        limited.sink = free.sink.onto outlet) ∨
      (limited.result = .error (.io OutletFault.full.message) ∧
        CutAt limit free.sink.code limited.sink.code) := by
  intro free limited
  have hstart : Narrows outlet limit {} { sink := { outlet := outlet } } :=
    .same ⟨rfl, rfl⟩ (Nat.zero_le limit)
  have hend : Narrows outlet limit (atEnd t tokens {} {}) (atEnd t tokens {} { outlet := outlet }) :=
    hstart.run ho _
  have hresult : limited.result = _ := result_ofCursor
  have hsink : limited.sink = (atEnd t tokens {} { outlet := outlet }).sink := sink_ofCursor
  have hfree : free.sink = (atEnd t tokens {} {}).sink := sink_ofCursor
  have hfreeResult : free.result = _ := result_ofCursor
  rw [hfree, hfreeResult]
  generalize atEnd t tokens {} { outlet := outlet } = d at hend hresult hsink
  cases hend with
  | same hs hfits => exact .inl ⟨hs, hfits, hresult, hsink⟩
  | full hstopped hcut =>
      refine .inr ⟨?_, hsink ▸ hcut⟩
      rw [hresult, Compiler.fault?, hstopped]
      rfl

/-! ## Flushing -/

section
variable {c : Compilation}

theorem sink_flush (c : Compilation) : c.flush.sink = c.sink := by
  unfold flush
  split <;> rfl

/-- A failing flush is reported when nothing else is. -/
theorem result_flush_of_ok (h : c.result = .ok ()) (hf : c.sink.outlet.flushFails = true) :
    c.flush.result = .error (.io OutletFault.flush.message) := by
  simp [flush, h, Outlet.flush, hf]

theorem result_flush (h : ¬(c.sink.outlet.flushFails = true ∧ c.result = .ok ())) :
    c.flush.result = c.result := by
  unfold flush
  split
  · next fault hok hfault =>
      have hfails : c.sink.outlet.flushFails = true := by
        by_contra hno
        simp [Outlet.flush, hno] at hfault
      exact absurd ⟨hfails, hok⟩ h
  · rfl

end

/-- With a limit on its outlet a source text is compiled as without one when all lines
fit; only the flush may fail then, and is reported only if nothing else is. Otherwise the
outlet is reported full, whatever the result without a limit, and the lines taken are the
longest beginning that fits. -/
theorem ofSource_limited (t : Target) (table : VariableTable) (source : String) (limit : Nat)
    (flushFails : Bool) :
    let free := ofSource t table source {}
    let limited := ofSource t table source { limit := some limit, flushFails := flushFails }
    (free.sink.text.utf8ByteSize ≤ limit →
      limited.sink.text = free.sink.text ∧
        (flushFails = true → free.result = .ok () →
          limited.result = .error (.io "flush failed")) ∧
        (¬(flushFails = true ∧ free.result = .ok ()) → limited.result = free.result)) ∧
      (limit < free.sink.text.utf8ByteSize →
        limited.result = .error (.io "writer is full") ∧
          ∃ part, IsLongestWithin limit free.sink.code part ∧
            limited.sink.text = programText part) := by
  intro free limited
  rw [Sink.text, utf8ByteSize_programText]
  cases hscan : scan source with
  | error e =>
      have hfree : free = ⟨.error (.lex e), { tokens := [] }, table, {}, #[]⟩ := by
        simp [free, ofSource, hscan]
      have hlimited : limited = ⟨.error (.lex e), { tokens := [] }, table,
          { outlet := { limit := some limit, flushFails := flushFails } }, #[]⟩ := by
        simp [limited, ofSource, hscan]
      rw [hfree, hlimited]
      refine ⟨fun _ => ⟨rfl, fun _ hok => ?_, fun _ => rfl⟩, fun hlong => ?_⟩
      · cases hok
      · exact absurd hlong (Nat.not_lt_zero limit)
  | ok tokens =>
      have hfree : free = (ofTokens t tokens {}).flush := by simp [free, ofSource, hscan]
      have hlimited : limited =
          (ofTokens t tokens { limit := some limit, flushFails := flushFails }).flush := by
        simp [limited, ofSource, hscan]
      rw [hfree, hlimited, sink_flush, sink_flush]
      have ho : Outlet.limit { limit := some limit, flushFails := flushFails } = some limit := rfl
      rcases ofTokens_limited ho t tokens with ⟨hs, hfits, hresult, hsink⟩ | ⟨hresult, hcut⟩
      · have hfreeFlush : (ofTokens t tokens {}).flush.result = (ofTokens t tokens {}).result :=
          result_flush (by simp [hs.outlet_eq])
        rw [hfreeFlush, hsink]
        refine ⟨fun _ => ⟨rfl, fun hfails hok => ?_, fun hno => ?_⟩, fun hlong => ?_⟩
        · exact result_flush_of_ok (hresult.trans hok) (by rw [hsink]; exact hfails)
        · rw [← hresult] at hno ⊢
          exact result_flush (by rw [hsink]; exact hno)
        · exact absurd hlong (Nat.not_lt.mpr hfits)
      · refine ⟨fun hfits => absurd hfits (Nat.not_le.mpr hcut.exceeds), fun _ => ⟨?_, ?_⟩⟩
        · rw [result_flush (by simp [hresult]), hresult]
          rfl
        · exact ⟨_, hcut.isLongest, rfl⟩

/-- A function that takes 38 bytes of code, in lines of 15, 16 and 7 bytes. -/
def returningSource : String := "class A { function void f() { return; } }"

/-- Where the second line does not fit, the third is not taken, although it would fit. Where
all lines fit, a failing flush is all that is reported. -/
theorem ofSource_limited_returning :
    ((ofSource ⟨"A", {}⟩ {} returningSource { limit := some 22 }).result =
        .error (.io "writer is full") ∧
      (∃ part, IsLongestWithin 22 (ofSource ⟨"A", {}⟩ {} returningSource {}).sink.code part ∧
        (ofSource ⟨"A", {}⟩ {} returningSource { limit := some 22 }).sink.text =
          programText part) ∧
      (ofSource ⟨"A", {}⟩ {} returningSource { limit := some 22 }).sink.text =
        "function A.f 0\n") ∧
    (ofSource ⟨"A", {}⟩ {} returningSource { limit := some 38, flushFails := true }).result =
      .error (.io "flush failed") := by
  have hsize : (ofSource ⟨"A", {}⟩ {} returningSource {}).sink.text.utf8ByteSize = 38 := by
    rw [ofSource_eq]
    decide +kernel
  have hok : (ofSource ⟨"A", {}⟩ {} returningSource {}).result = .ok () := by
    rw [ofSource_eq]
    exact result_eq_ok (by decide +kernel)
  have htext : (ofSource ⟨"A", {}⟩ {} returningSource { limit := some 22 }).sink.text =
      "function A.f 0\n" := by
    rw [ofSource_eq]
    decide +kernel
  have hlong := (ofSource_limited ⟨"A", {}⟩ {} returningSource 22 false).2 (by omega)
  have hfits := (ofSource_limited ⟨"A", {}⟩ {} returningSource 38 true).1 (by omega)
  exact ⟨⟨hlong.1, hlong.2, htext⟩, hfits.2.1 rfl hok⟩

end Compilation

end JackVm
