import JackVm.Proofs.Descent
import JackVm.Proofs.Reading

/-!
# Where a compiler stops

What can stop a compiler at a lexeme is said once (`Stops`): a lexeme that is refused,
an event that breaks a rule, or a sink that takes no more. A run that has stopped did so
at one of its lexemes, for one of these reasons (`exists_stop`), and the fault is located
no later than there.

Main statement: what is written and declared for some tokens does not depend on those
that follow, a fault stays what it is, and nothing may follow a class
(`ofCursor_append`).
-/

namespace JackVm

/-! ## What is written stays -/

theorem Sink.prefix_writeAll : ∀ (code : List Instruction) (s : Sink),
    s.code <+: (s.writeAll code).1.code
  | [], s => List.prefix_rfl
  | i :: code, s => by
      rw [Sink.writeAll]
      split
      · next m hm =>
          obtain ⟨hcode, -⟩ := Sink.write_spec hm
          have hrest := Sink.prefix_writeAll code m
          rw [hcode] at hrest
          exact (List.prefix_append _ _).trans hrest
      · exact List.prefix_rfl

namespace Compiler

variable {t : Target}

theorem prefix_perform (c : Compiler) (k : Nat) (e : Event) :
    c.sink.code <+: (c.perform t k e).sink.code := by
  unfold perform
  split
  · exact List.prefix_rfl
  split
  · exact List.prefix_rfl
  · next scope code _ =>
      have hcode := Sink.prefix_writeAll code c.sink
      split
      · next sink hw =>
          rw [hw] at hcode
          exact hcode
      · next sink fault hw =>
          rw [hw] at hcode
          exact hcode

theorem prefix_performAll : ∀ (events : List (Place × Event)) (c : Compiler),
    c.sink.code <+: (c.performAll t events).sink.code
  | [], _ => List.prefix_rfl
  | (place, e) :: events, c =>
      (c.prefix_perform (place.index c.next) e).trans (prefix_performAll events _)

theorem sink_proceed (c : Compiler) (rest : Except Refusal (List Item)) :
    (c.proceed rest).sink = c.sink := by
  unfold proceed
  split <;> rfl

theorem prefix_step (c : Compiler) (l : Lexeme) : c.sink.code <+: (c.step t l).sink.code := by
  unfold step
  split
  · exact List.prefix_rfl
  · rw [sink_proceed]
    exact prefix_performAll _ c

theorem prefix_run : ∀ (ls : List Lexeme) (c : Compiler),
    c.sink.code <+: (c.run t ls).sink.code
  | [], _ => List.prefix_rfl
  | l :: ls, c => (c.prefix_step l).trans (prefix_run ls (c.step t l))

/-! ## What moves on -/

theorem next_performAll : ∀ (events : List (Place × Event)) (c : Compiler),
    (c.performAll t events).next = c.next
  | [], _ => rfl
  | (place, e) :: events, c =>
      (next_performAll events _).trans (c.next_perform (place.index c.next) e)

theorem step_of_running {c : Compiler} (hc : c.stopped = none) (l : Lexeme) :
    c.step t l = (c.performAll t (feed l c.items).events).proceed (feed l c.items).rest := by
  simp [step, hc]

theorem next_step {c : Compiler} {l : Lexeme} (h : (c.step t l).stopped = none) :
    (c.step t l).next = c.next + 1 := by
  have hstep := step_of_running (t := t) (step_running h).1 l
  rw [hstep] at h ⊢
  unfold proceed at h ⊢
  split at h
  · next fault hc => cases hc.symm.trans h
  · exact congrArg (· + 1) (next_performAll _ c)
  · cases h

theorem next_run : ∀ {ls : List Lexeme} {c : Compiler}, (c.run t ls).stopped = none →
    (c.run t ls).next = c.next + ls.length
  | [], _, _ => rfl
  | l :: ls, c, h => by
      rw [run_cons] at h ⊢
      rw [next_run h, next_step (running_of_run h), List.length_cons]
      omega

/-! ## What stops -/

/-- What can stop a running compiler at a lexeme, and where the fault is located. -/
inductive Stops (t : Target) (c : Compiler) (l : Lexeme) : Fault → Nat → Prop where
  | static {place : Place} {e : Event} {s : Scope} {err : StaticError}
      (he : (place, e) ∈ (feed l c.items).events) (herr : s.perform t e = .error err) :
      Stops t c l (.source (.static err)) (place.index c.next)
  | outlet {place : Place} {e : Event} (fault : OutletFault)
      (he : (place, e) ∈ (feed l c.items).events) :
      Stops t c l (.outlet fault) (place.index c.next)
  | refused {r : Refusal} (hr : (feed l c.items).rest = .error r) :
      Stops t c l (.source (.refused r)) c.next

theorem Stops.le_next {c : Compiler} {l : Lexeme} {fault : Fault} {k : Nat}
    (h : Stops t c l fault k) : k ≤ c.next := by
  have hplace : ∀ place : Place, place.index c.next ≤ c.next := by
    intro place
    cases place with
    | here => exact Nat.le_refl _
    | before => exact Nat.sub_le _ _
  cases h with
  | static => exact hplace _
  | outlet => exact hplace _
  | refused => exact Nat.le_refl _

/-- An event stops a compiler by breaking a rule, or by its code. -/
theorem perform_stopped {c : Compiler} {k k' : Nat} {e : Event} {fault : Fault}
    (hc : c.stopped = none) (h : (c.perform t k e).stopped = some (fault, k')) :
    k' = k ∧ ((∃ err, c.scope.perform t e = .error err ∧ fault = .source (.static err)) ∨
      ∃ o, fault = .outlet o) := by
  cases he : c.scope.perform t e with
  | error err =>
      simp only [perform, hc, he, stop, Option.some.injEq, Prod.mk.injEq] at h
      obtain ⟨rfl, rfl⟩ := h
      exact ⟨rfl, .inl ⟨err, rfl, rfl⟩⟩
  | ok r =>
      obtain ⟨scope, code⟩ := r
      rcases hw : c.sink.writeAll code with ⟨sink, _ | o⟩
      · simp [perform, hc, he, hw] at h
      · simp only [perform, hc, he, hw, stop, Option.some.injEq, Prod.mk.injEq] at h
        obtain ⟨rfl, rfl⟩ := h
        exact ⟨rfl, .inr ⟨o, rfl⟩⟩

theorem performAll_stopped : ∀ {events : List (Place × Event)} {c : Compiler} {fault : Fault}
    {k : Nat}, c.stopped = none → (c.performAll t events).stopped = some (fault, k) →
      ∃ place e, (place, e) ∈ events ∧ k = place.index c.next ∧
        ((∃ s err, Scope.perform s t e = .error err ∧ fault = .source (.static err)) ∨
          ∃ o, fault = .outlet o)
  | [], c, fault, k, hc, h => by cases hc.symm.trans h
  | (place, e) :: events, c, fault, k, hc, h => by
      cases hstop : (c.perform t (place.index c.next) e).stopped with
      | none =>
          obtain ⟨place', e', hmem, hk, hwhy⟩ := performAll_stopped hstop h
          rw [next_perform] at hk
          exact ⟨place', e', List.mem_cons_of_mem _ hmem, hk, hwhy⟩
      | some first =>
          -- the rest of the events changes nothing
          have hrest : ∀ (events : List (Place × Event)) {m : Compiler}, m.stopped = some first →
              (m.performAll t events).stopped = some first := by
            intro events
            induction events with
            | nil => exact id
            | cons event events ih =>
                intro m hm
                apply ih
                simp [perform, hm]
          obtain rfl : first = (fault, k) := Option.some.inj ((hrest events hstop).symm.trans h)
          obtain ⟨hk, hwhy⟩ := perform_stopped hc hstop
          refine ⟨place, e, List.mem_cons_self, hk, ?_⟩
          rcases hwhy with ⟨err, herr, hfault⟩ | ho
          · exact .inl ⟨c.scope, err, herr, hfault⟩
          · exact .inr ho

theorem step_stopped {c : Compiler} {l : Lexeme} {fault : Fault} {k : Nat}
    (hc : c.stopped = none) (h : (c.step t l).stopped = some (fault, k)) :
    Stops t c l fault k := by
  rw [step_of_running hc] at h
  cases hp : (c.performAll t (feed l c.items).events).stopped with
  | some first =>
      obtain rfl : first = (fault, k) := by simpa [proceed, hp] using h
      obtain ⟨place, e, hmem, rfl, hwhy⟩ := performAll_stopped hc hp
      rcases hwhy with ⟨s, err, herr, rfl⟩ | ⟨o, rfl⟩
      · exact .static hmem herr
      · exact .outlet o hmem
  | none =>
      cases hr : (feed l c.items).rest with
      | ok items => simp [proceed, hp, hr] at h
      | error r =>
          simp only [proceed, hp, hr, stop, next_performAll, Option.some.injEq,
            Prod.mk.injEq] at h
          obtain ⟨rfl, rfl⟩ := h
          exact .refused hr

/-- A run that has stopped was running up to the lexeme that stopped it. -/
theorem exists_stop : ∀ {ls : List Lexeme} {c : Compiler} {fault : Fault} {k : Nat},
    c.stopped = none → (c.run t ls).stopped = some (fault, k) →
      ∃ before l after, ls = before ++ l :: after ∧ (c.run t before).stopped = none ∧
        Stops t (c.run t before) l fault k
  | [], c, fault, k, hc, h => by cases hc.symm.trans h
  | l :: ls, c, fault, k, hc, h => by
      rw [run_cons] at h
      cases hstep : (c.step t l).stopped with
      | none =>
          obtain ⟨before, l', after, rfl, hrunning, hstops⟩ := exists_stop hstep h
          exact ⟨l :: before, l', after, rfl, hrunning, hstops⟩
      | some first =>
          rw [run_of_stopped (by simp [hstep]), hstep] at h
          obtain rfl := Option.some.inj h
          exact ⟨[], l, ls, rfl, hc, step_stopped hc hstep⟩

/-- A fault is located at a lexeme that was read. -/
theorem stop_lt {ls : List Lexeme} {c : Compiler} {fault : Fault} {k : Nat}
    (hc : c.stopped = none) (h : (c.run t ls).stopped = some (fault, k)) :
    k < c.next + ls.length := by
  obtain ⟨before, l, after, rfl, hrunning, hstops⟩ := exists_stop hc h
  have hk := hstops.le_next
  rw [next_run hrunning] at hk
  rw [List.length_append, List.length_cons]
  omega

end Compiler

/-! ## What is reported -/

/-- What is reported as a fault of the source is one, and is reported on the line of its
token unless there is no class at all. -/
theorem Fault.of_report {cursor : Cursor} {k : Nat} {fault : Fault} {cause : Cause} {line : Nat}
    (h : fault.report cursor k = .compile cause line) : fault = .source cause ∧
      (cause ≠ .starved .classDec → line = cursor.lineAt (some k)) := by
  unfold Fault.report at h
  split at h
  · obtain ⟨rfl, -⟩ := Failure.compile.inj h
    exact ⟨rfl, fun hne => absurd rfl hne⟩
  · obtain ⟨rfl, rfl⟩ := Failure.compile.inj h
    exact ⟨rfl, fun _ => rfl⟩
  · cases h

/-! ## What follows -/

theorem Cursor.lineAt_of_getElem? {tokens : List Token} {k : Nat} {token : Token}
    (h : tokens[k]? = some token) :
    Cursor.lineAt { tokens := tokens } (some k) = token.line := by
  simp [Cursor.lineAt, h]

theorem Cursor.lineAt_append {tokens : List Token} {k : Nat} (hk : k < tokens.length)
    (more : List Token) : Cursor.lineAt { tokens := tokens ++ more } (some k) =
      Cursor.lineAt { tokens := tokens } (some k) := by
  have hshort : tokens[k]? = some tokens[k] := List.getElem?_eq_getElem hk
  have hlong : (tokens ++ more)[k]? = some tokens[k] :=
    (List.getElem?_append_left hk).trans hshort
  rw [Cursor.lineAt_of_getElem? hshort, Cursor.lineAt_of_getElem? hlong]

/-- A fault is reported alike where the line of its token is the same. -/
theorem Fault.report_congr {cursor cursor' : Cursor} {k : Nat}
    (h : cursor.lineAt (some k) = cursor'.lineAt (some k)) (fault : Fault) :
    fault.report cursor k = fault.report cursor' k := by
  unfold Fault.report
  split
  · rfl
  · rw [h]
  · rfl

/-- The tokens ended where more were needed. -/
def Failure.IsPrematureEnd : Failure → Prop
  | .compile (.starved _) _ => True
  | _ => False

theorem Fault.isPrematureEnd_report (cursor : Cursor) (k : Nat) (goal : Goal) :
    (Fault.report cursor k (.source (.starved goal))).IsPrematureEnd := by
  unfold Fault.report
  split
  · trivial
  · next cause _ hcause =>
      obtain rfl := Fault.source.inj hcause
      trivial
  · next hcause => cases hcause

namespace Compilation

variable {t : Target} {tokens : List Token} {table : VariableTable} {sink : Sink}

theorem atEnd_append (t : Target) (tokens more : List Token) (table : VariableTable)
    (sink : Sink) :
    atEnd t (tokens ++ more) table sink =
      (atEnd t tokens table sink).run t (more.map (·.toLexeme)) := by
  unfold atEnd
  rw [List.map_append, Compiler.run_append]

theorem result_ofCursor : (ofCursor t { tokens := tokens } table sink).result =
    match (atEnd t tokens table sink).fault? with
    | none => .ok ()
    | some (fault, k) => .error (fault.report { tokens := tokens } k) := by
  rw [ofCursor_eq]
  rfl

theorem sink_ofCursor :
    (ofCursor t { tokens := tokens } table sink).sink = (atEnd t tokens table sink).sink := by
  rw [ofCursor_eq]
  rfl

theorem table_ofCursor :
    (ofCursor t { tokens := tokens } table sink).table = (atEnd t tokens table sink).scope.table := by
  rw [ofCursor_eq]
  rfl

theorem result_of_stopped {fault : Fault} {k : Nat}
    (h : (atEnd t tokens table sink).stopped = some (fault, k)) :
    (ofCursor t { tokens := tokens } table sink).result =
      .error (fault.report { tokens := tokens } k) := by
  rw [result_ofCursor, Compiler.fault?, h]
  rfl

theorem next_atEnd (h : (atEnd t tokens table sink).stopped = none) :
    (atEnd t tokens table sink).next = tokens.length := by
  have hnext := Compiler.next_run h
  rw [List.length_map] at hnext
  exact hnext.trans (Nat.zero_add _)

/-- A compilation ends with a fault located at a token, or where a goal waits after the
last token, or with nothing left to be read. -/
theorem ofCursor_cases (t : Target) (tokens : List Token) (table : VariableTable) (sink : Sink) :
    (∃ fault k, (atEnd t tokens table sink).stopped = some (fault, k) ∧ k < tokens.length ∧
      (ofCursor t { tokens := tokens } table sink).result =
        .error (fault.report { tokens := tokens } k)) ∨
    (∃ goal, (atEnd t tokens table sink).stopped = none ∧
      awaited? (atEnd t tokens table sink).items = some goal ∧
      (ofCursor t { tokens := tokens } table sink).result =
        .error (Fault.report { tokens := tokens } (tokens.length - 1)
          (.source (.starved goal)))) ∨
    ((atEnd t tokens table sink).stopped = none ∧ (atEnd t tokens table sink).items = [] ∧
      (ofCursor t { tokens := tokens } table sink).result = .ok ()) := by
  cases hstopped : (atEnd t tokens table sink).stopped with
  | some stop =>
      obtain ⟨fault, k⟩ := stop
      have hk := Compiler.stop_lt rfl hstopped
      rw [List.length_map] at hk
      exact .inl ⟨fault, k, rfl, by simpa using hk, result_of_stopped hstopped⟩
  | none =>
      cases hgoal : awaited? (atEnd t tokens table sink).items with
      | some goal =>
          refine .inr (.inl ⟨goal, rfl, rfl, ?_⟩)
          rw [result_ofCursor, Compiler.fault?, hstopped, hgoal, ← next_atEnd hstopped]
          rfl
      | none =>
          have hstart : Settled classItems := trivial
          obtain ⟨-, -, -, -, -, hsettled⟩ := Compiler.reads_of_run hstart hstopped
          refine .inr (.inr ⟨rfl, hsettled.eq_nil hgoal, ?_⟩)
          rw [result_ofCursor, Compiler.fault?, hstopped, hgoal]
          rfl

theorem atEnd_append_of_stopped {fault : Fault} {k : Nat}
    (h : (atEnd t tokens table sink).stopped = some (fault, k)) (more : List Token) :
    atEnd t (tokens ++ more) table sink = atEnd t tokens table sink := by
  rw [atEnd_append]
  exact Compiler.run_of_stopped (by simp [h]) _

/-- The first token after a class stops the compiler and changes nothing else. -/
theorem atEnd_append_cons (h : (atEnd t tokens table sink).stopped = none)
    (hitems : (atEnd t tokens table sink).items = []) (first : Token) (rest : List Token) :
    atEnd t (tokens ++ first :: rest) table sink =
      (atEnd t tokens table sink).stop (.source (.refused .afterClass)) tokens.length := by
  have hstep : (atEnd t tokens table sink).step t first.toLexeme =
      (atEnd t tokens table sink).stop (.source (.refused .afterClass)) tokens.length := by
    rw [Compiler.step_of_running h, hitems, ← next_atEnd h]
    simp [feed, Compiler.performAll, Compiler.proceed, h]
  rw [atEnd_append, List.map_cons, Compiler.run_cons, hstep]
  exact Compiler.run_of_stopped rfl _

theorem prefix_ofCursor (t : Target) (tokens more : List Token) (table : VariableTable)
    (sink : Sink) : (ofCursor t { tokens := tokens } table sink).sink.code <+:
      (ofCursor t { tokens := tokens ++ more } table sink).sink.code := by
  rw [sink_ofCursor, sink_ofCursor, atEnd_append]
  exact Compiler.prefix_run _ _

/-- What follows a fault is not read. -/
theorem ofCursor_append_of_failure {failure : Failure} (more : List Token)
    (h : (ofCursor t { tokens := tokens } table sink).result = .error failure)
    (hend : ¬failure.IsPrematureEnd) :
    (ofCursor t { tokens := tokens ++ more } table sink).result = .error failure ∧
      atEnd t (tokens ++ more) table sink = atEnd t tokens table sink := by
  rcases ofCursor_cases t tokens table sink with
    ⟨fault, k, hstopped, hk, hresult⟩ | ⟨goal, -, -, hresult⟩ | ⟨-, -, hresult⟩
  · have hsame := atEnd_append_of_stopped hstopped more
    refine ⟨?_, hsame⟩
    rw [← h, hresult, ← Fault.report_congr (Cursor.lineAt_append hk more)]
    exact result_of_stopped (hsame ▸ hstopped)
  · obtain rfl := Except.error.inj (hresult.symm.trans h)
    exact absurd (Fault.isPrematureEnd_report _ _ goal) hend
  · cases hresult.symm.trans h

theorem ofCursor_append_of_ok (first : Token) (rest : List Token)
    (h : (ofCursor t { tokens := tokens } table sink).result = .ok ()) :
    (ofCursor t { tokens := tokens ++ first :: rest } table sink).result =
        .error (.compile (.refused .afterClass) first.line) ∧
      atEnd t (tokens ++ first :: rest) table sink =
        (atEnd t tokens table sink).stop (.source (.refused .afterClass)) tokens.length := by
  rcases ofCursor_cases t tokens table sink with
    ⟨fault, k, -, -, hresult⟩ | ⟨goal, -, -, hresult⟩ | ⟨hstopped, hitems, -⟩
  · cases hresult.symm.trans h
  · cases hresult.symm.trans h
  · have hafter := atEnd_append_cons hstopped hitems first rest
    have hfirst : (tokens ++ first :: rest)[tokens.length]? = some first := by simp
    refine ⟨?_, hafter⟩
    rw [← Cursor.lineAt_of_getElem? hfirst]
    exact result_of_stopped (congrArg Compiler.stopped hafter)

/-- Tokens are compiled as they come. More tokens only add to what is written; a fault
that is not a premature end stays, with all that was written and declared before it;
and a token after a whole class is a fault that changes nothing. -/
theorem ofCursor_append (t : Target) (tokens more : List Token) (table : VariableTable)
    (sink : Sink) :
    let short := ofCursor t { tokens := tokens } table sink
    let long := ofCursor t { tokens := tokens ++ more } table sink
    short.sink.code <+: long.sink.code ∧
      (∀ failure, short.result = .error failure → ¬failure.IsPrematureEnd →
        long.result = .error failure ∧ long.sink = short.sink ∧ long.table = short.table) ∧
      (short.result = .ok () → ∀ first rest, more = first :: rest →
        (∃ cause, long.result = .error (.compile cause first.line) ∧
          cause.message = "Only one class must exist in one file.") ∧
        long.sink = short.sink ∧ long.table = short.table) := by
  intro short long
  refine ⟨prefix_ofCursor t tokens more table sink, ?_, ?_⟩
  · intro failure hfailure hend
    obtain ⟨hresult, hsame⟩ := ofCursor_append_of_failure more hfailure hend
    have hsink : long.sink = short.sink := by rw [sink_ofCursor, sink_ofCursor, hsame]
    have htable : long.table = short.table := by rw [table_ofCursor, table_ofCursor, hsame]
    exact ⟨hresult, hsink, htable⟩
  · rintro hok first rest rfl
    obtain ⟨hresult, hafter⟩ := ofCursor_append_of_ok first rest hok
    have hsink : long.sink = short.sink := by
      rw [sink_ofCursor, sink_ofCursor, hafter]
      rfl
    have htable : long.table = short.table := by
      rw [table_ofCursor, table_ofCursor, hafter]
      rfl
    exact ⟨⟨_, hresult, rfl⟩, hsink, htable⟩

/-- A class without members, on two lines. -/
def emptyClass : List Token :=
  [⟨⟨.keyword, "class"⟩, 1⟩, ⟨⟨.identifier, "A"⟩, 1⟩, ⟨⟨.symbol, "\x7b"⟩, 1⟩,
    ⟨⟨.symbol, "\x7d"⟩, 2⟩]

/-- The class is followed by a semicolon, once where it is expected and once where
another class is. -/
theorem ofCursor_append_emptyClass :
    (∃ cause, (ofCursor ⟨"A", {}⟩ { tokens := emptyClass ++ [⟨⟨.symbol, ";"⟩, 3⟩] } {} {}).result =
        .error (.compile cause 3) ∧ cause.message = "Only one class must exist in one file.") ∧
      (ofCursor ⟨"B", {}⟩ { tokens := emptyClass ++ [⟨⟨.symbol, ";"⟩, 3⟩] } {} {}).result =
        .error (.compile (.static (.wrongClass "A" "B")) 1) := by
  have hok := ofCursor_append ⟨"A", {}⟩ emptyClass [⟨⟨.symbol, ";"⟩, 3⟩] {} {}
  have hno := ofCursor_append ⟨"B", {}⟩ emptyClass [⟨⟨.symbol, ";"⟩, 3⟩] {} {}
  have hempty : (ofCursor ⟨"A", {}⟩ { tokens := emptyClass } {} {}).result = .ok () := by
    rw [ofCursor_eq]
    rfl
  have hwrong : (ofCursor ⟨"B", {}⟩ { tokens := emptyClass } {} {}).result =
      .error (.compile (.static (.wrongClass "A" "B")) 1) := by
    rw [ofCursor_eq]
    rfl
  exact ⟨(hok.2.2 hempty _ _ rfl).1, (hno.2.1 _ hwrong fun hend => hend).1⟩

end Compilation

end JackVm
