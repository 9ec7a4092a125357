import JackVm.Proofs.Limits
import JackVm.Proofs.Viability

/-!
# Lines matter for reports only

A compiler reads lexemes, and a fault is located by the index of a token. So two token
lists that differ in lines alone lead to the same compiler, and what is reported for both
differs at most in the line, which is that of the token with the same index.

There is one report without a token, that of an empty token list. No other token list ends
where a class is still to begin (`fault_located`).

Main statement: layout and comments change neither code nor variables nor the outcome
(`ofCursor_ignores_lines`).
-/

namespace JackVm

/-! ## A class begins once -/

section
variable {l : Lexeme} {items : List Item}

theorem Goal.classDec_not_mem_parts (g : Goal) (l : Lexeme) : .need .classDec ∉ g.parts l := by
  have hterm : .need .classDec ∉ termParts l := by
    unfold termParts
    split <;> simp
  have hexpression : .need .classDec ∉ expressionParts l := by simp [expressionParts, hterm]
  have hstatement : .need .classDec ∉ statementParts := by decide
  cases g with
  | members _ => simp [parts, subroutineItems]
  | _ => simp [parts, blockItems, argumentItems, hterm, hexpression, hstatement]

/-- No goal asks for a class. -/
theorem Goal.classDec_not_mem {g : Goal} {events : List (Place × Event)}
    (h : g.meet l = .take events items) : .need .classDec ∉ items := by
  have hparts := g.meet_parts (l := l)
  rw [h] at hparts
  intro hmem
  exact g.classDec_not_mem_parts l (hparts.2 _ hmem)

end

section
variable {ls : List Lexeme} {es : List Event} {items final : List Item}

theorem Reads.classDec_not_mem (h : Reads items ls es final) (hi : .need .classDec ∉ items) :
    .need .classDec ∉ final := by
  induction h with
  | done => exact hi
  | raise _ ih => exact ih fun hmem => hi (List.mem_cons_of_mem _ hmem)
  | take hg _ ih =>
      apply ih
      rw [List.mem_append]
      rintro (hnew | hrest)
      · exact Goal.classDec_not_mem hg hnew
      · exact hi (List.mem_cons_of_mem _ hrest)
  | leave _ _ ih => exact ih fun hmem => hi (List.mem_cons_of_mem _ hmem)

/-- The first lexeme begins the class, or the class is refused. -/
theorem classDec_not_mem_of_reads {l : Lexeme} (h : Reads classItems (l :: ls) es final) :
    .need .classDec ∉ final := by
  cases h with
  | take hg h =>
      apply h.classDec_not_mem
      rw [List.append_nil]
      exact Goal.classDec_not_mem hg
  | leave _ h => cases h

end

/-! ## Located at a token -/

/-- What is said of two token lists is the same, and said of the same token. -/
inductive SameOutcome (tokens tokens' : List Token) :
    Except Failure Unit → Except Failure Unit → Prop where
  | accepted : SameOutcome tokens tokens' (.ok ()) (.ok ())
  | unwritten (text : String) :
      SameOutcome tokens tokens' (.error (.io text)) (.error (.io text))
  | located (cause : Cause) {k : Nat} {token token' : Token} (h : tokens[k]? = some token)
      (h' : tokens'[k]? = some token') :
      SameOutcome tokens tokens' (.error (.compile cause token.line))
        (.error (.compile cause token'.line))
  | empty (cause : Cause) (h : tokens = []) (h' : tokens' = []) :
      SameOutcome tokens tokens' (.error (.compile cause 1)) (.error (.compile cause 1))

/-- A fault at a token is reported on its line, whatever the token list. -/
theorem SameOutcome.of_fault {tokens tokens' : List Token} {k : Nat} (hk : k < tokens.length)
    (hk' : k < tokens'.length) {fault : Fault} (hfault : fault ≠ .source (.starved .classDec)) :
    SameOutcome tokens tokens' (.error (fault.report { tokens := tokens } k))
      (.error (fault.report { tokens := tokens' } k)) := by
  have htoken := List.getElem?_eq_getElem hk
  have htoken' := List.getElem?_eq_getElem hk'
  unfold Fault.report
  split
  · exact absurd rfl hfault
  · rw [Cursor.lineAt_of_getElem? htoken, Cursor.lineAt_of_getElem? htoken']
    exact .located _ htoken htoken'
  · exact .unwritten _

namespace Compilation

variable {t : Target} {tokens tokens' : List Token} {table : VariableTable} {sink : Sink}

/-- Once there is a token, a fault is located at one, and is not that no class begins. -/
theorem fault_located {fault : Fault} {k : Nat}
    (h : (atEnd t tokens table sink).fault? = some (fault, k)) :
    (tokens = [] ∧ fault = .source (.starved .classDec)) ∨
      (k < tokens.length ∧ fault ≠ .source (.starved .classDec)) := by
  unfold Compiler.fault? at h
  cases hstopped : (atEnd t tokens table sink).stopped with
  | some stop =>
      obtain rfl : stop = (fault, k) := by simpa [hstopped] using h
      have hk := Compiler.stop_lt rfl hstopped
      rw [List.length_map] at hk
      refine .inr ⟨by simpa using hk, ?_⟩
      obtain ⟨_, _, _, -, -, hstops⟩ := Compiler.exists_stop rfl hstopped
      rintro rfl
      cases hstops
  | none =>
      obtain ⟨goal, hgoal, hfault⟩ : ∃ goal, awaited? (atEnd t tokens table sink).items = some goal ∧
          (Fault.source (.starved goal), (atEnd t tokens table sink).next - 1) = (fault, k) := by
        simpa [hstopped] using h
      obtain ⟨rfl, rfl⟩ := Prod.mk.inj hfault
      cases tokens with
      | nil =>
          obtain rfl : Goal.classDec = goal := Option.some.inj hgoal
          exact .inl ⟨rfl, rfl⟩
      | cons first rest =>
          have hstart : Settled classItems := trivial
          obtain ⟨_, _, hreads, -⟩ := Compiler.reads_of_run hstart hstopped
          refine .inr ⟨?_, ?_⟩
          · rw [next_atEnd hstopped, List.length_cons]
            omega
          · rintro hclass
            obtain rfl : goal = .classDec := by simpa using hclass
            exact classDec_not_mem_of_reads hreads (mem_of_awaited? hgoal)

/-- Tokens that differ in lines only are read alike. -/
theorem atEnd_congr (h : tokens.map (·.toLexeme) = tokens'.map (·.toLexeme)) :
    atEnd t tokens table sink = atEnd t tokens' table sink := by
  unfold atEnd
  rw [h]

theorem sameOutcome_of_lexemes (h : tokens.map (·.toLexeme) = tokens'.map (·.toLexeme)) :
    SameOutcome tokens tokens' (ofCursor t { tokens := tokens } table sink).result
      (ofCursor t { tokens := tokens' } table sink).result := by
  have hlength : tokens.length = tokens'.length := by
    simpa using congrArg List.length h
  rw [result_ofCursor, result_ofCursor, ← atEnd_congr h]
  cases hfault : (atEnd t tokens table sink).fault? with
  | none => exact .accepted
  | some stop =>
      obtain ⟨fault, k⟩ := stop
      rcases fault_located hfault with ⟨rfl, rfl⟩ | ⟨hk, hne⟩
      · exact .empty _ rfl (List.eq_nil_of_length_eq_zero hlength.symm)
      · exact .of_fault hk (hlength ▸ hk) hne

/-- Two token lists that agree in kinds and texts, whatever their lines, are compiled to the
same code and the same variables, and the outcome is the same up to the line it is reported
on. So are source texts with such tokens, whatever was declared before. -/
theorem ofCursor_ignores_lines (t : Target)
    (h : tokens.map (·.toLexeme) = tokens'.map (·.toLexeme)) (table : VariableTable)
    (sink : Sink) :
    let c := ofCursor t { tokens := tokens } table sink
    let c' := ofCursor t { tokens := tokens' } table sink
    c.sink = c'.sink ∧ c.table = c'.table ∧ SameOutcome tokens tokens' c.result c'.result ∧
      ∀ (source source' : String) (before before' : VariableTable) (outlet : Outlet),
        scan source = .ok tokens → scan source' = .ok tokens' →
          (ofSource t before source outlet).sink.text =
            (ofSource t before' source' outlet).sink.text := by
  intro c c'
  refine ⟨?_, ?_, sameOutcome_of_lexemes h, ?_⟩
  · rw [sink_ofCursor, sink_ofCursor, atEnd_congr h]
  · rw [table_ofCursor, table_ofCursor, atEnd_congr h]
  · intro source source' before before' outlet hscan hscan'
    simp only [ofSource, hscan, hscan', sink_flush]
    rw [ofTokens, ofTokens, sink_ofCursor, sink_ofCursor, atEnd_congr h]

/-- The tokens of a class with a semicolon after it, on the lines given. -/
def closedClass (a b c d e : Nat) : List Token :=
  [⟨⟨.keyword, "class"⟩, a⟩, ⟨⟨.identifier, "A"⟩, b⟩, ⟨⟨.symbol, "\x7b"⟩, c⟩,
    ⟨⟨.symbol, "\x7d"⟩, d⟩, ⟨⟨.symbol, ";"⟩, e⟩]

/-- The semicolon is what both are refused for, on the line where it stands. -/
theorem ofCursor_ignores_lines_closedClass :
    (closedClass 1 1 1 1 1).map (·.toLexeme) = (closedClass 1 1 1 3 4).map (·.toLexeme) ∧
      SameOutcome (closedClass 1 1 1 1 1) (closedClass 1 1 1 3 4)
        (.error (.compile (.refused .afterClass) 1)) (.error (.compile (.refused .afterClass) 4)) ∧
      (ofSource ⟨"A", {}⟩ {} "class A\x7b\x7d;" {}).sink.text =
        (ofSource ⟨"A", {}⟩ {} "class A\x7b\n// nothing\n\x7d\n;" {}).sink.text := by
  have hlexemes :
      (closedClass 1 1 1 1 1).map (·.toLexeme) = (closedClass 1 1 1 3 4).map (·.toLexeme) := rfl
  obtain ⟨-, -, houtcome, htext⟩ := ofCursor_ignores_lines ⟨"A", {}⟩ hlexemes {} {}
  rw [ofCursor_eq, ofCursor_eq] at houtcome
  exact ⟨hlexemes, houtcome, htext _ _ {} {} {} rfl rfl⟩

end Compilation

end JackVm
