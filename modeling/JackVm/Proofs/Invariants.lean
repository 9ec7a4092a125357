import JackVm.Proofs.Stopping

/-!
# What every run keeps

What a goal makes of a lexeme has few parts (`Goal.parts`), whichever way it decides. An
invariant says what the items of the stack, the scope and the written code have in common.
It is enough that it is kept by the parts of a goal and by one event. Then it is kept by
every lexeme, and by every run, whether the run stops at a fault or not (`Invariant.run`).
-/

namespace JackVm

/-- All that a goal raises and puts on the stack is in `P`. -/
def Verdict.All (P : Item → Prop) : Verdict → Prop
  | .take events items => (∀ e ∈ events, P (.raise e.2)) ∧ ∀ i ∈ items, P i
  | .leave events => ∀ e ∈ events, P (.raise e.2)
  | .refuse _ => True

/-- All that feeding a lexeme raises and leaves on the stack is in `P`. -/
def Fed.All (P : Item → Prop) (fed : Fed) : Prop :=
  (∀ e ∈ fed.events, P (.raise e.2)) ∧ ∀ items, fed.rest = .ok items → ∀ i ∈ items, P i

/-! ## Goals -/

/-- All that a term may put on the stack in place of its first lexeme. -/
def termParts (l : Lexeme) : List Item :=
  match l.kind with
  | .integerConstant => [.raise (.integer l.text)]
  | .stringConstant => [.raise (.string l.text)]
  | .identifier => [.need (.nameRest l.text)]
  | .keyword => (KeywordConstant.ofKeyword? l.text).toList.map fun c => .raise (.constant c)
  | .symbol => [.need .term, .raise (.unary .neg), .raise (.unary .not), .need .expression,
      .need (.symbol ')')]

def expressionParts (l : Lexeme) : List Item := termParts l ++ [.need .operators]

/-- All that statements may put on the stack in place of their first word. -/
def statementParts : List Item :=
  conditionItems ++ blockItems ++
    [.need .letTarget, .raise .ifBegin, .raise .ifTest, .raise .ifElse, .need .elsePart,
     .raise .ifEnd, .raise .whileBegin, .raise .whileTest, .raise .whileEnd, .need .callStatement,
     .need (.symbol ';'), .raise .discard, .need .returnRest, .need .moreStatements]

/-- All that a goal may raise and put on the stack when it meets a lexeme. -/
def Goal.parts (l : Lexeme) : Goal → List Item
  | .classDec => [.need .className, .need (.symbol '{'), .need (.members false)]
  | .className => l.name?.toList.map fun n => .raise (.className n)
  | .symbol _ => []
  | .members _ =>
      [.need (.varType .static), .need (.varType .field), .need (.members false),
        .need (.members true)] ++
        [.constructor, .function, .method].flatMap subroutineItems
  | .varType storage => l.type?.toList.flatMap fun t =>
      [.need (.varName storage t), .need (.moreNames storage t)]
  | .varName storage t => l.name?.toList.map fun n => .raise (.declare storage t n)
  | .moreNames storage t => [.need (.varName storage t), .need (.moreNames storage t)]
  | .resultType kind =>
      .raise (.result kind none) :: l.type?.toList.map fun t => .raise (.result kind (some t))
  | .subroutineName => l.name?.toList.map fun n => .raise (.subroutine n)
  | .parameters | .parameterType => l.type?.toList.flatMap fun t =>
      [.need (.varName .argument t), .need .moreParameters]
  | .moreParameters => [.need .parameterType]
  | .body => .need (.varType .var) :: .need .body :: .raise .prologue :: statementParts
  | .statements | .moreStatements => statementParts
  | .letTarget => l.name?.toList.flatMap fun n => [.raise (.target n), .need (.letRest n)]
  | .letRest n =>
      [.raise (.load n), .need .expression, .need (.symbol ']'), .raise .address,
        .need (.symbol '='), .need (.symbol ';'), .raise .storeElement, .raise (.store n)]
  | .elsePart => blockItems
  | .callStatement => l.name?.toList.map fun n => .need (.callRest n)
  | .returnRest =>
      .raise .returnNothing :: .raise .returnValue :: .need .returnEnd :: expressionParts l
  | .returnEnd => [.raise .ret]
  | .expression => expressionParts l
  | .operators => l.binary?.toList.flatMap fun op =>
      [.need .term, .raise (.binary op), .need .operators]
  | .term => termParts l
  | .nameRest n =>
      [.raise (.load n), .need .expression, .need (.symbol ']'), .raise .fetch,
        .need (.calleeName n)] ++ argumentItems (.bare n)
  | .callRest n => .need (.calleeName n) :: argumentItems (.bare n)
  | .calleeName receiver => l.name?.toList.flatMap fun n =>
      .raise (.resolve (.dotted receiver n)) :: .need (.symbol '(') ::
        argumentItems (.dotted receiver n)
  | .arguments callee =>
      .raise (.call callee 0) :: .need (.moreArguments callee 1) :: expressionParts l
  | .moreArguments callee count =>
      [.raise (.call callee count), .need .expression, .need (.moreArguments callee (count + 1))]

section
variable {P : Item → Prop} {l : Lexeme} {items : List Item}

theorem Verdict.All.mono {Q : Item → Prop} (h : ∀ i, P i → Q i) : ∀ {v : Verdict}, v.All P → v.All Q
  | .take _ _, hv => ⟨fun e he => h _ (hv.1 e he), fun i hi => h i (hv.2 i hi)⟩
  | .leave _, hv => fun e he => h _ (hv e he)
  | .refuse _, _ => trivial

theorem Goal.all_takeWith {g : Goal} {o : Option (List Item)}
    (h : ∀ items, o = some items → ∀ i ∈ items, P i) : (g.takeWith o).All P := by
  cases o with
  | none => trivial
  | some items => exact ⟨by simp, h items rfl⟩

theorem Goal.all_takeWith_map {α : Type} {g : Goal} {o : Option α} {f : α → List Item}
    (h : ∀ a, o = some a → ∀ i ∈ f a, P i) : (g.takeWith (o.map f)).All P := by
  refine Goal.all_takeWith ?_
  intro items hitems
  obtain ⟨a, ha, rfl⟩ := Option.map_eq_some_iff.mp hitems
  exact h a ha

theorem Goal.all_takeWith_ite {g : Goal} {b : Bool} {o : Option (List Item)}
    (h : ∀ i ∈ items, P i) (ho : (g.takeWith o).All P) :
    (g.takeWith (if b then some items else o)).All P := by
  cases b with
  | false => exact ho
  | true => exact ⟨by simp, h⟩

theorem termItems?_parts (h : termItems? l = some items) : ∀ i ∈ items, i ∈ termParts l := by
  obtain ⟨kind, text⟩ := l
  cases kind with
  | integerConstant | stringConstant | identifier =>
      obtain rfl := Option.some.inj h
      simp [termParts]
  | keyword =>
      obtain ⟨c, hc, rfl⟩ := Option.map_eq_some_iff.mp h
      simpa [termParts] using hc
  | symbol =>
      simp only [termItems?] at h
      split at h
      · obtain rfl := Option.some.inj h
        simp [termParts]
      · obtain rfl := Option.some.inj h
        simp [termParts]
      · obtain rfl := Option.some.inj h
        simp [termParts]
      · cases h

theorem expressionItems?_parts (h : expressionItems? l = some items) :
    ∀ i ∈ items, i ∈ expressionParts l := by
  obtain ⟨items, hitems, rfl⟩ := Option.map_eq_some_iff.mp h
  intro i hi
  rw [List.mem_append] at hi
  exact List.mem_append.mpr (hi.imp_left (termItems?_parts hitems i))

theorem statementItems?_parts (h : statementItems? l = some items) :
    ∀ i ∈ items ++ [.need .moreStatements], i ∈ statementParts := by
  unfold statementItems? at h
  split at h
  · obtain rfl := Option.some.inj h
    decide
  split at h
  · obtain rfl := Option.some.inj h
    decide
  split at h
  · obtain rfl := Option.some.inj h
    decide
  split at h
  · obtain rfl := Option.some.inj h
    decide
  split at h
  · obtain rfl := Option.some.inj h
    decide
  · cases h

/-- What a goal makes of a lexeme is made of its parts. -/
theorem Goal.meet_parts (g : Goal) : (g.meet l).All (· ∈ g.parts l) := by
  cases g with
  | classDec | symbol _ | returnEnd => exact Goal.all_takeWith_ite (by simp [parts]) trivial
  | className | varType _ | varName _ _ | subroutineName | parameterType | letTarget
  | callStatement =>
      exact Goal.all_takeWith_map fun a ha => by simp [parts, ha]
  | calleeName r => exact Goal.all_takeWith_map fun a ha => by simp [parts, argumentItems, ha]
  | moreNames _ _ | moreParameters | letRest _ | moreArguments _ _ =>
      exact Goal.all_takeWith_ite (by simp [parts])
        (Goal.all_takeWith_ite (by simp [parts]) trivial)
  | callRest n =>
      exact Goal.all_takeWith_ite (by simp [parts, argumentItems])
        (Goal.all_takeWith_ite (by simp [parts]) trivial)
  | resultType _ | parameters =>
      exact Goal.all_takeWith_ite (by simp [parts])
        (Goal.all_takeWith_map fun a ha => by simp [parts, ha])
  | expression => exact Goal.all_takeWith fun _ h => expressionItems?_parts h
  | term => exact Goal.all_takeWith fun _ h => termItems?_parts h
  | arguments callee =>
      refine Goal.all_takeWith_ite (by simp [parts]) (Goal.all_takeWith_map fun new hnew => ?_)
      rw [List.forall_mem_append]
      exact ⟨fun i hi => by simp [parts, expressionItems?_parts hnew i hi], by simp [parts]⟩
  | members b =>
      rw [Goal.meet]
      split
      · simp [Verdict.All]
      split
      · next storage hstorage =>
          split
          · trivial
          · have : storage = .static ∨ storage = .field := by
              unfold classStorage? at hstorage
              grind
            rcases this with rfl | rfl <;> simp [Verdict.All, parts]
      · refine Goal.all_takeWith_map fun kind _ => ?_
        rw [List.forall_mem_append]
        refine ⟨fun i hi => ?_, by simp [parts]⟩
        cases kind <;> simp [parts, hi]
  | body =>
      rw [Goal.meet]
      split
      · simp [Verdict.All, parts]
      split
      · next new hnew =>
          exact ⟨by simp [parts], fun i hi => by simp [parts, statementItems?_parts hnew i hi]⟩
      · simp [Verdict.All, parts]
  | statements | moreStatements =>
      rw [Goal.meet]
      split
      · next new hnew => exact ⟨by simp, statementItems?_parts hnew⟩
      · simp [Verdict.All]
  | elsePart =>
      rw [Goal.meet]
      split
      · simp [Verdict.All, parts]
      · simp [Verdict.All]
  | returnRest =>
      rw [Goal.meet]
      split
      · simp [Verdict.All, parts]
      split
      · next new hnew =>
          refine ⟨by simp [parts], ?_⟩
          rw [List.forall_mem_append]
          exact ⟨fun i hi => by simp [parts, expressionItems?_parts hnew i hi], by simp [parts]⟩
      · trivial
  | operators =>
      rw [Goal.meet]
      split
      · next op hop => simp [Verdict.All, parts, hop]
      · simp [Verdict.All]
  | nameRest n =>
      rw [Goal.meet]
      split
      · simp [Verdict.All, parts]
      split
      · simp [Verdict.All, parts, argumentItems]
      split
      · simp [Verdict.All, parts]
      · simp [Verdict.All, parts]

/-! ## Stacks -/

theorem all_settle (h : ∀ i ∈ items, P i) : (settle items).All P := by
  obtain ⟨events, rest, hsettle, -, hitems⟩ := settle_spec items
  rw [hitems, List.forall_mem_append] at h
  rw [hsettle]
  refine ⟨fun e he => h.1 _ (List.mem_map_of_mem he), ?_⟩
  intro items heq
  obtain rfl := Except.ok.inj heq
  exact h.2

theorem Fed.All.after {fed : Fed} (h : fed.All P) {events : List (Place × Event)}
    (hevents : ∀ e ∈ events, P (.raise e.2)) : (fed.after events).All P := by
  refine ⟨?_, h.2⟩
  unfold Fed.after
  rw [List.forall_mem_append]
  exact ⟨hevents, h.1⟩

/-- The goal on top is used up, so only its parts count. -/
theorem all_feed_need {g : Goal} (hg : ∀ i ∈ g.parts l, P i) (hitems : ∀ i ∈ items, P i)
    (hfeed : (feed l items).All P) : (feed l (.need g :: items)).All P := by
  have hmeet := (g.meet_parts (l := l)).mono hg
  rw [feed]
  cases hv : g.meet l with
  | take events new =>
      rw [hv] at hmeet
      exact (all_settle (List.forall_mem_append.mpr ⟨hmeet.2, hitems⟩)).after hmeet.1
  | leave events =>
      rw [hv] at hmeet
      exact hfeed.after hmeet
  | refuse r => exact ⟨by simp, by simp⟩

theorem all_feed (hparts : ∀ {g : Goal}, P (.need g) → ∀ i ∈ g.parts l, P i) :
    ∀ {items : List Item}, (∀ i ∈ items, P i) → (feed l items).All P
  | [], _ => ⟨by simp [feed], by simp [feed]⟩
  | .raise e :: items, h => by
      rw [List.forall_mem_cons] at h
      exact (all_feed hparts h.2).after (List.forall_mem_singleton.mpr h.1)
  | .need g :: items, h => by
      rw [List.forall_mem_cons] at h
      exact all_feed_need (hparts h.1) h.2 (all_feed hparts h.2)

end

/-! ## Code -/

/-- What an event that depends on a look-up stands for. -/
theorem exists_of_map_eq_ok {ε α β : Type} {f : α → β} {b : β} : ∀ {x : Except ε α},
    x.map f = .ok b → ∃ a, x = .ok a ∧ f a = b
  | .ok a, h => ⟨a, rfl, Except.ok.inj h⟩

/-- Whether all of the code is taken or only a beginning, what was taken is of it. -/
theorem Sink.mem_code_writeAll : ∀ {code : List Instruction} {s : Sink} {i : Instruction},
    i ∈ (s.writeAll code).1.code → i ∈ s.code ∨ i ∈ code
  | [], _, _, h => .inl h
  | j :: code, s, i, h => by
      rw [Sink.writeAll] at h
      split at h
      · next m hm =>
          rcases Sink.mem_code_writeAll h with hi | hi
          · rw [(Sink.write_spec hm).1, List.mem_append, List.mem_singleton] at hi
            rcases hi with hi | rfl
            · exact .inl hi
            · exact .inr List.mem_cons_self
          · exact .inr (List.mem_cons_of_mem _ hi)
      · exact .inl h

/-! ## Runs -/

/-- What a run keeps, as far as the lexemes allow. -/
structure Invariant (t : Target) where
  item : Item → Prop
  lexeme : Lexeme → Prop
  scope : Scope → Prop
  instruction : Instruction → Prop
  parts : ∀ {g : Goal} {l : Lexeme}, lexeme l → item (.need g) → ∀ i ∈ g.parts l, item i
  perform : ∀ {s s' : Scope} {e : Event} {code : List Instruction}, scope s → item (.raise e) →
    s.perform t e = .ok (s', code) → scope s' ∧ ∀ i ∈ code, instruction i

namespace Invariant

variable {t : Target} {c : Compiler}

/-- The invariant holds of all that a compiler has on its stack, knows and has written. -/
structure Holds (I : Invariant t) (c : Compiler) : Prop where
  items : ∀ i ∈ c.items, I.item i
  scope : I.scope c.scope
  code : ∀ i ∈ c.sink.code, I.instruction i

variable {I : Invariant t}

theorem Holds.perform (h : I.Holds c) {e : Event} (he : I.item (.raise e)) (position : Nat) :
    I.Holds (c.perform t position e) := by
  unfold Compiler.perform
  split
  · exact h
  split
  · exact ⟨h.items, h.scope, h.code⟩
  · next scope code hperform =>
      obtain ⟨hscope, hcode⟩ := I.perform h.scope he hperform
      have hsink : ∀ i ∈ (c.sink.writeAll code).1.code, I.instruction i := by
        intro i hi
        rcases Sink.mem_code_writeAll hi with hi | hi
        · exact h.code i hi
        · exact hcode i hi
      split
      · next sink hw =>
          rw [hw] at hsink
          exact ⟨h.items, hscope, hsink⟩
      · next sink fault hw =>
          rw [hw] at hsink
          exact ⟨h.items, h.scope, hsink⟩

theorem Holds.performAll : ∀ {events : List (Place × Event)} {c : Compiler}, I.Holds c →
    (∀ e ∈ events, I.item (.raise e.2)) → I.Holds (c.performAll t events)
  | [], _, h, _ => h
  | (place, e) :: events, c, h, hevents => by
      obtain ⟨he, hrest⟩ := List.forall_mem_cons.mp hevents
      exact (h.perform he (place.index c.next)).performAll hrest

theorem Holds.proceed (h : I.Holds c) {rest : Except Refusal (List Item)}
    (hrest : ∀ items, rest = .ok items → ∀ i ∈ items, I.item i) : I.Holds (c.proceed rest) := by
  unfold Compiler.proceed
  split
  · exact h
  · next items _ => exact ⟨hrest items rfl, h.scope, h.code⟩
  · exact ⟨h.items, h.scope, h.code⟩

/-- One lexeme keeps the invariant. -/
theorem step (h : I.Holds c) {l : Lexeme} (hl : I.lexeme l) : I.Holds (c.step t l) := by
  unfold Compiler.step
  split
  · exact h
  · obtain ⟨hevents, hrest⟩ := all_feed (I.parts hl) h.items
    exact (h.performAll hevents).proceed hrest

/-- What every step keeps, a run keeps. -/
theorem run : ∀ {ls : List Lexeme} {c : Compiler}, I.Holds c → (∀ l ∈ ls, I.lexeme l) →
    I.Holds (c.run t ls)
  | [], _, h, _ => h
  | l :: ls, c, h, hls => by
      obtain ⟨hl, hrest⟩ := List.forall_mem_cons.mp hls
      change I.Holds ((c.step t l).run t ls)
      exact run (step h hl) hrest

end Invariant

end JackVm
