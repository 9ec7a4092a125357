import JackVm.Proofs.Lockstep

/-!
# The engine reads the grammar

Every procedure of the engine reads what a goal of the grammar stands for: entered where the
compiler owes the goal and more, it returns where the compiler owes the rest. A term is read if the
terms inside it are (`ReadsTerms.step`), and these have fewer tokens ahead, so all terms are
(`readsTerms`). It is the same with statements (`readsStatements`). Lists are read by procedures
that call themselves for what is left of the list.

Main statement: from whatever state, the engine returns, with what the compiler comes to
(`run_compile`). So a compilation is what the compiler makes of the tokens (`ofCursor_eq`,
`ofSource_eq`).
-/

namespace JackVm

/-! ## What the engine looks for -/

section
variable {l : Lexeme} {g g' : Goal} {K items : List Item} {r : Refusal} {α : Type}

theorem feed_take (h : g.meet l = .take [] items) :
    feed l (.need g :: K) = settle (items ++ K) := by
  rw [feed, h]
  rfl

theorem feed_leave (h : g.meet l = .leave []) : feed l (.need g :: K) = feed l K := by
  rw [feed, h]
  rfl

theorem feed_refuse (h : g.meet l = .refuse r) : feed l (.need g :: K) = ⟨[], .error r⟩ := by
  rw [feed, h]

/-- A goal that only a symbol can close leaves the lexeme to that symbol. -/
theorem feed_closing {c : Char}
    (h : g.meet l = (Goal.symbol c).takeWith (if l.isSymbol c then some items else none)) :
    feed l (.need g :: K) = feed l (.need (.symbol c) :: (items ++ K)) := by
  have hsymbol : (Goal.symbol c).meet l =
      (Goal.symbol c).takeWith (if l.isSymbol c then some [] else none) := rfl
  cases hc : l.isSymbol c with
  | true =>
      rw [hc] at h hsymbol
      rw [feed_take h, feed_take hsymbol]
      rfl
  | false =>
      rw [hc] at h hsymbol
      rw [feed_refuse h, feed_refuse hsymbol]

/-- A lexeme is one symbol only. -/
theorem not_isSymbol {c d : Char} (h : l.isSymbol c = true) (hcd : c ≠ d) :
    ¬l.isSymbol d = true := by
  simp_all [Lexeme.isSymbol]

theorem meet_symbol {c : Char} (h : l.isSymbol c = true) :
    (Goal.symbol c).meet l = .take [] [] := by
  rw [Goal.meet, h]
  rfl

/-- After a name, an index is read as if the name were loaded before the bracket is met. -/
theorem feed_nameRest_index {name : String} (h : l.isSymbol '[' = true) :
    feed l (.need (.nameRest name) :: K) = feed l (.raise (.load name) :: .need (.symbol '[') ::
      .need .expression :: .need (.symbol ']') :: .raise .fetch :: K) := by
  have hmeet : (Goal.nameRest name).meet l = .take [(.before, .load name)]
      [.need .expression, .need (.symbol ']'), .raise .fetch] := by
    rw [Goal.meet, h]
    rfl
  have hindex : feed l (.need (.nameRest name) :: K) = Fed.after [(.before, .load name)]
      (settle (.need .expression :: .need (.symbol ']') :: .raise .fetch :: K)) := by
    rw [feed, hmeet]
    rfl
  exact hindex.trans (congrArg (Fed.after _) (feed_take (meet_symbol h)).symm)

theorem feed_nameRest_call {name : String} (h : (l.isSymbol '(' || l.isSymbol '.') = true) :
    feed l (.need (.nameRest name) :: K) = feed l (.need (.callRest name) :: K) := by
  have hmeet : (Goal.nameRest name).meet l = (Goal.callRest name).meet l := by
    simp only [Goal.meet]
    rcases Bool.or_eq_true_iff.mp h with h | h
    · rw [if_neg (not_isSymbol h (by decide)), h]
      rfl
    · rw [if_neg (not_isSymbol h (by decide)), if_neg (not_isSymbol h (by decide)), h]
      rw [if_neg (not_isSymbol h (by decide))]
      rfl
  rw [feed, feed, hmeet]

theorem feed_nameRest_variable {name : String} (hindex : l.isSymbol '[' = false)
    (hcall : (l.isSymbol '(' || l.isSymbol '.') = false) :
    feed l (.need (.nameRest name) :: K) = feed l (.raise (.load name) :: K) := by
  obtain ⟨hopen, hdot⟩ := Bool.or_eq_false_iff.mp hcall
  have hmeet : (Goal.nameRest name).meet l = .leave [(.before, .load name)] := by
    rw [Goal.meet, hindex, hopen, hdot]
    rfl
  change feed l (.need (.nameRest name) :: K) = Fed.after [(.before, .load name)] (feed l K)
  rw [feed, hmeet]

/-- Without a declaration, the prologue comes before what begins here. -/
theorem feed_body (h : l.isKeyword "var" = false) :
    feed l (.need .body :: K) = (feed l (.need .statements :: K)).after [(.here, .prologue)] := by
  cases hitems : statementItems? l with
  | none =>
      have hbody : Goal.body.meet l = .leave [(.here, .prologue)] := by
        rw [Goal.meet, h, hitems]
        rfl
      have hstatements : Goal.statements.meet l = .leave [] := by rw [Goal.meet, hitems]
      rw [feed_leave hstatements, feed, hbody]
  | some items =>
      have hbody : Goal.body.meet l =
          .take [(.here, .prologue)] (items ++ [.need .moreStatements]) := by
        rw [Goal.meet, h, hitems]
        rfl
      have hstatements : Goal.statements.meet l =
          .take [] (items ++ [.need .moreStatements]) := by
        rw [Goal.meet, hitems]
      rw [feed_take hstatements, feed, hbody]

theorem Lexeme.text_of_isKeyword {word : String} (h : l.isKeyword word = true) : l.text = word :=
  eq_of_beq (Bool.and_eq_true_iff.mp h).2

theorem ofKeyword?_text {kind : SubroutineKind} (h : subroutineKind? l = some kind) :
    SubroutineKind.ofKeyword? l.text = some kind := by
  unfold subroutineKind? at h
  split at h
  · next hword => rw [l.text_of_isKeyword hword]; exact h
  split at h
  · next hword => rw [l.text_of_isKeyword hword]; exact h
  split at h
  · next hword => rw [l.text_of_isKeyword hword]; exact h
  · cases h

theorem isSome_subroutineKind? (l : Lexeme) :
    (subroutineKind? l).isSome = l.isOneOf ["constructor", "function", "method"] := by
  unfold subroutineKind? Lexeme.isOneOf
  repeat' split
  all_goals simp_all

theorem isSome_classStorage? (l : Lexeme) :
    (classStorage? l).isSome = l.isOneOf ["static", "field"] := by
  unfold classStorage? Lexeme.isOneOf
  repeat' split
  all_goals simp_all

theorem not_isSymbol_of_type? {type : String} {c : Char} (h : l.type? = some type) :
    ¬l.isSymbol c = true := by
  intro hc
  have hkind := kind_of_mark? (eq_of_beq hc)
  obtain ⟨htype, -⟩ := Option.ite_none_right_eq_some.mp h
  simp [Lexeme.isKeyword, hkind] at htype

theorem Lexeme.isSome_name? (l : Lexeme) : l.name?.isSome = (l.kind == .identifier) := by
  unfold name?
  cases l.kind with
  | _ => rfl

theorem Lexeme.eq_text_of_name? {name : String} (h : l.name? = some name) : name = l.text := by
  unfold name? at h
  split at h
  · exact (Option.some.inj h).symm
  · cases h

theorem Lexeme.eq_text_of_type? {type : String} (h : l.type? = some type) : type = l.text := by
  obtain ⟨-, htype⟩ := Option.ite_none_right_eq_some.mp h
  exact (Option.some.inj htype).symm

theorem termItems?_eq (l : Lexeme) : termItems? l =
    if l.kind == .integerConstant then some [.raise (.integer l.text)]
    else if l.kind == .stringConstant then some [.raise (.string l.text)]
    else if l.isConstant then
      some [.raise (.constant ((KeywordConstant.ofKeyword? l.text).getD .null))]
    else if l.isUnary then
      some [.need .term, .raise (.unary (if l.isSymbol '-' then .neg else .not))]
    else if l.isSymbol '(' then some [.need .expression, .need (.symbol ')')]
    else if l.kind == .identifier then some [.need (.nameRest l.text)]
    else none := by
  obtain ⟨kind, text⟩ := l
  cases kind with
  | integerConstant | stringConstant | identifier => rfl
  | keyword =>
      have hmark : ∀ c, Lexeme.isSymbol ⟨.keyword, text⟩ c = false := fun c => rfl
      simp only [termItems?, Lexeme.isConstant, Lexeme.isOneOf, Lexeme.isUnary, hmark]
      unfold KeywordConstant.ofKeyword?
      split
      all_goals simp_all [Lexeme.isKeyword]
  | symbol =>
      have hword : Lexeme.isConstant ⟨.symbol, text⟩ = false := rfl
      simp only [termItems?, hword, Lexeme.isUnary, Lexeme.isSymbol]
      split
      all_goals simp_all

theorem isSome_termItems? (l : Lexeme) : (termItems? l).isSome = l.beginsTerm := by
  rw [termItems?_eq, Lexeme.beginsTerm]
  repeat' split
  all_goals simp_all

theorem isSome_binary? (l : Lexeme) : l.binary?.isSome = l.isOperator := by
  unfold Lexeme.binary? Lexeme.isOperator Lexeme.isSymbol
  cases l.mark? with
  | none => rfl
  | some c =>
      simp only [Option.bind_some]
      unfold BinaryOp.ofMark?
      split
      all_goals simp_all

theorem isSome_expressionItems? (l : Lexeme) : (expressionItems? l).isSome = l.beginsTerm :=
  (Option.isSome_map ..).trans (isSome_termItems? l)

end

namespace Engine

section
variable {α : Type} {t : Target} {n m : Nat} {o : Ending} {items items' K : List Item}
  {l : Lexeme} {e : Engine} {g g' : Goal} {event : Event} {P : α → Engine → Prop}

theorem Faces.take (h : Faces t (n + 1) o (.need g :: K) l e) (hmeet : g.meet l = .take [] items) :
    Owes t n o (items ++ K) e :=
  h.settle (feed_take hmeet)

theorem Faces.leave (h : Faces t n o (.need g :: K) l e) (hmeet : g.meet l = .leave []) :
    Faces t n o K l e :=
  h.congr (feed_leave hmeet)

theorem Faces.close {c : Char} (h : Faces t n o (.need g :: K) l e)
    (hmeet : g.meet l = (Goal.symbol c).takeWith (if l.isSymbol c then some items else none)) :
    Leads Engine.retreat e o fun _ e' => Owes t n o (.need (.symbol c) :: (items ++ K)) e' :=
  (h.congr (feed_closing hmeet)).retreat.mono fun _ _ h => h.1

theorem Faces.refuse (h : Faces t n o (.need g :: K) l e)
    (hmeet : g.meet l = .refuse (.unexpected g')) : Leads (refuse g' : EngineM α) e o P :=
  h.fail (feed_refuse hmeet)

/-- What a goal takes a lexeme with is what the engine has to expect there. -/
theorem Faces.expect {test : Lexeme → Bool} {found : Option (List Item)}
    (h : Faces t (n + 1) o (.need g :: K) l e) (hmeet : g.meet l = g'.takeWith found)
    (hfound : found.isSome = test l) : Leads (expect test g') e o fun _ e' =>
      e' = e ∧ ∃ items, found = some items ∧ Owes t n o (items ++ K) e := by
  refine Returns.check h.current ?_
  rw [← hfound]
  cases found with
  | none => exact h.refuse hmeet
  | some items => exact .pure ⟨rfl, items, rfl, h.take hmeet⟩

theorem Faces.expectSymbol {c : Char} (h : Faces t (n + 1) o (.need g :: K) l e)
    (hmeet : g.meet l = g'.takeWith (if l.isSymbol c then some items else none)) :
    Leads (Engine.expect (·.isSymbol c) g') e o fun _ e' => Owes t n o (items ++ K) e' := by
  have hfound : (if l.isSymbol c then some items else none).isSome = l.isSymbol c := by
    cases l.isSymbol c with
    | true => rfl
    | false => rfl
  refine (h.expect hmeet hfound).mono ?_
  rintro - e' ⟨rfl, found, hitems, howes⟩
  obtain ⟨-, ⟨⟩⟩ := Option.ite_none_right_eq_some.mp hitems
  exact howes

theorem Owes.nextSymbol {c : Char} (h : Owes t n o (.need (.symbol c) :: K) e) :
    Leads (nextSymbol c) e o fun _ e' => Owes t n o K e' := by
  refine (h.advance (by simp)).bind ?_
  rintro - e' ⟨l, hl, -⟩
  exact hl.weaken.expectSymbol rfl

theorem Faces.expectName {f : String → List Item} (h : Faces t (n + 1) o (.need g :: K) l e)
    (hmeet : g.meet l = g'.takeWith (l.name?.map f)) :
    Leads (expectName g') e o fun name e' => Owes t n o (f name ++ K) e' := by
  refine (h.expect hmeet ((Option.isSome_map ..).trans l.isSome_name?)).bind ?_
  rintro - e' ⟨rfl, items, hitems, howes⟩
  refine (Returns.of_text h.current).mono ?_
  rintro name e' ⟨rfl, rfl⟩
  obtain ⟨name, hname, rfl⟩ := Option.map_eq_some_iff.mp hitems
  rwa [Lexeme.eq_text_of_name? hname] at howes

theorem Faces.expectType {f : String → List Item} (h : Faces t (n + 1) o (.need g :: K) l e)
    (hmeet : g.meet l = g'.takeWith (l.type?.map f)) :
    Leads (expectType g') e o fun type e' => Owes t n o (f type ++ K) e' := by
  refine (h.expect hmeet (Option.isSome_map ..)).bind ?_
  rintro - e' ⟨rfl, items, hitems, howes⟩
  refine (Returns.of_text h.current).mono ?_
  rintro type e' ⟨rfl, rfl⟩
  obtain ⟨type, htype, rfl⟩ := Option.map_eq_some_iff.mp hitems
  rwa [Lexeme.eq_text_of_type? htype] at howes

/-! ## Expressions -/

/-- The procedure reads terms as the grammar says, as long as fewer than `n` tokens follow. -/
def ReadsTerms (t : Target) (n : Nat) (term : EngineM Unit) : Prop :=
  ∀ ⦃m : Nat⦄, m ≤ n → ∀ ⦃o : Ending⦄ ⦃K items : List Item⦄ ⦃l : Lexeme⦄ ⦃e : Engine⦄,
    e.current? = some l → termItems? l = some items → Owes t m o (items ++ K) e →
      Leads term e o fun _ e' => Owes t m o K e'

namespace ReadsTerms

variable {term : EngineM Unit}

theorem mono (h : ReadsTerms t n term) (hmn : m ≤ n) : ReadsTerms t m term :=
  fun _ hm => h (Nat.le_trans hm hmn)

theorem nextTerm (h : ReadsTerms t n term) (howes : Owes t (n + 1) o (.need .term :: K) e) :
    Leads (nextTermBy term) e o fun _ e' => Owes t n o K e' := by
  refine (howes.advance (by simp)).bind ?_
  rintro - e' ⟨l, hl, -⟩
  refine (hl.expect rfl (isSome_termItems? l)).bind ?_
  rintro - e' ⟨rfl, items, hitems, howes⟩
  exact h (Nat.le_refl _) hl.current hitems howes

/-- The engine finds the code of every operator that it has looked for. -/
theorem writeOperator {op : BinaryOp} (hop : l.binary? = some op)
    (howes : Owes t n o (.raise (.binary op) :: K) e) :
    Leads (writeOperator t (l.text.toList.headD '\x00')) e o fun _ e' => Owes t n o K e' := by
  obtain ⟨c, hc, hop⟩ := Option.bind_eq_some_iff.mp hop
  have hhead : l.text.toList.head? = some c := by
    rw [Lexeme.mark?, kind_of_mark? hc] at hc
    exact hc
  rw [List.headD_eq_head?_getD, hhead, Option.getD_some, Engine.writeOperator, hop]
  exact howes.raise.mono fun _ _ h => h.1

theorem operators (h : ReadsTerms t n term)
    (howes : Owes t (n + 1) o (.need .operators :: K) e) :
    Leads (operatorsBy t term) e o fun _ e' => Owes t (n + 1) o K e' := by
  unfold operatorsBy
  revert e
  apply Returns.recursively
  intro again e howes hagain
  have hn : e.tape.ahead.length ≤ n := Nat.le_of_lt_succ howes.ahead
  refine (howes.tight.advance (by simp)).bind ?_
  rintro - e' ⟨l, hl, -⟩
  refine Returns.check hl.current ?_
  rw [← isSome_binary?]
  cases hop : l.binary? with
  | none =>
      refine (hl.leave (by rw [Goal.meet, hop])).retreat.mono ?_
      rintro - e' ⟨howes, -⟩
      exact howes.mono (Nat.succ_le_succ hn)
  | some op =>
      have hmeet : Goal.operators.meet l =
          .take [] [.need .term, .raise (.binary op), .need .operators] := by
        rw [Goal.meet, hop]
      refine Returns.text hl.current ?_
      refine ((h.mono hn).nextTerm ((hl.take hmeet).mono (Nat.le_succ _))).bind ?_
      rintro - e' howes
      refine (writeOperator hop howes).bind ?_
      rintro - e' howes
      exact hagain e' howes.ahead (howes.mono (Nat.le_succ_of_le hn))

theorem expression (h : ReadsTerms t n term) (hcurrent : e.current? = some l)
    (hitems : expressionItems? l = some items) (howes : Owes t n o (items ++ K) e) :
    Leads (expressionBy t term) e o fun _ e' => Owes t n o K e' := by
  obtain ⟨items, hterm, rfl⟩ := Option.map_eq_some_iff.mp hitems
  rw [List.append_assoc] at howes
  refine (h (Nat.le_refl _) hcurrent hterm howes).bind ?_
  rintro - e' howes
  cases n with
  | zero => exact absurd howes.ahead (Nat.not_lt_zero _)
  | succ n => exact (h.mono n.le_succ).operators howes

theorem nextExpression (h : ReadsTerms t n term)
    (howes : Owes t (n + 1) o (.need .expression :: K) e) :
    Leads (nextExpressionBy t term) e o fun _ e' => Owes t n o K e' := by
  refine (howes.advance (by simp)).bind ?_
  rintro - e' ⟨l, hl, -⟩
  refine (hl.expect rfl (isSome_expressionItems? l)).bind ?_
  rintro - e' ⟨rfl, items, hitems, howes⟩
  exact h.expression hl.current hitems howes

theorem moreExpressions {callee : Callee} {count : UInt32} (h : ReadsTerms t n term)
    (howes : Owes t (n + 1) o (.need (.moreArguments callee count) :: K) e) :
    Leads (moreExpressionsBy t term callee count) e o fun count e' =>
      Owes t (n + 1) o (.need (.symbol ')') :: .raise (.call callee count) :: K) e' := by
  unfold moreExpressionsBy
  revert e count
  apply Returns.recursivelyFrom
  intro again count e howes hagain
  have hn : e.tape.ahead.length ≤ n := Nat.le_of_lt_succ howes.ahead
  refine (howes.tight.advance (by simp)).bind ?_
  rintro - e' ⟨l, hl, -⟩
  refine Returns.check hl.current ?_
  cases hcomma : l.isSymbol ',' with
  | false =>
      have hmeet : (Goal.moreArguments callee count).meet l = (Goal.symbol ')').takeWith
          (if l.isSymbol ')' then some [.raise (.call callee count)] else none) := by
        rw [Goal.meet, hcomma]
        rfl
      refine (hl.close hmeet).bind ?_
      rintro - e' howes
      exact .pure (howes.mono (Nat.succ_le_succ hn))
  | true =>
      have hmeet : (Goal.moreArguments callee count).meet l =
          .take [] [.need .expression, .need (.moreArguments callee (count + 1))] := by
        rw [Goal.meet, hcomma, if_neg (not_isSymbol hcomma (by decide))]
        rfl
      refine ((h.mono hn).nextExpression ((hl.take hmeet).mono (Nat.le_succ _))).bind ?_
      rintro - e' howes
      exact hagain _ e' howes.ahead (howes.mono (Nat.le_succ_of_le hn))

theorem expressionList {callee : Callee} (h : ReadsTerms t n term)
    (hl : Faces t (n + 1) o (.need (.arguments callee) :: K) l e) :
    Leads (expressionListBy t term callee) e o fun count e' =>
      Owes t (n + 1) o (.need (.symbol ')') :: .raise (.call callee count) :: K) e' := by
  refine Returns.check hl.current ?_
  rw [← isSome_expressionItems?]
  cases hitems : expressionItems? l with
  | none =>
      have hmeet : (Goal.arguments callee).meet l = (Goal.symbol ')').takeWith
          (if l.isSymbol ')' then some [.raise (.call callee 0)] else none) := by
        rw [Goal.meet, hitems]
        rfl
      refine (hl.close hmeet).bind ?_
      rintro - e' howes
      exact .pure howes
  | some items =>
      have hmeet : (Goal.arguments callee).meet l =
          .take [] (items ++ [.need (.moreArguments callee 1)]) := by
        rw [Goal.meet, hitems, isSymbol_of_expressionItems? hitems (.inl rfl)]
        rfl
      have howes := hl.take hmeet
      rw [List.append_assoc] at howes
      refine (h.expression hl.current hitems howes).bind ?_
      rintro - e' howes
      exact h.moreExpressions (howes.mono n.le_succ)

theorem leads_name {name : String} {g : Goal} (hcurrent : e.current? = some l)
    (hname : l.name? = some name) :
    Leads (expectName g) e o fun name' e' => name' = name ∧ e' = e := by
  refine Returns.bind (P := fun _ e' => e' = e) ?_ ?_
  · refine Returns.check hcurrent ?_
    rw [← l.isSome_name?, hname]
    exact .pure rfl
  · rintro - e' rfl
    rw [Lexeme.eq_text_of_name? hname]
    exact Returns.of_text hcurrent

/-- A callee is read up to the parenthesis, whether its name is dotted or not. -/
theorem compileCallee {name : String} (hl : Faces t n o (.need (.callRest name) :: K) l e) :
    Leads (compileCallee t name) e o fun callee e' =>
      ∃ l, Faces t n o (.need (.symbol '(') :: (argumentItems callee ++ K)) l e' := by
  refine Returns.check hl.current ?_
  cases hdot : l.isSymbol '.' with
  | true =>
      have hmeet : (Goal.callRest name).meet l = .take [] [.need (.calleeName name)] := by
        rw [Goal.meet, hdot, if_neg (not_isSymbol hdot (by decide))]
        rfl
      refine ((hl.weaken.take hmeet).advance (by simp)).bind ?_
      rintro - e' ⟨l, hl, -⟩
      refine (hl.weaken.expectName rfl).bind ?_
      rintro name' e' howes
      refine howes.raise.bind ?_
      rintro - e' ⟨howes, -⟩
      refine (howes.advance (by simp)).bind ?_
      rintro - e' ⟨l, hl, -⟩
      exact .pure ⟨l, hl⟩
  | false =>
      refine Returns.check hl.current ?_
      cases hopen : l.isSymbol '(' with
      | true =>
          refine .pure ⟨l, hl.congr ?_⟩
          have hmeet : (Goal.callRest name).meet l = .take [] (argumentItems (.bare name)) := by
            rw [Goal.meet, hopen]
            rfl
          have hsymbol : (Goal.symbol '(').meet l = .take [] [] := by
            rw [Goal.meet, hopen]
            rfl
          rw [feed_take hmeet, feed_take hsymbol]
          rfl
      | false =>
          refine hl.refuse ?_
          rw [Goal.meet, hopen, hdot]
          rfl

/-- A call is read after its first name. -/
theorem call {name : String} (h : ReadsTerms t n term)
    (howes : Owes t (n + 1) o (.need (.callRest name) :: K) e) :
    Leads (callBy t term name) e o fun _ e' => Owes t (n + 1) o K e' := by
  refine (howes.advance (by simp)).bind ?_
  rintro - e' ⟨l, hl, -⟩
  refine (compileCallee hl).bind ?_
  rintro callee e' ⟨l, hl⟩
  refine (hl.weaken.expectSymbol rfl).bind ?_
  rintro - e' howes
  refine howes.raise.bind ?_
  rintro - e' ⟨howes, -⟩
  refine (howes.advance (by simp)).bind ?_
  rintro - e' ⟨l, hl, -⟩
  refine (h.expressionList hl).bind ?_
  rintro count e' howes
  refine howes.nextSymbol.bind ?_
  rintro - e' howes
  exact howes.raise.mono fun _ _ h => h.1

/-- A name is a variable, an array or what is called. The engine steps ahead to see which, and back
to the name. -/
theorem name {name : String} (h : ReadsTerms t n term) (hcurrent : e.current? = some l)
    (hname : l.name? = some name) (howes : Owes t (n + 1) o (.need (.nameRest name) :: K) e) :
    Leads (nameBy t term) e o fun _ e' => Owes t (n + 1) o K e' := by
  refine Returns.text hcurrent ?_
  rw [← Lexeme.eq_text_of_name? hname]
  refine (howes.advance (by simp)).bind ?_
  rintro - e' ⟨next, hnext, hprevious, -⟩
  rw [hcurrent] at hprevious
  refine Returns.check hnext.current ?_
  cases hindex : next.isSymbol '[' with
  | true =>
      refine (hnext.congr (feed_nameRest_index hindex)).retreat.bind ?_
      rintro - e' ⟨howes, hcurrent, hupcoming⟩
      refine Returns.text (hcurrent.trans hprevious) ?_
      rw [← Lexeme.eq_text_of_name? hname]
      refine howes.raise.bind ?_
      rintro - e'' ⟨howes, htape⟩
      refine (howes.advance (by simp)).bind ?_
      rintro - e' ⟨next', hnext, -, hupcoming'⟩
      rw [upcoming?, htape] at hupcoming'
      obtain rfl : next = next' := Option.some.inj (hupcoming.symm.trans hupcoming')
      refine (h.nextExpression (hnext.weaken.take (meet_symbol hindex))).bind ?_
      rintro - e' howes
      refine howes.nextSymbol.bind ?_
      rintro - e' howes
      exact howes.raise.mono fun _ _ h => h.1.mono n.le_succ
  | false =>
      refine Returns.check hnext.current ?_
      cases hcall : next.isSymbol '(' || next.isSymbol '.' with
      | true =>
          refine (hnext.congr (feed_nameRest_call hcall)).retreat.bind ?_
          rintro - e' ⟨howes, hcurrent, -⟩
          refine (leads_name (hcurrent.trans hprevious) hname).bind ?_
          rintro name' e' ⟨rfl, rfl⟩
          exact h.call howes
      | false =>
          refine (hnext.congr (feed_nameRest_variable hindex hcall)).retreat.bind ?_
          rintro - e' ⟨howes, hcurrent, -⟩
          refine Returns.text (hcurrent.trans hprevious) ?_
          rw [← Lexeme.eq_text_of_name? hname]
          exact howes.raise.mono fun _ _ h => h.1

/-- A term is read if the terms inside it are. -/
theorem around (h : ReadsTerms t n term) (hcurrent : e.current? = some l)
    (hitems : termItems? l = some items) (howes : Owes t (n + 1) o (items ++ K) e) :
    Leads (termBy t term) e o fun _ e' => Owes t (n + 1) o K e' := by
  rw [termItems?_eq] at hitems
  refine Returns.branch (·.kind == .integerConstant) hcurrent hitems ?_ fun hitems => ?_
  · rintro - ⟨⟩
    refine Returns.text hcurrent ?_
    exact howes.raise.mono fun _ _ h => h.1
  refine Returns.branch (·.kind == .stringConstant) hcurrent hitems ?_ fun hitems => ?_
  · rintro - ⟨⟩
    refine Returns.text hcurrent ?_
    exact howes.raise.mono fun _ _ h => h.1
  refine Returns.branch Lexeme.isConstant hcurrent hitems ?_ fun hitems => ?_
  · rintro - ⟨⟩
    refine Returns.text hcurrent ?_
    exact howes.raise.mono fun _ _ h => h.1
  refine Returns.branch Lexeme.isUnary hcurrent hitems ?_ fun hitems => ?_
  · rintro - ⟨⟩
    refine Returns.check hcurrent ?_
    refine (h.nextTerm howes).bind ?_
    rintro - e' howes
    exact howes.raise.mono fun _ _ h => h.1.mono n.le_succ
  refine Returns.branch (·.isSymbol '(') hcurrent hitems ?_ fun hitems => ?_
  · rintro - ⟨⟩
    refine (h.nextExpression howes).bind ?_
    rintro - e' howes
    exact howes.nextSymbol.mono fun _ _ h => h.mono n.le_succ
  refine Returns.branch (·.kind == .identifier) hcurrent hitems ?_ fun hitems => ?_
  · rintro hname ⟨⟩
    refine h.name hcurrent ?_ howes
    rw [Lexeme.name?, eq_of_beq hname]
  · cases hitems

theorem step (h : ReadsTerms t n term) : ReadsTerms t (n + 1) (termBy t term) := by
  intro m hm o K items l e hcurrent hitems howes
  cases m with
  | zero => exact absurd howes.ahead (Nat.not_lt_zero _)
  | succ m => exact (h.mono (Nat.le_of_succ_le_succ hm)).around hcurrent hitems howes

end ReadsTerms

/-- Whatever the engine is on, it reads a term there as the grammar says. -/
theorem readsTerms (t : Target) (n : Nat) : ReadsTerms t n (compileTerm t) := by
  have hzero : ReadsTerms t 0 tooDeep := by
    intro m hm o K items l e _ _ howes
    exact absurd (Nat.lt_of_lt_of_le howes.ahead hm) (Nat.not_lt_zero _)
  have hrepeat := repeat_of_step hzero fun _ _ => ReadsTerms.step
  intro m _ o K items l e hcurrent hitems howes
  unfold compileTerm
  apply Returns.of_repeat
  refine (hrepeat _ (Nat.le_refl _) hcurrent hitems howes.tight).mono ?_
  rintro - e' howes'
  exact howes'.mono howes.ahead

/-! ## Statements -/

theorem Owes.nextExpression (h : Owes t n o (.need .expression :: K) e) :
    Leads (nextExpression t) e o fun _ e' => Owes t n o K e' :=
  (readsTerms t n).nextExpression (h.mono n.le_succ)

theorem Owes.call {name : String} (h : Owes t n o (.need (.callRest name) :: K) e) :
    Leads (callBy t (compileTerm t) name) e o fun _ e' => Owes t n o K e' := by
  cases n with
  | zero => exact absurd h.ahead (Nat.not_lt_zero _)
  | succ n => exact (readsTerms t n).call h

theorem Owes.compileCondition (h : Owes t n o (conditionItems ++ K) e) :
    Leads (compileCondition t) e o fun _ e' => Owes t n o K e' := by
  refine h.nextSymbol.bind ?_
  rintro - e' h
  refine h.nextExpression.bind ?_
  rintro - e' h
  exact h.nextSymbol

theorem Owes.compileLet (h : Owes t n o (.need .letTarget :: K) e) :
    Leads (compileLet t) e o fun _ e' => Owes t n o K e' := by
  refine (h.advance (by simp)).bind ?_
  rintro - e' ⟨l, hl, -⟩
  refine (hl.weaken.expectName rfl).bind ?_
  rintro name e' h
  refine h.raise.bind ?_
  rintro - e' ⟨h, -⟩
  refine (h.advance (by simp)).bind ?_
  rintro - e' ⟨l, hl, -⟩
  refine Returns.check hl.current ?_
  cases hindex : l.isSymbol '[' with
  | true =>
      have hmeet : (Goal.letRest name).meet l = .take [] [.raise (.load name), .need .expression,
          .need (.symbol ']'), .raise .address, .need (.symbol '='), .need .expression,
          .need (.symbol ';'), .raise .storeElement] := by
        rw [Goal.meet, hindex]
        rfl
      refine (hl.weaken.take hmeet).raise.bind ?_
      rintro - e' ⟨h, -⟩
      refine h.nextExpression.bind ?_
      rintro - e' h
      refine h.nextSymbol.bind ?_
      rintro - e' h
      refine h.raise.bind ?_
      rintro - e' ⟨h, -⟩
      refine h.nextSymbol.bind ?_
      rintro - e' h
      refine h.nextExpression.bind ?_
      rintro - e' h
      refine h.nextSymbol.bind ?_
      rintro - e' h
      exact h.raise.mono fun _ _ h => h.1
  | false =>
      have hmeet : (Goal.letRest name).meet l = (Goal.symbol '=').takeWith
          (if l.isSymbol '=' then
            some [.need .expression, .need (.symbol ';'), .raise (.store name)]
          else none) := by
        rw [Goal.meet, hindex]
        rfl
      refine (hl.weaken.expectSymbol hmeet).bind ?_
      rintro - e' h
      refine h.nextExpression.bind ?_
      rintro - e' h
      refine h.nextSymbol.bind ?_
      rintro - e' h
      exact h.raise.mono fun _ _ h => h.1

theorem Owes.compileDo (h : Owes t n o
    (.need .callStatement :: .need (.symbol ';') :: .raise .discard :: K) e) :
    Leads (compileDo t) e o fun _ e' => Owes t n o K e' := by
  refine (h.advance (by simp)).bind ?_
  rintro - e' ⟨l, hl, -⟩
  refine Returns.bind (P := fun _ e' => Owes t n o (.need (.symbol ';') :: .raise .discard :: K) e')
    ?_ ?_
  · refine (hl.weaken.expectName rfl).bind ?_
    rintro name e' h
    exact h.call
  · rintro - e' h
    refine h.nextSymbol.bind ?_
    rintro - e' h
    exact h.raise.mono fun _ _ h => h.1

theorem Owes.compileReturn (h : Owes t n o (.need .returnRest :: K) e) :
    Leads (compileReturn t) e o fun _ e' => Owes t n o K e' := by
  refine (h.advance (by simp)).bind ?_
  rintro - e' ⟨l, hl, -⟩
  refine Returns.check hl.current ?_
  rw [← isSome_expressionItems?]
  cases hitems : expressionItems? l with
  | none =>
      have hmeet : Goal.returnRest.meet l = Goal.returnRest.takeWith
          (if l.isSymbol ';' then some [.raise .returnNothing] else none) := by
        rw [Goal.meet, hitems]
        split
        · rfl
        · rfl
      refine (hl.weaken.expectSymbol hmeet).bind ?_
      rintro - e' h
      exact h.raise.mono fun _ _ h => h.1
  | some items =>
      have hfeed : feed l (.need .returnRest :: K) =
          settle (.raise .returnValue :: (items ++ .need .returnEnd :: K)) := by
        have hmeet : Goal.returnRest.meet l =
            .take [(.here, .returnValue)] (items ++ [.need .returnEnd]) := by
          rw [Goal.meet, hitems, isSymbol_of_expressionItems? hitems (.inr rfl)]
          rfl
        rw [feed, hmeet]
        dsimp only
        rw [List.append_assoc]
        rfl
      refine (hl.weaken.settle hfeed).raise.bind ?_
      rintro - e'' ⟨h, htape⟩
      have hcurrent : e''.current? = some l := by rw [current?, htape]; exact hl.current
      refine ((readsTerms t n).expression hcurrent hitems h).bind ?_
      rintro - e' h
      refine (h.advance (by simp)).bind ?_
      rintro - e' ⟨l, hl, -⟩
      refine (hl.weaken.expectSymbol rfl).bind ?_
      rintro - e' h
      exact h.raise.mono fun _ _ h => h.1

/-- The procedure reads statements as the grammar says, as long as fewer than `n` tokens follow. It
is entered on the lexeme that may be the first of them. -/
def ReadsStatements (t : Target) (n : Nat) (statements : EngineM Unit) : Prop :=
  ∀ ⦃m : Nat⦄, m ≤ n → ∀ ⦃o : Ending⦄ ⦃K : List Item⦄ ⦃l : Lexeme⦄ ⦃e : Engine⦄,
    Faces t m o (.need .statements :: K) l e →
      Leads statements e o fun _ e' => Owes t m o K e'

namespace ReadsStatements

variable {statements : EngineM Unit}

theorem mono (h : ReadsStatements t n statements) (hmn : m ≤ n) :
    ReadsStatements t m statements :=
  fun _ hm => h (Nat.le_trans hm hmn)

theorem block (h : ReadsStatements t n statements) (howes : Owes t n o (blockItems ++ K) e) :
    Leads (blockBy statements) e o fun _ e' => Owes t n o K e' := by
  refine howes.nextSymbol.bind ?_
  rintro - e' howes
  refine (howes.advance (by simp)).bind ?_
  rintro - e' ⟨l, hl, -⟩
  refine (h (Nat.le_refl _) hl).bind ?_
  rintro - e' howes
  exact howes.nextSymbol

theorem elsePart (h : ReadsStatements t n statements)
    (howes : Owes t n o (.need .elsePart :: K) e) :
    Leads (elseBy statements) e o fun _ e' => Owes t n o K e' := by
  refine (howes.advance (by simp)).bind ?_
  rintro - e' ⟨l, hl, -⟩
  refine Returns.check hl.current ?_
  cases helse : l.isKeyword "else" with
  | true =>
      have hmeet : Goal.elsePart.meet l = .take [] blockItems := by
        rw [Goal.meet, helse]
        rfl
      exact h.block (hl.weaken.take hmeet)
  | false =>
      have hmeet : Goal.elsePart.meet l = .leave [] := by
        rw [Goal.meet, helse]
        rfl
      exact (hl.leave hmeet).retreat.mono fun _ _ h => h.1

theorem ifStatement (h : ReadsStatements t n statements) (howes : Owes t n o (.raise .ifBegin ::
    (conditionItems ++ .raise .ifTest ::
      (blockItems ++ .raise .ifElse :: .need .elsePart :: .raise .ifEnd :: K))) e) :
    Leads (ifBy t statements) e o fun _ e' => Owes t n o K e' := by
  refine howes.raise.bind ?_
  rintro - e' ⟨howes, -⟩
  refine howes.compileCondition.bind ?_
  rintro - e' howes
  refine howes.raise.bind ?_
  rintro - e' ⟨howes, -⟩
  refine (h.block howes).bind ?_
  rintro - e' howes
  refine howes.raise.bind ?_
  rintro - e' ⟨howes, -⟩
  refine (h.elsePart howes).bind ?_
  rintro - e' howes
  exact howes.raise.mono fun _ _ h => h.1

theorem whileStatement (h : ReadsStatements t n statements)
    (howes : Owes t n o (.raise .whileBegin ::
      (conditionItems ++ .raise .whileTest :: (blockItems ++ .raise .whileEnd :: K))) e) :
    Leads (whileBy t statements) e o fun _ e' => Owes t n o K e' := by
  refine howes.raise.bind ?_
  rintro - e' ⟨howes, -⟩
  refine howes.compileCondition.bind ?_
  rintro - e' howes
  refine howes.raise.bind ?_
  rintro - e' ⟨howes, -⟩
  refine (h.block howes).bind ?_
  rintro - e' howes
  exact howes.raise.mono fun _ _ h => h.1

theorem statement (h : ReadsStatements t n statements) (hcurrent : e.current? = some l)
    (hitems : statementItems? l = some items) (howes : Owes t n o (items ++ K) e) :
    Leads (statementBy t statements) e o fun found e' => found = true ∧ Owes t n o K e' := by
  have hfound : ∀ {x : EngineM Unit}, Leads x e o (fun _ e' => Owes t n o K e') →
      Leads (do x; return true) e o fun found e' => found = true ∧ Owes t n o K e' :=
    fun hx => hx.bind fun _ _ howes => .pure ⟨rfl, howes⟩
  refine Returns.branch (·.isKeyword "let") hcurrent hitems ?_ fun hitems => ?_
  · rintro - ⟨⟩
    exact hfound howes.compileLet
  refine Returns.branch (·.isKeyword "if") hcurrent hitems ?_ fun hitems => ?_
  · rintro - ⟨⟩
    exact hfound (h.ifStatement howes)
  refine Returns.branch (·.isKeyword "while") hcurrent hitems ?_ fun hitems => ?_
  · rintro - ⟨⟩
    exact hfound (h.whileStatement howes)
  refine Returns.branch (·.isKeyword "do") hcurrent hitems ?_ fun hitems => ?_
  · rintro - ⟨⟩
    exact hfound howes.compileDo
  refine Returns.branch (·.isKeyword "return") hcurrent hitems ?_ fun hitems => ?_
  · rintro - ⟨⟩
    exact hfound howes.compileReturn
  · cases hitems

theorem noStatement {Q : Failure → Engine → Prop} (hcurrent : e.current? = some l)
    (hitems : statementItems? l = none) :
    Returns (statementBy t statements) e Q fun found e' => found = false ∧ e' = e := by
  refine Returns.branch (·.isKeyword "let") hcurrent hitems ?_ fun hitems => ?_
  · rintro - ⟨⟩
  refine Returns.branch (·.isKeyword "if") hcurrent hitems ?_ fun hitems => ?_
  · rintro - ⟨⟩
  refine Returns.branch (·.isKeyword "while") hcurrent hitems ?_ fun hitems => ?_
  · rintro - ⟨⟩
  refine Returns.branch (·.isKeyword "do") hcurrent hitems ?_ fun hitems => ?_
  · rintro - ⟨⟩
  refine Returns.branch (·.isKeyword "return") hcurrent hitems ?_ fun _ => ?_
  · rintro - ⟨⟩
  · exact .pure ⟨rfl, rfl⟩

/-- Statements are read if the statements inside and after the first are. -/
theorem around (h : ReadsStatements t n statements)
    (hl : Faces t (n + 1) o (.need .statements :: K) l e) :
    Leads (statementsBy t statements) e o fun _ e' => Owes t (n + 1) o K e' := by
  cases hitems : statementItems? l with
  | none =>
      have hmeet : Goal.statements.meet l = .leave [] := by rw [Goal.meet, hitems]
      refine (noStatement hl.current hitems).bind ?_
      rintro found e' ⟨rfl, rfl⟩
      exact (hl.leave hmeet).retreat.mono fun _ _ h => h.1
  | some items =>
      have hmeet : Goal.statements.meet l = .take [] (items ++ [.need .moreStatements]) := by
        rw [Goal.meet, hitems]
      have howes := hl.take hmeet
      rw [List.append_assoc] at howes
      refine (h.statement hl.current hitems howes).bind ?_
      rintro found e' ⟨rfl, howes⟩
      refine (howes.advance (by simp)).bind ?_
      rintro - e' ⟨l, hl, -⟩
      have hfeed : feed l (.need .moreStatements :: K) = feed l (.need .statements :: K) := rfl
      exact (h (Nat.le_refl _) (hl.congr hfeed)).mono fun _ _ h => h.mono n.le_succ

theorem step (h : ReadsStatements t n statements) :
    ReadsStatements t (n + 1) (statementsBy t statements) := by
  intro m hm o K l e hl
  cases m with
  | zero => exact absurd hl.ahead (Nat.not_lt_zero _)
  | succ m => exact (h.mono (Nat.le_of_succ_le_succ hm)).around hl

end ReadsStatements

/-- Calls as deep as there are tokens ahead are enough. -/
theorem readsStatements_repeat (t : Target) :
    ∀ n, ReadsStatements t (n + 1) (Nat.repeat (statementsBy t) n tooDeep) := by
  refine repeat_of_step ?_ fun _ _ => ReadsStatements.step
  intro m hm o K l e hl
  have hahead := hl.ahead
  omega

theorem readsStatements (t : Target) (n : Nat) : ReadsStatements t n (compileStatements t) := by
  intro m _ o K l e hl
  unfold compileStatements
  apply Returns.of_repeat
  refine (readsStatements_repeat t _ (Nat.le_refl _) hl.tight).mono ?_
  rintro - e' howes
  exact howes.mono hl.ahead

/-! ## Declarations -/

theorem Owes.define {storage : Storage} {type : String}
    (h : Owes t n o (.need (.varName storage type) :: K) e) :
    Leads (define t storage type) e o fun _ e' => Owes t n o K e' := by
  refine (h.advance (by simp)).bind ?_
  rintro - e' ⟨l, hl, -⟩
  refine (hl.weaken.expectName rfl).bind ?_
  rintro name e' h
  exact h.raise.mono fun _ _ h => h.1

theorem Owes.compileMoreNames {storage : Storage} {type : String}
    (h : Owes t n o (.need (.moreNames storage type) :: K) e) :
    Leads (compileMoreNames t storage type) e o fun _ e' => Owes t n o K e' := by
  unfold Engine.compileMoreNames
  revert e
  apply Returns.recursively
  intro again e h hagain
  refine (h.tight.advance (by simp)).bind ?_
  rintro - e' ⟨l, hl, -⟩
  refine Returns.check hl.current ?_
  cases hend : l.isSymbol ';' with
  | true =>
      have hmeet : (Goal.moreNames storage type).meet l = .take [] [] := by
        rw [Goal.meet, hend]
        rfl
      exact .pure ((hl.take hmeet).mono (Nat.le_of_lt h.ahead))
  | false =>
      refine Returns.check hl.current ?_
      cases hcomma : l.isSymbol ',' with
      | true =>
          have hmeet : (Goal.moreNames storage type).meet l =
              .take [] [.need (.varName storage type), .need (.moreNames storage type)] := by
            rw [Goal.meet, hend, hcomma]
            rfl
          refine (hl.take hmeet).define.bind ?_
          rintro - e' h'
          exact hagain e' h'.ahead (h'.mono (Nat.le_of_lt h.ahead))
      | false =>
          refine hl.refuse ?_
          rw [Goal.meet, hend, hcomma]
          rfl

theorem Owes.compileNames {storage : Storage} (h : Owes t n o (.need (.varType storage) :: K) e) :
    Leads (compileNames t storage) e o fun _ e' => Owes t n o K e' := by
  refine (h.advance (by simp)).bind ?_
  rintro - e' ⟨l, hl, -⟩
  refine (hl.weaken.expectType rfl).bind ?_
  rintro type e' h
  refine h.define.bind ?_
  rintro - e' h
  exact h.compileMoreNames

/-- Variables of a class are either static or fields. -/
theorem Owes.compileClassVarDec {storage : Storage} (hcurrent : e.current? = some l)
    (hstorage : classStorage? l = some storage) (h : Owes t n o (.need (.varType storage) :: K) e) :
    Leads (compileClassVarDec t) e o fun _ e' => Owes t n o K e' := by
  refine Returns.check hcurrent ?_
  unfold classStorage? at hstorage
  split at hstorage
  · next hstatic =>
      cases hstorage
      rw [if_pos hstatic]
      exact h.compileNames
  · next hstatic =>
      obtain ⟨-, ⟨⟩⟩ := Option.ite_none_right_eq_some.mp hstorage
      rw [if_neg hstatic]
      exact h.compileNames

theorem Owes.compileMoreParameters (h : Owes t n o (.need .moreParameters :: K) e) :
    Leads (compileMoreParameters t) e o fun _ e' => Owes t n o (.need (.symbol ')') :: K) e' := by
  unfold Engine.compileMoreParameters
  revert e
  apply Returns.recursively
  intro again e h hagain
  refine (h.tight.advance (by simp)).bind ?_
  rintro - e' ⟨l, hl, -⟩
  refine Returns.check hl.current ?_
  cases hcomma : l.isSymbol ',' with
  | true =>
      have hmeet : Goal.moreParameters.meet l = .take [] [.need .parameterType] := by
        rw [Goal.meet, hcomma, if_neg (not_isSymbol hcomma (by decide))]
        rfl
      refine ((hl.take hmeet).advance (by simp)).bind ?_
      rintro - e' ⟨l, hl, -⟩
      refine (hl.weaken.expectType rfl).bind ?_
      rintro type e' h'
      refine h'.define.bind ?_
      rintro - e' h'
      exact hagain e' h'.ahead (h'.mono (Nat.le_of_lt h.ahead))
  | false =>
      have hmeet : Goal.moreParameters.meet l =
          (Goal.symbol ')').takeWith (if l.isSymbol ')' then some [] else none) := by
        rw [Goal.meet, hcomma]
        rfl
      exact (hl.close hmeet).mono fun _ _ h' => h'.mono h.ahead

theorem Faces.compileParameterList (h : Faces t n o (.need .parameters :: K) l e) :
    Leads (compileParameterList t) e o fun _ e' => Owes t n o (.need (.symbol ')') :: K) e' := by
  refine Returns.check h.current ?_
  cases htype : l.type? with
  | none =>
      have hmeet : Goal.parameters.meet l =
          (Goal.symbol ')').takeWith (if l.isSymbol ')' then some [] else none) := by
        rw [Goal.meet, htype]
        rfl
      exact h.close hmeet
  | some type =>
      have hmeet : Goal.parameters.meet l =
          .take [] [.need (.varName .argument type), .need .moreParameters] := by
        rw [Goal.meet, htype, if_neg (not_isSymbol_of_type? htype)]
        rfl
      refine Returns.text h.current ?_
      rw [← Lexeme.eq_text_of_type? htype]
      refine (h.weaken.take hmeet).define.bind ?_
      rintro - e' h
      exact h.compileMoreParameters

/-- Local declarations are read up to a lexeme that begins none. -/
theorem Faces.compileVarDecs (h : Faces t n o (.need .body :: K) l e) :
    Leads (compileVarDecs t) e o fun _ e' =>
      ∃ l, l.isKeyword "var" = false ∧ Faces t n o (.need .body :: K) l e' := by
  unfold Engine.compileVarDecs
  replace h : ∃ l, Faces t n o (.need .body :: K) l e := ⟨l, h⟩
  revert e
  apply Returns.recursively
  rintro again e ⟨l, h⟩ hagain
  refine Returns.check h.current ?_
  cases hvar : l.isKeyword "var" with
  | true =>
      have hmeet : Goal.body.meet l = .take [] [.need (.varType .var), .need .body] := by
        rw [Goal.meet, hvar]
        rfl
      refine (h.tight.take hmeet).compileNames.bind ?_
      rintro - e' h'
      refine (h'.advance (by simp)).bind ?_
      rintro - e' ⟨l, hl, -⟩
      exact hagain e' (Nat.lt_of_succ_lt_succ hl.ahead) ⟨l, hl.mono (Nat.le_of_lt h.ahead)⟩
  | false => exact .pure ⟨l, hvar, h⟩

theorem Owes.compileSubroutineBody (h : Owes t n o (.need .body :: .need (.symbol '}') :: K) e) :
    Leads (compileSubroutineBody t) e o fun _ e' => Owes t n o K e' := by
  refine (h.advance (by simp)).bind ?_
  rintro - e' ⟨l, hl, -⟩
  refine hl.compileVarDecs.bind ?_
  rintro - e' ⟨l, hvar, hl⟩
  refine (hl.raise (feed_body hvar)).bind ?_
  rintro - e' hl
  refine (readsStatements t n (Nat.le_refl _) hl).bind ?_
  rintro - e' h
  exact h.nextSymbol

theorem Faces.expectResult {kind : SubroutineKind}
    (h : Faces t (n + 1) o (.need (.resultType kind) :: K) l e) :
    Leads (expectResult kind) e o fun type e' =>
      Owes t n o (.raise (.result kind type) :: K) e' := by
  refine Returns.check h.current ?_
  cases hvoid : l.isKeyword "void" with
  | true =>
      have hmeet : (Goal.resultType kind).meet l = .take [] [.raise (.result kind none)] := by
        rw [Goal.meet, hvoid]
        rfl
      exact .pure (h.take hmeet)
  | false =>
      have hmeet : (Goal.resultType kind).meet l = (Goal.resultType kind).takeWith
          (l.type?.map fun type => [.raise (.result kind (some type))]) := by
        rw [Goal.meet, hvoid]
        rfl
      refine (h.expectType hmeet).bind ?_
      rintro type e' h
      exact .pure h

/-- The engine knows the kind of every subroutine that it has looked for. -/
theorem Owes.compileSubroutineDec {kind : SubroutineKind} (hcurrent : e.current? = some l)
    (hkind : subroutineKind? l = some kind) (h : Owes t n o (subroutineItems kind ++ K) e) :
    Leads (compileSubroutineDec t) e o fun _ e' => Owes t n o K e' := by
  refine Returns.text hcurrent ?_
  rw [ofKeyword?_text hkind]
  refine (h.advance (by simp)).bind ?_
  rintro - e' ⟨l, hl, -⟩
  refine hl.weaken.expectResult.bind ?_
  rintro type e' h
  refine h.raise.bind ?_
  rintro - e' ⟨h, -⟩
  refine (h.advance (by simp)).bind ?_
  rintro - e' ⟨l, hl, -⟩
  refine (hl.weaken.expectName rfl).bind ?_
  rintro name e' h
  refine h.raise.bind ?_
  rintro - e' ⟨h, -⟩
  refine h.nextSymbol.bind ?_
  rintro - e' h
  refine h.raise.bind ?_
  rintro - e' ⟨h, -⟩
  refine (h.advance (by simp)).bind ?_
  rintro - e' ⟨l, hl, -⟩
  refine hl.compileParameterList.bind ?_
  rintro - e' h
  refine h.nextSymbol.bind ?_
  rintro - e' h
  refine h.nextSymbol.bind ?_
  rintro - e' h
  exact h.compileSubroutineBody

/-! ## Classes -/

/-- The members are read in a row, the variables before the subroutines. -/
theorem Owes.compileMembers {b : Bool} (h : Owes t n o (.need (.members b) :: K) e) :
    Leads (compileMembers t b) e o fun _ e' => Owes t n o K e' := by
  unfold Engine.compileMembers
  revert e b
  apply Returns.recursivelyFrom
  intro again b e h hagain
  have hn := Nat.le_of_lt h.ahead
  refine (h.tight.advance (by simp)).bind ?_
  rintro - e' ⟨l, hl, -⟩
  refine Returns.check hl.current ?_
  cases hend : l.isSymbol '}' with
  | true =>
      have hmeet : (Goal.members b).meet l = .take [] [] := by
        rw [Goal.meet, hend]
        rfl
      exact .pure ((hl.take hmeet).mono hn)
  | false =>
      refine Returns.check hl.current ?_
      rw [← isSome_classStorage?]
      cases hstorage : classStorage? l with
      | some storage =>
          cases b with
          | true =>
              refine hl.fail (feed_refuse ?_)
              rw [Goal.meet, hend, hstorage]
              rfl
          | false =>
              have hmeet : (Goal.members false).meet l =
                  .take [] [.need (.varType storage), .need (.members false)] := by
                rw [Goal.meet, hend, hstorage]
                rfl
              refine (compileClassVarDec hl.current hstorage (hl.take hmeet)).bind ?_
              rintro - e' h'
              exact hagain false e' h'.ahead (h'.mono hn)
      | none =>
          refine Returns.check hl.current ?_
          rw [← isSome_subroutineKind?]
          have hmeet : (Goal.members b).meet l = (Goal.members b).takeWith
              ((subroutineKind? l).map fun kind =>
                subroutineItems kind ++ [.need (.members true)]) := by
            rw [Goal.meet, hend, hstorage]
            rfl
          cases hkind : subroutineKind? l with
          | none =>
              rw [hkind] at hmeet
              exact hl.refuse hmeet
          | some kind =>
              rw [hkind] at hmeet
              have h' := hl.take hmeet
              rw [List.append_assoc] at h'
              refine (compileSubroutineDec hl.current hkind h').bind ?_
              rintro - e' h'
              exact hagain true e' h'.ahead (h'.mono hn)

theorem Owes.compileClass (h : Owes t n o
    (.need .className :: .need (.symbol '{') :: .need (.members false) :: K) e) :
    Leads (compileClass t) e o fun _ e' => Owes t n o K e' := by
  refine (h.advance (by simp)).bind ?_
  rintro - e' ⟨l, hl, -⟩
  refine (hl.weaken.expectName rfl).bind ?_
  rintro name e' h
  refine h.raise.bind ?_
  rintro - e' ⟨h, -⟩
  refine h.nextSymbol.bind ?_
  rintro - e' h
  exact h.compileMembers

/-- The compiler before the tokens that an engine has not read. -/
def online (e : Engine) : Compiler where
  scope := e.scope
  sink := e.sink
  log := e.log
  next := e.tape.seen.length

/-- What the compiler comes to after them. -/
def outcome (t : Target) (e : Engine) : Ending :=
  (e.online.run t (e.tape.ahead.map (·.toLexeme))).ending e.tape.tokens

theorem outcome_of_ahead {token : Token} {rest : List Token} (h : e.tape.ahead = token :: rest) :
    e.outcome t = { e with tape := ⟨token :: e.tape.seen, rest⟩ }.comesTo t
      (feed token.toLexeme classItems) := by
  have halike : Compiler.Alike (e.online.step t token.toLexeme)
      ((compiler { e with tape := ⟨token :: e.tape.seen, rest⟩ }).follow t
        (feed token.toLexeme classItems)) := by
    rw [Compiler.step_eq_follow rfl]
    exact Compiler.follow_setItems classItems _ _
      (compiler { e with tape := ⟨token :: e.tape.seen, rest⟩ })
  unfold outcome comesTo
  rw [Tape.tokens_forward h, h, List.map_cons]
  exact (halike.run _).ending _

theorem outcome_of_none (h : e.tape.ahead = []) :
    e.outcome t = (.error (.compile (.starved .classDec) 1), e) := by
  have htape :
      Tape.ofCursor { tokens := e.tape.tokens, position := e.online.position } = e.tape := by
    obtain ⟨⟨seen, ahead⟩, scope, sink, log⟩ := e
    obtain rfl : ahead = [] := h
    cases seen with
    | nil => rfl
    | cons token before => exact Tape.ofCursor_tokens (List.cons_ne_nil _ _)
  unfold outcome
  rw [h]
  refine Prod.ext rfl ?_
  exact congrArg (fun tape => { e with tape := tape }) htape

theorem Owes.expectEnd (h : Owes t n o [] e) :
    Leads expectEnd e o fun _ e' => (.ok (), e') = o := by
  obtain ⟨hseen, -, rfl⟩ := h
  change Leads (if e.tape.hasMore then _ else _) e _ _
  cases hahead : e.tape.ahead with
  | nil =>
      rw [Tape.hasMore, hahead]
      exact .pure (comesTo_done hseen hahead).symm
  | cons token rest =>
      rw [Tape.hasMore, hahead, comesTo_forward hseen hahead]
      refine Returns.bind (leads_forward hahead) ?_
      rintro - e' rfl
      exact Returns.fail (comesTo_refused (List.cons_ne_nil _ _)).symm

theorem leads_compile (t : Target) (e : Engine) :
    Leads (compile t) e (e.outcome t) fun _ e' => (.ok (), e') = e.outcome t := by
  change Leads (if e.tape.hasMore then _ else _) e _ _
  cases hahead : e.tape.ahead with
  | nil =>
      rw [Tape.hasMore, hahead]
      exact ⟨_, _, rfl, (outcome_of_none hahead).symm⟩
  | cons token rest =>
      rw [Tape.hasMore, hahead, outcome_of_ahead hahead]
      refine Returns.bind (leads_forward hahead) ?_
      rintro - e' rfl
      refine Returns.bind (P := fun _ e' => e' = { e with tape := ⟨token :: e.tape.seen, rest⟩ } ∧
        token.toLexeme.isKeyword "class" = true) ?_ ?_
      · refine Returns.check rfl ?_
        cases hclass : token.toLexeme.isKeyword "class" with
        | true => exact .pure ⟨rfl, rfl⟩
        | false =>
            refine Returns.fail ?_
            have hmeet : Goal.classDec.meet token.toLexeme = .refuse (.unexpected .classDec) := by
              rw [Goal.meet, hclass]
              rfl
            rw [classItems, feed_refuse hmeet]
            exact (comesTo_refused (List.cons_ne_nil _ _)).symm
      · rintro - e' ⟨rfl, hclass⟩
        have hmeet : Goal.classDec.meet token.toLexeme =
            .take [] [.need .className, .need (.symbol '{'), .need (.members false)] := by
          rw [Goal.meet, hclass]
          rfl
        rw [classItems, feed_take hmeet]
        refine (Owes.compileClass ⟨List.cons_ne_nil _ _, Nat.lt_succ_self _, rfl⟩).bind ?_
        rintro - e' h
        exact h.expectEnd

/-- The engine returns, whatever the tokens, and leaves all as the compiler does. -/
theorem run_compile (t : Target) (e : Engine) : (compile t).run.run e = some (e.outcome t) := by
  obtain ⟨r, e', hrun, hr⟩ := leads_compile t e
  rw [hrun]
  cases r with
  | ok => exact congrArg some hr
  | error failure => exact congrArg some hr

end

end Engine

/-! ## Compilations -/

namespace Compilation

theorem ofCursor_eq (t : Target) (tokens : List Token) (table : VariableTable) (sink : Sink) :
    ofCursor t { tokens := tokens } table sink =
      (atEnd t tokens table sink).compilation tokens := by
  simp only [ofCursor, Engine.run_compile]
  rfl

theorem ofTokens_eq (t : Target) (tokens : List Token) (outlet : Outlet) :
    ofTokens t tokens outlet = (atEnd t tokens {} { outlet := outlet }).compilation tokens :=
  ofCursor_eq t tokens {} { outlet := outlet }

theorem ofSource_eq (t : Target) (table : VariableTable) (source : String) (outlet : Outlet) :
    ofSource t table source outlet =
      match scan source with
      | .error e =>
          { result := .error (.lex e), cursor := { tokens := [] }, table := table
            sink := { outlet := outlet }, log := #[] }
      | .ok tokens =>
          ((atEnd t tokens {} { outlet := outlet }).compilation tokens).flush := by
  unfold ofSource
  cases scan source with
  | error e => rfl
  | ok tokens => exact congrArg flush (ofTokens_eq t tokens outlet)

end Compilation

end JackVm
