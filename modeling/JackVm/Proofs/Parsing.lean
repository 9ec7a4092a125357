import JackVm.Proofs.Printing

/-!
# What is read is a printed class

The other direction: each goal stands for the printed forms of some trees
(`Goal.Spells`), and a stack for what its goals stand for, one after the other.
A goal that takes a lexeme leaves items that complete what it stands for, so by
induction on the lexemes read, a stack that was read to its end has yielded what
it stands for. Main statement: proper lexemes that are read as a class are the
printed form of a class (`exists_class_of_reads`).
-/

namespace JackVm

/-- A lexeme as the scanner makes them. -/
def Lexeme.Proper (l : Lexeme) : Prop :=
  match l.kind with
  | .keyword => l.text ∈ keywords
  | .symbol => ∃ c ∈ symbols, l.text = c.toString
  | .identifier => isIdentifier l.text.toList = true ∧ l.text ∉ keywords
  | .integerConstant => Text.isDigits l.text.toList = true ∧
      Text.digitsValue l.text.toList ≤ maxInteger
  | .stringConstant => True

namespace Tree

/-! ## Proper lexemes -/

theorem eq_word {l : Lexeme} {w : String} (h : l.isKeyword w = true) : l = word w := by
  obtain ⟨kind, text⟩ := l
  simp only [Lexeme.isKeyword, Bool.and_eq_true, beq_iff_eq] at h
  obtain ⟨rfl, rfl⟩ := h
  rfl

theorem eq_mark_of_mark? {l : Lexeme} (hl : l.Proper) {c : Char} (h : l.mark? = some c) :
    l = mark c := by
  obtain ⟨kind, text⟩ := l
  obtain rfl : kind = .symbol := kind_of_mark? h
  obtain ⟨d, -, htext⟩ := hl
  simp only at htext
  subst htext
  obtain rfl : d = c := by simpa [Lexeme.mark?, Char.toString] using h
  rfl

theorem eq_mark {l : Lexeme} (hl : l.Proper) {c : Char} (h : l.isSymbol c = true) :
    l = mark c := by
  refine eq_mark_of_mark? hl ?_
  simpa [Lexeme.isSymbol] using h

theorem exists_identifier {l : Lexeme} (hl : l.Proper) {n : String} (h : l.name? = some n) :
    ∃ x : Identifier, l = x.lexeme ∧ n = x.text := by
  obtain ⟨kind, text⟩ := l
  cases kind with
  | identifier =>
      obtain rfl : text = n := by simpa [Lexeme.name?] using h
      exact ⟨⟨text, hl.1, hl.2⟩, rfl, rfl⟩
  | _ => simp [Lexeme.name?] at h

theorem exists_type {l : Lexeme} (hl : l.Proper) {t : String} (h : l.type? = some t) :
    ∃ type : VarType, l = type.lexeme ∧ t = type.text := by
  rw [Lexeme.type?] at h
  split at h
  · next hk =>
      obtain rfl : l.text = t := by simpa using h
      rcases hk with hk | hk | hk | hk
      · obtain ⟨x, rfl, -⟩ := exists_identifier hl (n := l.text) (by simp [Lexeme.name?, hk])
        exact ⟨.object x, rfl, rfl⟩
      · exact ⟨.int, eq_word hk, by rw [eq_word hk]; rfl⟩
      · exact ⟨.char, eq_word hk, by rw [eq_word hk]; rfl⟩
      · exact ⟨.boolean, eq_word hk, by rw [eq_word hk]; rfl⟩
  · simp at h

theorem eq_binaryMark {l : Lexeme} (hl : l.Proper) {op : BinaryOp} (h : l.binary? = some op) :
    l = mark (binaryMark op) := by
  rw [Lexeme.binary?, Option.bind_eq_some_iff] at h
  obtain ⟨c, hc, hop⟩ := h
  have : c = binaryMark op := by
    unfold BinaryOp.ofMark? at hop
    split at hop <;> simp only [Option.some.injEq, reduceCtorEq] at hop <;> subst hop <;> rfl
  rw [eq_mark_of_mark? hl hc, this]

theorem eq_constantWord {text : String} {c : KeywordConstant}
    (h : KeywordConstant.ofKeyword? text = some c) : text = constantWord c := by
  unfold KeywordConstant.ofKeyword? at h
  split at h <;> simp only [Option.some.injEq, reduceCtorEq] at h <;> subst h <;> rfl

end Tree

/-! ## What goals stand for -/

open JackVm.Tree

/-- The lexemes `ls` are what the goal stands for, and `es` are their events. Goals
that complete something are described by the whole. -/
def Goal.Spells : Goal → List Lexeme → List Event → Prop
  | .classDec, ls, es => ∃ c : Tree.Class, ls = c.print ∧ es = c.events
  | .className, ls, es => ∃ x : Identifier, ls = [x.lexeme] ∧ es = [.className x.text]
  | .symbol c, ls, es => ls = [mark c] ∧ es = []
  | .members afterSubroutine, ls, es => ∃ (vs : List ClassVarDec) (ss : List Subroutine),
      (afterSubroutine = true → vs = []) ∧
      ls = vs.flatMap ClassVarDec.print ++ ss.flatMap Subroutine.print ++ [mark '}'] ∧
      es = vs.flatMap (fun v => v.dec.events v.storage) ++ ss.flatMap Subroutine.events
  | .varType storage, ls, es => ∃ d : VarDec, ls = d.print ∧ es = d.events storage
  | .varName storage type, ls, es => ∃ x : Identifier,
      ls = [x.lexeme] ∧ es = [.declare storage type x.text]
  | .moreNames storage type, ls, es => ∃ xs : List Identifier,
      ls = xs.flatMap (fun x => [mark ',', x.lexeme]) ++ [mark ';'] ∧
      es = xs.map (fun x => .declare storage type x.text)
  | .resultType kind, ls, es => ∃ r : Option VarType,
      ls = [printResult r] ∧ es = [.result kind (r.map VarType.text)]
  | .subroutineName, ls, es => ∃ x : Identifier, ls = [x.lexeme] ∧ es = [.subroutine x.text]
  | .parameters, ls, es => ∃ ps : List Parameter,
      ls = printParameters ps ++ [mark ')'] ∧ es = ps.map Parameter.event
  | .parameterType, ls, es => ∃ (p : Parameter) (ps : List Parameter),
      ls = printParameters (p :: ps) ++ [mark ')'] ∧ es = (p :: ps).map Parameter.event
  | .moreParameters, ls, es => ∃ ps : List Parameter,
      ls = ps.flatMap (fun p => mark ',' :: p.print) ++ [mark ')'] ∧ es = ps.map Parameter.event
  | .body, ls, es => ∃ (ds : List VarDec) (ss : StatementList),
      ls = ds.flatMap (fun d => word "var" :: d.print) ++ ss.print ∧
      es = ds.flatMap (VarDec.events .var) ++ [.prologue] ++ ss.events
  | .statements, ls, es | .moreStatements, ls, es => ∃ ss : StatementList,
      ls = ss.print ∧ es = ss.events
  | .letTarget, ls, es => ∃ s : Statement, s.print = word "let" :: ls ∧ s.events = es
  | .letRest n, ls, es => ∀ x : Identifier, x.text = n → ∃ s : Statement,
      s.print = word "let" :: x.lexeme :: ls ∧ s.events = .target n :: es
  | .elsePart, ls, es => (ls = [] ∧ es = []) ∨ ∃ b : StatementList,
      ls = [word "else", mark '{'] ++ b.print ++ [mark '}'] ∧ es = b.events
  | .callStatement, ls, es => ∃ f args, ls = printCall f args ∧ es = callEvents f args
  | .callRest n, ls, es => ∀ x : Identifier, x.text = n → ∃ f args,
      printCall f args = x.lexeme :: ls ∧ callEvents f args = es
  | .returnRest, ls, es => ∃ s : Statement, s.print = word "return" :: ls ∧ s.events = es
  | .returnEnd, ls, es => ls = [mark ';'] ∧ es = [.ret]
  | .expression, ls, es => ∃ e : Expression, ls = e.print ∧ es = e.events
  | .operators, ls, es => ∃ ops : Operations, ls = ops.print ∧ es = ops.events
  | .term, ls, es => ∃ t : Term, ls = t.print ∧ es = t.events
  | .nameRest n, ls, es => ∀ x : Identifier, x.text = n → ∃ t : Term,
      t.print = x.lexeme :: ls ∧ t.events = es
  | .calleeName r, ls, es => ∀ x : Identifier, x.text = r → ∃ f args,
      printCall f args = x.lexeme :: mark '.' :: ls ∧ callEvents f args = es
  | .arguments callee, ls, es => ∃ args : ArgumentList, ls = args.print ++ [mark ')'] ∧
      es = args.events ++ [.call callee (UInt32.ofNat args.length)]
  | .moreArguments callee n, ls, es => ∃ args : ArgumentList, ls = args.printMore ++ [mark ')'] ∧
      es = args.events ++ [.call callee (n + UInt32.ofNat args.length)]

/-- The lexemes are what the items of a stack stand for, one after the other. -/
inductive Yields : List Item → List Lexeme → List Event → Prop where
  | nil : Yields [] [] []
  | raise {e : Event} {rest : List Item} {ls : List Lexeme} {es : List Event}
      (h : Yields rest ls es) : Yields (.raise e :: rest) ls (e :: es)
  | need {g : Goal} {rest : List Item} {ls ls' : List Lexeme} {es es' : List Event}
      (hg : g.Spells ls es) (h : Yields rest ls' es') :
      Yields (.need g :: rest) (ls ++ ls') (es ++ es')

section
variable {rest : List Item} {ls : List Lexeme} {es : List Event}

@[simp] theorem yields_nil : Yields [] ls es ↔ ls = [] ∧ es = [] := by
  constructor
  · intro h
    cases h
    exact ⟨rfl, rfl⟩
  · rintro ⟨rfl, rfl⟩
    exact .nil

@[simp] theorem yields_raise {e : Event} :
    Yields (.raise e :: rest) ls es ↔ ∃ es', es = e :: es' ∧ Yields rest ls es' := by
  constructor
  · intro h
    cases h with
    | raise h => exact ⟨_, rfl, h⟩
  · rintro ⟨es', rfl, h⟩
    exact .raise h

@[simp] theorem yields_need {g : Goal} : Yields (.need g :: rest) ls es ↔
    ∃ ls₁ ls₂ es₁ es₂, ls = ls₁ ++ ls₂ ∧ es = es₁ ++ es₂ ∧ g.Spells ls₁ es₁ ∧
      Yields rest ls₂ es₂ := by
  constructor
  · intro h
    cases h with
    | need hg h => exact ⟨_, _, _, _, rfl, rfl, hg, h⟩
  · rintro ⟨ls₁, ls₂, es₁, es₂, rfl, rfl, hg, h⟩
    exact .need hg h

/-- A symbol stands for itself and has no event. -/
theorem yields_symbol {c : Char} : Yields (.need (.symbol c) :: rest) ls es ↔
    ∃ ls', ls = mark c :: ls' ∧ Yields rest ls' es := by
  rw [yields_need]
  constructor
  · rintro ⟨_, ls', _, es', rfl, rfl, ⟨rfl, rfl⟩, h⟩
    exact ⟨ls', rfl, h⟩
  · rintro ⟨ls', rfl, h⟩
    exact ⟨[mark c], ls', [], es, rfl, rfl, ⟨rfl, rfl⟩, h⟩

/-- A goal alone on a stack. -/
theorem yields_singleton {g : Goal} : Yields [.need g] ls es ↔ g.Spells ls es := by
  rw [yields_need]
  constructor
  · rintro ⟨ls, _, es, _, rfl, rfl, hg, hnil⟩
    obtain ⟨rfl, rfl⟩ := yields_nil.mp hnil
    rw [List.append_nil, List.append_nil]
    exact hg
  · intro hg
    exact ⟨ls, [], es, [], (List.append_nil ls).symm, (List.append_nil es).symm, hg, .nil⟩

theorem yields_append {items : List Item} : Yields (items ++ rest) ls es ↔
    ∃ ls₁ ls₂ es₁ es₂, ls = ls₁ ++ ls₂ ∧ es = es₁ ++ es₂ ∧ Yields items ls₁ es₁ ∧
      Yields rest ls₂ es₂ := by
  constructor
  · intro h
    induction items generalizing ls es with
    | nil => exact ⟨[], ls, [], es, rfl, rfl, .nil, h⟩
    | cons item items ih =>
        cases h with
        | raise h =>
            obtain ⟨ls₁, ls₂, es₁, es₂, rfl, rfl, h₁, h₂⟩ := ih h
            exact ⟨ls₁, ls₂, _ :: es₁, es₂, rfl, rfl, .raise h₁, h₂⟩
        | need hg h =>
            obtain ⟨ls₁, ls₂, es₁, es₂, rfl, rfl, h₁, h₂⟩ := ih h
            exact ⟨_ ++ ls₁, ls₂, _ ++ es₁, es₂, (List.append_assoc ..).symm,
              (List.append_assoc ..).symm, .need hg h₁, h₂⟩
  · rintro ⟨ls₁, ls₂, es₁, es₂, rfl, rfl, h₁, h₂⟩
    induction h₁ with
    | nil => exact h₂
    | raise _ ih => exact .raise ih
    | need hg _ ih =>
        rw [List.append_assoc, List.append_assoc]
        exact .need hg ih

end

/-! ## Taking a lexeme completes what a goal stands for -/

section
variable {l : Lexeme} {items : List Item} {ls : List Lexeme} {es : List Event}

/-- A term after the operator in front of it. -/
theorem exists_operand {op : UnaryOp} (hy : Yields [.need .term, .raise (.unary op)] ls es) :
    ∃ t : Term, ls = t.print ∧ es = t.events ++ [.unary op] := by
  obtain ⟨_, _, _, _, rfl, rfl, ⟨t, rfl, rfl⟩, hy₁⟩ := yields_need.mp hy
  obtain ⟨_, rfl, hy₂⟩ := yields_raise.mp hy₁
  obtain ⟨rfl, rfl⟩ := yields_nil.mp hy₂
  exact ⟨t, by simp, rfl⟩

theorem exists_term (hl : l.Proper) (h : termItems? l = some items) (hy : Yields items ls es) :
    ∃ t : Term, l :: ls = t.print ∧ es = t.events := by
  obtain ⟨kind, text⟩ := l
  cases kind with
  | integerConstant =>
      obtain rfl : [Item.raise (.integer text)] = items := by simpa [termItems?] using h
      simp only [yields_raise, yields_nil] at hy
      obtain ⟨_, rfl, rfl, rfl⟩ := hy
      exact ⟨.integer ⟨text, hl.1, hl.2⟩, rfl, rfl⟩
  | stringConstant =>
      obtain rfl : [Item.raise (.string text)] = items := by simpa [termItems?] using h
      simp only [yields_raise, yields_nil] at hy
      obtain ⟨_, rfl, rfl, rfl⟩ := hy
      exact ⟨.string text, rfl, rfl⟩
  | identifier =>
      obtain rfl : [Item.need (.nameRest text)] = items := by simpa [termItems?] using h
      obtain ⟨t, hprint, hevents⟩ := yields_singleton.mp hy ⟨text, hl.1, hl.2⟩ rfl
      exact ⟨t, hprint.symm, hevents.symm⟩
  | keyword =>
      obtain ⟨c, hc, rfl⟩ : ∃ c, KeywordConstant.ofKeyword? text = some c ∧
          [Item.raise (.constant c)] = items := by simpa [termItems?] using h
      simp only [yields_raise, yields_nil] at hy
      obtain ⟨_, rfl, rfl, rfl⟩ := hy
      obtain rfl := eq_constantWord hc
      exact ⟨.constant c, rfl, rfl⟩
  | symbol =>
      simp only [termItems?] at h
      split at h
      · next hm =>
          obtain rfl := Option.some.inj h
          obtain ⟨t, rfl, rfl⟩ := exists_operand hy
          exact ⟨.unary .neg t, by rw [eq_mark_of_mark? hl hm]; rfl, rfl⟩
      · next hm =>
          obtain rfl := Option.some.inj h
          obtain ⟨t, rfl, rfl⟩ := exists_operand hy
          exact ⟨.unary .not t, by rw [eq_mark_of_mark? hl hm]; rfl, rfl⟩
      · next hm =>
          obtain rfl := Option.some.inj h
          obtain ⟨_, _, _, _, rfl, rfl, ⟨e, rfl, rfl⟩, hy₁⟩ := yields_need.mp hy
          obtain ⟨_, rfl, hy₂⟩ := yields_symbol.mp hy₁
          obtain ⟨rfl, rfl⟩ := yields_nil.mp hy₂
          exact ⟨.group e, by rw [eq_mark_of_mark? hl hm]; rfl, by simp [Term.events]⟩
      · simp at h

theorem exists_expression (hl : l.Proper) (h : expressionItems? l = some items)
    (hy : Yields items ls es) : ∃ e : Expression, l :: ls = e.print ∧ es = e.events := by
  rw [expressionItems?, Option.map_eq_some_iff] at h
  obtain ⟨items, h, rfl⟩ := h
  obtain ⟨ls₁, ls₂, es₁, es₂, rfl, rfl, hy₁, hy₂⟩ := yields_append.mp hy
  obtain ⟨t, hprint, rfl⟩ := exists_term hl h hy₁
  obtain ⟨ops, rfl, rfl⟩ := yields_singleton.mp hy₂
  exact ⟨.mk t ops, by simp [Expression.print, ← hprint], rfl⟩

theorem exists_condition (hy : Yields conditionItems ls es) :
    ∃ e : Expression, ls = printCondition e ∧ es = e.events := by
  obtain ⟨_, rfl, hy₁⟩ := yields_symbol.mp hy
  obtain ⟨_, _, _, _, rfl, rfl, ⟨e, rfl, rfl⟩, hy₂⟩ := yields_need.mp hy₁
  obtain ⟨_, rfl, hy₃⟩ := yields_symbol.mp hy₂
  obtain ⟨rfl, rfl⟩ := yields_nil.mp hy₃
  exact ⟨e, by simp [printCondition], by simp⟩

theorem exists_block (hy : Yields blockItems ls es) :
    ∃ b : StatementList, ls = [mark '{'] ++ b.print ++ [mark '}'] ∧ es = b.events := by
  obtain ⟨_, rfl, hy₁⟩ := yields_symbol.mp hy
  obtain ⟨_, _, _, _, rfl, rfl, ⟨b, rfl, rfl⟩, hy₂⟩ := yields_need.mp hy₁
  obtain ⟨_, rfl, hy₃⟩ := yields_symbol.mp hy₂
  obtain ⟨rfl, rfl⟩ := yields_nil.mp hy₃
  exact ⟨b, by simp, by simp⟩

/-- A condition and a block, with the events before each of them. -/
theorem exists_guarded {e₁ e₂ : Event} {rest : List Item}
    (hy : Yields ([.raise e₁] ++ conditionItems ++ [.raise e₂] ++ blockItems ++ rest) ls es) :
    ∃ c b ls' es',
      ls = printCondition c ++ [mark '{'] ++ StatementList.print b ++ [mark '}'] ++ ls' ∧
      es = [e₁] ++ Expression.events c ++ [e₂] ++ b.events ++ es' ∧ Yields rest ls' es' := by
  obtain ⟨_, ls', _, es', rfl, rfl, hy, hrest⟩ := yields_append.mp hy
  obtain ⟨_, _, _, _, rfl, rfl, hy, hblock⟩ := yields_append.mp hy
  obtain ⟨_, _, _, _, rfl, rfl, hy, hsecond⟩ := yields_append.mp hy
  obtain ⟨_, rfl, hcond⟩ := yields_raise.mp hy
  obtain ⟨_, rfl, hnil⟩ := yields_raise.mp hsecond
  obtain ⟨rfl, rfl⟩ := yields_nil.mp hnil
  obtain ⟨c, rfl, rfl⟩ := exists_condition hcond
  obtain ⟨b, rfl, rfl⟩ := exists_block hblock
  exact ⟨c, b, ls', es', by simp, by simp, hrest⟩

theorem exists_statement (h : statementItems? l = some items) (hy : Yields items ls es) :
    ∃ s : Statement, l :: ls = s.print ∧ es = s.events := by
  rw [statementItems?] at h
  split at h
  · next hk =>
      obtain rfl := Option.some.inj h
      obtain ⟨s, hprint, hevents⟩ := yields_singleton.mp hy
      exact ⟨s, by rw [eq_word hk, hprint], hevents.symm⟩
  split at h
  · next hk =>
      obtain rfl := Option.some.inj h
      obtain ⟨c, b, _, _, rfl, rfl, hy₁⟩ := exists_guarded hy
      obtain ⟨_, rfl, hy₂⟩ := yields_raise.mp hy₁
      obtain ⟨_, _, _, _, rfl, rfl, helse, hy₃⟩ := yields_need.mp hy₂
      obtain ⟨_, rfl, hy₄⟩ := yields_raise.mp hy₃
      obtain ⟨rfl, rfl⟩ := yields_nil.mp hy₄
      -- the goal for an `else` stands for nothing or for a block
      rcases helse with ⟨rfl, rfl⟩ | ⟨b', rfl, rfl⟩
      · exact ⟨.ifThen c b, by rw [eq_word hk]; simp [Statement.print], by simp [Statement.events]⟩
      · exact ⟨.ifElse c b b', by rw [eq_word hk]; simp [Statement.print],
          by simp [Statement.events]⟩
  split at h
  · next hk =>
      obtain rfl := Option.some.inj h
      obtain ⟨c, b, _, _, rfl, rfl, hy₁⟩ := exists_guarded hy
      obtain ⟨_, rfl, hy₂⟩ := yields_raise.mp hy₁
      obtain ⟨rfl, rfl⟩ := yields_nil.mp hy₂
      exact ⟨.whileDo c b, by rw [eq_word hk]; simp [Statement.print], by simp [Statement.events]⟩
  split at h
  · next hk =>
      obtain rfl := Option.some.inj h
      obtain ⟨_, _, _, _, rfl, rfl, ⟨f, args, rfl, rfl⟩, hy₁⟩ := yields_need.mp hy
      obtain ⟨_, rfl, hy₂⟩ := yields_symbol.mp hy₁
      obtain ⟨_, rfl, hy₃⟩ := yields_raise.mp hy₂
      obtain ⟨rfl, rfl⟩ := yields_nil.mp hy₃
      exact ⟨.doCall f args, by rw [eq_word hk]; simp [Statement.print],
        by simp [Statement.events]⟩
  split at h
  · next hk =>
      obtain rfl := Option.some.inj h
      obtain ⟨s, hprint, hevents⟩ := yields_singleton.mp hy
      exact ⟨s, by rw [eq_word hk, hprint], hevents.symm⟩
  · simp at h

@[simp] theorem Goal.takeWith_eq_take {g : Goal} {o : Option (List Item)}
    {events : List (Place × Event)} :
    g.takeWith o = .take events items ↔ events = [] ∧ o = some items := by
  cases o with
  | none => simp [Goal.takeWith]
  | some new =>
      simp only [Goal.takeWith, Verdict.take.injEq, Option.some.injEq]
      constructor
      · rintro ⟨rfl, rfl⟩
        exact ⟨rfl, rfl⟩
      · rintro ⟨rfl, rfl⟩
        exact ⟨rfl, rfl⟩

/-- A goal that takes one of two symbols. -/
theorem marks_of_takeWith {g : Goal} {c d : Char} {new new' : List Item}
    {events : List (Place × Event)} (hl : l.Proper)
    (hg : g.takeWith (if l.isSymbol c then some new else if l.isSymbol d then some new' else none) =
      .take events items) :
    events = [] ∧ (l = mark c ∧ items = new ∨ l = mark d ∧ items = new') := by
  rw [Goal.takeWith_eq_take] at hg
  obtain ⟨hevents, hg⟩ := hg
  refine ⟨hevents, ?_⟩
  split at hg
  · next hc => exact .inl ⟨eq_mark hl hc, (Option.some.inj hg).symm⟩
  split at hg
  · next hd => exact .inr ⟨eq_mark hl hd, (Option.some.inj hg).symm⟩
  · simp at hg

/-- A goal that is one name. -/
theorem exists_name {g : Goal} {event : String → Event} {events : List (Place × Event)}
    (hl : l.Proper) (hg : g.takeWith (l.name?.map fun n => [.raise (event n)]) = .take events items)
    (hy : Yields items ls es) :
    ∃ x : Identifier, l :: ls = [x.lexeme] ∧ events.map Prod.snd ++ es = [event x.text] := by
  rw [Goal.takeWith_eq_take, Option.map_eq_some_iff] at hg
  obtain ⟨rfl, n, hn, rfl⟩ := hg
  obtain ⟨x, rfl, rfl⟩ := exists_identifier hl hn
  obtain ⟨_, rfl, hy₁⟩ := yields_raise.mp hy
  obtain ⟨rfl, rfl⟩ := yields_nil.mp hy₁
  exact ⟨x, rfl, rfl⟩

/-- A call after its opening parenthesis. -/
theorem exists_arguments {callee : Callee} (hy : Yields (argumentItems callee) ls es) :
    ∃ args : ArgumentList, ls = args.print ++ [mark ')'] ∧
      es = [.receive callee] ++ args.events ++ [.call callee (UInt32.ofNat args.length)] := by
  obtain ⟨_, rfl, hy₁⟩ := yields_raise.mp hy
  obtain ⟨args, rfl, rfl⟩ := yields_singleton.mp hy₁
  exact ⟨args, rfl, rfl⟩

/-! Declarations. -/

theorem spells_varType {storage : Storage} (hl : l.Proper) {t : String} (ht : l.type? = some t)
    (hy : Yields [.need (.varName storage t), .need (.moreNames storage t)] ls es) :
    (Goal.varType storage).Spells (l :: ls) es := by
  obtain ⟨type, rfl, rfl⟩ := exists_type hl ht
  obtain ⟨_, _, _, _, rfl, rfl, ⟨x, rfl, rfl⟩, hy₁⟩ := yields_need.mp hy
  obtain ⟨xs, rfl, rfl⟩ := yields_singleton.mp hy₁
  exact ⟨⟨type, x, xs⟩, by simp [VarDec.print], by simp [VarDec.events, VarDec.names]⟩

theorem spells_moreNames {storage : Storage} {t : String}
    (hy : Yields [.need (.varName storage t), .need (.moreNames storage t)] ls es) :
    (Goal.moreNames storage t).Spells (mark ',' :: ls) es := by
  obtain ⟨_, _, _, _, rfl, rfl, ⟨x, rfl, rfl⟩, hy₁⟩ := yields_need.mp hy
  obtain ⟨xs, rfl, rfl⟩ := yields_singleton.mp hy₁
  exact ⟨x :: xs, by simp, by simp⟩

/-- A parameter after its type, with those that follow. -/
theorem exists_parameters (hl : l.Proper) {t : String} (ht : l.type? = some t)
    (hy : Yields [.need (.varName .argument t), .need .moreParameters] ls es) :
    ∃ p ps, l :: ls = printParameters (p :: ps) ++ [mark ')'] ∧
      es = (p :: ps).map Parameter.event := by
  obtain ⟨type, rfl, rfl⟩ := exists_type hl ht
  obtain ⟨_, _, _, _, rfl, rfl, ⟨x, rfl, rfl⟩, hy₁⟩ := yields_need.mp hy
  obtain ⟨ps, rfl, rfl⟩ := yields_singleton.mp hy₁
  exact ⟨⟨type, x⟩, ps, by simp [printParameters, Parameter.print], by simp [Parameter.event]⟩

theorem spells_moreParameters (hy : Yields [.need .parameterType] ls es) :
    Goal.moreParameters.Spells (mark ',' :: ls) es := by
  obtain ⟨p, ps, rfl, rfl⟩ := yields_singleton.mp hy
  exact ⟨p :: ps, by simp [printParameters], by simp⟩

theorem spells_body_var (hy : Yields [.need (.varType .var), .need .body] ls es) :
    Goal.body.Spells (word "var" :: ls) es := by
  obtain ⟨_, _, _, _, rfl, rfl, ⟨d, rfl, rfl⟩, hy₁⟩ := yields_need.mp hy
  obtain ⟨ds, ss, rfl, rfl⟩ := yields_singleton.mp hy₁
  exact ⟨d :: ds, ss, by simp, by simp⟩

/-- A statement, and those that follow it. -/
theorem exists_statements (h : statementItems? l = some items)
    (hy : Yields (items ++ [.need .moreStatements]) ls es) :
    ∃ ss : StatementList, l :: ls = ss.print ∧ es = ss.events := by
  obtain ⟨ls₁, ls₂, es₁, es₂, rfl, rfl, hy₁, hy₂⟩ := yields_append.mp hy
  obtain ⟨s, hprint, rfl⟩ := exists_statement h hy₁
  obtain ⟨ss, rfl, rfl⟩ := yields_singleton.mp hy₂
  exact ⟨.cons s ss, by simp [StatementList.print, ← hprint], by simp [StatementList.events]⟩

theorem exists_classVarDec {storage : Storage} (h : classStorage? l = some storage) (d : VarDec) :
    ∃ v : ClassVarDec, l = word v.storage.name ∧ v.dec = d ∧ v.storage = storage := by
  rw [classStorage?] at h
  split at h
  · next hk =>
      obtain rfl := Option.some.inj h
      exact ⟨.static d, eq_word hk, rfl, rfl⟩
  split at h
  · next hk =>
      obtain rfl := Option.some.inj h
      exact ⟨.field d, eq_word hk, rfl, rfl⟩
  · simp at h

theorem spells_members_var {storage : Storage} (h : classStorage? l = some storage)
    (hy : Yields [.need (.varType storage), .need (.members false)] ls es) :
    (Goal.members false).Spells (l :: ls) es := by
  obtain ⟨_, _, _, _, rfl, rfl, ⟨d, rfl, rfl⟩, hy₁⟩ := yields_need.mp hy
  obtain ⟨vs, ss, -, rfl, rfl⟩ := yields_singleton.mp hy₁
  obtain ⟨v, rfl, rfl, rfl⟩ := exists_classVarDec h d
  exact ⟨v :: vs, ss, by simp, by simp [ClassVarDec.print], by simp⟩

theorem eq_kindWord {kind : SubroutineKind} (h : subroutineKind? l = some kind) :
    l = word (kindWord kind) := by
  rw [subroutineKind?] at h
  split at h
  · next hk =>
      obtain rfl := Option.some.inj h
      exact eq_word hk
  split at h
  · next hk =>
      obtain rfl := Option.some.inj h
      exact eq_word hk
  split at h
  · next hk =>
      obtain rfl := Option.some.inj h
      exact eq_word hk
  · simp at h

theorem exists_subroutine {kind : SubroutineKind} (h : subroutineKind? l = some kind)
    (hy : Yields (subroutineItems kind) ls es) :
    ∃ s : Subroutine, l :: ls = s.print ∧ es = s.events := by
  obtain rfl := eq_kindWord h
  -- the items of a subroutine, from its result type to its closing brace
  obtain ⟨_, _, _, _, rfl, rfl, ⟨r, rfl, rfl⟩, hy₁⟩ := yields_need.mp hy
  obtain ⟨_, _, _, _, rfl, rfl, ⟨x, rfl, rfl⟩, hy₂⟩ := yields_need.mp hy₁
  obtain ⟨_, rfl, hy₃⟩ := yields_symbol.mp hy₂
  obtain ⟨_, rfl, hy₄⟩ := yields_raise.mp hy₃
  obtain ⟨_, _, _, _, rfl, rfl, ⟨ps, rfl, rfl⟩, hy₅⟩ := yields_need.mp hy₄
  obtain ⟨_, rfl, hy₆⟩ := yields_symbol.mp hy₅
  obtain ⟨_, _, _, _, rfl, rfl, ⟨ds, ss, rfl, rfl⟩, hy₇⟩ := yields_need.mp hy₆
  obtain ⟨_, rfl, hy₈⟩ := yields_symbol.mp hy₇
  obtain ⟨rfl, rfl⟩ := yields_nil.mp hy₈
  exact ⟨⟨kind, r, x, ps, ds, ss⟩, by simp [Subroutine.print], by simp [Subroutine.events]⟩

theorem spells_members_subroutine {afterSubroutine : Bool} {kind : SubroutineKind}
    (h : subroutineKind? l = some kind)
    (hy : Yields (subroutineItems kind ++ [.need (.members true)]) ls es) :
    (Goal.members afterSubroutine).Spells (l :: ls) es := by
  obtain ⟨ls₁, ls₂, es₁, es₂, rfl, rfl, hy₁, hy₂⟩ := yields_append.mp hy
  obtain ⟨s, hprint, rfl⟩ := exists_subroutine h hy₁
  -- no variables are declared after a subroutine
  obtain ⟨vs, ss, hvs, rfl, rfl⟩ := yields_singleton.mp hy₂
  obtain rfl := hvs rfl
  exact ⟨[], s :: ss, by simp, by simp [← hprint], by simp⟩

theorem spells_classDec
    (hy : Yields [.need .className, .need (.symbol '{'), .need (.members false)] ls es) :
    Goal.classDec.Spells (word "class" :: ls) es := by
  obtain ⟨_, _, _, _, rfl, rfl, ⟨x, rfl, rfl⟩, hy₁⟩ := yields_need.mp hy
  obtain ⟨_, rfl, hy₂⟩ := yields_symbol.mp hy₁
  obtain ⟨vs, ss, -, rfl, rfl⟩ := yields_singleton.mp hy₂
  exact ⟨⟨x, vs, ss⟩, by simp [Class.print], by simp [Class.events]⟩

/-! Names, calls and assignments. -/

theorem spells_callRest_bare {n : String} (hy : Yields (argumentItems (.bare n)) ls es) :
    (Goal.callRest n).Spells (mark '(' :: ls) es := by
  obtain ⟨args, rfl, rfl⟩ := exists_arguments hy
  rintro x rfl
  exact ⟨.bare x, args, by simp [printCall, CallName.print],
    by simp [callEvents, CallName.events, CallName.callee]⟩

theorem spells_callRest_dotted {n : String} (hy : Yields [.need (.calleeName n)] ls es) :
    (Goal.callRest n).Spells (mark '.' :: ls) es := by
  rintro x rfl
  exact yields_singleton.mp hy x rfl

theorem spells_calleeName {r : String} (hl : l.Proper) {n : String} (hn : l.name? = some n)
    (hy : Yields ([.raise (.resolve (.dotted r n)), .need (.symbol '(')]
      ++ argumentItems (.dotted r n)) ls es) :
    (Goal.calleeName r).Spells (l :: ls) es := by
  obtain ⟨f, rfl, rfl⟩ := exists_identifier hl hn
  obtain ⟨_, rfl, hy₁⟩ := yields_raise.mp hy
  obtain ⟨_, rfl, hy₂⟩ := yields_symbol.mp hy₁
  obtain ⟨args, rfl, rfl⟩ := exists_arguments hy₂
  rintro x rfl
  exact ⟨.dotted x f, args, by simp [printCall, CallName.print],
    by simp [callEvents, CallName.events, CallName.callee]⟩

/-- What follows the name of a call makes it a term, too. -/
theorem spells_nameRest_call {n : String} (h : (Goal.callRest n).Spells ls es) :
    (Goal.nameRest n).Spells ls es := by
  intro x hx
  obtain ⟨f, args, hprint, hevents⟩ := h x hx
  exact ⟨.call f args, hprint, hevents⟩

theorem spells_nameRest_element {n : String}
    (hy : Yields [.need .expression, .need (.symbol ']'), .raise .fetch] ls es) :
    (Goal.nameRest n).Spells (mark '[' :: ls) (.load n :: es) := by
  obtain ⟨_, _, _, _, rfl, rfl, ⟨e, rfl, rfl⟩, hy₁⟩ := yields_need.mp hy
  obtain ⟨_, rfl, hy₂⟩ := yields_symbol.mp hy₁
  obtain ⟨_, rfl, hy₃⟩ := yields_raise.mp hy₂
  obtain ⟨rfl, rfl⟩ := yields_nil.mp hy₃
  rintro x rfl
  exact ⟨.element x e, by simp [Term.print], by simp [Term.events]⟩

theorem spells_letTarget (hl : l.Proper) {n : String} (hn : l.name? = some n)
    (hy : Yields [.raise (.target n), .need (.letRest n)] ls es) :
    Goal.letTarget.Spells (l :: ls) es := by
  obtain ⟨x, rfl, rfl⟩ := exists_identifier hl hn
  obtain ⟨_, rfl, hy₁⟩ := yields_raise.mp hy
  exact yields_singleton.mp hy₁ x rfl

theorem spells_letRest_element {n : String}
    (hy : Yields [.raise (.load n), .need .expression, .need (.symbol ']'), .raise .address,
      .need (.symbol '='), .need .expression, .need (.symbol ';'), .raise .storeElement] ls es) :
    (Goal.letRest n).Spells (mark '[' :: ls) es := by
  obtain ⟨_, rfl, hy₁⟩ := yields_raise.mp hy
  obtain ⟨_, _, _, _, rfl, rfl, ⟨i, rfl, rfl⟩, hy₂⟩ := yields_need.mp hy₁
  obtain ⟨_, rfl, hy₃⟩ := yields_symbol.mp hy₂
  obtain ⟨_, rfl, hy₄⟩ := yields_raise.mp hy₃
  obtain ⟨_, rfl, hy₅⟩ := yields_symbol.mp hy₄
  obtain ⟨_, _, _, _, rfl, rfl, ⟨e, rfl, rfl⟩, hy₆⟩ := yields_need.mp hy₅
  obtain ⟨_, rfl, hy₇⟩ := yields_symbol.mp hy₆
  obtain ⟨_, rfl, hy₈⟩ := yields_raise.mp hy₇
  obtain ⟨rfl, rfl⟩ := yields_nil.mp hy₈
  rintro x rfl
  exact ⟨.letElement x i e, by simp [Statement.print], by simp [Statement.events]⟩

theorem spells_letRest_var {n : String}
    (hy : Yields [.need .expression, .need (.symbol ';'), .raise (.store n)] ls es) :
    (Goal.letRest n).Spells (mark '=' :: ls) es := by
  obtain ⟨_, _, _, _, rfl, rfl, ⟨e, rfl, rfl⟩, hy₁⟩ := yields_need.mp hy
  obtain ⟨_, rfl, hy₂⟩ := yields_symbol.mp hy₁
  obtain ⟨_, rfl, hy₃⟩ := yields_raise.mp hy₂
  obtain ⟨rfl, rfl⟩ := yields_nil.mp hy₃
  rintro x rfl
  exact ⟨.letVar x e, by simp [Statement.print], by simp [Statement.events]⟩

theorem spells_returnRest (hl : l.Proper) (h : expressionItems? l = some items)
    (hy : Yields (items ++ [.need .returnEnd]) ls es) :
    Goal.returnRest.Spells (l :: ls) (.returnValue :: es) := by
  obtain ⟨ls₁, ls₂, es₁, es₂, rfl, rfl, hy₁, hy₂⟩ := yields_append.mp hy
  obtain ⟨e, hprint, rfl⟩ := exists_expression hl h hy₁
  obtain ⟨rfl, rfl⟩ := yields_singleton.mp hy₂
  exact ⟨.returnValue e, by simp [Statement.print, ← hprint], by simp [Statement.events]⟩

theorem spells_operators (hl : l.Proper) {op : BinaryOp} (h : l.binary? = some op)
    (hy : Yields [.need .term, .raise (.binary op), .need .operators] ls es) :
    Goal.operators.Spells (l :: ls) es := by
  obtain ⟨_, _, _, _, rfl, rfl, ⟨t, rfl, rfl⟩, hy₁⟩ := yields_need.mp hy
  obtain ⟨_, rfl, hy₂⟩ := yields_raise.mp hy₁
  obtain ⟨ops, rfl, rfl⟩ := yields_singleton.mp hy₂
  exact ⟨.cons op t ops, by simp [Operations.print, eq_binaryMark hl h],
    by simp [Operations.events]⟩

theorem spells_arguments {callee : Callee} (hl : l.Proper) (h : expressionItems? l = some items)
    (hy : Yields (items ++ [.need (.moreArguments callee 1)]) ls es) :
    (Goal.arguments callee).Spells (l :: ls) es := by
  obtain ⟨ls₁, ls₂, es₁, es₂, rfl, rfl, hy₁, hy₂⟩ := yields_append.mp hy
  obtain ⟨e, hprint, rfl⟩ := exists_expression hl h hy₁
  obtain ⟨args, rfl, rfl⟩ := yields_singleton.mp hy₂
  exact ⟨.cons e args, by simp [ArgumentList.print, ← hprint],
    by simp [ArgumentList.events, ArgumentList.length, one_add_ofNat]⟩

theorem spells_moreArguments {callee : Callee} {n : UInt32}
    (hy : Yields [.need .expression, .need (.moreArguments callee (n + 1))] ls es) :
    (Goal.moreArguments callee n).Spells (mark ',' :: ls) es := by
  obtain ⟨_, _, _, _, rfl, rfl, ⟨e, rfl, rfl⟩, hy₁⟩ := yields_need.mp hy
  obtain ⟨args, rfl, rfl⟩ := yields_singleton.mp hy₁
  exact ⟨.cons e args, by simp [ArgumentList.printMore],
    by simp [ArgumentList.events, ArgumentList.length, UInt32.add_assoc, one_add_ofNat]⟩

/-- A goal that takes a lexeme stands for it and what its items stand for. -/
theorem Goal.spells_of_take {g : Goal} {events : List (Place × Event)} (hl : l.Proper)
    (hg : g.meet l = .take events items) (hy : Yields items ls es) :
    g.Spells (l :: ls) (events.map Prod.snd ++ es) := by
  cases g with
  | classDec =>
      simp only [Goal.meet, Goal.takeWith_eq_take, Option.ite_none_right_eq_some] at hg
      obtain ⟨rfl, hk, heq⟩ := hg
      obtain rfl := Option.some.inj heq
      exact eq_word hk ▸ spells_classDec hy
  | className =>
      rw [Goal.meet] at hg
      exact exists_name hl hg hy
  | symbol c =>
      simp only [Goal.meet, Goal.takeWith_eq_take, Option.ite_none_right_eq_some] at hg
      obtain ⟨rfl, hc, heq⟩ := hg
      obtain rfl := Option.some.inj heq
      obtain ⟨rfl, rfl⟩ := yields_nil.mp hy
      exact ⟨by rw [eq_mark hl hc], rfl⟩
  | members afterSubroutine =>
      simp only [Goal.meet] at hg
      split at hg
      · next hc =>
          obtain ⟨rfl, rfl⟩ := Verdict.take.inj hg
          obtain ⟨rfl, rfl⟩ := yields_nil.mp hy
          exact ⟨[], [], fun _ => rfl, by rw [eq_mark hl hc]; rfl, rfl⟩
      split at hg
      · next storage hs =>
          split at hg
          · simp at hg
          · next hb =>
              obtain ⟨rfl, rfl⟩ := Verdict.take.inj hg
              obtain rfl := Bool.eq_false_iff.mpr hb
              exact spells_members_var hs hy
      · simp only [Goal.takeWith_eq_take, Option.map_eq_some_iff] at hg
        obtain ⟨rfl, kind, hk, rfl⟩ := hg
        exact spells_members_subroutine hk hy
  | varType storage =>
      simp only [Goal.meet, Goal.takeWith_eq_take, Option.map_eq_some_iff] at hg
      obtain ⟨rfl, t, ht, rfl⟩ := hg
      exact spells_varType hl ht hy
  | varName storage type =>
      rw [Goal.meet] at hg
      exact exists_name hl hg hy
  | moreNames storage type =>
      rw [Goal.meet] at hg
      obtain ⟨rfl, ⟨rfl, rfl⟩ | ⟨rfl, rfl⟩⟩ := marks_of_takeWith hl hg
      · obtain ⟨rfl, rfl⟩ := yields_nil.mp hy
        exact ⟨[], rfl, rfl⟩
      · exact spells_moreNames hy
  | resultType kind =>
      simp only [Goal.meet, Goal.takeWith_eq_take] at hg
      obtain ⟨rfl, hg⟩ := hg
      split at hg
      · next hk =>
          obtain rfl := Option.some.inj hg
          simp only [yields_raise, yields_nil] at hy
          obtain ⟨_, rfl, rfl, rfl⟩ := hy
          exact ⟨none, by rw [eq_word hk]; rfl, rfl⟩
      · obtain ⟨t, ht, rfl⟩ := Option.map_eq_some_iff.mp hg
        obtain ⟨type, rfl, rfl⟩ := exists_type hl ht
        simp only [yields_raise, yields_nil] at hy
        obtain ⟨_, rfl, rfl, rfl⟩ := hy
        exact ⟨some type, rfl, rfl⟩
  | subroutineName =>
      rw [Goal.meet] at hg
      exact exists_name hl hg hy
  | parameters =>
      simp only [Goal.meet, Goal.takeWith_eq_take] at hg
      obtain ⟨rfl, hg⟩ := hg
      split at hg
      · next hc =>
          obtain rfl := Option.some.inj hg
          obtain ⟨rfl, rfl⟩ := yields_nil.mp hy
          exact ⟨[], by rw [eq_mark hl hc]; rfl, rfl⟩
      · obtain ⟨t, ht, rfl⟩ := Option.map_eq_some_iff.mp hg
        obtain ⟨p, ps, hprint, hevents⟩ := exists_parameters hl ht hy
        exact ⟨p :: ps, hprint, hevents⟩
  | parameterType =>
      simp only [Goal.meet, Goal.takeWith_eq_take, Option.map_eq_some_iff] at hg
      obtain ⟨rfl, t, ht, rfl⟩ := hg
      exact exists_parameters hl ht hy
  | moreParameters =>
      rw [Goal.meet] at hg
      obtain ⟨rfl, ⟨rfl, rfl⟩ | ⟨rfl, rfl⟩⟩ := marks_of_takeWith hl hg
      · obtain ⟨rfl, rfl⟩ := yields_nil.mp hy
        exact ⟨[], rfl, rfl⟩
      · exact spells_moreParameters hy
  | body =>
      simp only [Goal.meet] at hg
      split at hg
      · next hk =>
          obtain ⟨rfl, rfl⟩ := Verdict.take.inj hg
          exact eq_word hk ▸ spells_body_var hy
      split at hg
      · next new hs =>
          obtain ⟨rfl, rfl⟩ := Verdict.take.inj hg
          obtain ⟨ss, hprint, rfl⟩ := exists_statements hs hy
          exact ⟨[], ss, hprint, rfl⟩
      · simp at hg
  | statements | moreStatements =>
      simp only [Goal.meet] at hg
      split at hg
      · next new hs =>
          obtain ⟨rfl, rfl⟩ := Verdict.take.inj hg
          exact exists_statements hs hy
      · simp at hg
  | letTarget =>
      simp only [Goal.meet, Goal.takeWith_eq_take, Option.map_eq_some_iff] at hg
      obtain ⟨rfl, n, hn, rfl⟩ := hg
      exact spells_letTarget hl hn hy
  | letRest n =>
      rw [Goal.meet] at hg
      obtain ⟨rfl, ⟨rfl, rfl⟩ | ⟨rfl, rfl⟩⟩ := marks_of_takeWith hl hg
      · exact spells_letRest_element hy
      · exact spells_letRest_var hy
  | elsePart =>
      simp only [Goal.meet] at hg
      split at hg
      · next hk =>
          obtain ⟨rfl, rfl⟩ := Verdict.take.inj hg
          obtain ⟨b, rfl, rfl⟩ := exists_block hy
          exact .inr ⟨b, by rw [eq_word hk]; simp, rfl⟩
      · simp at hg
  | callStatement =>
      simp only [Goal.meet, Goal.takeWith_eq_take, Option.map_eq_some_iff] at hg
      obtain ⟨rfl, n, hn, rfl⟩ := hg
      obtain ⟨x, rfl, rfl⟩ := exists_identifier hl hn
      obtain ⟨f, args, hprint, hevents⟩ := yields_singleton.mp hy x rfl
      exact ⟨f, args, hprint.symm, hevents.symm⟩
  | callRest n =>
      rw [Goal.meet] at hg
      obtain ⟨rfl, ⟨rfl, rfl⟩ | ⟨rfl, rfl⟩⟩ := marks_of_takeWith hl hg
      · exact spells_callRest_bare hy
      · exact spells_callRest_dotted hy
  | returnRest =>
      simp only [Goal.meet] at hg
      split at hg
      · next hc =>
          obtain ⟨rfl, rfl⟩ := Verdict.take.inj hg
          simp only [yields_raise, yields_nil] at hy
          obtain ⟨_, rfl, rfl, rfl⟩ := hy
          exact ⟨.returnNothing, by rw [eq_mark hl hc]; rfl, rfl⟩
      split at hg
      · next new he =>
          obtain ⟨rfl, rfl⟩ := Verdict.take.inj hg
          exact spells_returnRest hl he hy
      · simp at hg
  | returnEnd =>
      simp only [Goal.meet, Goal.takeWith_eq_take, Option.ite_none_right_eq_some] at hg
      obtain ⟨rfl, hc, heq⟩ := hg
      obtain rfl := Option.some.inj heq
      simp only [yields_raise, yields_nil] at hy
      obtain ⟨_, rfl, rfl, rfl⟩ := hy
      exact ⟨by rw [eq_mark hl hc], rfl⟩
  | expression =>
      simp only [Goal.meet, Goal.takeWith_eq_take] at hg
      obtain ⟨rfl, hg⟩ := hg
      exact exists_expression hl hg hy
  | operators =>
      simp only [Goal.meet] at hg
      split at hg
      · next op hop =>
          obtain ⟨rfl, rfl⟩ := Verdict.take.inj hg
          exact spells_operators hl hop hy
      · simp at hg
  | term =>
      simp only [Goal.meet, Goal.takeWith_eq_take] at hg
      obtain ⟨rfl, hg⟩ := hg
      exact exists_term hl hg hy
  | nameRest n =>
      simp only [Goal.meet] at hg
      split at hg
      · next hc =>
          obtain ⟨rfl, rfl⟩ := Verdict.take.inj hg
          exact eq_mark hl hc ▸ spells_nameRest_element hy
      split at hg
      · next hc =>
          obtain ⟨rfl, rfl⟩ := Verdict.take.inj hg
          exact spells_nameRest_call (eq_mark hl hc ▸ spells_callRest_bare hy)
      split at hg
      · next hc =>
          obtain ⟨rfl, rfl⟩ := Verdict.take.inj hg
          exact spells_nameRest_call (eq_mark hl hc ▸ spells_callRest_dotted hy)
      · simp at hg
  | calleeName r =>
      simp only [Goal.meet, Goal.takeWith_eq_take, Option.map_eq_some_iff] at hg
      obtain ⟨rfl, n, hn, rfl⟩ := hg
      exact spells_calleeName hl hn hy
  | arguments callee =>
      simp only [Goal.meet, Goal.takeWith_eq_take] at hg
      obtain ⟨rfl, hg⟩ := hg
      split at hg
      · next hc =>
          obtain rfl := Option.some.inj hg
          simp only [yields_raise, yields_nil] at hy
          obtain ⟨_, rfl, rfl, rfl⟩ := hy
          exact ⟨.nil, by rw [eq_mark hl hc]; rfl, rfl⟩
      · obtain ⟨new, he, rfl⟩ := Option.map_eq_some_iff.mp hg
        exact spells_arguments hl he hy
  | moreArguments callee n =>
      rw [Goal.meet] at hg
      obtain ⟨rfl, ⟨rfl, rfl⟩ | ⟨rfl, rfl⟩⟩ := marks_of_takeWith hl hg
      · obtain ⟨_, rfl, hy₁⟩ := yields_raise.mp hy
        obtain ⟨rfl, rfl⟩ := yields_nil.mp hy₁
        exact ⟨.nil, rfl, by simp [ArgumentList.events, ArgumentList.length]⟩
      · exact spells_moreArguments hy

theorem Goal.takeWith_ne_leave {g : Goal} {o : Option (List Item)}
    {events : List (Place × Event)} : g.takeWith o ≠ .leave events := by
  cases o <;> simp [Goal.takeWith]

/-- A goal that leaves a lexeme stands for nothing, too. -/
theorem Goal.spells_of_leave {g : Goal} {events : List (Place × Event)}
    (hg : g.meet l = .leave events) : g.Spells [] (events.map Prod.snd) := by
  cases g with
  | body =>
      simp only [Goal.meet] at hg
      split at hg
      · simp at hg
      split at hg
      · simp at hg
      · obtain rfl := Verdict.leave.inj hg
        exact ⟨[], .nil, rfl, rfl⟩
  | statements | moreStatements =>
      simp only [Goal.meet] at hg
      split at hg
      · simp at hg
      · obtain rfl := Verdict.leave.inj hg
        exact ⟨.nil, rfl, rfl⟩
  | elsePart =>
      simp only [Goal.meet] at hg
      split at hg
      · simp at hg
      · obtain rfl := Verdict.leave.inj hg
        exact .inl ⟨rfl, rfl⟩
  | operators =>
      simp only [Goal.meet] at hg
      split at hg
      · simp at hg
      · obtain rfl := Verdict.leave.inj hg
        exact ⟨.nil, rfl, rfl⟩
  | nameRest n =>
      simp only [Goal.meet] at hg
      split at hg
      · simp at hg
      split at hg
      · simp at hg
      split at hg
      · simp at hg
      · obtain rfl := Verdict.leave.inj hg
        rintro x rfl
        exact ⟨.var x, rfl, rfl⟩
  | members afterSubroutine =>
      simp only [Goal.meet] at hg
      split at hg
      · simp at hg
      split at hg
      · split at hg <;> simp at hg
      · exact absurd hg takeWith_ne_leave
  | returnRest =>
      simp only [Goal.meet] at hg
      split at hg
      · simp at hg
      split at hg <;> simp at hg
  | _ => exact absurd hg takeWith_ne_leave

end

/-- What was read on a stack, and what the stack left over stands for, is what the
stack stands for. -/
theorem Reads.yields {items final : List Item} {ls ls' : List Lexeme} {es es' : List Event}
    (h : Reads items ls es final) (hls : ∀ l ∈ ls, l.Proper) (hfinal : Yields final ls' es') :
    Yields items (ls ++ ls') (es ++ es') := by
  induction h with
  | done items => exact hfinal
  | raise _ ih => exact .raise (ih hls hfinal)
  | take hg _ ih =>
      -- the new items are on top of the stack, so what was read on it splits in two
      obtain ⟨ls₁, ls₂, es₁, es₂, hls₁, hes₁, h₁, h₂⟩ :=
        yields_append.mp (ih (fun l hl => hls l (List.mem_cons_of_mem _ hl)) hfinal)
      have hspells := Goal.spells_of_take (hls _ List.mem_cons_self) hg h₁
      rw [List.cons_append, List.append_assoc, hls₁, hes₁, ← List.append_assoc]
      exact .need hspells h₂
  | leave hg _ ih =>
      have hrest := Yields.need (Goal.spells_of_leave hg) (ih hls hfinal)
      rwa [List.nil_append, ← List.append_assoc] at hrest

/-- Proper lexemes that are read as a class are the printed form of a class. -/
theorem exists_class_of_reads {ls : List Lexeme} {es : List Event}
    (h : Reads classItems ls es []) (hls : ∀ l ∈ ls, l.Proper) :
    ∃ c : Tree.Class, ls = c.print ∧ es = c.events := by
  have hy := h.yields hls .nil
  rw [List.append_nil, List.append_nil, classItems, yields_singleton] at hy
  exact hy

end JackVm
