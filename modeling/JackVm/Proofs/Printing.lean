import JackVm.Proofs.Reading
import JackVm.Proofs.Tree

/-!
# Printed classes are read

The events of a tree are the findings of the grammar in the order in which it
makes them. Main statement: the printed form of a class is read from the first
lexeme to the last and raises exactly the events of the class
(`Class.reads_print`).

A term may be known to end only at the lexeme after it, so each statement about
a part of a class is about the part and what follows: whatever the rest of the
stack does with the next lexeme, it does after the events of the part.
-/

namespace JackVm.Tree

/-! ## The events of a tree -/

def CallName.callee : CallName → Callee
  | .bare f => .bare f.text
  | .dotted r f => .dotted r.text f.text

/-- A full name is looked up as soon as it is read. -/
def CallName.events : CallName → List Event
  | .bare _ => []
  | .dotted r f => [.resolve (.dotted r.text f.text)]

mutual
def Term.events : Term → List Event
  | .integer n => [.integer n.text]
  | .string text => [.string text]
  | .constant c => [.constant c]
  | .var x => [.load x.text]
  | .element x i => [.load x.text] ++ i.events ++ [.fetch]
  | .call f args => f.events ++ [.receive f.callee] ++ args.events
      ++ [.call f.callee (UInt32.ofNat args.length)]
  | .group e => e.events
  | .unary op t => t.events ++ [.unary op]
def Expression.events : Expression → List Event
  | .mk first rest => first.events ++ rest.events
def Operations.events : Operations → List Event
  | .nil => []
  | .cons op t rest => t.events ++ [.binary op] ++ rest.events
def ArgumentList.events : ArgumentList → List Event
  | .nil => []
  | .cons e rest => e.events ++ rest.events
end

def callEvents (f : CallName) (args : ArgumentList) : List Event :=
  f.events ++ [.receive f.callee] ++ args.events ++ [.call f.callee (UInt32.ofNat args.length)]

mutual
def Statement.events : Statement → List Event
  | .letVar x e => [.target x.text] ++ e.events ++ [.store x.text]
  | .letElement x i e =>
      [.target x.text, .load x.text] ++ i.events ++ [.address] ++ e.events ++ [.storeElement]
  | .ifThen c b => [.ifBegin] ++ c.events ++ [.ifTest] ++ b.events ++ [.ifElse, .ifEnd]
  | .ifElse c b b' =>
      [.ifBegin] ++ c.events ++ [.ifTest] ++ b.events ++ [.ifElse] ++ b'.events ++ [.ifEnd]
  | .whileDo c b => [.whileBegin] ++ c.events ++ [.whileTest] ++ b.events ++ [.whileEnd]
  | .doCall f args => callEvents f args ++ [.discard]
  | .returnNothing => [.returnNothing]
  | .returnValue e => [.returnValue] ++ e.events ++ [.ret]
def StatementList.events : StatementList → List Event
  | .nil => []
  | .cons s rest => s.events ++ rest.events
end

def VarDec.events (storage : Storage) (d : VarDec) : List Event :=
  d.names.map fun x => .declare storage d.type.text x.text

def Parameter.event (p : Parameter) : Event := .declare .argument p.type.text p.name.text

def Subroutine.events (s : Subroutine) : List Event :=
  [.result s.kind (s.result.map VarType.text), .subroutine s.name.text, .enter]
    ++ s.parameters.map Parameter.event ++ s.locals.flatMap (VarDec.events .var)
    ++ [.prologue] ++ s.body.events

def Class.events (c : Class) : List Event :=
  [.className c.name.text] ++ c.classVars.flatMap (fun v => v.dec.events v.storage)
    ++ c.subroutines.flatMap Subroutine.events

/-! ## Printed lexemes -/

section
variable (c d : Char) (v w : String) (x : Identifier)

@[simp] theorem mark?_mark : (mark c).mark? = some c := by
  simp [mark, Lexeme.mark?, Char.toString]

@[simp] theorem isSymbol_mark : (mark c).isSymbol d = (c == d) := by
  simp [Lexeme.isSymbol]

@[simp] theorem isKeyword_mark : (mark c).isKeyword w = false := rfl

@[simp] theorem name?_mark : (mark c).name? = none := rfl

@[simp] theorem isKeyword_word : (word v).isKeyword w = (v == w) := rfl

@[simp] theorem mark?_word : (word v).mark? = none := rfl

@[simp] theorem isSymbol_word : (word v).isSymbol d = false := rfl

@[simp] theorem name?_word : (word v).name? = none := rfl

@[simp] theorem name?_lexeme : x.lexeme.name? = some x.text := rfl

@[simp] theorem isKeyword_lexeme : x.lexeme.isKeyword w = false := rfl

@[simp] theorem mark?_lexeme : x.lexeme.mark? = none := rfl

@[simp] theorem isSymbol_lexeme : x.lexeme.isSymbol d = false := rfl

@[simp] theorem type?_mark : (mark c).type? = none := by
  simp [Lexeme.type?, mark, Lexeme.isKeyword]

@[simp] theorem type?_lexeme (t : VarType) : t.lexeme.type? = some t.text := by
  cases t <;> rfl

@[simp] theorem isSymbol_typeLexeme (t : VarType) : t.lexeme.isSymbol d = false := by
  cases t <;> rfl

@[simp] theorem isKeyword_void (t : VarType) : t.lexeme.isKeyword "void" = false := by
  cases t <;> rfl

@[simp] theorem ofMark?_binaryMark (op : BinaryOp) :
    BinaryOp.ofMark? (binaryMark op) = some op := by
  cases op <;> rfl

@[simp] theorem binary?_binaryMark (op : BinaryOp) : (mark (binaryMark op)).binary? = some op := by
  simp [Lexeme.binary?]

end

/-! ## What may follow -/

/-- The lexeme does not go on with a term that is a name. -/
def EndsTerm (l : Lexeme) : Prop :=
  l.isSymbol '[' = false ∧ l.isSymbol '(' = false ∧ l.isSymbol '.' = false

/-- The lexeme does not go on with an expression. -/
def EndsExpression (l : Lexeme) : Prop := EndsTerm l ∧ l.binary? = none

/-- The lexeme does not go on with a statement. -/
def EndsStatement (l : Lexeme) : Prop := l.isKeyword "else" = false

/-- The lexemes `ls` begin with one that `first` knows; read from there on, up to
a lexeme that `ends` them, they raise `es` and leave the stack below. -/
def Opens (first : Lexeme → Option (List Item)) (ends : Lexeme → Prop) (ls : List Lexeme)
    (es : List Event) : Prop :=
  ∃ l tail items, ls = l :: tail ∧ first l = some items ∧
    ∀ {rest final : List Item} {next : Lexeme} {after : List Lexeme} {es' : List Event},
      ends next → Reads rest (next :: after) es' final →
        Reads (items ++ rest) (tail ++ next :: after) (es ++ es') final

section
variable {rest final : List Item} {ls after : List Lexeme} {next : Lexeme} {es es' : List Event}

theorem reads_symbol {c : Char} (h : Reads rest ls es final) :
    Reads (.need (.symbol c) :: rest) (mark c :: ls) es final := by
  have hg : (Goal.symbol c).meet (mark c) = .take [] [] := by simp [Goal.meet, Goal.takeWith]
  exact .take hg h

theorem Opens.reads_term (h : Opens termItems? EndsTerm ls es) (hn : EndsTerm next)
    (hr : Reads rest (next :: after) es' final) :
    Reads (.need .term :: rest) (ls ++ next :: after) (es ++ es') final := by
  obtain ⟨l, tail, items, rfl, hl, h⟩ := h
  have hg : Goal.term.meet l = .take [] items := by simp [Goal.meet, Goal.takeWith, hl]
  exact .take hg (h hn hr)

theorem Opens.reads_expression (h : Opens expressionItems? EndsExpression ls es)
    (hn : EndsExpression next) (hr : Reads rest (next :: after) es' final) :
    Reads (.need .expression :: rest) (ls ++ next :: after) (es ++ es') final := by
  obtain ⟨l, tail, items, rfl, hl, h⟩ := h
  have hg : Goal.expression.meet l = .take [] items := by simp [Goal.meet, Goal.takeWith, hl]
  exact .take hg (h hn hr)

end

/-- The symbols that stand after expressions. -/
theorem endsExpression_mark {c : Char} (h : c ∈ [')', ']', ';', ',']) :
    EndsExpression (mark c) := by
  simp only [List.mem_cons, List.not_mem_nil, or_false] at h
  rcases h with rfl | rfl | rfl | rfl <;>
    exact ⟨by simp [EndsTerm], by simp [Lexeme.binary?, BinaryOp.ofMark?]⟩

/-- What follows a term of an expression is an operator or what follows the
expression. -/
theorem Operations.print_endsTerm {next : Lexeme} (hn : EndsExpression next)
    (after : List Lexeme) (ops : Operations) :
    ∃ l ls, ops.print ++ next :: after = l :: ls ∧ EndsTerm l := by
  cases ops with
  | nil => exact ⟨next, after, by simp [Operations.print], hn.1⟩
  | cons op t rest =>
      refine ⟨mark (binaryMark op), t.print ++ rest.print ++ next :: after, ?_, ?_⟩
      · simp [Operations.print]
      · cases op <;> simp [EndsTerm, binaryMark]

/-- What follows an argument is a comma or the end of the list. -/
theorem ArgumentList.printMore_endsExpression (after : List Lexeme) (args : ArgumentList) :
    ∃ l ls, args.printMore ++ mark ')' :: after = l :: ls ∧ EndsExpression l := by
  cases args with
  | nil =>
      refine ⟨mark ')', after, ?_, endsExpression_mark (by simp)⟩
      simp [ArgumentList.printMore]
  | cons e rest =>
      refine ⟨mark ',', e.print ++ rest.printMore ++ mark ')' :: after, ?_,
        endsExpression_mark (by simp)⟩
      simp [ArgumentList.printMore]

/-- The first name of a call. Whether it is called itself is known from the next lexeme. -/
def CallName.head : CallName → Identifier
  | .bare f => f
  | .dotted r _ => r

def CallName.tail : CallName → List Lexeme
  | .bare _ => []
  | .dotted _ f => [mark '.', f.lexeme]

theorem CallName.print_eq (f : CallName) : f.print = f.head.lexeme :: f.tail := by
  cases f <;> rfl

/-- After its first name a call is read alike as a term and as a statement. -/
theorem CallName.reads_tail {g : Goal} {rest final : List Item} {ls : List Lexeme}
    {es : List Event} (f : CallName)
    (hopen : g.meet (mark '(') = .take [] (argumentItems (.bare f.head.text)))
    (hdot : g.meet (mark '.') = .take [] [.need (.calleeName f.head.text)])
    (h : Reads (.need (.arguments f.callee) :: rest) ls es final) :
    Reads (.need g :: rest) (f.tail ++ mark '(' :: ls) (f.events ++ .receive f.callee :: es)
      final := by
  cases f with
  | bare f => exact .take hopen (.raise h)
  | dotted r f =>
      have hname : (Goal.calleeName r.text).meet f.lexeme =
          .take [] ([.raise (.resolve (.dotted r.text f.text)), .need (.symbol '(')]
            ++ argumentItems (.dotted r.text f.text)) := by
        simp [Goal.meet, Goal.takeWith]
      exact .take hdot (.take hname (.raise (reads_symbol (.raise h))))

/-- One more argument is counted. -/
theorem one_add_ofNat (n : Nat) : 1 + UInt32.ofNat n = UInt32.ofNat (n + 1) := by
  rw [UInt32.ofNat_add, UInt32.add_comm]
  rfl

/-! ## Expressions are read -/

mutual
theorem Term.opens : ∀ t : Term, Opens termItems? EndsTerm t.print t.events
  | .integer n => ⟨_, [], _, rfl, rfl, fun _ h => .raise h⟩
  | .string text => ⟨_, [], _, rfl, rfl, fun _ h => .raise h⟩
  | .constant c => by
      refine ⟨_, [], [.raise (.constant c)], rfl, ?_, fun _ h => .raise h⟩
      cases c <;> rfl
  | .var x => by
      refine ⟨_, [], [.need (.nameRest x.text)], rfl, rfl, ?_⟩
      intro rest final next after es' hn h
      -- only the next lexeme shows that the name is all of the term
      have hg : (Goal.nameRest x.text).meet next = .leave [(.before, .load x.text)] := by
        simp [Goal.meet, hn.1, hn.2.1, hn.2.2]
      exact .leave hg h
  | .element x i => by
      refine ⟨_, [mark '['] ++ i.print ++ [mark ']'], [.need (.nameRest x.text)], rfl, rfl, ?_⟩
      intro rest final next after es' _ h
      have hg : (Goal.nameRest x.text).meet (mark '[') =
          .take [(.before, .load x.text)]
            [.need .expression, .need (.symbol ']'), .raise .fetch] := by
        simp [Goal.meet]
      have hi := i.opens.reads_expression (endsExpression_mark (by simp))
        (reads_symbol (c := ']') (Reads.raise (e := .fetch) h))
      simpa [Term.events] using Reads.take hg hi
  | .call f args => by
      refine ⟨f.head.lexeme, f.tail ++ [mark '('] ++ args.print ++ [mark ')'],
        [.need (.nameRest f.head.text)], by simp [Term.print, CallName.print_eq], rfl, ?_⟩
      intro rest final next after es' _ h
      have hopen : (Goal.nameRest f.head.text).meet (mark '(') =
          .take [] (argumentItems (.bare f.head.text)) := by
        simp [Goal.meet]
      have hdot : (Goal.nameRest f.head.text).meet (mark '.') =
          .take [] [.need (.calleeName f.head.text)] := by
        simp [Goal.meet]
      have hcall := f.reads_tail hopen hdot (args.reads f.callee h)
      simpa [Term.events] using hcall
  | .group e => by
      refine ⟨_, e.print ++ [mark ')'], [.need .expression, .need (.symbol ')')], rfl, ?_, ?_⟩
      · simp [termItems?, mark, Lexeme.mark?, Char.toString]
      · intro rest final next after es' _ h
        simpa [Term.events] using
          e.opens.reads_expression (endsExpression_mark (by simp)) (reads_symbol (c := ')') h)
  | .unary op t => by
      refine ⟨_, t.print, [.need .term, .raise (.unary op)], rfl, ?_, ?_⟩
      · cases op <;> simp [termItems?, mark, Lexeme.mark?, Char.toString, unaryMark]
      · intro rest final next after es' hn h
        simpa [Term.events] using t.opens.reads_term hn (Reads.raise (e := .unary op) h)

theorem Expression.opens : ∀ e : Expression, Opens expressionItems? EndsExpression e.print e.events
  | .mk first ops => by
      obtain ⟨l, tail, items, hprint, hl, hread⟩ := first.opens
      refine ⟨l, tail ++ ops.print, items ++ [.need .operators], by simp [Expression.print, hprint],
        by simp [expressionItems?, hl], ?_⟩
      intro rest final next after es' hn h
      -- the first term is followed by an operator, or by what follows the expression
      obtain ⟨l', ls', heq, hl'⟩ := ops.print_endsTerm hn after
      have hops := ops.reads hn h
      rw [heq] at hops
      have := hread hl' hops
      simpa [Expression.events, heq] using this

theorem Operations.reads {rest final : List Item} {next : Lexeme} {after : List Lexeme}
    {es' : List Event} (hn : EndsExpression next) (h : Reads rest (next :: after) es' final) :
    ∀ ops : Operations,
      Reads (.need .operators :: rest) (ops.print ++ next :: after) (ops.events ++ es') final
  | .nil => by
      have hg : Goal.operators.meet next = .leave [] := by simp [Goal.meet, hn.2]
      exact .leave hg h
  | .cons op t ops => by
      have hg : Goal.operators.meet (mark (binaryMark op)) =
          .take [] [.need .term, .raise (.binary op), .need .operators] := by
        simp [Goal.meet]
      obtain ⟨l', ls', heq, hl'⟩ := ops.print_endsTerm hn after
      have hops := Reads.raise (e := .binary op) (ops.reads hn h)
      rw [heq] at hops
      have := Reads.take hg (t.opens.reads_term hl' hops)
      simpa [Operations.print, Operations.events, heq] using this

theorem ArgumentList.reads {rest final : List Item} {ls : List Lexeme} {es : List Event}
    (callee : Callee) (h : Reads rest ls es final) : ∀ args : ArgumentList,
      Reads (.need (.arguments callee) :: rest) (args.print ++ mark ')' :: ls)
        (args.events ++ .call callee (UInt32.ofNat args.length) :: es) final
  | .nil => by
      have hg : (Goal.arguments callee).meet (mark ')') = .take [] [.raise (.call callee 0)] := by
        simp [Goal.meet, Goal.takeWith]
      exact .take hg (.raise h)
  | .cons e args => by
      obtain ⟨l, tail, items, hprint, hl, hread⟩ := e.opens
      have hg : (Goal.arguments callee).meet l =
          .take [] (items ++ [.need (.moreArguments callee 1)]) := by
        simp [Goal.meet, Goal.takeWith, hl, isSymbol_of_expressionItems? hl]
      obtain ⟨l', ls', heq, hl'⟩ := args.printMore_endsExpression ls
      have hmore := args.readsMore callee h 1
      rw [heq] at hmore
      have := Reads.take hg (by simpa using hread hl' hmore)
      simpa [ArgumentList.print, ArgumentList.events, ArgumentList.length, hprint, heq,
        one_add_ofNat] using this

theorem ArgumentList.readsMore {rest final : List Item} {ls : List Lexeme} {es : List Event}
    (callee : Callee) (h : Reads rest ls es final) : ∀ (args : ArgumentList) (n : UInt32),
      Reads (.need (.moreArguments callee n) :: rest) (args.printMore ++ mark ')' :: ls)
        (args.events ++ .call callee (n + UInt32.ofNat args.length) :: es) final
  | .nil, n => by
      have hg : (Goal.moreArguments callee n).meet (mark ')') =
          .take [] [.raise (.call callee n)] := by
        simp [Goal.meet, Goal.takeWith]
      have := Reads.take hg (.raise h)
      simpa [ArgumentList.printMore, ArgumentList.events, ArgumentList.length] using this
  | .cons e args, n => by
      have hg : (Goal.moreArguments callee n).meet (mark ',') =
          .take [] [.need .expression, .need (.moreArguments callee (n + 1))] := by
        simp [Goal.meet, Goal.takeWith]
      obtain ⟨l', ls', heq, hl'⟩ := args.printMore_endsExpression ls
      have hmore := args.readsMore callee h (n + 1)
      rw [heq] at hmore
      have := Reads.take hg (e.opens.reads_expression hl' hmore)
      simpa [ArgumentList.printMore, ArgumentList.events, ArgumentList.length, heq,
        UInt32.add_assoc, one_add_ofNat] using this
end

/-- A call that is a statement is read up to its closing parenthesis. -/
theorem reads_call {rest final : List Item} {ls : List Lexeme} {es : List Event}
    (h : Reads rest ls es final) (args : ArgumentList) (f : CallName) :
    Reads (.need .callStatement :: rest) (printCall f args ++ ls) (callEvents f args ++ es)
      final := by
  have hname : Goal.callStatement.meet f.head.lexeme =
      .take [] [.need (.callRest f.head.text)] := by
    simp [Goal.meet, Goal.takeWith]
  have hopen : (Goal.callRest f.head.text).meet (mark '(') =
      .take [] (argumentItems (.bare f.head.text)) := by
    simp [Goal.meet, Goal.takeWith]
  have hdot : (Goal.callRest f.head.text).meet (mark '.') =
      .take [] [.need (.calleeName f.head.text)] := by
    simp [Goal.meet, Goal.takeWith]
  have hcall := f.reads_tail hopen hdot (args.reads f.callee h)
  simpa [printCall, callEvents, CallName.print_eq] using Reads.take hname hcall

/-! ## Statements are read -/

/-- A lexeme that begins a statement does not go on with another. -/
theorem endsStatement_of_statementItems? {l : Lexeme} {items : List Item}
    (h : statementItems? l = some items) : EndsStatement l := by
  rw [EndsStatement, Bool.eq_false_iff]
  intro hl
  obtain ⟨kind, text⟩ := l
  simp only [Lexeme.isKeyword, Bool.and_eq_true, beq_iff_eq] at hl
  obtain ⟨rfl, rfl⟩ := hl
  simp [statementItems?, Lexeme.isKeyword] at h

theorem statementItems?_close : statementItems? (mark '}') = none := by
  simp [statementItems?]

section
variable {rest final : List Item} {after : List Lexeme} {es' : List Event}

/-- A condition is read up to its closing parenthesis. -/
theorem Expression.reads_condition (e : Expression) (h : Reads rest after es' final) :
    Reads (conditionItems ++ rest) (printCondition e ++ after) (e.events ++ es') final := by
  have := e.opens.reads_expression (endsExpression_mark (by simp)) (reads_symbol (c := ')') h)
  simpa [conditionItems, printCondition] using reads_symbol (c := '(') this

/-- A goal for statements reads on at a statement and gives up at a brace. -/
def WantsStatements (g : Goal) : Prop := g = .statements ∨ g = .moreStatements

theorem WantsStatements.meet_open {g : Goal} (hg : WantsStatements g) {l : Lexeme}
    {items : List Item} (h : statementItems? l = some items) :
    g.meet l = .take [] (items ++ [.need .moreStatements]) := by
  rcases hg with rfl | rfl <;> simp [Goal.meet, h]

theorem WantsStatements.meet_close {g : Goal} (hg : WantsStatements g) :
    g.meet (mark '}') = .leave [] := by
  rcases hg with rfl | rfl <;> simp [Goal.meet, statementItems?_close]

end

mutual
theorem Statement.opens : ∀ s : Statement, Opens statementItems? EndsStatement s.print s.events
  | .letVar x e => by
      refine ⟨_, [x.lexeme, mark '='] ++ e.print ++ [mark ';'], [.need .letTarget], rfl, rfl, ?_⟩
      intro rest final next after es' _ h
      have hx : Goal.letTarget.meet x.lexeme =
          .take [] [.raise (.target x.text), .need (.letRest x.text)] := by
        simp [Goal.meet, Goal.takeWith]
      have heq : (Goal.letRest x.text).meet (mark '=') =
          .take [] [.need .expression, .need (.symbol ';'), .raise (.store x.text)] := by
        simp [Goal.meet, Goal.takeWith]
      have he := e.opens.reads_expression (endsExpression_mark (by simp))
        (reads_symbol (c := ';') (Reads.raise (e := .store x.text) h))
      simpa [Statement.events] using Reads.take hx (.raise (Reads.take heq he))
  | .letElement x i e => by
      refine ⟨_, [x.lexeme, mark '['] ++ i.print ++ [mark ']', mark '='] ++ e.print ++ [mark ';'],
        [.need .letTarget], rfl, rfl, ?_⟩
      intro rest final next after es' _ h
      have hx : Goal.letTarget.meet x.lexeme =
          .take [] [.raise (.target x.text), .need (.letRest x.text)] := by
        simp [Goal.meet, Goal.takeWith]
      have hopen : (Goal.letRest x.text).meet (mark '[') =
          .take [] [.raise (.load x.text), .need .expression, .need (.symbol ']'), .raise .address,
            .need (.symbol '='), .need .expression, .need (.symbol ';'), .raise .storeElement] := by
        simp [Goal.meet, Goal.takeWith]
      have he := e.opens.reads_expression (endsExpression_mark (by simp))
        (reads_symbol (c := ';') (Reads.raise (e := .storeElement) h))
      have hi := i.opens.reads_expression (endsExpression_mark (by simp))
        (reads_symbol (c := ']') (Reads.raise (e := .address) (reads_symbol (c := '=') he)))
      simpa [Statement.events] using Reads.take hx (.raise (Reads.take hopen (.raise hi)))
  | .ifThen c b => by
      refine ⟨_, printCondition c ++ [mark '{'] ++ b.print ++ [mark '}'], _, rfl, rfl, ?_⟩
      intro rest final next after es' hn h
      -- the next lexeme is left to what follows the statement
      have hskip : Goal.elsePart.meet next = .leave [] := by
        rw [EndsStatement] at hn
        simp [Goal.meet, hn]
      have hend := Reads.raise (e := .ifElse) (Reads.leave hskip (Reads.raise (e := .ifEnd) h))
      have hb := b.reads (.inl rfl) (reads_symbol (c := '}') hend)
      have hc := c.reads_condition (Reads.raise (e := .ifTest) (reads_symbol (c := '{') hb))
      simpa [Statement.events, blockItems] using Reads.raise (e := .ifBegin) hc
  | .ifElse c b b' => by
      refine ⟨word "if", printCondition c ++ [mark '{'] ++ b.print
        ++ [mark '}', word "else", mark '{'] ++ b'.print ++ [mark '}'], _,
        by simp [Statement.print], rfl, ?_⟩
      intro rest final next after es' _ h
      have helse : Goal.elsePart.meet (word "else") = .take [] blockItems := by
        simp [Goal.meet]
      have hother := b'.reads (.inl rfl) (reads_symbol (c := '}') (Reads.raise (e := .ifEnd) h))
      have hend := Reads.raise (e := .ifElse) (Reads.take helse (reads_symbol (c := '{') hother))
      have hb := b.reads (.inl rfl) (reads_symbol (c := '}') hend)
      have hc := c.reads_condition (Reads.raise (e := .ifTest) (reads_symbol (c := '{') hb))
      simpa [Statement.events, blockItems] using Reads.raise (e := .ifBegin) hc
  | .whileDo c b => by
      refine ⟨_, printCondition c ++ [mark '{'] ++ b.print ++ [mark '}'], _, rfl, rfl, ?_⟩
      intro rest final next after es' _ h
      have hb := b.reads (.inl rfl) (reads_symbol (c := '}') (Reads.raise (e := .whileEnd) h))
      have hc := c.reads_condition (Reads.raise (e := .whileTest) (reads_symbol (c := '{') hb))
      simpa [Statement.events, blockItems] using Reads.raise (e := .whileBegin) hc
  | .doCall f args => by
      refine ⟨_, printCall f args ++ [mark ';'], _, rfl, rfl, ?_⟩
      intro rest final next after es' _ h
      simpa [Statement.events] using
        reads_call (reads_symbol (c := ';') (Reads.raise (e := .discard) h)) args f
  | .returnNothing => by
      refine ⟨_, [mark ';'], _, rfl, rfl, ?_⟩
      intro rest final next after es' _ h
      have hg : Goal.returnRest.meet (mark ';') = .take [] [.raise .returnNothing] := by
        simp [Goal.meet]
      exact .take hg (.raise h)
  | .returnValue e => by
      obtain ⟨l, tail, items, hprint, hl, hread⟩ := e.opens
      refine ⟨_, e.print ++ [mark ';'], _, rfl, rfl, ?_⟩
      intro rest final next after es' _ h
      have hg : Goal.returnRest.meet l =
          .take [(.here, .returnValue)] (items ++ [.need .returnEnd]) := by
        simp [Goal.meet, hl, isSymbol_of_expressionItems? hl]
      have hend : Goal.returnEnd.meet (mark ';') = .take [] [.raise .ret] := by
        simp [Goal.meet, Goal.takeWith]
      have hvalue := hread (endsExpression_mark (c := ';') (by simp))
        (Reads.take hend (.raise h))
      have := Reads.take hg (by simpa using hvalue)
      simpa [Statement.events, hprint] using this

theorem StatementList.reads {rest final : List Item} {after : List Lexeme} {es' : List Event}
    {g : Goal} (hg : WantsStatements g) (h : Reads rest (mark '}' :: after) es' final) :
    ∀ ss : StatementList,
      Reads (.need g :: rest) (ss.print ++ mark '}' :: after) (ss.events ++ es') final
  | .nil => .leave hg.meet_close h
  | .cons s ss => by
      obtain ⟨l, tail, items, hprint, hl, hread⟩ := s.opens
      obtain ⟨l', ls', heq, hl'⟩ := ss.print_endsStatement after
      have hss := ss.reads (.inr rfl) h
      rw [heq] at hss
      have := Reads.take (hg.meet_open hl) (by simpa using hread hl' hss)
      simpa [StatementList.print, StatementList.events, hprint, heq] using this

/-- What follows a statement is another or the end of the block. -/
theorem StatementList.print_endsStatement (after : List Lexeme) : ∀ ss : StatementList,
    ∃ l ls, ss.print ++ mark '}' :: after = l :: ls ∧ EndsStatement l
  | .nil => ⟨mark '}', after, rfl, rfl⟩
  | .cons s ss => by
      obtain ⟨l, tail, items, hprint, hl, -⟩ := s.opens
      exact ⟨l, tail ++ ss.print ++ mark '}' :: after, by simp [StatementList.print, hprint],
        endsStatement_of_statementItems? hl⟩
end

/-! ## Declarations and classes are read -/

section
variable {rest final : List Item} {ls : List Lexeme} {es : List Event}

theorem reads_moreNames {storage : Storage} {type : String} (h : Reads rest ls es final) :
    ∀ names : List Identifier,
      Reads (.need (.moreNames storage type) :: rest)
        (names.flatMap (fun x => [mark ',', x.lexeme]) ++ mark ';' :: ls)
        (names.map (fun x => .declare storage type x.text) ++ es) final
  | [] => by
      have hg : (Goal.moreNames storage type).meet (mark ';') = .take [] [] := by
        simp [Goal.meet, Goal.takeWith]
      exact .take hg h
  | x :: names => by
      have hcomma : (Goal.moreNames storage type).meet (mark ',') =
          .take [] [.need (.varName storage type), .need (.moreNames storage type)] := by
        simp [Goal.meet, Goal.takeWith]
      have hx : (Goal.varName storage type).meet x.lexeme =
          .take [] [.raise (.declare storage type x.text)] := by
        simp [Goal.meet, Goal.takeWith]
      exact .take hcomma (.take hx (.raise (reads_moreNames h names)))

theorem VarDec.reads (storage : Storage) (d : VarDec) (h : Reads rest ls es final) :
    Reads (.need (.varType storage) :: rest) (d.print ++ ls) (d.events storage ++ es) final := by
  have htype : (Goal.varType storage).meet d.type.lexeme =
      .take [] [.need (.varName storage d.type.text), .need (.moreNames storage d.type.text)] := by
    simp [Goal.meet, Goal.takeWith]
  have hfirst : (Goal.varName storage d.type.text).meet d.first.lexeme =
      .take [] [.raise (.declare storage d.type.text d.first.text)] := by
    simp [Goal.meet, Goal.takeWith]
  have := Reads.take htype (.take hfirst (.raise (reads_moreNames h d.more)))
  simpa [VarDec.print, VarDec.events, VarDec.names] using this

theorem reads_moreParameters (h : Reads rest ls es final) : ∀ ps : List Parameter,
    Reads (.need .moreParameters :: rest)
      (ps.flatMap (fun p => mark ',' :: p.print) ++ mark ')' :: ls)
      (ps.map Parameter.event ++ es) final
  | [] => by
      have hg : Goal.moreParameters.meet (mark ')') = .take [] [] := by
        simp [Goal.meet, Goal.takeWith]
      exact .take hg h
  | p :: ps => by
      have hcomma : Goal.moreParameters.meet (mark ',') = .take [] [.need .parameterType] := by
        simp [Goal.meet, Goal.takeWith]
      have htype : Goal.parameterType.meet p.type.lexeme =
          .take [] [.need (.varName .argument p.type.text), .need .moreParameters] := by
        simp [Goal.meet, Goal.takeWith]
      have hname : (Goal.varName .argument p.type.text).meet p.name.lexeme =
          .take [] [.raise p.event] := by
        simp [Goal.meet, Goal.takeWith, Parameter.event]
      exact .take hcomma (.take htype (.take hname (.raise (reads_moreParameters h ps))))

theorem reads_parameters (h : Reads rest ls es final) : ∀ ps : List Parameter,
    Reads (.need .parameters :: rest) (printParameters ps ++ mark ')' :: ls)
      (ps.map Parameter.event ++ es) final
  | [] => by
      have hg : Goal.parameters.meet (mark ')') = .take [] [] := by
        simp [Goal.meet, Goal.takeWith]
      exact .take hg h
  | p :: ps => by
      have htype : Goal.parameters.meet p.type.lexeme =
          .take [] [.need (.varName .argument p.type.text), .need .moreParameters] := by
        simp [Goal.meet, Goal.takeWith]
      have hname : (Goal.varName .argument p.type.text).meet p.name.lexeme =
          .take [] [.raise p.event] := by
        simp [Goal.meet, Goal.takeWith, Parameter.event]
      exact .take htype (.take hname (.raise (reads_moreParameters h ps)))

/-- The prologue stands before the first statement, or before the closing brace. -/
theorem StatementList.reads_body (h : Reads rest (mark '}' :: ls) es final) :
    ∀ ss : StatementList, Reads (.need .body :: rest) (ss.print ++ mark '}' :: ls)
      (.prologue :: (ss.events ++ es)) final
  | .nil => by
      have hg : Goal.body.meet (mark '}') = .leave [(.here, .prologue)] := by
        simp [Goal.meet, statementItems?_close]
      exact .leave hg h
  | .cons s ss => by
      obtain ⟨l, tail, items, hprint, hl, hread⟩ := s.opens
      -- or the statement would be read as a declaration
      have hvar : l.isKeyword "var" = false := by
        rw [Bool.eq_false_iff]
        intro hv
        obtain ⟨kind, text⟩ := l
        simp only [Lexeme.isKeyword, Bool.and_eq_true, beq_iff_eq] at hv
        obtain ⟨rfl, rfl⟩ := hv
        simp [statementItems?, Lexeme.isKeyword] at hl
      have hg : Goal.body.meet l =
          .take [(.here, .prologue)] (items ++ [.need .moreStatements]) := by
        simp [Goal.meet, hl, hvar]
      obtain ⟨l', ls', heq, hl'⟩ := ss.print_endsStatement ls
      have hss := ss.reads (.inr rfl) h
      rw [heq] at hss
      have := Reads.take hg (by simpa using hread hl' hss)
      simpa [StatementList.print, StatementList.events, hprint, heq] using this

theorem reads_locals {body : List Lexeme} (h : Reads (.need .body :: rest) body es final) :
    ∀ ds : List VarDec,
      Reads (.need .body :: rest) (ds.flatMap (fun d => word "var" :: d.print) ++ body)
        (ds.flatMap (VarDec.events .var) ++ es) final
  | [] => h
  | d :: ds => by
      have hvar : Goal.body.meet (word "var") = .take [] [.need (.varType .var), .need .body] := by
        simp [Goal.meet]
      have := Reads.take hvar (d.reads .var (reads_locals h ds))
      simpa using this

theorem Subroutine.reads (s : Subroutine) (h : Reads rest ls es final) :
    ∃ tail, s.print = word (kindWord s.kind) :: tail ∧
      Reads (subroutineItems s.kind ++ rest) (tail ++ ls) (s.events ++ es) final := by
  refine ⟨_, rfl, ?_⟩
  have hresult : (Goal.resultType s.kind).meet (printResult s.result) =
      .take [] [.raise (.result s.kind (s.result.map VarType.text))] := by
    cases hr : s.result <;> simp [printResult, Goal.meet, Goal.takeWith]
  have hname : Goal.subroutineName.meet s.name.lexeme =
      .take [] [.raise (.subroutine s.name.text)] := by
    simp [Goal.meet, Goal.takeWith]
  have hbody := s.body.reads_body (reads_symbol (c := '}') h)
  have hlocals := reads_symbol (c := '{') (reads_locals hbody s.locals)
  have hparams := reads_symbol (c := '(') (Reads.raise (e := .enter)
    (reads_parameters hlocals s.parameters))
  have := Reads.take hresult (.raise (Reads.take hname (.raise hparams)))
  simpa [subroutineItems, Subroutine.events] using this

theorem reads_subroutines (h : Reads rest ls es final) : ∀ (b : Bool) (ss : List Subroutine),
    Reads (.need (.members b) :: rest) (ss.flatMap Subroutine.print ++ mark '}' :: ls)
      (ss.flatMap Subroutine.events ++ es) final
  | b, [] => by
      have hg : (Goal.members b).meet (mark '}') = .take [] [] := by
        simp [Goal.meet]
      exact .take hg h
  | b, s :: ss => by
      obtain ⟨tail, hprint, hread⟩ := s.reads (reads_subroutines h true ss)
      have hg : (Goal.members b).meet (word (kindWord s.kind)) =
          .take [] (subroutineItems s.kind ++ [.need (.members true)]) := by
        cases s.kind <;>
          simp [Goal.meet, Goal.takeWith, kindWord, classStorage?, subroutineKind?]
      have := Reads.take hg (by simpa using hread)
      simpa [hprint] using this

theorem reads_members (h : Reads rest ls es final) (ss : List Subroutine) :
    ∀ vs : List ClassVarDec, Reads (.need (.members false) :: rest)
      (vs.flatMap ClassVarDec.print ++ (ss.flatMap Subroutine.print ++ mark '}' :: ls))
      (vs.flatMap (fun v => v.dec.events v.storage) ++ (ss.flatMap Subroutine.events ++ es)) final
  | [] => reads_subroutines h false ss
  | v :: vs => by
      have hg : (Goal.members false).meet (word v.storage.name) =
          .take [] [.need (.varType v.storage), .need (.members false)] := by
        cases v <;> simp [Goal.meet, ClassVarDec.storage, Storage.name, classStorage?]
      have := Reads.take hg (v.dec.reads v.storage (reads_members h ss vs))
      simpa [ClassVarDec.print] using this

end

/-- The printed form of a class is read to its end and raises its events. -/
theorem Class.reads_print (c : Class) : Reads classItems c.print c.events [] := by
  have hclass : Goal.classDec.meet (word "class") =
      .take [] [.need .className, .need (.symbol '{'), .need (.members false)] := by
    simp [Goal.meet, Goal.takeWith]
  have hname : Goal.className.meet c.name.lexeme = .take [] [.raise (.className c.name.text)] := by
    simp [Goal.meet, Goal.takeWith]
  have hmembers := reads_members (Reads.done []) c.subroutines c.classVars
  have := Reads.take hclass (Reads.take hname (.raise (reads_symbol (c := '{') hmembers)))
  simpa [classItems, Class.print, Class.events] using this

end JackVm.Tree
