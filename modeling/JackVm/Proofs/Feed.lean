import JackVm.Grammar.Goal
import JackVm.Token

/-!
# Reading a class, one lexeme at a time

The grammar is read by a stack of items without backtracking. Feeding a lexeme
asks the goal on top: it takes the lexeme and leaves new items in its place, or
it is done and leaves the lexeme to the item below, or it refuses the lexeme.
Events are raised as soon as they are on top of the stack.

An event has a place: the lexeme just fed when it is raised after that lexeme
was taken, the one before when it is raised to make way for it. The prologue is
the exception; it stands at the first lexeme after the declarations.
-/

namespace JackVm

/-- Which lexeme an event stands at: the one just fed or the one before. -/
inductive Place where
  | here
  | before
deriving DecidableEq, Repr

/-- The index of a place, when the lexeme just fed has index `i`. -/
def Place.index (i : Nat) : Place → Nat
  | .here => i
  | .before => i - 1

/-- What a goal does with a lexeme. -/
inductive Verdict where
  /-- Raises events and takes it; `items` are to be read instead of the goal. -/
  | take (events : List (Place × Event)) (items : List Item)
  /-- Raises events and leaves it to the item below the goal. -/
  | leave (events : List (Place × Event))
  | refuse (r : Refusal)
deriving DecidableEq, Repr

/-! ## Beginnings -/

/-- The operator a lexeme is between two terms. -/
def Lexeme.binary? (l : Lexeme) : Option BinaryOp := l.mark?.bind BinaryOp.ofMark?

/-- The rest of a term that begins with this lexeme. -/
def termItems? (l : Lexeme) : Option (List Item) :=
  match l.kind with
  | .integerConstant => some [.raise (.integer l.text)]
  | .stringConstant => some [.raise (.string l.text)]
  | .identifier => some [.need (.nameRest l.text)]
  | .keyword => (KeywordConstant.ofKeyword? l.text).map fun c => [.raise (.constant c)]
  | .symbol =>
      match l.mark? with
      | some '-' => some [.need .term, .raise (.unary .neg)]
      | some '~' => some [.need .term, .raise (.unary .not)]
      | some '(' => some [.need .expression, .need (.symbol ')')]
      | _ => none

/-- The rest of an expression that begins with this lexeme. -/
def expressionItems? (l : Lexeme) : Option (List Item) :=
  (termItems? l).map (· ++ [.need .operators])

theorem kind_of_mark? {l : Lexeme} {c : Char} (h : l.mark? = some c) : l.kind = .symbol := by
  obtain ⟨kind, text⟩ := l
  cases kind with
  | symbol => rfl
  | _ => simp [Lexeme.mark?] at h

/-- A lexeme that begins an expression closes no argument list and no statement. -/
theorem isSymbol_of_expressionItems? {l : Lexeme} {items : List Item}
    (h : expressionItems? l = some items) {c : Char} (hc : c = ')' ∨ c = ';') :
    l.isSymbol c = false := by
  rw [Bool.eq_false_iff]
  intro hl
  have hm : l.mark? = some c := by simpa [Lexeme.isSymbol] using hl
  have hnone : termItems? l = none := by
    rcases hc with rfl | rfl <;> simp [termItems?, kind_of_mark? hm, hm]
  simp [expressionItems?, hnone] at h

/-- A parenthesised expression. -/
def conditionItems : List Item := [.need (.symbol '('), .need .expression, .need (.symbol ')')]

/-- Statements in braces. -/
def blockItems : List Item := [.need (.symbol '{'), .need .statements, .need (.symbol '}')]

/-- The rest of a statement that begins with this lexeme. -/
def statementItems? (l : Lexeme) : Option (List Item) :=
  if l.isKeyword "let" then some [.need .letTarget]
  else if l.isKeyword "if" then
    some ([.raise .ifBegin] ++ conditionItems ++ [.raise .ifTest] ++ blockItems
      ++ [.raise .ifElse, .need .elsePart, .raise .ifEnd])
  else if l.isKeyword "while" then
    some ([.raise .whileBegin] ++ conditionItems ++ [.raise .whileTest] ++ blockItems
      ++ [.raise .whileEnd])
  else if l.isKeyword "do" then
    some [.need .callStatement, .need (.symbol ';'), .raise .discard]
  else if l.isKeyword "return" then some [.need .returnRest]
  else none

/-- The storage class of the variables that a declaration beginning with this
lexeme declares in a class. -/
def classStorage? (l : Lexeme) : Option Storage :=
  if l.isKeyword "static" then some .static
  else if l.isKeyword "field" then some .field
  else none

/-- The kind of subroutine that begins with this lexeme. -/
def subroutineKind? (l : Lexeme) : Option SubroutineKind :=
  if l.isKeyword "constructor" then some .constructor
  else if l.isKeyword "function" then some .function
  else if l.isKeyword "method" then some .method
  else none

/-- A subroutine after its first word. -/
def subroutineItems (kind : SubroutineKind) : List Item :=
  [.need (.resultType kind), .need .subroutineName, .need (.symbol '('), .raise .enter,
   .need .parameters, .need (.symbol '{'), .need .body, .need (.symbol '}')]

/-- A call after its name and the opening parenthesis. -/
def argumentItems (callee : Callee) : List Item :=
  [.raise (.receive callee), .need (.arguments callee)]

/-! ## Goals and lexemes -/

/-- Takes the lexeme when there is something to read after it, and otherwise refuses it as not
what the goal is waiting for. -/
def Goal.takeWith (g : Goal) : Option (List Item) → Verdict
  | some items => .take [] items
  | none => .refuse (.unexpected g)

/-- What a goal does with the next lexeme. -/
def Goal.meet (l : Lexeme) : Goal → Verdict
  | .classDec => Goal.classDec.takeWith <|
      if l.isKeyword "class" then
        some [.need .className, .need (.symbol '{'), .need (.members false)]
      else none
  | .className => Goal.className.takeWith <| l.name?.map fun n => [.raise (.className n)]
  | .symbol c => (Goal.symbol c).takeWith <| if l.isSymbol c then some [] else none
  | .members afterSubroutine =>
      if l.isSymbol '}' then .take [] []
      else match classStorage? l with
      | some storage =>
          if afterSubroutine then .refuse .lateVariables
          else .take [] [.need (.varType storage), .need (.members false)]
      | none => (Goal.members afterSubroutine).takeWith <|
          (subroutineKind? l).map fun kind => subroutineItems kind ++ [.need (.members true)]
  | .varType storage => (Goal.varType storage).takeWith <|
      l.type?.map fun t => [.need (.varName storage t), .need (.moreNames storage t)]
  | .varName storage t => (Goal.varName storage t).takeWith <|
      l.name?.map fun n => [.raise (.declare storage t n)]
  | .moreNames storage t => (Goal.moreNames storage t).takeWith <|
      if l.isSymbol ';' then some []
      else if l.isSymbol ',' then some [.need (.varName storage t), .need (.moreNames storage t)]
      else none
  | .resultType kind => (Goal.resultType kind).takeWith <|
      if l.isKeyword "void" then some [.raise (.result kind none)]
      else l.type?.map fun t => [.raise (.result kind (some t))]
  | .subroutineName => Goal.subroutineName.takeWith <|
      l.name?.map fun n => [.raise (.subroutine n)]
  | .parameters => (Goal.symbol ')').takeWith <|
      if l.isSymbol ')' then some []
      else l.type?.map fun t => [.need (.varName .argument t), .need .moreParameters]
  | .parameterType => Goal.parameterType.takeWith <|
      l.type?.map fun t => [.need (.varName .argument t), .need .moreParameters]
  | .moreParameters => (Goal.symbol ')').takeWith <|
      if l.isSymbol ')' then some []
      else if l.isSymbol ',' then some [.need .parameterType]
      else none
  | .body =>
      if l.isKeyword "var" then .take [] [.need (.varType .var), .need .body]
      else match statementItems? l with
      | some items => .take [(.here, .prologue)] (items ++ [.need .moreStatements])
      | none => .leave [(.here, .prologue)]
  | .statements | .moreStatements =>
      match statementItems? l with
      | some items => .take [] (items ++ [.need .moreStatements])
      | none => .leave []
  | .letTarget => Goal.letTarget.takeWith <|
      l.name?.map fun n => [.raise (.target n), .need (.letRest n)]
  | .letRest n => (Goal.symbol '=').takeWith <|
      if l.isSymbol '[' then
        some [.raise (.load n), .need .expression, .need (.symbol ']'), .raise .address,
          .need (.symbol '='), .need .expression, .need (.symbol ';'), .raise .storeElement]
      else if l.isSymbol '=' then
        some [.need .expression, .need (.symbol ';'), .raise (.store n)]
      else none
  | .elsePart => if l.isKeyword "else" then .take [] blockItems else .leave []
  | .callStatement => Goal.callStatement.takeWith <| l.name?.map fun n => [.need (.callRest n)]
  | .returnRest =>
      if l.isSymbol ';' then .take [] [.raise .returnNothing]
      else match expressionItems? l with
      | some items => .take [(.here, .returnValue)] (items ++ [.need .returnEnd])
      | none => .refuse (.unexpected .returnRest)
  | .returnEnd => Goal.returnEnd.takeWith <| if l.isSymbol ';' then some [.raise .ret] else none
  | .expression => Goal.expression.takeWith (expressionItems? l)
  | .operators =>
      match l.binary? with
      | some op => .take [] [.need .term, .raise (.binary op), .need .operators]
      | none => .leave []
  | .term => Goal.term.takeWith (termItems? l)
  | .nameRest n =>
      if l.isSymbol '[' then
        .take [(.before, .load n)] [.need .expression, .need (.symbol ']'), .raise .fetch]
      else if l.isSymbol '(' then .take [] (argumentItems (.bare n))
      else if l.isSymbol '.' then .take [] [.need (.calleeName n)]
      else .leave [(.before, .load n)]
  | .callRest n => (Goal.callRest n).takeWith <|
      if l.isSymbol '(' then some (argumentItems (.bare n))
      else if l.isSymbol '.' then some [.need (.calleeName n)]
      else none
  | .calleeName receiver => (Goal.calleeName receiver).takeWith <|
      l.name?.map fun n =>
        [.raise (.resolve (.dotted receiver n)), .need (.symbol '(')]
          ++ argumentItems (.dotted receiver n)
  | .arguments callee => (Goal.symbol ')').takeWith <|
      if l.isSymbol ')' then some [.raise (.call callee 0)]
      else (expressionItems? l).map (· ++ [.need (.moreArguments callee 1)])
  | .moreArguments callee count => (Goal.symbol ')').takeWith <|
      if l.isSymbol ')' then some [.raise (.call callee count)]
      else if l.isSymbol ',' then
        some [.need .expression, .need (.moreArguments callee (count + 1))]
      else none

/-! ## The stack -/

/-- What feeding a lexeme leads to: events in order, then the items still to be
read, or a refusal. -/
structure Fed where
  events : List (Place × Event)
  rest : Except Refusal (List Item)

/-- Raises the events on top of the stack. -/
def settle : List Item → Fed
  | .raise e :: rest =>
      let fed := settle rest
      { fed with events := (.here, e) :: fed.events }
  | items => ⟨[], .ok items⟩

/-- Puts events in front. -/
def Fed.after (events : List (Place × Event)) (fed : Fed) : Fed :=
  { fed with events := events ++ fed.events }

/-- Feeds one lexeme to a stack of items. -/
def feed (l : Lexeme) : List Item → Fed
  | [] => ⟨[], .error .afterClass⟩
  | .raise e :: rest => (feed l rest).after [(.before, e)]
  | .need g :: rest =>
      match g.meet l with
      | .take events items => (settle (items ++ rest)).after events
      | .leave events => (feed l rest).after events
      | .refuse r => ⟨[], .error r⟩

/-- The stack before a class. -/
def classItems : List Item := [.need .classDec]

/-- The goal that waits for the next lexeme, if one does. -/
def awaited? : List Item → Option Goal
  | [] => none
  | .need g :: _ => some g
  | .raise _ :: rest => awaited? rest

end JackVm
