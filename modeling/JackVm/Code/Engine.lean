import JackVm.Failure
import JackVm.Log

/-!
# The engine

A class is read by recursive descent, one procedure for each rule of the grammar. The procedures
share a tape of tokens. One that is entered on the first token of its rule returns on the
last. Some have to look at the token after it: they step ahead, and back again if that token is
not theirs. Code is written on the way, so a failure leaves what was written and declared before.

| | |
|---|---|
| `advance` | steps ahead, to a token that is expected there |
| `retreat` | steps back |
| `check` | looks at the current token |
| `raise` | has an event performed, on the line of the current token |

Steps that the cursor cannot make, and words and operators that no case is for, are failures like
all others here.

Rules that contain themselves, and lists, are read by procedures that call themselves
(`recursively`). Whatever such a call stands in has read a token before it, so the tokens ahead say
how deep calls can be.
-/

namespace JackVm

/-! ## Tests of the current token -/

namespace Lexeme

/-- Whether the lexeme is one of the reserved words. -/
def isOneOf (l : Lexeme) (words : List String) : Bool := words.any l.isKeyword

def isUnary (l : Lexeme) : Bool := l.isSymbol '-' || l.isSymbol '~'

def isOperator (l : Lexeme) : Bool :=
  ['+', '-', '*', '/', '&', '|', '<', '>', '='].any l.isSymbol

def isConstant (l : Lexeme) : Bool := l.isOneOf ["true", "false", "null", "this"]

/-- Whether a term can begin with the lexeme. -/
def beginsTerm (l : Lexeme) : Bool :=
  l.kind == .integerConstant || l.kind == .stringConstant || l.kind == .identifier ||
    l.isConstant || l.isSymbol '(' || l.isUnary

end Lexeme

/-! ## The state -/

/-- The tokens, what is known of the class, and what was written and noted. All of it stays from
one class to the next. -/
structure Engine where
  tape : Tape
  scope : Scope := {}
  sink : Sink := {}
  log : Array Record := #[]
deriving DecidableEq, Repr

/-- Whether a class went well, and the engine that is left. -/
abbrev Engine.Ending := Except Failure Unit × Engine

/-- A procedure of the engine. It may fail, and the engine is then left as it was on failing.
There is no result if calls get too deep. -/
abbrev EngineM := ExceptT Failure (StateT Engine Option)

/-- What is noted about an event. -/
def Scope.records (s : Scope) : Event → Array Record
  | .subroutine name => #[.compiling (s.qualify name)]
  | _ => #[]

namespace Engine

def current? (e : Engine) : Option Lexeme := e.tape.current?.map (·.toLexeme)

/-- Fails on the current line. -/
def fail {α : Type} (cause : Cause) : EngineM α := do
  throw (.compile cause (← get).tape.line)

/-- The current lexeme is not what the goal is waiting for. -/
def refuse {α : Type} (g : Goal) : EngineM α := fail (.refused (.unexpected g))

/-- Moves the tape; a move that cannot be made is a failure. -/
def move (step : Tape → Except CursorFault Tape) : EngineM Unit := do
  match step (← get).tape with
  | .ok tape => modify fun e => { e with tape := tape }
  | .error fault => fail (.cursor fault)

/-- Steps ahead, to the token that the goal is waiting for. -/
def advance (g : Goal) : EngineM Unit := do
  if (← get).tape.hasMore then move Tape.forward else fail (.starved g)

def retreat : EngineM Unit := move Tape.back

/-- Whether there is a current lexeme and it passes the test. -/
def check (test : Lexeme → Bool) : EngineM Bool := return (← get).current?.any test

/-- The text of the current lexeme. -/
def text : EngineM String := return ((← get).current?.map (·.text)).getD ""

def expect (test : Lexeme → Bool) (g : Goal) : EngineM Unit := do
  if ← check test then return else refuse g

def expectSymbol (c : Char) : EngineM Unit := expect (·.isSymbol c) (.symbol c)

def expectName (g : Goal) : EngineM String := do
  expect (·.kind == .identifier) g
  text

def expectType (g : Goal) : EngineM String := do
  expect (·.type?.isSome) g
  text

def expectTerm (g : Goal) : EngineM Unit := expect Lexeme.beginsTerm g

/-- Steps ahead to the symbol. -/
def nextSymbol (c : Char) : EngineM Unit := do
  advance (.symbol c)
  expectSymbol c

/-- A call that is too deep. -/
def tooDeep {α : Type} : EngineM α := ExceptT.mk fun _ => none

/-- A procedure that calls itself, each time with another argument. -/
def recursivelyFrom {ι α : Type} (start : ι) (body : (ι → EngineM α) → ι → EngineM α) :
    EngineM α := do
  Nat.repeat body ((← get).tape.ahead.length + 1) (fun _ => tooDeep) start

/-- A procedure that calls itself. -/
def recursively {α : Type} (body : EngineM α → EngineM α) : EngineM α := do
  Nat.repeat body ((← get).tape.ahead.length + 1) tooDeep

variable (t : Target)

/-- Performs an event: checks it, then writes its code. -/
def perform (e : Engine) (event : Event) : Ending :=
  match e.scope.perform t event with
  | .error static => (.error (.compile (.static static) e.tape.line), e)
  | .ok (scope, code) =>
      let log := e.log ++ e.scope.records event
      match e.sink.writeAll code with
      | (sink, none) => (.ok (), { e with scope := scope, sink := sink, log := log })
      | (sink, some fault) => (.error (.io fault.message), { e with sink := sink, log := log })

def raise (event : Event) : EngineM Unit := ExceptT.mk fun e => some (e.perform t event)

/-! ## Expressions -/

/-- Writes the code of the operator that a character stands for. -/
def writeOperator (c : Char) : EngineM Unit :=
  match BinaryOp.ofMark? c with
  | some op => raise t (.binary op)
  | none => fail (.unknownOperator c)

/-- The rest of a callee's name, up to the opening parenthesis. -/
def compileCallee (first : String) : EngineM Callee := do
  if ← check (·.isSymbol '.') then
    advance (.calleeName first)
    let callee := Callee.dotted first (← expectName (.calleeName first))
    raise t (.resolve callee)
    advance (.symbol '(')
    return callee
  else if ← check (·.isSymbol '(') then
    return .bare first
  else
    refuse (.callRest first)

section
-- The procedures that terms are made of are given the one for the terms inside.
variable (term : EngineM Unit)

/-- Steps ahead to a term and compiles it. -/
def nextTermBy : EngineM Unit := do
  advance .term
  expectTerm .term
  term

/-- The operators and terms after the first term of an expression. -/
def operatorsBy : EngineM Unit :=
  recursively fun operators => do
    advance .operators
    if ← check Lexeme.isOperator then
      let op := (← text).toList.headD '\x00'
      nextTermBy term
      writeOperator t op
      operators
    else
      retreat

def expressionBy : EngineM Unit := do
  term
  operatorsBy t term

/-- Steps ahead to an expression and compiles it. -/
def nextExpressionBy : EngineM Unit := do
  advance .expression
  expectTerm .expression
  expressionBy t term

def moreExpressionsBy (callee : Callee) (count : UInt32) : EngineM UInt32 :=
  recursivelyFrom count fun more count => do
    advance (.moreArguments callee count)
    if ← check (·.isSymbol ',') then
      nextExpressionBy t term
      more (count + 1)
    else
      retreat
      return count

/-- The arguments of a callee, if there are any, and their number. -/
def expressionListBy (callee : Callee) : EngineM UInt32 := do
  if ← check Lexeme.beginsTerm then
    expressionBy t term
    moreExpressionsBy t term callee 1
  else
    retreat
    return 0

/-- A call after its first name. -/
def callBy (first : String) : EngineM Unit := do
  advance (.callRest first)
  let callee ← compileCallee t first
  expectSymbol '('
  raise t (.receive callee)
  advance (.arguments callee)
  let count ← expressionListBy t term callee
  nextSymbol ')'
  raise t (.call callee count)

def subroutineCallBy : EngineM Unit := do
  callBy t term (← expectName .callStatement)

/-- A term that begins with a name. What it is shows at the next token. -/
def nameBy : EngineM Unit := do
  advance (.nameRest (← text))
  if ← check (·.isSymbol '[') then
    retreat
    raise t (.load (← text))
    advance (.symbol '[')
    nextExpressionBy t term
    nextSymbol ']'
    raise t .fetch
  else if ← check fun l => l.isSymbol '(' || l.isSymbol '.' then
    retreat
    subroutineCallBy t term
  else
    retreat
    raise t (.load (← text))

def termBy : EngineM Unit := do
  if ← check (·.kind == .integerConstant) then
    raise t (.integer (← text))
  else if ← check (·.kind == .stringConstant) then
    raise t (.string (← text))
  else if ← check Lexeme.isConstant then
    raise t (.constant ((KeywordConstant.ofKeyword? (← text)).getD .null))
  else if ← check Lexeme.isUnary then
    let op := if ← check (·.isSymbol '-') then .neg else .not
    nextTermBy term
    raise t (.unary op)
  else if ← check (·.isSymbol '(') then
    nextExpressionBy t term
    nextSymbol ')'
  else if ← check (·.kind == .identifier) then
    nameBy t term
  else
    refuse .term

end

def compileTerm : EngineM Unit := recursively (termBy t)

def compileExpression : EngineM Unit := expressionBy t (compileTerm t)

def nextExpression : EngineM Unit := nextExpressionBy t (compileTerm t)

def compileSubroutineCall : EngineM Unit := subroutineCallBy t (compileTerm t)

def compileExpressionList (callee : Callee) : EngineM UInt32 :=
  expressionListBy t (compileTerm t) callee

/-! ## Statements -/

def compileCondition : EngineM Unit := do
  nextSymbol '('
  nextExpression t
  nextSymbol ')'

def compileLet : EngineM Unit := do
  advance .letTarget
  let name ← expectName .letTarget
  raise t (.target name)
  advance (.letRest name)
  if ← check (·.isSymbol '[') then
    raise t (.load name)
    nextExpression t
    nextSymbol ']'
    raise t .address
    nextSymbol '='
    nextExpression t
    nextSymbol ';'
    raise t .storeElement
  else
    expectSymbol '='
    nextExpression t
    nextSymbol ';'
    raise t (.store name)

def compileDo : EngineM Unit := do
  advance .callStatement
  compileSubroutineCall t
  nextSymbol ';'
  raise t .discard

def compileReturn : EngineM Unit := do
  advance .returnRest
  if ← check Lexeme.beginsTerm then
    raise t .returnValue
    compileExpression t
    advance .returnEnd
    expect (·.isSymbol ';') .returnEnd
    raise t .ret
  else
    expect (·.isSymbol ';') .returnRest
    raise t .returnNothing

section
-- Blocks are given the procedure for the statements inside.
variable (statements : EngineM Unit)

def blockBy : EngineM Unit := do
  nextSymbol '{'
  advance .statements
  statements
  nextSymbol '}'

/-- The other block of an `if`, if there is one. -/
def elseBy : EngineM Unit := do
  advance .elsePart
  if ← check (·.isKeyword "else") then
    blockBy statements
  else
    retreat

def ifBy : EngineM Unit := do
  raise t .ifBegin
  compileCondition t
  raise t .ifTest
  blockBy statements
  raise t .ifElse
  elseBy statements
  raise t .ifEnd

def whileBy : EngineM Unit := do
  raise t .whileBegin
  compileCondition t
  raise t .whileTest
  blockBy statements
  raise t .whileEnd

/-- Compiles the statement that begins here, if one does. -/
def statementBy : EngineM Bool := do
  if ← check (·.isKeyword "let") then
    compileLet t
    return true
  else if ← check (·.isKeyword "if") then
    ifBy t statements
    return true
  else if ← check (·.isKeyword "while") then
    whileBy t statements
    return true
  else if ← check (·.isKeyword "do") then
    compileDo t
    return true
  else if ← check (·.isKeyword "return") then
    compileReturn t
    return true
  else
    return false

def statementsBy : EngineM Unit := do
  if ← statementBy t statements then
    advance .moreStatements
    statements
  else
    retreat

end

def compileStatements : EngineM Unit := recursively (statementsBy t)

def compileIf : EngineM Unit := ifBy t (compileStatements t)

def compileWhile : EngineM Unit := whileBy t (compileStatements t)

/-! ## Declarations -/

/-- Steps ahead to a name and declares the variable. -/
def define (storage : Storage) (type : String) : EngineM Unit := do
  advance (.varName storage type)
  raise t (.declare storage type (← expectName (.varName storage type)))

/-- More names of a declaration, and its end. -/
def compileMoreNames (storage : Storage) (type : String) : EngineM Unit :=
  recursively fun more => do
    advance (.moreNames storage type)
    if ← check (·.isSymbol ';') then
      return
    else if ← check (·.isSymbol ',') then
      define t storage type
      more
    else
      refuse (.moreNames storage type)

/-- A declaration after its first word. -/
def compileNames (storage : Storage) : EngineM Unit := do
  advance (.varType storage)
  let type ← expectType (.varType storage)
  define t storage type
  compileMoreNames t storage type

def compileClassVarDec : EngineM Unit := do
  compileNames t (if ← check (·.isKeyword "static") then .static else .field)

def compileVarDec : EngineM Unit := compileNames t .var

def compileMoreParameters : EngineM Unit :=
  recursively fun more => do
    advance .moreParameters
    if ← check (·.isSymbol ',') then
      advance .parameterType
      let type ← expectType .parameterType
      define t .argument type
      more
    else
      retreat

/-- The parameters of a subroutine, if there are any. -/
def compileParameterList : EngineM Unit := do
  if ← check (·.type?.isSome) then
    let type ← text
    define t .argument type
    compileMoreParameters t
  else
    retreat

/-- The local declarations of a subroutine, up to what follows them. -/
def compileVarDecs : EngineM Unit :=
  recursively fun more => do
    if ← check (·.isKeyword "var") then
      compileVarDec t
      advance .body
      more
    else
      return

def compileSubroutineBody : EngineM Unit := do
  advance .body
  compileVarDecs t
  raise t .prologue
  compileStatements t
  nextSymbol '}'

/-- The result type of a subroutine; none for `void`. -/
def expectResult (kind : SubroutineKind) : EngineM (Option String) := do
  if ← check (·.isKeyword "void") then
    return none
  else
    return some (← expectType (.resultType kind))

def compileSubroutineDec : EngineM Unit := do
  match SubroutineKind.ofKeyword? (← text) with
  | none => fail .noKind
  | some kind =>
      advance (.resultType kind)
      raise t (.result kind (← expectResult kind))
      advance .subroutineName
      raise t (.subroutine (← expectName .subroutineName))
      nextSymbol '('
      raise t .enter
      advance .parameters
      compileParameterList t
      nextSymbol ')'
      nextSymbol '{'
      compileSubroutineBody t

/-! ## Classes -/

/-- The declarations and subroutines of a class, and its end. -/
def compileMembers (afterSubroutine : Bool) : EngineM Unit :=
  recursivelyFrom afterSubroutine fun more afterSubroutine => do
    advance (.members afterSubroutine)
    if ← check (·.isSymbol '}') then
      return
    else if ← check (·.isOneOf ["static", "field"]) then
      if afterSubroutine then
        fail (.refused .lateVariables)
      else
        compileClassVarDec t
        more false
    else if ← check (·.isOneOf ["constructor", "function", "method"]) then
      compileSubroutineDec t
      more true
    else
      refuse (.members afterSubroutine)

def compileClass : EngineM Unit := do
  advance .className
  raise t (.className (← expectName .className))
  nextSymbol '{'
  compileMembers t false

/-- Nothing may follow the class. -/
def expectEnd : EngineM Unit := do
  if (← get).tape.hasMore then
    move Tape.forward
    fail (.refused .afterClass)
  else
    return

/-- Compiles the class after the current token. Without any token there is no line to fail on but
the first. -/
def compile : EngineM Unit := do
  if (← get).tape.hasMore then
    move Tape.forward
    expect (·.isKeyword "class") .classDec
    compileClass t
    expectEnd
  else
    throw (.compile (.starved .classDec) 1)

end Engine

end JackVm
