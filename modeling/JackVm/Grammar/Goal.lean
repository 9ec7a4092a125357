import JackVm.Grammar.Event

/-!
# Goals

A goal is a part of the grammar that is still to be read. The rest of a class is
a stack of goals, with the events to raise between them.

| | |
|---|---|
| class | `class` name `{` classVars subroutines `}` |
| class variables | (`static` or `field`) type name (`,` name)* `;` |
| subroutine | (`constructor`, `function` or `method`) (`void` or type) name `(` parameters `)` body |
| parameters | nothing, or type name (`,` type name)* |
| body | `{` (`var` type name (`,` name)* `;`)* statement* `}` |
| let | `let` name (`[` expression `]`)? `=` expression `;` |
| if | `if` `(` expression `)` `{` statement* `}` (`else` `{` statement* `}`)? |
| while | `while` `(` expression `)` `{` statement* `}` |
| do | `do` call `;` |
| return | `return` expression? `;` |
| expression | term (operator term)* |
| term | constant, name, name `[` expression `]`, call, `(` expression `)`, unary operator and term |
| call | (name `.`)? name `(` (expression (`,` expression)*)? `)` |
-/

namespace JackVm

/-- A part of the grammar that is still to be read. -/
inductive Goal where
  /-- A whole class. -/
  | classDec
  /-- The name of the class. -/
  | className
  /-- One symbol. -/
  | symbol (c : Char)
  /-- What may follow in a class; no variables after the first subroutine. -/
  | members (afterSubroutine : Bool)
  /-- The type of a variable declaration. -/
  | varType (storage : Storage)
  /-- The name of a declared variable. -/
  | varName (storage : Storage) (type : String)
  /-- More names of a declaration, or its end. -/
  | moreNames (storage : Storage) (type : String)
  /-- A subroutine's result type. -/
  | resultType (kind : SubroutineKind)
  | subroutineName
  /-- A whole parameter list with its closing parenthesis. -/
  | parameters
  /-- The type of a further parameter. -/
  | parameterType
  /-- Further parameters, or the end of the list. -/
  | moreParameters
  /-- Local declarations, then statements. -/
  | body
  /-- The statements of a block. -/
  | statements
  /-- Statements after a statement. -/
  | moreStatements
  /-- The variable of a `let`. -/
  | letTarget
  /-- The rest of a `let` after its variable. -/
  | letRest (name : String)
  /-- The `else` of an `if`, if there is one. -/
  | elsePart
  /-- A call that is a statement. -/
  | callStatement
  /-- The rest of a `return`. -/
  | returnRest
  /-- The end of a `return` with a value. -/
  | returnEnd
  | expression
  /-- Further operators and terms of an expression. -/
  | operators
  | term
  /-- What follows a name that begins a term. -/
  | nameRest (name : String)
  /-- What follows a name that begins a call. -/
  | callRest (name : String)
  /-- The name after the dot of a call. -/
  | calleeName (receiver : String)
  /-- The arguments of a call with the closing parenthesis. -/
  | arguments (callee : Callee)
  /-- Further arguments, after `count` of them. -/
  | moreArguments (callee : Callee) (count : UInt32)
deriving DecidableEq, Repr

/-- An entry of the stack: something to read, or an event to raise. -/
inductive Item where
  | need (goal : Goal)
  | raise (event : Event)
deriving DecidableEq, Repr

/-- How a symbol is named in messages. -/
def quoteSymbol (c : Char) : String := "symbol('" ++ c.toString ++ "')"

/-- What a goal waits for. -/
def Goal.expectation : Goal → String
  | .classDec => "keyword('class')"
  | .className => "identifier for className"
  | .symbol c => quoteSymbol c
  | .members _ => quoteSymbol '}' ++ ", or keyword for classVarDec or subroutineDec"
  | .varType _ => "type"
  | .varName _ _ | .letTarget => "identifier for varName"
  | .moreNames _ _ => quoteSymbol ';' ++ " or " ++ quoteSymbol ','
  | .resultType _ => "'void' or type"
  | .subroutineName | .calleeName _ => "identifier for subroutineName"
  | .parameters => "type for parameter or " ++ quoteSymbol ')'
  | .parameterType => "type for parameter"
  | .moreParameters | .moreArguments _ _ => quoteSymbol ',' ++ " or " ++ quoteSymbol ')'
  | .body => "'var' or keyword for statement, or " ++ quoteSymbol '}'
  | .statements => "keyword for statement, or " ++ quoteSymbol '}'
  | .moreStatements => "symbol for closing statements or keyword for statement"
  | .letRest _ => quoteSymbol '[' ++ " or " ++ quoteSymbol '='
  | .elsePart => "keyword('else') or the next statement"
  | .callStatement => "identifier for className or varName, or subroutineName"
  | .returnRest => "expression or " ++ quoteSymbol ';'
  | .returnEnd => quoteSymbol ';'
  | .expression => "expression"
  | .operators => "symbol for op or symbol for closing expression"
  | .term => "term"
  | .nameRest _ => "symbol for closing term or " ++ quoteSymbol '[' ++ ", or symbol('(' or '.')"
  | .callRest _ => quoteSymbol '.' ++ " or " ++ quoteSymbol '('
  | .arguments _ => "expressionList or " ++ quoteSymbol ')'

/-- What is said when the tokens end at a goal. -/
def Goal.starvation : Goal → String
  | .classDec => "The token does not exist. Is it jack file?"
  | g => "Next token does not exist. Compiler expects " ++ g.expectation ++ "."

/-- What is said when a goal cannot use the next token. Goals that may match
nothing leave such a token to the goal below, and lists to the symbol that closes
them, so they never say it. -/
def Goal.complaint : Goal → String
  | .classDec => "The first syntax must be class."
  | .members _ => "Expected " ++ quoteSymbol '}' ++ " or keyword(classVarDec or subroutineDec)"
  | .varType _ | .resultType _ | .parameterType => "Expected type(primitive type or className)"
  | .callStatement => "Expected identifier for className, varName or subroutineName"
  | .returnEnd => "Expected expression or " ++ quoteSymbol ';'
  | .expression => "Expected expression."
  | .term => "Expected term."
  | g => "Expected " ++ g.expectation

/-- Why a lexeme fits nowhere. -/
inductive Refusal where
  /-- The goal cannot use it. -/
  | unexpected (goal : Goal)
  /-- Class variables after a subroutine. -/
  | lateVariables
  /-- Something after the class. -/
  | afterClass
deriving DecidableEq, Repr

def Refusal.message : Refusal → String
  | .unexpected goal => goal.complaint
  | .lateVariables => "classVarDec must precede subroutineDec."
  | .afterClass => "Only one class must exist in one file."

end JackVm
