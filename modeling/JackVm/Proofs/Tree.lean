import JackVm.Grammar.Goal
import JackVm.Token.Scanner

/-!
# Classes as trees

The tree of a class has one constructor for each production of the grammar, and
is printed as the lexemes of the class. Names and numerals carry the proof that
the scanner would read them as such, so a name is never a reserved word.

The compiler itself builds no tree. Trees are what its input and its output are
compared with.
-/

namespace JackVm.Tree

/-- The lexeme of a reserved word. -/
def word (text : String) : Lexeme := ⟨.keyword, text⟩

/-- The lexeme of a symbol. -/
def mark (c : Char) : Lexeme := ⟨.symbol, c.toString⟩

/-! ## Leaves -/

/-- A name: an identifier that is no reserved word. -/
structure Identifier where
  text : String
  spelled : isIdentifier text.toList = true
  unreserved : text ∉ keywords
deriving DecidableEq

/-- An integer constant as written, in the range of the machine. -/
structure Numeral where
  text : String
  digits : Text.isDigits text.toList = true
  inRange : Text.digitsValue text.toList ≤ maxInteger
deriving DecidableEq

def Identifier.lexeme (x : Identifier) : Lexeme := ⟨.identifier, x.text⟩

def Numeral.value (n : Numeral) : Nat := Text.digitsValue n.text.toList

/-- The type of a variable or of a result. -/
inductive VarType where
  | int
  | char
  | boolean
  | object (className : Identifier)
deriving DecidableEq

def VarType.text : VarType → String
  | .int => "int"
  | .char => "char"
  | .boolean => "boolean"
  | .object c => c.text

def VarType.lexeme : VarType → Lexeme
  | .object c => c.lexeme
  | t => word t.text

/-- What a call names: `name(…)` or `receiver.name(…)`. -/
inductive CallName where
  | bare (name : Identifier)
  | dotted (receiver name : Identifier)
deriving DecidableEq

def CallName.print : CallName → List Lexeme
  | .bare f => [f.lexeme]
  | .dotted r f => [r.lexeme, mark '.', f.lexeme]

/-- The symbol of an operator between two terms. -/
def binaryMark : BinaryOp → Char
  | .add => '+'
  | .sub => '-'
  | .mul => '*'
  | .div => '/'
  | .and => '&'
  | .or => '|'
  | .lt => '<'
  | .gt => '>'
  | .eq => '='

/-- The symbol of an operator in front of a term. -/
def unaryMark : UnaryOp → Char
  | .neg => '-'
  | .not => '~'

/-- The reserved word of a constant. -/
def constantWord : KeywordConstant → String
  | .truth => "true"
  | .falsity => "false"
  | .null => "null"
  | .self => "this"

/-! ## Expressions -/

mutual
inductive Term where
  | integer (n : Numeral)
  | string (text : String)
  | constant (c : KeywordConstant)
  | var (x : Identifier)
  | element (x : Identifier) (index : Expression)
  | call (f : CallName) (args : ArgumentList)
  | group (e : Expression)
  | unary (op : UnaryOp) (t : Term)
/-- A term, then operators and terms. -/
inductive Expression where
  | mk (first : Term) (rest : Operations)
inductive Operations where
  | nil
  | cons (op : BinaryOp) (t : Term) (rest : Operations)
inductive ArgumentList where
  | nil
  | cons (e : Expression) (rest : ArgumentList)
end

def ArgumentList.length : ArgumentList → Nat
  | .nil => 0
  | .cons _ rest => rest.length + 1

mutual
def Term.print : Term → List Lexeme
  | .integer n => [⟨.integerConstant, n.text⟩]
  | .string text => [⟨.stringConstant, text⟩]
  | .constant c => [word (constantWord c)]
  | .var x => [x.lexeme]
  | .element x i => [x.lexeme, mark '['] ++ i.print ++ [mark ']']
  | .call f args => f.print ++ [mark '('] ++ args.print ++ [mark ')']
  | .group e => [mark '('] ++ e.print ++ [mark ')']
  | .unary op t => [mark (unaryMark op)] ++ t.print
def Expression.print : Expression → List Lexeme
  | .mk first rest => first.print ++ rest.print
def Operations.print : Operations → List Lexeme
  | .nil => []
  | .cons op t rest => [mark (binaryMark op)] ++ t.print ++ rest.print
def ArgumentList.print : ArgumentList → List Lexeme
  | .nil => []
  | .cons e rest => e.print ++ rest.printMore
/-- Arguments after an argument. -/
def ArgumentList.printMore : ArgumentList → List Lexeme
  | .nil => []
  | .cons e rest => [mark ','] ++ e.print ++ rest.printMore
end

/-- A call with its arguments. -/
def printCall (f : CallName) (args : ArgumentList) : List Lexeme :=
  f.print ++ [mark '('] ++ args.print ++ [mark ')']

/-! ## Statements -/

mutual
inductive Statement where
  | letVar (x : Identifier) (e : Expression)
  | letElement (x : Identifier) (index e : Expression)
  | ifThen (cond : Expression) (block : StatementList)
  | ifElse (cond : Expression) (block other : StatementList)
  | whileDo (cond : Expression) (block : StatementList)
  | doCall (f : CallName) (args : ArgumentList)
  | returnNothing
  | returnValue (e : Expression)
inductive StatementList where
  | nil
  | cons (s : Statement) (rest : StatementList)
end

/-- An expression in parentheses. -/
def printCondition (e : Expression) : List Lexeme := [mark '('] ++ e.print ++ [mark ')']

mutual
def Statement.print : Statement → List Lexeme
  | .letVar x e => [word "let", x.lexeme, mark '='] ++ e.print ++ [mark ';']
  | .letElement x i e =>
      [word "let", x.lexeme, mark '['] ++ i.print ++ [mark ']', mark '='] ++ e.print ++ [mark ';']
  | .ifThen c b =>
      [word "if"] ++ printCondition c ++ [mark '{'] ++ b.print ++ [mark '}']
  | .ifElse c b b' =>
      [word "if"] ++ printCondition c ++ [mark '{'] ++ b.print ++ [mark '}']
        ++ [word "else", mark '{'] ++ b'.print ++ [mark '}']
  | .whileDo c b =>
      [word "while"] ++ printCondition c ++ [mark '{'] ++ b.print ++ [mark '}']
  | .doCall f args => [word "do"] ++ printCall f args ++ [mark ';']
  | .returnNothing => [word "return", mark ';']
  | .returnValue e => [word "return"] ++ e.print ++ [mark ';']
def StatementList.print : StatementList → List Lexeme
  | .nil => []
  | .cons s rest => s.print ++ rest.print
end

/-! ## Declarations and classes -/

/-- Variables of one type. -/
structure VarDec where
  type : VarType
  first : Identifier
  more : List Identifier

def VarDec.names (d : VarDec) : List Identifier := d.first :: d.more

/-- The declaration after its first word. -/
def VarDec.print (d : VarDec) : List Lexeme :=
  [d.type.lexeme, d.first.lexeme] ++ d.more.flatMap (fun x => [mark ',', x.lexeme]) ++ [mark ';']

inductive ClassVarDec where
  | static (d : VarDec)
  | field (d : VarDec)

def ClassVarDec.storage : ClassVarDec → Storage
  | .static _ => .static
  | .field _ => .field

def ClassVarDec.dec : ClassVarDec → VarDec
  | .static d | .field d => d

def ClassVarDec.print (v : ClassVarDec) : List Lexeme := word v.storage.name :: v.dec.print

structure Parameter where
  type : VarType
  name : Identifier

def Parameter.print (p : Parameter) : List Lexeme := [p.type.lexeme, p.name.lexeme]

/-- Parameters without the parentheses. -/
def printParameters : List Parameter → List Lexeme
  | [] => []
  | p :: ps => p.print ++ ps.flatMap (fun q => mark ',' :: q.print)

def kindWord : SubroutineKind → String
  | .constructor => "constructor"
  | .function => "function"
  | .method => "method"

structure Subroutine where
  kind : SubroutineKind
  /-- The type of the result; none for `void`. -/
  result : Option VarType
  name : Identifier
  parameters : List Parameter
  locals : List VarDec
  body : StatementList

def printResult : Option VarType → Lexeme
  | none => word "void"
  | some t => t.lexeme

def Subroutine.print (s : Subroutine) : List Lexeme :=
  [word (kindWord s.kind), printResult s.result, s.name.lexeme, mark '(']
    ++ printParameters s.parameters ++ [mark ')', mark '{']
    ++ s.locals.flatMap (fun d => word "var" :: d.print) ++ s.body.print ++ [mark '}']

structure Class where
  name : Identifier
  classVars : List ClassVarDec
  subroutines : List Subroutine

def Class.print (c : Class) : List Lexeme :=
  [word "class", c.name.lexeme, mark '{'] ++ c.classVars.flatMap ClassVarDec.print
    ++ c.subroutines.flatMap Subroutine.print ++ [mark '}']

end JackVm.Tree
