import JackVm.Instruction

/-!
# Events

While a class is read, the grammar tells the code generator what it has found.
An event names one such finding: it is raised as soon as the tokens that decide
it were read, and it carries only what those tokens spell. What a name stands
for, and which code an event stands for, is not the grammar's business.
-/

namespace JackVm

inductive SubroutineKind where
  | constructor
  | function
  | method
deriving DecidableEq, Repr

/-- The kind of subroutine that a word stands for. -/
def SubroutineKind.ofKeyword? : String → Option SubroutineKind
  | "constructor" => some .constructor
  | "function" => some .function
  | "method" => some .method
  | _ => none

/-- The operators between two terms. -/
inductive BinaryOp where
  | add
  | sub
  | mul
  | div
  | and
  | or
  | lt
  | gt
  | eq
deriving DecidableEq, Repr

/-- The operator a symbol stands for between two terms. -/
def BinaryOp.ofMark? : Char → Option BinaryOp
  | '+' => some .add
  | '-' => some .sub
  | '*' => some .mul
  | '/' => some .div
  | '&' => some .and
  | '|' => some .or
  | '<' => some .lt
  | '>' => some .gt
  | '=' => some .eq
  | _ => none

/-- The operators in front of a term. -/
inductive UnaryOp where
  | neg
  | not
deriving DecidableEq, Repr

/-- The constants that are reserved words. -/
inductive KeywordConstant where
  | truth
  | falsity
  | null
  | self
deriving DecidableEq, Repr

def KeywordConstant.ofKeyword? : String → Option KeywordConstant
  | "true" => some .truth
  | "false" => some .falsity
  | "null" => some .null
  | "this" => some .self
  | _ => none

/-- What is called, as written: `name(…)` or `receiver.name(…)`. -/
inductive Callee where
  | bare (name : String)
  | dotted (receiver name : String)
deriving DecidableEq, Repr

/-- What the grammar has found. -/
inductive Event where
  /-- The name of the class. -/
  | className (name : String)
  /-- A declared variable. -/
  | declare (storage : Storage) (type name : String)
  /-- A subroutine's kind and result type; no type for `void`. -/
  | result (kind : SubroutineKind) (type : Option String)
  /-- A subroutine's name. -/
  | subroutine (name : String)
  /-- The start of a parameter list. -/
  | enter
  /-- The end of a subroutine's local declarations. -/
  | prologue
  /-- The variable that an assignment will change. -/
  | target (name : String)
  /-- The value of a variable is wanted. -/
  | load (name : String)
  /-- The value on the stack is for a variable. -/
  | store (name : String)
  /-- An index of the array element to change. -/
  | address
  /-- An index of the array element to read. -/
  | fetch
  /-- The value on the stack is for the array element addressed below it. -/
  | storeElement
  /-- The word `if`, the end of its condition, of its first block, and of all. -/
  | ifBegin
  | ifTest
  | ifElse
  | ifEnd
  /-- The word `while`, the end of its condition, and of its block. -/
  | whileBegin
  | whileTest
  | whileEnd
  /-- The end of a call whose value is not wanted. -/
  | discard
  /-- A return without a value. -/
  | returnNothing
  /-- A return whose value begins here. -/
  | returnValue
  /-- The end of a return with a value. -/
  | ret
  | integer (text : String)
  | string (text : String)
  | constant (c : KeywordConstant)
  /-- The end of the operand of an operator. -/
  | unary (op : UnaryOp)
  | binary (op : BinaryOp)
  /-- A callee's full name. -/
  | resolve (callee : Callee)
  /-- The start of a callee's arguments. -/
  | receive (callee : Callee)
  /-- The end of a callee's arguments, and their number. -/
  | call (callee : Callee) (arguments : UInt32)
deriving DecidableEq, Repr

end JackVm
