import JackVm.Grammar.Event
import JackVm.Text.Decimal

/-!
# What events stand for

The scope is what is known at a point of a class: the declared variables, the
class and the subroutine being compiled, and the labels in use. Performing an
event checks it against the scope, and gives the code it stands for and the
scope after it.

No event both changes the variables and stands for code, and the events of
statements and expressions change nothing but the labels.
-/

namespace JackVm

/-- The classes of the runtime that compiled code calls. -/
structure Runtime where
  memory : String := "Memory"
  math : String := "Math"
  string : String := "String"
deriving DecidableEq, Repr

namespace Runtime

def alloc (r : Runtime) : String := r.memory ++ ".alloc"

def multiply (r : Runtime) : String := r.math ++ ".multiply"

def divide (r : Runtime) : String := r.math ++ ".divide"

def newString (r : Runtime) : String := r.string ++ ".new"

def appendChar (r : Runtime) : String := r.string ++ ".appendChar"

end Runtime

/-- The class that is to be compiled and the runtime it will use. -/
structure Target where
  className : String
  runtime : Runtime := {}
deriving DecidableEq, Repr

/-- A rule of the language that a grammatical class breaks. -/
inductive StaticError where
  | wrongClass (found expected : String)
  | redeclared (e : TableError)
  | undefined (name : String)
  | fieldInFunction (name : String)
  | selfInFunction
  | callInFunction (name : String)
  | constructorResult (className : String)
  | primitiveReceiver (name type : String)
  | valueFromVoid
  | missingValue
  | invalidInteger
deriving DecidableEq, Repr

/-- What is said of something that needs a current object. -/
def needsObject (what : String) : String := what ++ " cannot be used in a function."

def StaticError.message : StaticError → String
  | .wrongClass found expected =>
      "Class name " ++ found ++ " does not match file name " ++ expected ++ "."
  | .redeclared e => e.message
  | .undefined name => name ++ " is not defined."
  | .fieldInFunction name => needsObject ("Field " ++ name)
  | .selfInFunction => needsObject "this"
  | .callInFunction name => needsObject ("Method call " ++ name ++ "()")
  | .constructorResult className => "Constructor return type must be " ++ className ++ "."
  | .primitiveReceiver name type =>
      name ++ " has primitive type " ++ type ++ " and has no methods."
  | .valueFromVoid => "A void subroutine cannot return a value."
  | .missingValue => "A non-void subroutine must return a value."
  | .invalidInteger => "Invalid integer constant."

/-- The types whose values are not objects. -/
def isPrimitive (type : String) : Bool := type = "int" || type = "char" || type = "boolean"

/-- What is known at a point of a class. -/
structure Scope where
  table : VariableTable := {}
  className : String := ""
  subroutine : String := ""
  kind : SubroutineKind := .function
  returnsVoid : Bool := false
  /-- The number of labels drawn in the subroutine. -/
  labels : UInt32 := 0
  /-- The first label of each construct being compiled, innermost first. -/
  opened : List UInt32 := []
deriving DecidableEq, Repr

/-- What a call calls, and the object it passes on, if any. -/
structure Resolved where
  name : String
  receiver : Option (Segment × UInt32)
deriving DecidableEq, Repr

namespace Scope

/-- A name qualified by the current class. -/
def qualify (s : Scope) (name : String) : String := s.className ++ "." ++ name

/-- The label with a tag and number, qualified by class and subroutine. -/
def label (s : Scope) (tag : String) (n : UInt32) : String :=
  s.qualify s.subroutine ++ "$" ++ tag ++ n.toNat.repr

/-- Draws the two labels of a construct. -/
def openConstruct (s : Scope) : Scope :=
  { s with labels := s.labels + 2, opened := s.labels :: s.opened }

/-- The first label of the innermost construct. -/
def innermost (s : Scope) : UInt32 := s.opened.headD 0

def closeConstruct (s : Scope) : Scope := { s with opened := s.opened.tail }

/-- Whether there is a current object. -/
def hasObject (s : Scope) : Bool := s.kind ≠ .function

/-- The variable a name stands for. Fields belong to the current object. -/
def lookup (s : Scope) (name : String) : Except StaticError Variable :=
  match s.table.get? name with
  | none => .error (.undefined name)
  | some v =>
      if v.storage = .field ∧ ¬s.hasObject then .error (.fieldInFunction name) else .ok v

/-- What a callee stands for: a bare name is a method of the current object, a
receiver that is a variable is the object whose method is called, and any other
receiver is a class. -/
def resolve (s : Scope) : Callee → Except StaticError Resolved
  | .bare name =>
      if s.hasObject then .ok ⟨s.qualify name, some (.pointer, 0)⟩
      else .error (.callInFunction name)
  | .dotted receiver name =>
      match s.table.get? receiver with
      | none => .ok ⟨receiver ++ "." ++ name, none⟩
      | some v =>
          if isPrimitive v.type then .error (.primitiveReceiver receiver v.type)
          else if v.storage = .field ∧ ¬s.hasObject then .error (.fieldInFunction receiver)
          else .ok ⟨v.type ++ "." ++ name, some (v.storage.segment, v.index)⟩

/-- The start of a subroutine: its variables are new, and a method has the
current object as its first argument. -/
def enter (s : Scope) : Scope :=
  let table := s.table.dropLocals
  { s with
    table := if s.kind = .method then table.add "this" s.className .argument else table
    labels := 0
    opened := [] }

/-- The code before a subroutine's statements: its header, then the binding of
the current object. -/
def prologue (s : Scope) (r : Runtime) : List Instruction :=
  .function (s.qualify s.subroutine) s.table.vars ::
    match s.kind with
    | .constructor => [.push .constant s.table.fields, .call r.alloc 1, .pop .pointer 0]
    | .method => [.push .argument 0, .pop .pointer 0]
    | .function => []

end Scope

/-- The code of a string constant: a new string, then its characters. -/
def stringCode (r : Runtime) (text : String) : List Instruction :=
  [.push .constant (UInt32.ofNat text.length), .call r.newString 1] ++
    text.toList.flatMap fun c => [.push .constant c.val, .call r.appendChar 2]

def BinaryOp.code (r : Runtime) : BinaryOp → Instruction
  | .add => .command .add
  | .sub => .command .sub
  | .mul => .call r.multiply 2
  | .div => .call r.divide 2
  | .and => .command .and
  | .or => .command .or
  | .lt => .command .lt
  | .gt => .command .gt
  | .eq => .command .eq

def UnaryOp.code : UnaryOp → Instruction
  | .neg => .command .neg
  | .not => .command .not

/-- The code an event stands for, and the scope after it. -/
def Scope.perform (s : Scope) (t : Target) : Event → Except StaticError (Scope × List Instruction)
  | .className name =>
      if name = t.className then .ok ({ s with className := name }, [])
      else .error (.wrongClass name t.className)
  | .declare storage type name =>
      match s.table.declare name type storage with
      | .ok table => .ok ({ s with table := table }, [])
      | .error e => .error (.redeclared e)
  | .result kind type =>
      if kind = .constructor ∧ type ≠ some s.className then
        .error (.constructorResult s.className)
      else .ok ({ s with kind := kind, returnsVoid := type.isNone }, [])
  | .subroutine name => .ok ({ s with subroutine := name }, [])
  | .enter => .ok (s.enter, [])
  | .prologue => .ok (s, s.prologue t.runtime)
  | .target name => (s.lookup name).map fun _ => (s, [])
  | .load name => (s.lookup name).map fun v => (s, [.push v.storage.segment v.index])
  | .store name => (s.lookup name).map fun v => (s, [.pop v.storage.segment v.index])
  | .address => .ok (s, [.command .add])
  | .fetch => .ok (s, [.command .add, .pop .pointer 1, .push .that 0])
  | .storeElement => .ok (s, [.pop .temp 0, .pop .pointer 1, .push .temp 0, .pop .that 0])
  | .ifBegin => .ok (s.openConstruct, [])
  | .ifTest => .ok (s, [.command .not, .ifGoto (s.label "IF_FALSE" s.innermost)])
  | .ifElse => .ok (s, [.goto (s.label "IF_END" (s.innermost + 1)),
      .label (s.label "IF_FALSE" s.innermost)])
  | .ifEnd => .ok (s.closeConstruct, [.label (s.label "IF_END" (s.innermost + 1))])
  | .whileBegin => .ok (s.openConstruct, [.label (s.label "WHILE_EXP" s.labels)])
  | .whileTest => .ok (s, [.command .not, .ifGoto (s.label "WHILE_END" (s.innermost + 1))])
  | .whileEnd => .ok (s.closeConstruct, [.goto (s.label "WHILE_EXP" s.innermost),
      .label (s.label "WHILE_END" (s.innermost + 1))])
  | .discard => .ok (s, [.pop .temp 0])
  | .returnNothing =>
      if s.returnsVoid then .ok (s, [.push .constant 0, .ret]) else .error .missingValue
  | .returnValue => if s.returnsVoid then .error .valueFromVoid else .ok (s, [])
  | .ret => .ok (s, [.ret])
  | .integer text =>
      match Text.readWord? text with
      | some n => .ok (s, [.push .constant n])
      | none => .error .invalidInteger
  | .string text => .ok (s, stringCode t.runtime text)
  | .constant .truth => .ok (s, [.push .constant 0, .command .not])
  | .constant .falsity | .constant .null => .ok (s, [.push .constant 0])
  | .constant .self =>
      if s.hasObject then .ok (s, [.push .pointer 0]) else .error .selfInFunction
  | .unary op => .ok (s, [op.code])
  | .binary op => .ok (s, [op.code t.runtime])
  | .resolve callee => (s.resolve callee).map fun _ => (s, [])
  | .receive callee => (s.resolve callee).map fun r =>
      (s, match r.receiver with
        | some (segment, index) => [.push segment index]
        | none => [])
  | .call callee n => (s.resolve callee).map fun r =>
      (s, [.call r.name (if r.receiver.isSome then n + 1 else n)])

end JackVm
