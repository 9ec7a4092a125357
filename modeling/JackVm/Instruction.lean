import JackVm.VariableTable

/-!
# Stack machine instructions

The instruction set of the target machine and its textual form, one
instruction a line.
-/

namespace JackVm

/-- The memory segments of the machine. -/
inductive Segment where
  | constant
  | argument
  | locals
  | static
  | this
  | that
  | pointer
  | temp
deriving DecidableEq, Repr

def Segment.name : Segment → String
  | .constant => "constant"
  | .argument => "argument"
  | .locals => "local"
  | .static => "static"
  | .this => "this"
  | .that => "that"
  | .pointer => "pointer"
  | .temp => "temp"

/-- The segment that holds the variables of a storage class. -/
def Storage.segment : Storage → Segment
  | .static => .static
  | .field => .this
  | .argument => .argument
  | .var => .locals

/-- The commands on the top of the stack. -/
inductive Command where
  | add
  | sub
  | neg
  | eq
  | gt
  | lt
  | and
  | or
  | not
deriving DecidableEq, Repr

def Command.name : Command → String
  | .add => "add"
  | .sub => "sub"
  | .neg => "neg"
  | .eq => "eq"
  | .gt => "gt"
  | .lt => "lt"
  | .and => "and"
  | .or => "or"
  | .not => "not"

inductive Instruction where
  | push (segment : Segment) (index : UInt32)
  | pop (segment : Segment) (index : UInt32)
  | command (c : Command)
  | label (name : String)
  | goto (name : String)
  | ifGoto (name : String)
  | call (name : String) (arguments : UInt32)
  | function (name : String) (locals : UInt32)
  | ret
deriving DecidableEq, Repr

/-- The line of an instruction, without its end. -/
def Instruction.render : Instruction → String
  | .push segment index => "push " ++ segment.name ++ " " ++ index.toNat.repr
  | .pop segment index => "pop " ++ segment.name ++ " " ++ index.toNat.repr
  | .command c => c.name
  | .label name => "label " ++ name
  | .goto name => "goto " ++ name
  | .ifGoto name => "if-goto " ++ name
  | .call name arguments => "call " ++ name ++ " " ++ arguments.toNat.repr
  | .function name locals => "function " ++ name ++ " " ++ locals.toNat.repr
  | .ret => "return"

/-- The text written for an instruction. -/
def Instruction.line (i : Instruction) : String := i.render ++ "\n"

/-- The text of a program. -/
def programText (code : List Instruction) : String :=
  code.foldl (fun text i => text ++ i.line) ""

end JackVm
