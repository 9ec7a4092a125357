import JackVm.Proofs.Rules
import JackVm.Code.Scope

/-!
# The reference translation

The code of a class, by recursion on its tree. A piece of code depends on the
names around it, and a statement also on the number of labels drawn before it in
its subroutine.

The names of labels are a parameter of the translation of statements. They are
fixed by the class and the subroutine only where a subroutine is put together.
-/

namespace JackVm.Tree

/-! ## Variables and calls -/

/-- The segment that holds the variables of a storage class. -/
def home : Storage → Segment
  | .static => .static
  | .field => .this
  | .argument => .argument
  | .var => .locals

namespace Env

/-- The value of a variable. -/
def load (env : Env) (x : String) : List Instruction :=
  match env.find? x with
  | some v => [.push (home v.storage) (UInt32.ofNat v.index)]
  | none => []

/-- The value on the stack, into a variable. -/
def store (env : Env) (x : String) : List Instruction :=
  match env.find? x with
  | some v => [.pop (home v.storage) (UInt32.ofNat v.index)]
  | none => []

/-- The object that a call passes on before its arguments. -/
def receiver (env : Env) : CallName → List Instruction
  | .bare _ => [.push .pointer 0]
  | .dotted r _ => env.load r.text

/-- How many words a call passes on besides its arguments. -/
def receivers (env : Env) : CallName → Nat
  | .bare _ => 1
  | .dotted r _ => if (env.find? r.text).isSome then 1 else 0

/-- The full name of what is called: of this class, of the class of a variable, or
of a class. -/
def callee (env : Env) : CallName → String
  | .bare f => env.className ++ "." ++ f.text
  | .dotted r f =>
      match env.find? r.text with
      | some v => v.type.text ++ "." ++ f.text
      | none => r.text ++ "." ++ f.text

end Env

/-! ## Expressions -/

def constantCode : KeywordConstant → List Instruction
  | .truth => [.push .constant 0, .command .not]
  | .falsity | .null => [.push .constant 0]
  | .self => [.push .pointer 0]

def unaryCommand : UnaryOp → Instruction
  | .neg => .command .neg
  | .not => .command .not

/-- There is no command for products and quotients: the runtime computes them. -/
def binaryCommand (r : Runtime) : BinaryOp → Instruction
  | .add => .command .add
  | .sub => .command .sub
  | .mul => .call (r.math ++ ".multiply") 2
  | .div => .call (r.math ++ ".divide") 2
  | .and => .command .and
  | .or => .command .or
  | .lt => .command .lt
  | .gt => .command .gt
  | .eq => .command .eq

/-- Makes a string of the length of the text, and appends one character after the other. -/
def textCode (r : Runtime) (text : String) : List Instruction :=
  [.push .constant (UInt32.ofNat text.length), .call (r.string ++ ".new") 1] ++
    text.toList.flatMap fun c =>
      [.push .constant (UInt32.ofNat c.toNat), .call (r.string ++ ".appendChar") 2]

section
variable (env : Env) (r : Runtime)

mutual
def Term.code : Term → List Instruction
  | .integer n => [.push .constant (UInt32.ofNat n.value)]
  | .string text => textCode r text
  | .constant c => constantCode c
  | .var x => env.load x.text
  | .element x i => env.load x.text ++ i.code ++ [.command .add, .pop .pointer 1, .push .that 0]
  | .call f args => env.receiver f ++ args.code
      ++ [.call (env.callee f) (UInt32.ofNat (env.receivers f + args.length))]
  | .group e => e.code
  | .unary op t => t.code ++ [unaryCommand op]
def Expression.code : Expression → List Instruction
  | .mk first rest => first.code ++ rest.code
/-- The code after that of the first operand. -/
def Operations.code : Operations → List Instruction
  | .nil => []
  | .cons op t rest => t.code ++ [binaryCommand r op] ++ rest.code
def ArgumentList.code : ArgumentList → List Instruction
  | .nil => []
  | .cons e rest => e.code ++ rest.code
end

end

/-! ## Statements -/

/-- What a label marks. -/
inductive Tag where
  | ifFalse
  | ifEnd
  | whileExp
  | whileEnd
deriving DecidableEq

def Tag.text : Tag → String
  | .ifFalse => "IF_FALSE"
  | .ifEnd => "IF_END"
  | .whileExp => "WHILE_EXP"
  | .whileEnd => "WHILE_END"

/-- A label of a subroutine. -/
def Env.label (env : Env) (tag : Tag) (n : Nat) : String :=
  env.className ++ "." ++ env.subroutine ++ "$" ++ tag.text ++ n.repr

mutual
/-- How many labels are drawn for a statement: two for each branch or loop. -/
def Statement.labels : Statement → Nat
  | .ifThen _ b | .whileDo _ b => 2 + b.labels
  | .ifElse _ b b' => 2 + b.labels + b'.labels
  | .letVar .. | .letElement .. | .doCall .. | .returnNothing | .returnValue _ => 0
def StatementList.labels : StatementList → Nat
  | .nil => 0
  | .cons s rest => s.labels + rest.labels
end

section
variable (env : Env) (r : Runtime) (label : Tag → Nat → String)

mutual
/-- The code of a statement when `k` labels are drawn before it. -/
def Statement.code : Statement → Nat → List Instruction
  | .letVar x e, _ => e.code env r ++ env.store x.text
  | .letElement x i e, _ =>
      env.load x.text ++ i.code env r ++ [.command .add] ++ e.code env r
        ++ [.pop .temp 0, .pop .pointer 1, .push .temp 0, .pop .that 0]
  | .ifThen c b, k =>
      c.code env r ++ [.command .not, .ifGoto (label .ifFalse k)] ++ b.code (k + 2)
        ++ [.goto (label .ifEnd (k + 1)), .label (label .ifFalse k),
          .label (label .ifEnd (k + 1))]
  | .ifElse c b b', k =>
      c.code env r ++ [.command .not, .ifGoto (label .ifFalse k)] ++ b.code (k + 2)
        ++ [.goto (label .ifEnd (k + 1)), .label (label .ifFalse k)]
        ++ b'.code (k + 2 + b.labels) ++ [.label (label .ifEnd (k + 1))]
  | .whileDo c b, k =>
      [.label (label .whileExp k)] ++ c.code env r
        ++ [.command .not, .ifGoto (label .whileEnd (k + 1))] ++ b.code (k + 2)
        ++ [.goto (label .whileExp k), .label (label .whileEnd (k + 1))]
  | .doCall f args, _ => (Term.call f args).code env r ++ [.pop .temp 0]
  | .returnNothing, _ => [.push .constant 0, .ret]
  | .returnValue e, _ => e.code env r ++ [.ret]
def StatementList.code : StatementList → Nat → List Instruction
  | .nil, _ => []
  | .cons s rest, k => s.code k ++ rest.code (k + s.labels)
end

end

/-! ## Subroutines and classes -/

/-- The header of a subroutine, and the binding of the current object. -/
def Env.header (env : Env) (r : Runtime) : List Instruction :=
  .function (env.className ++ "." ++ env.subroutine)
      (UInt32.ofNat (countOf .var env.ofSubroutine)) ::
    match env.kind with
    | .constructor =>
        [.push .constant (UInt32.ofNat (countOf .field env.ofClass)),
          .call (r.memory ++ ".alloc") 1, .pop .pointer 0]
    | .method => [.push .argument 0, .pop .pointer 0]
    | .function => []

/-- The code of a subroutine of the class `c`. -/
def Subroutine.code (r : Runtime) (c : Class) (s : Subroutine) : List Instruction :=
  (c.env s).header r ++ s.body.code (c.env s) r (c.env s).label 0

def Class.code (r : Runtime) (c : Class) : List Instruction :=
  c.subroutines.flatMap (Subroutine.code r c)

/-! ## Labels -/

section
variable {env : Env} {r : Runtime} {label label' : Tag → Nat → String}

mutual
/-- The code of a statement depends only on the names of the labels it draws. -/
theorem Statement.code_congr : ∀ (s : Statement) {k : Nat},
    (∀ tag n, n < k + s.labels → label tag n = label' tag n) →
      s.code env r label k = s.code env r label' k
  | .letVar .., _, _ | .letElement .., _, _ | .doCall .., _, _ | .returnNothing, _, _
  | .returnValue _, _, _ => by simp only [Statement.code]
  | .ifThen c b, k, h => by
      simp only [Statement.labels] at h
      have hb := StatementList.code_congr b (k := k + 2) fun tag n hn => h tag n (by omega)
      have hfalse := h .ifFalse k (by omega)
      have hend := h .ifEnd (k + 1) (by omega)
      simp only [Statement.code, hb, hfalse, hend]
  | .ifElse c b b', k, h => by
      simp only [Statement.labels] at h
      have hb := StatementList.code_congr b (k := k + 2) fun tag n hn => h tag n (by omega)
      have hb' := StatementList.code_congr b' (k := k + 2 + b.labels)
        fun tag n hn => h tag n (by omega)
      have hfalse := h .ifFalse k (by omega)
      have hend := h .ifEnd (k + 1) (by omega)
      simp only [Statement.code, hb, hb', hfalse, hend]
  | .whileDo c b, k, h => by
      simp only [Statement.labels] at h
      have hb := StatementList.code_congr b (k := k + 2) fun tag n hn => h tag n (by omega)
      have hexp := h .whileExp k (by omega)
      have hend := h .whileEnd (k + 1) (by omega)
      simp only [Statement.code, hb, hexp, hend]
theorem StatementList.code_congr : ∀ (ss : StatementList) {k : Nat},
    (∀ tag n, n < k + ss.labels → label tag n = label' tag n) →
      ss.code env r label k = ss.code env r label' k
  | .nil, _, _ => rfl
  | .cons s rest, k, h => by
      simp only [StatementList.labels] at h
      have hs := Statement.code_congr s (k := k) fun tag n hn => h tag n (by omega)
      have hrest := StatementList.code_congr rest (k := k + s.labels)
        fun tag n hn => h tag n (by omega)
      simp only [StatementList.code, hs, hrest]
end

end

mutual
/-- Every label is paid for by a printed lexeme. -/
theorem Statement.labels_le : ∀ s : Statement, s.labels ≤ s.print.length
  | .ifThen c b => by
      have hb := StatementList.labels_le b
      simp only [Statement.labels, Statement.print, List.length_append, List.length_cons]
      omega
  | .ifElse c b b' => by
      have hb := StatementList.labels_le b
      have hb' := StatementList.labels_le b'
      simp only [Statement.labels, Statement.print, List.length_append, List.length_cons]
      omega
  | .whileDo c b => by
      have hb := StatementList.labels_le b
      simp only [Statement.labels, Statement.print, List.length_append, List.length_cons]
      omega
  | .letVar .. | .letElement .. | .doCall .. | .returnNothing | .returnValue _ => Nat.zero_le _
theorem StatementList.labels_le : ∀ ss : StatementList, ss.labels ≤ ss.print.length
  | .nil => Nat.zero_le _
  | .cons s rest => by
      have hs := Statement.labels_le s
      have hrest := StatementList.labels_le rest
      simp only [StatementList.labels, StatementList.print, List.length_append]
      omega
end

end JackVm.Tree
