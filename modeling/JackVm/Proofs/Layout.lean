import JackVm.Proofs.Translation

/-!
# Where the code of a part stands

The code of a fragment of a body is a row of instructions and of the code of
smaller fragments. So each fragment inside another has its place in the code
(`Holds`), and the code around it is known (`Holds.code_eq`).
-/

namespace JackVm.Tree

/-- A part of the body of a subroutine. Statements come with the number of labels
drawn before them. -/
inductive Fragment where
  | term (t : Term)
  | expression (e : Expression)
  | operations (o : Operations)
  | arguments (a : ArgumentList)
  | statement (k : Nat) (s : Statement)
  | statements (k : Nat) (ss : StatementList)

/-- What the code of a fragment is put together from. -/
inductive Piece where
  | code (c : List Instruction)
  | part (f : Fragment)

namespace Fragment

section
variable (env : Env) (r : Runtime) (label : Tag → Nat → String)

def code : Fragment → List Instruction
  | .term t => t.code env r
  | .expression e => e.code env r
  | .operations o => o.code env r
  | .arguments a => a.code env r
  | .statement k s => s.code env r label k
  | .statements k ss => ss.code env r label k

/-- The pieces of a fragment in the order of its code. -/
def pieces : Fragment → List Piece
  | .term (.element x i) =>
      [.code (env.load x.text), .part (.expression i),
        .code [.command .add, .pop .pointer 1, .push .that 0]]
  | .term (.call f args) =>
      [.code (env.receiver f), .part (.arguments args),
        .code [.call (env.callee f) (UInt32.ofNat (env.receivers f + args.length))]]
  | .term (.group e) => [.part (.expression e)]
  | .term (.unary op t) => [.part (.term t), .code [unaryCommand op]]
  | .term t => [.code (t.code env r)]
  | .expression (.mk first rest) => [.part (.term first), .part (.operations rest)]
  | .operations .nil => []
  | .operations (.cons op t rest) =>
      [.part (.term t), .code [binaryCommand r op], .part (.operations rest)]
  | .arguments .nil => []
  | .arguments (.cons e rest) => [.part (.expression e), .part (.arguments rest)]
  | .statement _ (.letVar x e) => [.part (.expression e), .code (env.store x.text)]
  | .statement _ (.letElement x i e) =>
      [.code (env.load x.text), .part (.expression i), .code [.command .add],
        .part (.expression e),
        .code [.pop .temp 0, .pop .pointer 1, .push .temp 0, .pop .that 0]]
  | .statement k (.ifThen c b) =>
      [.part (.expression c), .code [.command .not, .ifGoto (label .ifFalse k)],
        .part (.statements (k + 2) b),
        .code [.goto (label .ifEnd (k + 1)), .label (label .ifFalse k),
          .label (label .ifEnd (k + 1))]]
  | .statement k (.ifElse c b b') =>
      [.part (.expression c), .code [.command .not, .ifGoto (label .ifFalse k)],
        .part (.statements (k + 2) b),
        .code [.goto (label .ifEnd (k + 1)), .label (label .ifFalse k)],
        .part (.statements (k + 2 + b.labels) b'), .code [.label (label .ifEnd (k + 1))]]
  | .statement k (.whileDo c b) =>
      [.code [.label (label .whileExp k)], .part (.expression c),
        .code [.command .not, .ifGoto (label .whileEnd (k + 1))],
        .part (.statements (k + 2) b),
        .code [.goto (label .whileExp k), .label (label .whileEnd (k + 1))]]
  | .statement _ (.doCall f args) => [.part (.term (.call f args)), .code [.pop .temp 0]]
  | .statement _ .returnNothing => [.code [.push .constant 0, .ret]]
  | .statement _ (.returnValue e) => [.part (.expression e), .code [.ret]]
  | .statements _ .nil => []
  | .statements k (.cons s rest) =>
      [.part (.statement k s), .part (.statements (k + s.labels) rest)]

end

def Valid (env : Env) : Fragment → Prop
  | .term t => t.Valid env
  | .expression e => e.Valid env
  | .operations o => o.Valid env
  | .arguments a => a.Valid env
  | .statement _ s => s.Valid env
  | .statements _ ss => ss.Valid env

/-- The number of lexemes a fragment is printed with, at most. -/
def size : Fragment → Nat
  | .term t => t.print.length
  | .expression e => e.print.length
  | .operations o => o.print.length
  | .arguments a => a.printMore.length
  | .statement _ s => s.print.length
  | .statements _ ss => ss.print.length

end Fragment

section
variable (env : Env) (r : Runtime) (label : Tag → Nat → String)

def Piece.toCode : Piece → List Instruction
  | .code c => c
  | .part f => f.code env r label

/-- The fragment `g` is inside the fragment `f`, and its code stands between
`before` and `after` in the code of `f`. -/
inductive Holds : Fragment → List Instruction → Fragment → List Instruction → Prop where
  | here (f : Fragment) : Holds f [] f []
  | inside {f g h : Fragment} {ps qs : List Piece} {before after : List Instruction}
      (hpieces : f.pieces env r label = ps ++ .part g :: qs) (hg : Holds g before h after) :
      Holds f (ps.flatMap (Piece.toCode env r label) ++ before) h
        (after ++ qs.flatMap (Piece.toCode env r label))

end

section
variable {env : Env} {r : Runtime} {label : Tag → Nat → String} {f g : Fragment}
  {before after : List Instruction}

/-- The pieces of a fragment are its code. -/
theorem Fragment.code_eq_pieces (f : Fragment) :
    f.code env r label = (f.pieces env r label).flatMap (Piece.toCode env r label) := by
  cases f with
  | term t => cases t <;> simp [code, pieces, Piece.toCode, Term.code]
  | expression e =>
      cases e
      simp [code, pieces, Piece.toCode, Expression.code]
  | operations o => cases o <;> simp [code, pieces, Piece.toCode, Operations.code]
  | arguments a => cases a <;> simp [code, pieces, Piece.toCode, ArgumentList.code]
  | statement k s => cases s <;> simp [code, pieces, Piece.toCode, Statement.code]
  | statements k ss => cases ss <;> simp [code, pieces, Piece.toCode, StatementList.code]

theorem Holds.code_eq (h : Holds env r label f before g after) :
    f.code env r label = before ++ g.code env r label ++ after := by
  induction h with
  | here f => simp
  | inside hpieces _ ih =>
      rw [Fragment.code_eq_pieces, hpieces, List.flatMap_append, List.flatMap_cons,
        Piece.toCode, ih]
      simp

/-- What a fragment hands on to its pieces, it hands on to all fragments inside. -/
theorem Holds.induct {P : Fragment → Prop}
    (hP : ∀ f g, P f → .part g ∈ f.pieces env r label → P g)
    (h : Holds env r label f before g after) : P f → P g := by
  induction h with
  | here f => exact id
  | inside hpieces _ ih =>
      intro hf
      exact ih (hP _ _ hf (by simp [hpieces]))

/-- The rules hold of all pieces of what obeys them. -/
theorem Fragment.valid_pieces {f g : Fragment} (hf : f.Valid env)
    (hg : .part g ∈ f.pieces env r label) : g.Valid env := by
  revert g
  cases f with
  | term t => cases t <;> simp_all [pieces, Fragment.Valid, Term.Valid]
  | expression e =>
      cases e
      simp_all [pieces, Fragment.Valid, Expression.Valid]
  | operations o => cases o <;> simp_all [pieces, Fragment.Valid, Operations.Valid]
  | arguments a => cases a <;> simp_all [pieces, Fragment.Valid, ArgumentList.Valid]
  | statement k s => cases s <;> simp_all [pieces, Fragment.Valid, Statement.Valid, Term.Valid]
  | statements k ss => cases ss <;> simp_all [pieces, Fragment.Valid, StatementList.Valid]

theorem ArgumentList.length_printMore_le (a : ArgumentList) :
    a.printMore.length ≤ a.print.length + 1 := by
  cases a with
  | nil => simp [ArgumentList.print, ArgumentList.printMore]
  | cons e rest =>
      simp only [ArgumentList.print, ArgumentList.printMore, List.length_append, List.length_cons,
        List.length_nil]
      omega

theorem Fragment.size_pieces {f g : Fragment} (hg : .part g ∈ f.pieces env r label) :
    g.size ≤ f.size := by
  revert g
  cases f with
  | term t =>
      cases t with
      | call h args =>
          -- the comma in front is paid for by the parentheses
          have hargs := args.length_printMore_le
          simp [pieces, size, Term.print]
          omega
      | _ => simp [pieces, size, Term.print] <;> omega
  | expression e =>
      cases e
      simp [pieces, size, Expression.print]
  | operations o =>
      cases o with
      | nil => simp [pieces]
      | cons op t rest =>
          simp [pieces, size, Operations.print]
          omega
  | arguments a =>
      cases a with
      | nil => simp [pieces]
      | cons e rest =>
          simp [pieces, size, ArgumentList.printMore]
          omega
  | statement k s =>
      cases s <;> simp [pieces, size, Statement.print, printCondition, printCall, Term.print] <;>
        omega
  | statements k ss => cases ss <;> simp [pieces, size, StatementList.print]

/-- A fragment that obeys the rules and is not too long for the counters. -/
structure Fragment.WellFormed (env : Env) (f : Fragment) : Prop where
  valid : f.Valid env
  size : f.size < UInt32.size

theorem Fragment.WellFormed.part (hf : f.WellFormed env) (r : Runtime)
    (label : Tag → Nat → String) (hg : .part g ∈ f.pieces env r label) : g.WellFormed env where
  valid := Fragment.valid_pieces hf.valid hg
  size := Nat.lt_of_le_of_lt (Fragment.size_pieces hg) hf.size

theorem Holds.wellFormed (h : Holds env r label f before g after) :
    f.WellFormed env → g.WellFormed env :=
  h.induct fun _ _ hf hg => hf.part r label hg

end

end JackVm.Tree
