import JackVm.Proofs.Limits
import Mathlib.Data.List.Nodup

/-!
# Renaming variables

Code depends on a variable through its storage, not through its name. Where `x` names
variables only, putting a new name `y` in its place everywhere changes neither what the
names stand for nor, therefore, the code.

The proof follows the tree: renaming a tree renames its printed form (`Class.print_rename`);
a name stands for the same variable as before (`Class.renamed_env`), so the renamed class
obeys the rules (`Class.Valid.rename`) and has the same code (`Subroutine.wordCode_rename`).
Main statement: an accepted source text is still accepted, with the same code
(`ofSource_rename`).
-/

namespace JackVm

open JackVm.Tree

/-- The lexeme with `y` in place of `x`. -/
def Lexeme.rename (x y : Identifier) (l : Lexeme) : Lexeme := if l = x.lexeme then y.lexeme else l

/-- The token with `y` in place of `x`. -/
def Token.rename (x y : Identifier) (t : Token) : Token :=
  { t with toLexeme := t.toLexeme.rename x y }

namespace Tree

/-! ## Trees with a new name -/

def Identifier.rename (z x y : Identifier) : Identifier := if z = x then y else z

section
variable (x y : Identifier)

def VarType.rename : VarType → VarType
  | .object c => .object (c.rename x y)
  | type => type

def CallName.rename : CallName → CallName
  | .bare f => .bare (f.rename x y)
  | .dotted r f => .dotted (r.rename x y) (f.rename x y)

mutual
def Term.rename : Term → Term
  | .var z => .var (z.rename x y)
  | .element z i => .element (z.rename x y) i.rename
  | .call f args => .call (f.rename x y) args.rename
  | .group e => .group e.rename
  | .unary op t => .unary op t.rename
  | .integer n => .integer n
  | .string text => .string text
  | .constant c => .constant c
def Expression.rename : Expression → Expression
  | .mk first rest => .mk first.rename rest.rename
def Operations.rename : Operations → Operations
  | .nil => .nil
  | .cons op t rest => .cons op t.rename rest.rename
def ArgumentList.rename : ArgumentList → ArgumentList
  | .nil => .nil
  | .cons e rest => .cons e.rename rest.rename
end

mutual
def Statement.rename : Statement → Statement
  | .letVar z e => .letVar (z.rename x y) (e.rename x y)
  | .letElement z i e => .letElement (z.rename x y) (i.rename x y) (e.rename x y)
  | .ifThen c b => .ifThen (c.rename x y) b.rename
  | .ifElse c b b' => .ifElse (c.rename x y) b.rename b'.rename
  | .whileDo c b => .whileDo (c.rename x y) b.rename
  | .doCall f args => .doCall (f.rename x y) (args.rename x y)
  | .returnNothing => .returnNothing
  | .returnValue e => .returnValue (e.rename x y)
def StatementList.rename : StatementList → StatementList
  | .nil => .nil
  | .cons s rest => .cons s.rename rest.rename
end

def VarDec.rename (d : VarDec) : VarDec :=
  ⟨d.type.rename x y, d.first.rename x y, d.more.map (·.rename x y)⟩

def ClassVarDec.rename : ClassVarDec → ClassVarDec
  | .static d => .static (d.rename x y)
  | .field d => .field (d.rename x y)

def Parameter.rename (p : Parameter) : Parameter := ⟨p.type.rename x y, p.name.rename x y⟩

def Subroutine.rename (s : Subroutine) : Subroutine where
  kind := s.kind
  result := s.result.map (·.rename x y)
  name := s.name.rename x y
  parameters := s.parameters.map (·.rename x y)
  locals := s.locals.map (·.rename x y)
  body := s.body.rename x y

def Class.rename (c : Class) : Class where
  name := c.name.rename x y
  classVars := c.classVars.map (·.rename x y)
  subroutines := c.subroutines.map (·.rename x y)

end

/-! ## Names that are not those of variables -/

def VarType.classNames : VarType → List Identifier
  | .object c => [c]
  | .int | .char | .boolean => []

/-- The names in a call that do not stand for variables. -/
def Env.otherNames (env : Env) : CallName → List Identifier
  | .bare f => [f]
  | .dotted r f => if (env.find? r.text).isSome then [f] else [r, f]

section
variable (env : Env)

mutual
def Term.otherNames : Term → List Identifier
  | .integer _ | .string _ | .constant _ | .var _ => []
  | .element _ i => i.otherNames
  | .call f args => env.otherNames f ++ args.otherNames
  | .group e => e.otherNames
  | .unary _ t => t.otherNames
def Expression.otherNames : Expression → List Identifier
  | .mk first rest => first.otherNames ++ rest.otherNames
def Operations.otherNames : Operations → List Identifier
  | .nil => []
  | .cons _ t rest => t.otherNames ++ rest.otherNames
def ArgumentList.otherNames : ArgumentList → List Identifier
  | .nil => []
  | .cons e rest => e.otherNames ++ rest.otherNames
end

mutual
def Statement.otherNames : Statement → List Identifier
  | .letVar _ e => e.otherNames env
  | .letElement _ i e => i.otherNames env ++ e.otherNames env
  | .ifThen c b | .whileDo c b => c.otherNames env ++ b.otherNames
  | .ifElse c b b' => c.otherNames env ++ b.otherNames ++ b'.otherNames
  | .doCall f args => env.otherNames f ++ args.otherNames env
  | .returnNothing => []
  | .returnValue e => e.otherNames env
def StatementList.otherNames : StatementList → List Identifier
  | .nil => []
  | .cons s rest => s.otherNames ++ rest.otherNames
end

end

def Subroutine.otherNames (c : Class) (s : Subroutine) : List Identifier :=
  s.name :: s.result.toList.flatMap VarType.classNames ++
    s.parameters.flatMap (·.type.classNames) ++ s.locals.flatMap (·.type.classNames) ++
    s.body.otherNames (c.env s)

/-- The names in a class that do not stand for variables: those of classes and subroutines. -/
def Class.otherNames (c : Class) : List Identifier :=
  c.name :: c.classVars.flatMap (·.dec.type.classNames) ++
    c.subroutines.flatMap (Subroutine.otherNames c)

/-! ## Printed forms -/

section
variable {x y : Identifier}

@[simp] theorem rename_word (w : String) : (word w).rename x y = word w := by
  simp [Lexeme.rename, word, Identifier.lexeme]

@[simp] theorem rename_mark (c : Char) : (mark c).rename x y = mark c := by
  simp [Lexeme.rename, mark, Identifier.lexeme]

@[simp] theorem Identifier.lexeme_rename (z : Identifier) :
    (z.rename x y).lexeme = z.lexeme.rename x y := by
  simp only [Identifier.rename, Lexeme.rename, lexeme_inj]
  split <;> rfl

@[simp] theorem VarType.lexeme_rename (type : VarType) :
    (type.rename x y).lexeme = type.lexeme.rename x y := by
  cases type with
  | object c => exact Identifier.lexeme_rename c
  | _ => simp [VarType.rename, VarType.lexeme]

@[simp] theorem CallName.print_rename (f : CallName) :
    (f.rename x y).print = f.print.map (·.rename x y) := by
  cases f <;> simp [CallName.rename, CallName.print]

mutual
theorem Term.print_rename : ∀ t : Term, (t.rename x y).print = t.print.map (·.rename x y)
  | .integer n => by simp [Term.rename, Term.print, Lexeme.rename, Identifier.lexeme]
  | .string text => by simp [Term.rename, Term.print, Lexeme.rename, Identifier.lexeme]
  | .constant c => by simp [Term.rename, Term.print]
  | .var z => by simp [Term.rename, Term.print]
  | .element z i => by simp [Term.rename, Term.print, Expression.print_rename i]
  | .call f args => by simp [Term.rename, Term.print, ArgumentList.print_rename args]
  | .group e => by simp [Term.rename, Term.print, Expression.print_rename e]
  | .unary op t => by simp [Term.rename, Term.print, Term.print_rename t]
theorem Expression.print_rename : ∀ e : Expression,
    (e.rename x y).print = e.print.map (·.rename x y)
  | .mk first rest => by
      simp [Expression.rename, Expression.print, Term.print_rename first,
        Operations.print_rename rest]
theorem Operations.print_rename : ∀ o : Operations,
    (o.rename x y).print = o.print.map (·.rename x y)
  | .nil => rfl
  | .cons op t rest => by
      simp [Operations.rename, Operations.print, Term.print_rename t, Operations.print_rename rest]
theorem ArgumentList.print_rename : ∀ a : ArgumentList,
    (a.rename x y).print = a.print.map (·.rename x y)
  | .nil => rfl
  | .cons e rest => by
      simp [ArgumentList.rename, ArgumentList.print, Expression.print_rename e,
        ArgumentList.printMore_rename rest]
theorem ArgumentList.printMore_rename : ∀ a : ArgumentList,
    (a.rename x y).printMore = a.printMore.map (·.rename x y)
  | .nil => rfl
  | .cons e rest => by
      simp [ArgumentList.rename, ArgumentList.printMore, Expression.print_rename e,
        ArgumentList.printMore_rename rest]
end

theorem printCondition_rename (e : Expression) :
    printCondition (e.rename x y) = (printCondition e).map (·.rename x y) := by
  simp [printCondition, e.print_rename]

theorem printCall_rename (f : CallName) (args : ArgumentList) :
    printCall (f.rename x y) (args.rename x y) = (printCall f args).map (·.rename x y) := by
  simp [printCall, args.print_rename]

mutual
theorem Statement.print_rename : ∀ s : Statement,
    (s.rename x y).print = s.print.map (·.rename x y)
  | .letVar z e => by simp [Statement.rename, Statement.print, e.print_rename]
  | .letElement z i e => by
      simp [Statement.rename, Statement.print, i.print_rename, e.print_rename]
  | .ifThen c b => by
      simp [Statement.rename, Statement.print, printCondition_rename, StatementList.print_rename b]
  | .ifElse c b b' => by
      simp [Statement.rename, Statement.print, printCondition_rename, StatementList.print_rename b,
        StatementList.print_rename b']
  | .whileDo c b => by
      simp [Statement.rename, Statement.print, printCondition_rename, StatementList.print_rename b]
  | .doCall f args => by simp [Statement.rename, Statement.print, printCall_rename]
  | .returnNothing => by simp [Statement.rename, Statement.print]
  | .returnValue e => by simp [Statement.rename, Statement.print, e.print_rename]
theorem StatementList.print_rename : ∀ ss : StatementList,
    (ss.rename x y).print = ss.print.map (·.rename x y)
  | .nil => rfl
  | .cons s rest => by
      simp [StatementList.rename, StatementList.print, Statement.print_rename s,
        StatementList.print_rename rest]
end

theorem VarDec.print_rename (d : VarDec) : (d.rename x y).print = d.print.map (·.rename x y) := by
  simp [VarDec.rename, VarDec.print, List.flatMap_map, List.map_flatMap]

theorem ClassVarDec.print_rename (v : ClassVarDec) :
    (v.rename x y).print = v.print.map (·.rename x y) := by
  cases v <;> simp [ClassVarDec.rename, ClassVarDec.print, ClassVarDec.storage, ClassVarDec.dec,
    VarDec.print_rename]

theorem Parameter.print_rename (p : Parameter) :
    (p.rename x y).print = p.print.map (·.rename x y) := by
  simp [Parameter.rename, Parameter.print]

theorem printParameters_rename (ps : List Parameter) :
    printParameters (ps.map (·.rename x y)) = (printParameters ps).map (·.rename x y) := by
  cases ps with
  | nil => rfl
  | cons p ps => simp [printParameters, Parameter.print_rename, List.flatMap_map, List.map_flatMap]

theorem printResult_rename (r : Option VarType) :
    printResult (r.map (·.rename x y)) = (printResult r).rename x y := by
  cases r <;> simp [printResult]

theorem Subroutine.print_rename (s : Subroutine) :
    (s.rename x y).print = s.print.map (·.rename x y) := by
  simp [Subroutine.rename, Subroutine.print, printResult_rename, printParameters_rename,
    VarDec.print_rename, StatementList.print_rename, List.flatMap_map, List.map_flatMap]

/-- Renaming a class renames its printed form. -/
theorem Class.print_rename (c : Class) : (c.rename x y).print = c.print.map (·.rename x y) := by
  simp [Class.rename, Class.print, ClassVarDec.print_rename, Subroutine.print_rename,
    List.flatMap_map, List.map_flatMap]

/-! ## What names stand for -/

theorem Identifier.rename_of_ne {z : Identifier} (h : z ≠ x) : z.rename x y = z := if_neg h

theorem VarType.rename_of_not_mem {type : VarType} (h : x ∉ type.classNames) :
    type.rename x y = type := by
  cases type with
  | object c =>
      have hc : c ≠ x := by simpa [classNames, eq_comm] using h
      rw [VarType.rename, Identifier.rename_of_ne hc]
  | _ => rfl

/-- Names stand for the same variables in both environments, up to renaming. -/
structure Env.Renamed (x y : Identifier) (env env' : Env) : Prop where
  className : env'.className = env.className
  subroutine : env'.subroutine = env.subroutine
  kind : env'.kind = env.kind
  returnsVoid : env'.returnsVoid = env.returnsVoid
  find? : ∀ z : Identifier, z ≠ y → env'.find? (z.rename x y).text = env.find? z.text

namespace Env.Renamed

variable {env env' : Env} (h : Renamed x y env env')
include h

theorem hasObject_iff : env'.HasObject ↔ env.HasObject := by
  rw [Env.HasObject, Env.HasObject, h.kind]

theorem admits_iff (v : Slot) : env'.Admits v ↔ env.Admits v := by
  rw [Env.Admits, Env.Admits, h.hasObject_iff]

theorem uses_iff {z : Identifier} (hz : z ≠ y) : env'.Uses (z.rename x y) ↔ env.Uses z := by
  simp only [Env.Uses, h.find? z hz, h.admits_iff]

theorem load_rename {z : Identifier} (hz : z ≠ y) :
    env'.load (z.rename x y).text = env.load z.text := by
  rw [Env.load, Env.load, h.find? z hz]

theorem store_rename {z : Identifier} (hz : z ≠ y) :
    env'.store (z.rename x y).text = env.store z.text := by
  rw [Env.store, Env.store, h.find? z hz]

theorem wordLabel_eq : env'.wordLabel = env.wordLabel := by
  funext tag n
  simp only [Env.wordLabel, Env.label, h.className, h.subroutine]

theorem calls_iff {f : CallName} (hy : y.lexeme ∉ f.print) :
    env'.Calls (f.rename x y) ↔ env.Calls f := by
  cases f with
  | bare f => exact h.hasObject_iff
  | dotted r f =>
      have hr : r ≠ y := by
        rintro rfl
        simp [CallName.print] at hy
      simp only [CallName.rename, Env.Calls, h.find? r hr, h.admits_iff]

/-- A call passes on the same object to the same callee. -/
theorem call_rename {f : CallName} (hx : x ∉ env.otherNames f) (hy : y.lexeme ∉ f.print) :
    env'.receiver (f.rename x y) = env.receiver f ∧
      env'.receivers (f.rename x y) = env.receivers f ∧
      env'.callee (f.rename x y) = env.callee f := by
  cases f with
  | bare f =>
      have hf : f ≠ x := by simpa [Env.otherNames, eq_comm] using hx
      rw [CallName.rename, Identifier.rename_of_ne hf]
      exact ⟨rfl, rfl, by simp only [Env.callee, h.className]⟩
  | dotted r f =>
      have hr : r ≠ y := by
        rintro rfl
        simp [CallName.print] at hy
      have hf : f ≠ x := by
        rintro rfl
        refine hx ?_
        simp only [Env.otherNames]
        split <;> simp
      rw [CallName.rename, Identifier.rename_of_ne hf]
      have hfind := h.find? r hr
      refine ⟨h.load_rename hr, by simp only [Env.receivers, hfind], ?_⟩
      simp only [Env.callee, hfind]
      split
      · rfl
      · next hnone =>
          -- a receiver that is no variable is the name of a class
          have hrx : r ≠ x := by
            rintro rfl
            simp [Env.otherNames, hnone] at hx
          rw [Identifier.rename_of_ne hrx]

end Env.Renamed

/-! ## Expressions and statements -/

theorem ArgumentList.length_rename : ∀ a : ArgumentList, (a.rename x y).length = a.length
  | .nil => rfl
  | .cons _ rest => congrArg (· + 1) rest.length_rename

mutual
theorem Statement.labels_rename : ∀ s : Statement, (s.rename x y).labels = s.labels
  | .ifThen _ b | .whileDo _ b => congrArg (2 + ·) (StatementList.labels_rename b)
  | .ifElse _ b b' => by
      simp only [Statement.rename, Statement.labels, StatementList.labels_rename b,
        StatementList.labels_rename b']
  | .letVar .. | .letElement .. | .doCall .. | .returnNothing | .returnValue _ => rfl
theorem StatementList.labels_rename : ∀ ss : StatementList, (ss.rename x y).labels = ss.labels
  | .nil => rfl
  | .cons s rest => by
      simp only [StatementList.rename, StatementList.labels, Statement.labels_rename s,
        StatementList.labels_rename rest]
end

theorem Identifier.ne_of_lexeme_ne {z : Identifier} (h : ¬y.lexeme = z.lexeme) : z ≠ y :=
  fun hz => h (congrArg Identifier.lexeme hz.symm)

theorem ArgumentList.mem_printMore {l : Lexeme} : ∀ {a : ArgumentList},
    l ∈ a.print → l ∈ a.printMore
  | .nil, h => h
  | .cons _ _, h => by
      rw [ArgumentList.printMore, List.append_assoc]
      exact List.mem_append_right _ h

section
variable {env env' : Env}

mutual
/-- A renamed term obeys the rules as the term does. -/
theorem Term.valid_rename (h : env.Renamed x y env') : ∀ t : Term, y.lexeme ∉ t.print →
    ((t.rename x y).Valid env' ↔ t.Valid env)
  | .integer _, _ | .string _, _ => Iff.rfl
  | .constant c, _ => by simp only [Term.rename, Term.Valid, h.hasObject_iff]
  | .var z, hy => by
      simp only [Term.print, List.mem_singleton] at hy
      exact h.uses_iff (Identifier.ne_of_lexeme_ne hy)
  | .element z i, hy => by
      simp only [Term.print, List.mem_append, List.mem_cons, not_or] at hy
      have hz := h.uses_iff (Identifier.ne_of_lexeme_ne hy.1.1.1)
      simp only [Term.rename, Term.Valid, hz, Expression.valid_rename h i hy.1.2]
  | .call f args, hy => by
      simp only [Term.print, List.mem_append, not_or] at hy
      simp only [Term.rename, Term.Valid, h.calls_iff hy.1.1.1,
        ArgumentList.valid_rename h args hy.1.2]
  | .group e, hy => by
      simp only [Term.print, List.mem_append, not_or] at hy
      exact Expression.valid_rename h e hy.1.2
  | .unary op t, hy => by
      simp only [Term.print, List.mem_append, not_or] at hy
      exact Term.valid_rename h t hy.2
theorem Expression.valid_rename (h : env.Renamed x y env') : ∀ e : Expression,
    y.lexeme ∉ e.print → ((e.rename x y).Valid env' ↔ e.Valid env)
  | .mk first rest, hy => by
      simp only [Expression.print, List.mem_append, not_or] at hy
      simp only [Expression.rename, Expression.Valid, Term.valid_rename h first hy.1,
        Operations.valid_rename h rest hy.2]
theorem Operations.valid_rename (h : env.Renamed x y env') : ∀ o : Operations,
    y.lexeme ∉ o.print → ((o.rename x y).Valid env' ↔ o.Valid env)
  | .nil, _ => Iff.rfl
  | .cons op t rest, hy => by
      simp only [Operations.print, List.mem_append, not_or] at hy
      simp only [Operations.rename, Operations.Valid, Term.valid_rename h t hy.1.2,
        Operations.valid_rename h rest hy.2]
theorem ArgumentList.valid_rename (h : env.Renamed x y env') : ∀ a : ArgumentList,
    y.lexeme ∉ a.print → ((a.rename x y).Valid env' ↔ a.Valid env)
  | .nil, _ => Iff.rfl
  | .cons e rest, hy => by
      simp only [ArgumentList.print, List.mem_append, not_or] at hy
      simp only [ArgumentList.rename, ArgumentList.Valid, Expression.valid_rename h e hy.1,
        ArgumentList.valid_rename h rest (mt ArgumentList.mem_printMore hy.2)]
end

mutual
theorem Statement.valid_rename (h : env.Renamed x y env') : ∀ s : Statement,
    y.lexeme ∉ s.print → ((s.rename x y).Valid env' ↔ s.Valid env)
  | .letVar z e, hy => by
      simp only [Statement.print, List.mem_append, List.mem_cons, not_or] at hy
      have hz := h.uses_iff (Identifier.ne_of_lexeme_ne hy.1.1.2.1)
      simp only [Statement.rename, Statement.Valid, hz, e.valid_rename h hy.1.2]
  | .letElement z i e, hy => by
      simp only [Statement.print, List.mem_append, List.mem_cons, not_or] at hy
      have hz := h.uses_iff (Identifier.ne_of_lexeme_ne hy.1.1.1.1.2.1)
      simp only [Statement.rename, Statement.Valid, hz, i.valid_rename h hy.1.1.1.2,
        e.valid_rename h hy.1.2]
  | .ifThen c b, hy | .whileDo c b, hy => by
      simp only [Statement.print, printCondition, List.mem_append, not_or] at hy
      simp only [Statement.rename, Statement.Valid, c.valid_rename h hy.1.1.1.2.1.2,
        StatementList.valid_rename h b hy.1.2]
  | .ifElse c b b', hy => by
      simp only [Statement.print, printCondition, List.mem_append, not_or] at hy
      simp only [Statement.rename, Statement.Valid, c.valid_rename h hy.1.1.1.1.1.1.2.1.2,
        StatementList.valid_rename h b hy.1.1.1.1.2, StatementList.valid_rename h b' hy.1.2]
  | .doCall f args, hy => by
      simp only [Statement.print, printCall, List.mem_append, not_or] at hy
      simp only [Statement.rename, Statement.Valid, h.calls_iff hy.1.2.1.1.1,
        args.valid_rename h hy.1.2.1.2]
  | .returnNothing, _ => by simp only [Statement.rename, Statement.Valid, h.returnsVoid]
  | .returnValue e, hy => by
      simp only [Statement.print, List.mem_append, not_or] at hy
      simp only [Statement.rename, Statement.Valid, h.returnsVoid, e.valid_rename h hy.1.2]
theorem StatementList.valid_rename (h : env.Renamed x y env') : ∀ ss : StatementList,
    y.lexeme ∉ ss.print → ((ss.rename x y).Valid env' ↔ ss.Valid env)
  | .nil, _ => Iff.rfl
  | .cons s rest, hy => by
      simp only [StatementList.print, List.mem_append, not_or] at hy
      simp only [StatementList.rename, StatementList.Valid, Statement.valid_rename h s hy.1,
        StatementList.valid_rename h rest hy.2]
end

mutual
/-- A renamed term has the code of the term. -/
theorem Term.code_rename (h : env.Renamed x y env') (r : Runtime) : ∀ t : Term,
    x ∉ t.otherNames env → y.lexeme ∉ t.print → (t.rename x y).code env' r = t.code env r
  | .integer _, _, _ | .string _, _, _ | .constant _, _, _ => rfl
  | .var z, _, hy => by
      simp only [Term.print, List.mem_singleton] at hy
      exact h.load_rename (Identifier.ne_of_lexeme_ne hy)
  | .element z i, hx, hy => by
      simp only [Term.print, List.mem_append, List.mem_cons, not_or] at hy
      have hz := h.load_rename (Identifier.ne_of_lexeme_ne hy.1.1.1)
      simp only [Term.rename, Term.code, hz, Expression.code_rename h r i hx hy.1.2]
  | .call f args, hx, hy => by
      simp only [Term.otherNames, List.mem_append, not_or] at hx
      simp only [Term.print, List.mem_append, not_or] at hy
      obtain ⟨hreceiver, hreceivers, hcallee⟩ := h.call_rename hx.1 hy.1.1.1
      simp only [Term.rename, Term.code, hreceiver, hreceivers, hcallee,
        ArgumentList.code_rename h r args hx.2 hy.1.2, ArgumentList.length_rename]
  | .group e, hx, hy => by
      simp only [Term.print, List.mem_append, not_or] at hy
      exact Expression.code_rename h r e hx hy.1.2
  | .unary op t, hx, hy => by
      simp only [Term.print, List.mem_append, not_or] at hy
      simp only [Term.rename, Term.code, Term.code_rename h r t hx hy.2]
theorem Expression.code_rename (h : env.Renamed x y env') (r : Runtime) : ∀ e : Expression,
    x ∉ e.otherNames env → y.lexeme ∉ e.print → (e.rename x y).code env' r = e.code env r
  | .mk first rest, hx, hy => by
      simp only [Expression.otherNames, List.mem_append, not_or] at hx
      simp only [Expression.print, List.mem_append, not_or] at hy
      simp only [Expression.rename, Expression.code, Term.code_rename h r first hx.1 hy.1,
        Operations.code_rename h r rest hx.2 hy.2]
theorem Operations.code_rename (h : env.Renamed x y env') (r : Runtime) : ∀ o : Operations,
    x ∉ o.otherNames env → y.lexeme ∉ o.print → (o.rename x y).code env' r = o.code env r
  | .nil, _, _ => rfl
  | .cons op t rest, hx, hy => by
      simp only [Operations.otherNames, List.mem_append, not_or] at hx
      simp only [Operations.print, List.mem_append, not_or] at hy
      simp only [Operations.rename, Operations.code, Term.code_rename h r t hx.1 hy.1.2,
        Operations.code_rename h r rest hx.2 hy.2]
theorem ArgumentList.code_rename (h : env.Renamed x y env') (r : Runtime) : ∀ a : ArgumentList,
    x ∉ a.otherNames env → y.lexeme ∉ a.print → (a.rename x y).code env' r = a.code env r
  | .nil, _, _ => rfl
  | .cons e rest, hx, hy => by
      simp only [ArgumentList.otherNames, List.mem_append, not_or] at hx
      simp only [ArgumentList.print, List.mem_append, not_or] at hy
      simp only [ArgumentList.rename, ArgumentList.code, Expression.code_rename h r e hx.1 hy.1,
        ArgumentList.code_rename h r rest hx.2 (mt ArgumentList.mem_printMore hy.2)]
end

mutual
theorem Statement.code_rename (h : env.Renamed x y env') (r : Runtime)
    (label : Tag → Nat → String) : ∀ (s : Statement) (k : Nat),
    x ∉ s.otherNames env → y.lexeme ∉ s.print →
      (s.rename x y).code env' r label k = s.code env r label k
  | .letVar z e, k, hx, hy => by
      simp only [Statement.print, List.mem_append, List.mem_cons, not_or] at hy
      have hz := h.store_rename (Identifier.ne_of_lexeme_ne hy.1.1.2.1)
      simp only [Statement.rename, Statement.code, hz, e.code_rename h r hx hy.1.2]
  | .letElement z i e, k, hx, hy => by
      simp only [Statement.otherNames, List.mem_append, not_or] at hx
      simp only [Statement.print, List.mem_append, List.mem_cons, not_or] at hy
      have hz := h.load_rename (Identifier.ne_of_lexeme_ne hy.1.1.1.1.2.1)
      simp only [Statement.rename, Statement.code, hz, i.code_rename h r hx.1 hy.1.1.1.2,
        e.code_rename h r hx.2 hy.1.2]
  | .ifThen c b, k, hx, hy | .whileDo c b, k, hx, hy => by
      simp only [Statement.otherNames, List.mem_append, not_or] at hx
      simp only [Statement.print, printCondition, List.mem_append, not_or] at hy
      simp only [Statement.rename, Statement.code, c.code_rename h r hx.1 hy.1.1.1.2.1.2,
        StatementList.code_rename h r label b _ hx.2 hy.1.2]
  | .ifElse c b b', k, hx, hy => by
      simp only [Statement.otherNames, List.mem_append, not_or] at hx
      simp only [Statement.print, printCondition, List.mem_append, not_or] at hy
      simp only [Statement.rename, Statement.code, c.code_rename h r hx.1.1 hy.1.1.1.1.1.1.2.1.2,
        StatementList.code_rename h r label b _ hx.1.2 hy.1.1.1.1.2, StatementList.labels_rename,
        StatementList.code_rename h r label b' _ hx.2 hy.1.2]
  | .doCall f args, k, hx, hy => by
      have hcall := (Term.call f args).code_rename h r hx
      simp only [Statement.print, List.mem_append, not_or] at hy
      exact congrArg (· ++ [.pop .temp 0]) (hcall hy.1.2)
  | .returnNothing, _, _, _ => rfl
  | .returnValue e, k, hx, hy => by
      simp only [Statement.print, List.mem_append, not_or] at hy
      simp only [Statement.rename, Statement.code, e.code_rename h r hx hy.1.2]
theorem StatementList.code_rename (h : env.Renamed x y env') (r : Runtime)
    (label : Tag → Nat → String) : ∀ (ss : StatementList) (k : Nat),
    x ∉ ss.otherNames env → y.lexeme ∉ ss.print →
      (ss.rename x y).code env' r label k = ss.code env r label k
  | .nil, _, _, _ => rfl
  | .cons s rest, k, hx, hy => by
      simp only [StatementList.otherNames, List.mem_append, not_or] at hx
      simp only [StatementList.print, List.mem_append, not_or] at hy
      simp only [StatementList.rename, StatementList.code, Statement.labels_rename,
        Statement.code_rename h r label s k hx.1 hy.1,
        StatementList.code_rename h r label rest _ hx.2 hy.2]
end

end

/-! ## Declarations -/

/-- The text of a name with `y` in place of `x`. -/
def renameText (x y : Identifier) (text : String) : String :=
  if text = x.text then y.text else text

def Decl.rename (x y : Identifier) (d : Decl) : Decl := { d with name := renameText x y d.name }

theorem Identifier.text_ne_this (z : Identifier) : z.text ≠ "this" := by
  intro h
  have hreserved : "this" ∈ keywords := by decide
  exact z.unreserved (h ▸ hreserved)

theorem Identifier.text_rename (z : Identifier) :
    (z.rename x y).text = renameText x y z.text := by
  simp only [Identifier.rename, renameText, Identifier.text_injective.eq_iff]
  split <;> rfl

/-- Different texts stay different when neither is the new name. -/
theorem renameText_inj {a b : String} (ha : a ≠ y.text) (hb : b ≠ y.text) :
    renameText x y a = renameText x y b ↔ a = b := by
  unfold renameText
  grind

/-- No declaration has the new name yet. -/
def Unnamed (y : Identifier) (ds : List Decl) : Prop := ∀ d ∈ ds, d.name ≠ y.text

theorem countOf_rename (st : Storage) (ds : List Decl) :
    countOf st (ds.map (Decl.rename x y)) = countOf st ds := by
  rw [countOf, List.countP_map]
  rfl

theorem slotAfter_rename {text : String} (htext : text ≠ y.text) :
    ∀ (before : List Decl) {ds : List Decl}, Unnamed y ds →
      slotAfter (renameText x y text) (before.map (Decl.rename x y)) (ds.map (Decl.rename x y)) =
        slotAfter text before ds
  | _, [], _ => rfl
  | before, d :: ds, hds => by
      obtain ⟨hd, hrest⟩ := List.forall_mem_cons.mp hds
      have ih := slotAfter_rename htext (before ++ [d]) hrest
      rw [List.map_append, List.map_singleton] at ih
      rw [List.map_cons, slotAfter, slotAfter, ih, countOf_rename]
      simp only [Decl.rename, renameText_inj hd htext]

theorem slot?_rename {text : String} (htext : text ≠ y.text) {ds : List Decl}
    (hds : Unnamed y ds) :
    slot? (renameText x y text) (ds.map (Decl.rename x y)) = slot? text ds :=
  slotAfter_rename htext [] hds

theorem nodup_rename {ds : List Decl} (hds : Unnamed y ds) (h : (ds.map Decl.name).Nodup) :
    ((ds.map (Decl.rename x y)).map Decl.name).Nodup := by
  have hmap : (ds.map (Decl.rename x y)).map Decl.name =
      (ds.map Decl.name).map (renameText x y) := by
    rw [List.map_map, List.map_map]
    rfl
  have hnames : ∀ a ∈ ds.map Decl.name, a ≠ y.text := List.forall_mem_map.mpr hds
  rw [hmap]
  exact h.map_on fun a ha b hb => (renameText_inj (hnames a ha) (hnames b hb)).mp

theorem VarDec.decls_rename {d : VarDec} (hx : x ∉ d.type.classNames) (st : Storage) :
    (d.rename x y).decls st = (d.decls st).map (Decl.rename x y) := by
  simp [VarDec.decls, VarDec.names, VarDec.rename, VarType.rename_of_not_mem hx, Decl.rename,
    Identifier.text_rename]

theorem Parameter.decl_rename {p : Parameter} (hx : x ∉ p.type.classNames) :
    (p.rename x y).decl = p.decl.rename x y := by
  simp [Parameter.decl, Parameter.rename, VarType.rename_of_not_mem hx, Decl.rename,
    Identifier.text_rename]

theorem Class.decls_rename {c : Class} (hx : x ∉ c.otherNames) :
    (c.rename x y).decls = c.decls.map (Decl.rename x y) := by
  have hdec : ∀ v ∈ c.classVars, (v.rename x y).dec.decls (v.rename x y).storage =
      (v.dec.decls v.storage).map (Decl.rename x y) := by
    intro v hv
    have hx' : x ∉ v.dec.type.classNames := by
      intro hmem
      refine hx ?_
      simp only [Class.otherNames, List.cons_append, List.mem_cons, List.mem_append,
        List.mem_flatMap]
      exact .inr (.inl ⟨v, hv, hmem⟩)
    cases v <;> exact VarDec.decls_rename hx' _
  rw [Class.decls, Class.decls, Class.rename, List.flatMap_map, List.map_flatMap]
  exact List.flatMap_congr hdec

theorem Subroutine.decls_rename {c : Class} {s : Subroutine} (hx : x ∉ s.otherNames c) :
    (s.rename x y).decls = s.decls.map (Decl.rename x y) := by
  simp only [Subroutine.otherNames, List.cons_append, List.mem_cons, List.mem_append,
    List.mem_flatMap, not_or, not_exists, not_and] at hx
  have hparameter : ∀ p ∈ s.parameters, (p.rename x y).decl = p.decl.rename x y :=
    fun p hp => Parameter.decl_rename (hx.2.1.1.2 p hp)
  have hlocal : ∀ d ∈ s.locals, (d.rename x y).decls .var =
      (d.decls .var).map (Decl.rename x y) := fun d hd => VarDec.decls_rename (hx.2.1.2 d hd) .var
  simp only [Subroutine.decls, Subroutine.rename, List.map_append, List.map_map,
    List.flatMap_map, List.map_flatMap]
  exact congrArg₂ (· ++ ·) (List.map_congr_left hparameter) (List.flatMap_congr hlocal)

/-- The current object is not renamed: its name is reserved. -/
theorem Subroutine.receiver_rename {c : Class} (hx : c.name ≠ x) (s : Subroutine) :
    (s.rename x y).receiver (c.rename x y) = (s.receiver c).map (Decl.rename x y) := by
  have hthis := x.text_ne_this.symm
  unfold Subroutine.receiver
  rw [show (s.rename x y).kind = s.kind from rfl]
  split
  · simp [Class.rename, Identifier.rename_of_ne hx, Decl.rename, renameText, hthis]
  · rfl

theorem VarDec.unnamed_decls {d : VarDec} (hy : y.lexeme ∉ d.print) (st : Storage) :
    Unnamed y (d.decls st) := by
  intro d' hd' hname
  obtain ⟨z, hz, rfl⟩ := List.mem_map.mp hd'
  obtain rfl : z = y := Identifier.text_injective hname
  refine hy ?_
  rcases List.mem_cons.mp hz with rfl | hz
  · simp [VarDec.print]
  · have hmore : z.lexeme ∈ d.more.flatMap fun z => [mark ',', z.lexeme] :=
      List.mem_flatMap_of_mem hz (by simp)
    simp [VarDec.print, hmore]

theorem Class.unnamed_decls {c : Class} (hy : y.lexeme ∉ c.print) : Unnamed y c.decls := by
  intro d hd
  obtain ⟨v, hv, hd⟩ := List.mem_flatMap.mp hd
  refine VarDec.unnamed_decls ?_ v.storage d hd
  intro hmem
  have hprint : y.lexeme ∈ c.classVars.flatMap ClassVarDec.print :=
    List.mem_flatMap_of_mem hv (List.mem_cons_of_mem _ hmem)
  exact hy (by simp [Class.print, hprint])

theorem Parameter.lexeme_mem {p : Parameter} {ps : List Parameter} (hp : p ∈ ps) :
    p.name.lexeme ∈ printParameters ps := by
  cases ps with
  | nil => cases hp
  | cons q qs =>
      rcases List.mem_cons.mp hp with rfl | hp
      · simp [printParameters, Parameter.print]
      · have hmore : p.name.lexeme ∈ qs.flatMap fun q => mark ',' :: q.print :=
          List.mem_flatMap_of_mem hp (by simp [Parameter.print])
        exact List.mem_append_right _ hmore

theorem Subroutine.unnamed_decls (c : Class) {s : Subroutine} (hy : y.lexeme ∉ s.print) :
    Unnamed y (s.receiver c ++ s.decls) := by
  intro d hd hname
  simp only [Subroutine.decls, List.mem_append, List.mem_map, List.mem_flatMap] at hd
  rcases hd with hd | ⟨p, hp, rfl⟩ | ⟨v, hv, hd⟩
  · unfold Subroutine.receiver at hd
    split at hd
    · obtain rfl := List.mem_singleton.mp hd
      exact y.text_ne_this hname.symm
    · cases hd
  · have hparameter := Parameter.lexeme_mem hp
    rw [Identifier.text_injective hname] at hparameter
    exact hy (by simp [Subroutine.print, hparameter])
  · have hlocals : y.lexeme ∉ v.print := by
      intro hmem
      have hprint : y.lexeme ∈ s.locals.flatMap fun d => word "var" :: d.print :=
        List.mem_flatMap_of_mem hv (List.mem_cons_of_mem _ hmem)
      exact hy (by simp only [Subroutine.print, List.mem_append, hprint, or_true, true_or])
    exact VarDec.unnamed_decls hlocals .var d hd hname

/-! ## Classes -/

/-- What does not occur in a class does not occur in its subroutines. -/
theorem Subroutine.not_mem_print {c : Class} {s : Subroutine} (hs : s ∈ c.subroutines)
    (hy : y.lexeme ∉ c.print) : y.lexeme ∉ s.print := by
  intro hmem
  have hprint : y.lexeme ∈ c.subroutines.flatMap Subroutine.print := List.mem_flatMap_of_mem hs hmem
  exact hy (by simp [Class.print, hprint])

theorem Subroutine.not_mem_otherNames {c : Class} {s : Subroutine} (hs : s ∈ c.subroutines)
    (hx : x ∉ c.otherNames) : x ∉ s.otherNames c := by
  intro hmem
  have hother : x ∈ c.subroutines.flatMap (Subroutine.otherNames c) :=
    List.mem_flatMap_of_mem hs hmem
  exact hx (by simp [Class.otherNames, hother])

section
variable {c : Class} {s : Subroutine}

theorem Class.renamed_env (hx : x ∉ c.otherNames) (hy : y.lexeme ∉ c.print)
    (hs : s ∈ c.subroutines) :
    (c.env s).Renamed x y ((c.rename x y).env (s.rename x y)) := by
  have hxs := Subroutine.not_mem_otherNames hs hx
  have hys := Subroutine.not_mem_print hs hy
  have hclass : c.name ≠ x := by
    rintro rfl
    simp [Class.otherNames] at hx
  have hsubroutine : s.name ≠ x := by
    rintro rfl
    simp [Subroutine.otherNames] at hxs
  refine ⟨?_, ?_, rfl, ?_, ?_⟩
  · exact congrArg Identifier.text (Identifier.rename_of_ne hclass)
  · exact congrArg Identifier.text (Identifier.rename_of_ne hsubroutine)
  · cases hr : s.result <;> simp [Class.env, Subroutine.rename, hr]
  · intro z hz
    have htext : z.text ≠ y.text := fun h => hz (Identifier.text_injective h)
    rw [Env.find?, Env.find?, Identifier.text_rename]
    simp only [Class.env]
    rw [Subroutine.receiver_rename hclass, Subroutine.decls_rename hxs, Class.decls_rename hx,
      ← List.map_append, slot?_rename htext (Subroutine.unnamed_decls c hys),
      slot?_rename htext (Class.unnamed_decls hy)]

theorem Subroutine.Valid.rename (hx : x ∉ c.otherNames) (hy : y.lexeme ∉ c.print)
    (hs : s ∈ c.subroutines) (h : s.Valid c) : (s.rename x y).Valid (c.rename x y) := by
  have hxs := Subroutine.not_mem_otherNames hs hx
  have hys := Subroutine.not_mem_print hs hy
  have hunnamed := Subroutine.unnamed_decls c hys
  refine ⟨?_, ?_, ?_⟩
  · intro hkind
    simp only [Subroutine.rename, h.result hkind, Option.map_some]
    rfl
  · rw [Subroutine.decls_rename hxs]
    exact nodup_rename (fun d hd => hunnamed d (List.mem_append_right _ hd)) h.distinct
  · have hbody : y.lexeme ∉ s.body.print := by
      intro hmem
      exact hys (by simp [Subroutine.print, hmem])
    exact (s.body.valid_rename (Class.renamed_env hx hy hs) hbody).mpr h.body

/-- A class whose variables are renamed obeys the rules. -/
theorem Class.Valid.rename {name : String} (hx : x ∉ c.otherNames) (hy : y.lexeme ∉ c.print)
    (h : c.Valid name) : (c.rename x y).Valid name := by
  have hclass : c.name ≠ x := by
    rintro rfl
    simp [Class.otherNames] at hx
  refine ⟨?_, ?_, List.forall_mem_map.mpr fun s hs => (h.subroutines s hs).rename hx hy hs⟩
  · exact (congrArg Identifier.text (Identifier.rename_of_ne hclass)).trans h.named
  · rw [Class.decls_rename hx]
    exact nodup_rename (Class.unnamed_decls hy) h.distinct

/-- A subroutine whose variables are renamed has the same code. -/
theorem Subroutine.wordCode_rename (r : Runtime) (hx : x ∉ c.otherNames) (hy : y.lexeme ∉ c.print)
    (hs : s ∈ c.subroutines) :
    (s.rename x y).wordCode r (c.rename x y) = s.wordCode r c := by
  have hxs := Subroutine.not_mem_otherNames hs hx
  have hys := Subroutine.not_mem_print hs hy
  have henv := Class.renamed_env hx hy hs
  have hclass : c.name ≠ x := by
    rintro rfl
    simp [Class.otherNames] at hx
  have hheader : ((c.rename x y).env (s.rename x y)).header r = (c.env s).header r := by
    have hlocals : countOf .var ((c.rename x y).env (s.rename x y)).ofSubroutine =
        countOf .var (c.env s).ofSubroutine := by
      simp only [Class.env]
      rw [Subroutine.receiver_rename hclass, Subroutine.decls_rename hxs, ← List.map_append,
        countOf_rename]
    have hfields : countOf .field ((c.rename x y).env (s.rename x y)).ofClass =
        countOf .field (c.env s).ofClass := by
      simp only [Class.env]
      rw [Class.decls_rename hx, countOf_rename]
    simp only [Env.header, henv.className, henv.subroutine, henv.kind, hlocals, hfields]
  have hbody : x ∉ s.body.otherNames (c.env s) ∧ y.lexeme ∉ s.body.print :=
    ⟨fun hmem => hxs (by simp [Subroutine.otherNames, hmem]),
      fun hmem => hys (by simp [Subroutine.print, hmem])⟩
  rw [Subroutine.wordCode, Subroutine.wordCode, hheader, henv.wordLabel_eq]
  exact congrArg (_ ++ ·) (s.body.code_rename henv r _ 0 hbody.1 hbody.2)

end

end

end Tree

namespace Compilation

variable {t : Target} {tokens : List Token} {outlet : Outlet} {c : Tree.Class}

/-- A class that obeys the rules is accepted unless its code exceeds a limit. -/
theorem ofTokens_ok_iff_fits (hprint : tokens.map (·.toLexeme) = c.print)
    (hvalid : c.Valid t.className) :
    (ofTokens t tokens outlet).result = .ok () ↔ ∀ limit, outlet.limit = some limit →
      codeSize (c.subroutines.flatMap (Subroutine.wordCode t.runtime c)) ≤ limit := by
  cases ho : outlet.limit with
  | none => simp [ofTokens_of_valid hprint hvalid ho]
  | some limit =>
      have hfree : (ofTokens t tokens {}).result = .ok () := ofTokens_of_valid hprint hvalid rfl
      obtain ⟨-, hcode⟩ := valid_of_ofTokens hprint hfree
      rw [← hcode]
      rcases ofTokens_limited ho t tokens with ⟨-, hfits, hresult, -⟩ | ⟨hresult, hcut⟩
      · simpa [hresult, hfree] using hfits
      · simpa [hresult] using hcut.exceeds

/-- A run that goes on does not change what its sink is for. -/
theorem outlet_of_run : ∀ {ls : List Lexeme} {c : Compiler}, (c.run t ls).stopped = none →
    (c.run t ls).sink.outlet = c.sink.outlet
  | [], _, _ => rfl
  | l :: ls, c, h => by
      rw [Compiler.run_cons] at h ⊢
      obtain ⟨-, _, _, _, -, -, -, -, houtlet⟩ := Compiler.step_running (Compiler.running_of_run h)
      exact (outlet_of_run h).trans houtlet

theorem outlet_ofTokens (h : (ofTokens t tokens outlet).result = .ok ()) :
    (ofTokens t tokens outlet).sink.outlet = outlet := by
  rw [result_ofTokens_iff, Compiler.fault?, Option.or_eq_none_iff] at h
  rw [ofTokens_sink]
  exact outlet_of_run (c := start outlet) h.1

/-- Of accepted tokens only the outlet decides whether they are flushed. -/
theorem flush_ofTokens_iff (h : (ofTokens t tokens outlet).result = .ok ()) :
    (ofTokens t tokens outlet).flush.result = .ok () ↔ outlet.flushFails = false := by
  have houtlet := outlet_ofTokens h
  cases hf : outlet.flushFails with
  | false => simp [result_flush (c := ofTokens t tokens outlet) (by simp [houtlet, hf]), h]
  | true => simp [result_flush_of_ok h (by rw [houtlet, hf])]

/-- Accepted tokens are accepted under a new name, with the same code. -/
theorem ofTokens_rename {x y : Identifier} (hok : (ofTokens t tokens outlet).result = .ok ())
    (hprint : tokens.map (·.toLexeme) = c.print) (hx : x ∉ c.otherNames) (hy : y.lexeme ∉ c.print) :
    (ofTokens t (tokens.map (·.rename x y)) outlet).result = .ok () ∧
      (ofTokens t (tokens.map (·.rename x y)) outlet).sink.code =
        (ofTokens t tokens outlet).sink.code := by
  have hprint' : (tokens.map (·.rename x y)).map (·.toLexeme) = (c.rename x y).print := by
    rw [Class.print_rename, ← hprint, List.map_map, List.map_map]
    rfl
  obtain ⟨hvalid, hcode⟩ := valid_of_ofTokens hprint hok
  have hvalid' := hvalid.rename hx hy
  have hcode' : (c.rename x y).subroutines.flatMap
      (Subroutine.wordCode t.runtime (c.rename x y)) =
        c.subroutines.flatMap (Subroutine.wordCode t.runtime c) := by
    rw [Class.rename, List.flatMap_map]
    exact List.flatMap_congr fun s hs => Subroutine.wordCode_rename t.runtime hx hy hs
  have hok' : (ofTokens t (tokens.map (·.rename x y)) outlet).result = .ok () := by
    rw [ofTokens_ok_iff_fits hprint' hvalid', hcode']
    exact (ofTokens_ok_iff_fits hprint hvalid).mp hok
  refine ⟨hok', ?_⟩
  rw [(valid_of_ofTokens hprint' hok').2, hcode', hcode]

/-- The tokens of an accepted source text are a class. Where `x` names variables of it only,
they are accepted with a new name `y` in place of `x`, and have the same code. -/
theorem ofSource_rename {table : VariableTable} {source : String}
    (h : (ofSource t table source outlet).result = .ok ()) :
    ∃ tokens, ∃ c : Tree.Class, scan source = .ok tokens ∧ tokens.map (·.toLexeme) = c.print ∧
      ∀ x y : Identifier, x ∉ c.otherNames → (∀ token ∈ tokens, token.toLexeme ≠ y.lexeme) →
        (ofTokens t (tokens.map (·.rename x y)) outlet).flush.result = .ok () ∧
          (ofTokens t (tokens.map (·.rename x y)) outlet).flush.sink.code =
            (ofSource t table source outlet).sink.code := by
  obtain ⟨tokens, c, hscan, hprint, hok, hsink⟩ := exists_class_of_ofSource h
  have hsource : ofSource t table source outlet = (ofTokens t tokens outlet).flush := by
    simp only [ofSource, hscan]
  have hflush := (flush_ofTokens_iff hok).mp (hsource ▸ h)
  refine ⟨tokens, c, hscan, hprint, ?_⟩
  intro x y hx hy
  have hnew : y.lexeme ∉ c.print := by
    rw [← hprint]
    intro hmem
    obtain ⟨token, htoken, heq⟩ := List.mem_map.mp hmem
    exact hy token htoken heq
  obtain ⟨hok', hcode⟩ := ofTokens_rename hok hprint hx hnew
  exact ⟨(flush_ofTokens_iff hok').mpr hflush, by rw [sink_flush, hcode, hsink]⟩

/-- A class in which `x` is a field, and also a variable that hides the field. Both are called. -/
def shadowing : Tree.Class :=
  let p : Identifier := ⟨"P", by decide, by decide⟩
  let f : Identifier := ⟨"f", by decide, by decide⟩
  let a : Identifier := ⟨"a", by decide, by decide⟩
  let x : Identifier := ⟨"x", by decide, by decide⟩
  let call (e : Term) : Expression := .mk (.call (.dotted x f) (.cons (.mk e .nil) .nil)) .nil
  { name := p
    classVars := [.field ⟨.object p, x, []⟩]
    subroutines := [
      { kind := .method
        result := some (.object p)
        name := f
        parameters := [⟨.object p, a⟩]
        locals := [⟨.object p, x, []⟩]
        body := .cons (.letVar x (.mk (.var a) .nil)) (.cons (.returnValue (call (.var a))) .nil) },
      { kind := .method
        result := some (.object p)
        name := ⟨"g", by decide, by decide⟩
        parameters := []
        locals := []
        body := .cons (.returnValue (call (.constant .self))) .nil }] }

def shadowingSource : String :=
  "class P { field P x;
    method P f(P a) { var P x; let x = a; return x.f(a); }
    method P g() { return x.f(this); } }"

theorem ofSource_rename_shadowing :
    let x : Identifier := ⟨"x", by decide, by decide⟩
    let y : Identifier := ⟨"Math", by decide, by decide⟩
    ∃ tokens, scan shadowingSource = .ok tokens ∧ tokens.map (·.toLexeme) = shadowing.print ∧
      x ∉ shadowing.otherNames ∧ (∀ token ∈ tokens, token.toLexeme ≠ y.lexeme) ∧
      (ofTokens ⟨"P", {}⟩ (tokens.map (·.rename x y)) {}).flush.result = .ok () ∧
      (ofTokens ⟨"P", {}⟩ (tokens.map (·.rename x y)) {}).flush.sink.code =
        (ofSource ⟨"P", {}⟩ {} shadowingSource {}).sink.code := by
  intro x y
  have hok : (ofSource ⟨"P", {}⟩ {} shadowingSource {}).result = .ok () := by
    rw [ofSource_eq]
    exact result_eq_ok (by decide +kernel)
  obtain ⟨tokens, c, hscan, hprint, hrename⟩ := ofSource_rename hok
  -- The tree is the one written above, since different classes are printed differently.
  obtain rfl : c = shadowing := by
    have hall : (scan shadowingSource).toOption.map (·.map (·.toLexeme)) =
        some shadowing.print := by
      decide +kernel
    rw [hscan] at hall
    exact Class.print_injective (hprint.symm.trans (Option.some.inj hall))
  have hx : x ∉ shadowing.otherNames := by decide +kernel
  have hy : ∀ token ∈ tokens, token.toLexeme ≠ y.lexeme := by
    have hall : ∀ l ∈ shadowing.print, l ≠ y.lexeme := by decide +kernel
    rw [← hprint] at hall
    exact fun token htoken => hall _ (List.mem_map_of_mem htoken)
  exact ⟨tokens, hscan, hprint, hx, hy, hrename x y hx hy⟩

end Compilation

end JackVm
