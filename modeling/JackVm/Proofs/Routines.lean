import JackVm.Proofs.Acceptance
import JackVm.Proofs.Layout
import Mathlib.Data.List.Forall2

/-!
# The routines of a program

A program is cut into routines at its `function` lines. The program of an accepted
class is nothing but routines, one for each subroutine and in the same order, so what
holds of the routine of every valid subroutine holds of the program
(`routinewise_of_ofSource`).

Which instructions a body can be made of is said once (`Env.Evaluates`, `Env.Emits`):
variables that may be used, constants, the current object where there is one, the words
through which array elements are reached, and instructions that use no segment. What
all instructions of a body have in common is read off that list.
-/

namespace JackVm

/-- The instructions from a `function` line to the next one. -/
structure Routine where
  name : String
  locals : UInt32
  body : List Instruction
deriving DecidableEq, Repr

def Routine.code (b : Routine) : List Instruction := .function b.name b.locals :: b.body

def Instruction.isFunction : Instruction → Bool
  | .function _ _ => true
  | _ => false

/-- Cuts a program at its `function` lines. -/
def routines : List Instruction → List Routine
  | [] => []
  | i :: rest =>
      match i with
      | .function name locals =>
          ⟨name, locals, rest.takeWhile (!·.isFunction)⟩ :: routines rest
      | _ => routines rest

theorem routines_append {body : List Instruction} (h : ∀ i ∈ body, i.isFunction = false)
    (rest : List Instruction) : routines (body ++ rest) = routines rest := by
  induction body with
  | nil => rfl
  | cons i body ih =>
      have hi : i.isFunction = false := h i List.mem_cons_self
      have hbody := ih fun j hj => h j (List.mem_cons_of_mem _ hj)
      cases i with
      | function name locals => cases hi
      | _ => exact hbody

/-- Routines one after the other are found again. -/
theorem routines_flatMap : ∀ {bs : List Routine},
    (∀ b ∈ bs, ∀ i ∈ b.body, i.isFunction = false) → routines (bs.flatMap Routine.code) = bs
  | [], _ => rfl
  | b :: bs, h => by
      have hb : ∀ i ∈ b.body, i.isFunction = false := h b List.mem_cons_self
      have hbs := routines_flatMap fun b' hb' => h b' (List.mem_cons_of_mem _ hb')
      have hbody : (b.body ++ bs.flatMap Routine.code).takeWhile (!·.isFunction) = b.body := by
        rw [List.takeWhile_append_of_pos (by simpa using hb)]
        cases bs with
        | nil => exact List.append_nil _
        | cons b' bs' => simp [Routine.code, Instruction.isFunction]
      rw [List.flatMap_cons, Routine.code, List.cons_append, routines, hbody,
        routines_append hb, hbs]

namespace Tree

/-! ## What a body is made of -/

/-- The instructions that expression code is made of. An element of an array is
reached through pointer 1. -/
inductive Env.Evaluates (env : Env) : Instruction → Prop where
  | load {x : String} {v : Slot} (hv : env.find? x = some v) (hadmits : env.Admits v) :
      env.Evaluates (.push (home v.storage) (UInt32.ofNat v.index))
  | constant (n : UInt32) : env.Evaluates (.push .constant n)
  | self (hobject : env.HasObject) : env.Evaluates (.push .pointer 0)
  | address : env.Evaluates (.pop .pointer 1)
  | element : env.Evaluates (.push .that 0)
  | command (c : Command) : env.Evaluates (.command c)
  | call (name : String) (n : UInt32) : env.Evaluates (.call name n)

/-- The instructions that the body of a subroutine is made of. The new value of an
element waits in the first temporary. -/
inductive Env.Emits (env : Env) : Instruction → Prop where
  | evaluate {i : Instruction} (hi : env.Evaluates i) : env.Emits i
  | store {x : String} {v : Slot} (hv : env.find? x = some v) (hadmits : env.Admits v) :
      env.Emits (.pop (home v.storage) (UInt32.ofNat v.index))
  | setElement : env.Emits (.pop .that 0)
  | value : env.Emits (.push .temp 0)
  | setValue : env.Emits (.pop .temp 0)
  | label (name : String) : env.Emits (.label name)
  | goto (name : String) : env.Emits (.goto name)
  | ifGoto (name : String) : env.Emits (.ifGoto name)
  | ret : env.Emits .ret

attribute [simp] Env.Evaluates.constant Env.Evaluates.address Env.Evaluates.element
  Env.Evaluates.command Env.Evaluates.call Env.Emits.evaluate Env.Emits.setElement
  Env.Emits.value Env.Emits.setValue Env.Emits.label Env.Emits.goto Env.Emits.ifGoto Env.Emits.ret

section
variable {env : Env} {r : Runtime} {label : Tag → Nat → String}

theorem evaluates_load {x : Identifier} (hx : env.Uses x) :
    ∀ i ∈ env.load x.text, env.Evaluates i := by
  obtain ⟨v, hv, hadmits⟩ := hx
  intro i hi
  rw [Env.load, hv, List.mem_singleton] at hi
  rw [hi]
  exact .load hv hadmits

theorem emits_store {x : Identifier} (hx : env.Uses x) :
    ∀ i ∈ env.store x.text, env.Emits i := by
  obtain ⟨v, hv, hadmits⟩ := hx
  intro i hi
  rw [Env.store, hv, List.mem_singleton] at hi
  rw [hi]
  exact .store hv hadmits

theorem evaluates_receiver {f : CallName} (hf : env.Calls f) :
    ∀ i ∈ env.receiver f, env.Evaluates i := by
  cases f with
  | bare name =>
      intro i hi
      rw [Env.receiver, List.mem_singleton] at hi
      rw [hi]
      exact .self hf
  | dotted x name =>
      cases hv : env.find? x.text with
      | none => simp [Env.receiver, Env.load, hv]
      | some v => exact evaluates_load ⟨v, hv, (hf v hv).2⟩

theorem evaluates_constantCode {c : KeywordConstant} (hc : c = .self → env.HasObject) :
    ∀ i ∈ constantCode c, env.Evaluates i := by
  cases c with
  | self =>
      have hself : env.Evaluates (.push .pointer 0) := .self (hc rfl)
      simp [constantCode, hself]
  | _ => simp [constantCode]

theorem evaluates_textCode (text : String) : ∀ i ∈ textCode r text, env.Evaluates i := by
  rw [textCode, List.forall_mem_append]
  refine ⟨by simp, ?_⟩
  intro i hi
  obtain ⟨c, -, hc⟩ := List.mem_flatMap.mp hi
  simp only [List.mem_cons, List.not_mem_nil, or_false] at hc
  rcases hc with rfl | rfl
  · exact .constant _
  · exact .call _ _

theorem evaluates_unaryCommand (op : UnaryOp) : env.Evaluates (unaryCommand op) := by
  cases op <;> exact .command _

theorem evaluates_binaryCommand (op : BinaryOp) : env.Evaluates (binaryCommand r op) := by
  cases op with
  | mul => exact .call _ _
  | div => exact .call _ _
  | _ => exact .command _

mutual
theorem Term.evaluates : ∀ t : Term, t.Valid env → ∀ i ∈ t.code env r, env.Evaluates i
  | .integer n, _ => by simp [Term.code]
  | .string text, _ => evaluates_textCode text
  | .constant c, h => evaluates_constantCode h
  | .var x, h => evaluates_load h
  | .element x e, h => by
      rw [Term.code, List.forall_mem_append, List.forall_mem_append]
      exact ⟨⟨evaluates_load h.1, Expression.evaluates e h.2⟩, by simp⟩
  | .call f args, h => by
      rw [Term.code, List.forall_mem_append, List.forall_mem_append]
      exact ⟨⟨evaluates_receiver h.1, ArgumentList.evaluates args h.2⟩, by simp⟩
  | .group e, h => Expression.evaluates e h
  | .unary op t, h => by
      rw [Term.code, List.forall_mem_append, List.forall_mem_singleton]
      exact ⟨Term.evaluates t h, evaluates_unaryCommand op⟩
theorem Expression.evaluates : ∀ e : Expression, e.Valid env →
    ∀ i ∈ e.code env r, env.Evaluates i
  | .mk first rest, h => by
      rw [Expression.code, List.forall_mem_append]
      exact ⟨Term.evaluates first h.1, Operations.evaluates rest h.2⟩
theorem Operations.evaluates : ∀ o : Operations, o.Valid env →
    ∀ i ∈ o.code env r, env.Evaluates i
  | .nil, _ => by simp [Operations.code]
  | .cons op t rest, h => by
      rw [Operations.code, List.forall_mem_append, List.forall_mem_append,
        List.forall_mem_singleton]
      exact ⟨⟨Term.evaluates t h.1, evaluates_binaryCommand op⟩, Operations.evaluates rest h.2⟩
theorem ArgumentList.evaluates : ∀ a : ArgumentList, a.Valid env →
    ∀ i ∈ a.code env r, env.Evaluates i
  | .nil, _ => by simp [ArgumentList.code]
  | .cons e rest, h => by
      rw [ArgumentList.code, List.forall_mem_append]
      exact ⟨Expression.evaluates e h.1, ArgumentList.evaluates rest h.2⟩
end

theorem emits_load {x : Identifier} (hx : env.Uses x) : ∀ i ∈ env.load x.text, env.Emits i :=
  fun i hi => .evaluate (evaluates_load hx i hi)

theorem Expression.emits {e : Expression} (he : e.Valid env) : ∀ i ∈ e.code env r, env.Emits i :=
  fun i hi => .evaluate (e.evaluates he i hi)

mutual
theorem Statement.emits : ∀ (s : Statement) (k : Nat), s.Valid env →
    ∀ i ∈ s.code env r label k, env.Emits i
  | .letVar x e, _, h => by
      rw [Statement.code, List.forall_mem_append]
      exact ⟨Expression.emits h.2, emits_store h.1⟩
  | .letElement x j e, _, h => by
      simp only [Statement.code, List.forall_mem_append]
      exact ⟨⟨⟨⟨emits_load h.1, Expression.emits h.2.1⟩, by simp⟩, Expression.emits h.2.2⟩,
        by simp⟩
  | .ifThen c b, k, h => by
      simp only [Statement.code, List.forall_mem_append]
      exact ⟨⟨⟨Expression.emits h.1, by simp⟩, StatementList.emits b (k + 2) h.2⟩, by simp⟩
  | .ifElse c b b', k, h => by
      simp only [Statement.code, List.forall_mem_append]
      exact ⟨⟨⟨⟨⟨Expression.emits h.1, by simp⟩, StatementList.emits b (k + 2) h.2.1⟩, by simp⟩,
        StatementList.emits b' _ h.2.2⟩, by simp⟩
  | .whileDo c b, k, h => by
      simp only [Statement.code, List.forall_mem_append]
      exact ⟨⟨⟨⟨by simp, Expression.emits h.1⟩, by simp⟩, StatementList.emits b (k + 2) h.2⟩,
        by simp⟩
  | .doCall f args, _, h => by
      rw [Statement.code, List.forall_mem_append]
      exact ⟨fun i hi => .evaluate ((Term.call f args).evaluates h i hi), by simp⟩
  | .returnNothing, _, _ => by simp [Statement.code]
  | .returnValue e, _, h => by
      rw [Statement.code, List.forall_mem_append]
      exact ⟨Expression.emits h.2, by simp⟩
theorem StatementList.emits : ∀ (ss : StatementList) (k : Nat), ss.Valid env →
    ∀ i ∈ ss.code env r label k, env.Emits i
  | .nil, _, _ => by simp [StatementList.code]
  | .cons s rest, k, h => by
      rw [StatementList.code, List.forall_mem_append]
      exact ⟨Statement.emits s k h.1, StatementList.emits rest _ h.2⟩
end

theorem Env.Emits.isFunction_eq {i : Instruction} (h : env.Emits i) : i.isFunction = false := by
  cases h with
  | evaluate hi => cases hi <;> rfl
  | _ => rfl

end

/-! ## The routine of a subroutine -/

/-- The code that binds the current object, right after the `function` line. -/
def Env.binding (env : Env) (r : Runtime) : List Instruction :=
  match env.kind with
  | .constructor =>
      [.push .constant (UInt32.ofNat (countOf .field env.ofClass)),
        .call (r.memory ++ ".alloc") 1, .pop .pointer 0]
  | .method => [.push .argument 0, .pop .pointer 0]
  | .function => []

/-- The routine of a subroutine of the class `c`, with its labels named by `label`. -/
def Subroutine.routine (r : Runtime) (c : Class) (label : Tag → Nat → String)
    (sub : Subroutine) : Routine where
  name := c.name.text ++ "." ++ sub.name.text
  locals := UInt32.ofNat (countOf .var (c.env sub).ofSubroutine)
  body := (c.env sub).binding r ++ sub.body.code (c.env sub) r label 0

theorem Env.isFunction_binding (env : Env) (r : Runtime) :
    ∀ i ∈ env.binding r, i.isFunction = false := by
  unfold Env.binding
  cases env.kind <;> simp [Instruction.isFunction]

theorem Subroutine.isFunction_routine {c : Class} {sub : Subroutine} (h : sub.Valid c)
    (r : Runtime) (label : Tag → Nat → String) :
    ∀ i ∈ (sub.routine r c label).body, i.isFunction = false := by
  rw [Subroutine.routine, List.forall_mem_append]
  refine ⟨Env.isFunction_binding _ _, ?_⟩
  intro i hi
  exact (sub.body.emits 0 h.body i hi).isFunction_eq

/-- A program is nothing but routines, one for each subroutine of the class, in the same
order and named after it, and `P` holds of each subroutine and its routine. -/
structure Class.Routinewise (c : Class) (P : Subroutine → Routine → Prop)
    (code : List Instruction) : Prop where
  covers : (routines code).flatMap Routine.code = code
  each : List.Forall₂ (fun sub b => b.name = c.name.text ++ "." ++ sub.name.text ∧ P sub b)
    c.subroutines (routines code)

theorem Class.routinewise {c : Class} {name : String} (hvalid : c.Valid name) (r : Runtime)
    (label : Subroutine → Tag → Nat → String) {P : Subroutine → Routine → Prop}
    (hP : ∀ sub ∈ c.subroutines, P sub (sub.routine r c (label sub))) :
    c.Routinewise P (c.subroutines.flatMap fun sub => (sub.routine r c (label sub)).code) := by
  have hcode : (c.subroutines.flatMap fun sub => (sub.routine r c (label sub)).code) =
      (c.subroutines.map fun sub => sub.routine r c (label sub)).flatMap Routine.code := by
    rw [List.flatMap_map]
  have hroutines : routines ((c.subroutines.map fun sub => sub.routine r c (label sub)).flatMap
      Routine.code) = c.subroutines.map fun sub => sub.routine r c (label sub) := by
    apply routines_flatMap
    intro b hb
    obtain ⟨sub, hsub, rfl⟩ := List.mem_map.mp hb
    exact sub.isFunction_routine (hvalid.subroutines sub hsub) r (label sub)
  rw [hcode]
  refine ⟨by rw [hroutines], ?_⟩
  rw [hroutines, List.forall₂_map_right_iff, List.forall₂_same]
  exact fun sub hsub => ⟨rfl, hP sub hsub⟩

end Tree

namespace Compilation

open JackVm.Tree

variable {t : Target} {table : VariableTable} {source : String} {outlet : Outlet}

/-- What holds of the routines of all subroutines that obey the rules holds of the
program of every accepted source text. -/
theorem routinewise_of_ofSource {P : Tree.Class → Subroutine → Routine → Prop}
    (h : (ofSource t table source outlet).result = .ok ())
    (hP : ∀ (c : Tree.Class) (sub : Subroutine), c.Valid t.className → sub ∈ c.subroutines →
      P c sub (sub.routine t.runtime c (c.env sub).wordLabel)) :
    ∃ tokens, ∃ c : Tree.Class, scan source = .ok tokens ∧ tokens.map (·.toLexeme) = c.print ∧
      c.Routinewise (P c) (ofSource t table source outlet).sink.code := by
  obtain ⟨tokens, c, hscan, hprint, hok, hsink⟩ := exists_class_of_ofSource h
  obtain ⟨hvalid, hcode⟩ := valid_of_ofTokens hprint hok
  refine ⟨tokens, c, hscan, hprint, ?_⟩
  rw [hsink, hcode]
  exact Class.routinewise hvalid t.runtime (fun sub => (c.env sub).wordLabel)
    fun sub hsub => hP c sub hvalid hsub

/-- The same where the source text is too short for the counters to wrap. -/
theorem routinewise_of_short {P : Tree.Class → Subroutine → Routine → Prop}
    (h : (ofSource t table source outlet).result = .ok ()) (hlength : source.length < UInt32.size)
    (hP : ∀ (c : Tree.Class) (sub : Subroutine), c.Valid t.className → sub ∈ c.subroutines →
      c.print.length < UInt32.size → P c sub (sub.routine t.runtime c (c.env sub).label)) :
    ∃ tokens, ∃ c : Tree.Class, scan source = .ok tokens ∧ tokens.map (·.toLexeme) = c.print ∧
      c.Routinewise (P c) (ofSource t table source outlet).sink.code := by
  obtain ⟨tokens, c, hscan, hprint, hvalid, hbound, hcode⟩ := exists_code_of_ofSource h hlength
  refine ⟨tokens, c, hscan, hprint, ?_⟩
  rw [hcode]
  exact Class.routinewise hvalid t.runtime (fun sub => (c.env sub).label)
    fun sub hsub => hP c sub hvalid hsub hbound

/-- The source text of a class with subroutines of all kinds, a loop, an array element
and calls. -/
def tableSource : String :=
  "class T{field Array a;constructor T new(){return this;}
method int at(int i){while(i<0){let i=at(2);}return a[i];}
function T make(){return T.new();}}"

theorem result_tableSource : (ofSource ⟨"T", {}⟩ {} tableSource {}).result = .ok () := by
  rw [ofSource_eq]
  exact result_eq_ok (by decide +kernel)

theorem length_tableSource : tableSource.length < UInt32.size := by decide +kernel

end Compilation

end JackVm
