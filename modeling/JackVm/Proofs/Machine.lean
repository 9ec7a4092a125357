import JackVm.Instruction
import Mathlib.Logic.Function.Basic
import Mathlib.Logic.Relation

/-!
# The stack machine

A machine with 16-bit words runs the code of one subroutine. What a call does is
left open: it is any function of the name, of the passed words and of the global
memory, and it keeps the frame of the caller.

An instruction that neither jumps nor returns has an effect on the state alone.
Code made of such instructions runs from its first to its last
(`reaches_of_execute`), wherever it stands.
-/

namespace JackVm

abbrev Word := BitVec 16

/-- The memory that all subroutines share. -/
structure Memory where
  heap : Word → Word
  static : Nat → Word

/-- What belongs to one run of a subroutine: its arguments, its local variables and
the current object, pointer 0. -/
structure Frame where
  argument : Nat → Word
  locals : Nat → Word
  this : Word

/-- All of the machine but the place in the code. The top of the stack comes first;
`that` is pointer 1. -/
structure State where
  stack : List Word
  frame : Frame
  memory : Memory
  that : Word
  temp : Nat → Word

/-- What calls do: from the name, the passed words, the first one first, and the
memory to the result and the new memory. -/
abbrev Calls := String → List Word → Memory → Word × Memory

/-! ## Instructions -/

/-- The word of a truth value. -/
def truthWord (b : Bool) : Word := if b then BitVec.allOnes 16 else 0

/-- A command on the stack. -/
def Command.apply : Command → List Word → Option (List Word)
  | .add, y :: x :: rest => some ((x + y) :: rest)
  | .sub, y :: x :: rest => some ((x - y) :: rest)
  | .neg, x :: rest => some (-x :: rest)
  | .eq, y :: x :: rest => some (truthWord (x == y) :: rest)
  | .gt, y :: x :: rest => some (truthWord (y.slt x) :: rest)
  | .lt, y :: x :: rest => some (truthWord (x.slt y) :: rest)
  | .and, y :: x :: rest => some ((x &&& y) :: rest)
  | .or, y :: x :: rest => some ((x ||| y) :: rest)
  | .not, x :: rest => some (~~~x :: rest)
  | _, _ => none

namespace Memory

def setHeap (m : Memory) (address v : Word) : Memory :=
  { m with heap := Function.update m.heap address v }

def setStatic (m : Memory) (i : Nat) (v : Word) : Memory :=
  { m with static := Function.update m.static i v }

end Memory

namespace State

/-- The word at an index of a segment. -/
def read (s : State) : Segment → Nat → Option Word
  | .constant, i => some (BitVec.ofNat 16 i)
  | .argument, i => some (s.frame.argument i)
  | .locals, i => some (s.frame.locals i)
  | .static, i => some (s.memory.static i)
  | .this, i => some (s.memory.heap (s.frame.this + BitVec.ofNat 16 i))
  | .that, i => some (s.memory.heap (s.that + BitVec.ofNat 16 i))
  | .pointer, 0 => some s.frame.this
  | .pointer, 1 => some s.that
  | .pointer, _ => none
  | .temp, i => some (s.temp i)

/-- Changes the word at an index of a segment. -/
def write (s : State) (v : Word) : Segment → Nat → Option State
  | .constant, _ => none
  | .argument, i =>
      some { s with frame := { s.frame with argument := Function.update s.frame.argument i v } }
  | .locals, i =>
      some { s with frame := { s.frame with locals := Function.update s.frame.locals i v } }
  | .static, i => some { s with memory := s.memory.setStatic i v }
  | .this, i => some { s with memory := s.memory.setHeap (s.frame.this + BitVec.ofNat 16 i) v }
  | .that, i => some { s with memory := s.memory.setHeap (s.that + BitVec.ofNat 16 i) v }
  | .pointer, 0 => some { s with frame := { s.frame with this := v } }
  | .pointer, 1 => some { s with that := v }
  | .pointer, _ => none
  | .temp, i => some { s with temp := Function.update s.temp i v }

/-- Replaces the `n` topmost words by the result of a call. -/
def call (s : State) (calls : Calls) (name : String) (n : Nat) : State :=
  let result := calls name (s.stack.take n).reverse s.memory
  { s with stack := result.1 :: s.stack.drop n, memory := result.2 }

end State

/-- The effect of an instruction that neither jumps nor returns. -/
def effect (calls : Calls) : Instruction → State → Option State
  | .push segment i, s => (s.read segment i.toNat).map fun v => { s with stack := v :: s.stack }
  | .pop segment i, s =>
      match s.stack with
      | v :: rest => { s with stack := rest }.write v segment i.toNat
      | [] => none
  | .command c, s => (c.apply s.stack).map fun stack => { s with stack := stack }
  | .label _, s => some s
  | .call name n, s => if n.toNat ≤ s.stack.length then some (s.call calls name n.toNat) else none
  | .function _ n, s =>
      let locals i := if i < n.toNat then 0 else s.frame.locals i
      some { s with frame := { s.frame with locals := locals } }
  | .goto _, _ | .ifGoto _, _ | .ret, _ => none

/-- The effect of instructions one after the other. -/
def execute (calls : Calls) : List Instruction → State → Option State
  | [], s => some s
  | i :: code, s => (effect calls i s).bind (execute calls code)

/-! ## Runs -/

/-- The machine at a place in its code. -/
structure Machine where
  pc : Nat
  state : State

/-- The name of a label. -/
def Instruction.labelName? : Instruction → Option String
  | .label name => some name
  | _ => none

/-- The names of the labels in a piece of code. -/
def labelNames (code : List Instruction) : List String := code.filterMap Instruction.labelName?

@[simp] theorem labelNames_nil : labelNames [] = [] := rfl

@[simp] theorem labelNames_append (code code' : List Instruction) :
    labelNames (code ++ code') = labelNames code ++ labelNames code' :=
  List.filterMap_append

theorem labelNames_cons (i : Instruction) (code : List Instruction) :
    labelNames (i :: code) = i.labelName?.toList ++ labelNames code := by
  unfold labelNames
  rw [List.filterMap_cons]
  cases i.labelName? <;> rfl

/-- Where a label stands in the code of a subroutine. -/
def labelIndex? (code : List Instruction) (name : String) : Option Nat :=
  code.idxOf? (.label name)

/-- One step. There is none from a return, from the end of the code, and where an
instruction finds too few words on the stack. -/
def Machine.step (calls : Calls) (code : List Instruction) (m : Machine) : Option Machine :=
  match code[m.pc]? with
  | none | some .ret => none
  | some (.goto name) => (labelIndex? code name).map (⟨·, m.state⟩)
  | some (.ifGoto name) =>
      match m.state.stack with
      | [] => none
      | v :: rest =>
          if v = 0 then some ⟨m.pc + 1, { m.state with stack := rest }⟩
          else (labelIndex? code name).map (⟨·, { m.state with stack := rest }⟩)
  | some i => (effect calls i m.state).map (⟨m.pc + 1, ·⟩)

/-- The machine gets from one place to another. -/
def Reaches (calls : Calls) (code : List Instruction) : Machine → Machine → Prop :=
  Relation.ReflTransGen fun m m' => m.step calls code = some m'

/-- The instructions `part` stand in the code from index `pc` on. -/
def CodeAt (code : List Instruction) (pc : Nat) (part : List Instruction) : Prop :=
  ∃ before after, code = before ++ part ++ after ∧ before.length = pc

section
variable {calls : Calls} {code part part' : List Instruction} {pc : Nat} {i : Instruction}
  {s s' : State}

theorem execute_append (s : State) : ∀ {part part' : List Instruction},
    execute calls (part ++ part') s = (execute calls part s).bind (execute calls part')
  | [], _ => rfl
  | i :: part, part' => by
      simp only [List.cons_append, execute, Option.bind_assoc]
      congr 1
      funext s'
      exact execute_append s'

theorem CodeAt.left (h : CodeAt code pc (part ++ part')) : CodeAt code pc part := by
  obtain ⟨before, after, rfl, hpc⟩ := h
  exact ⟨before, part' ++ after, by simp, hpc⟩

theorem CodeAt.right (h : CodeAt code pc (part ++ part')) :
    CodeAt code (pc + part.length) part' := by
  obtain ⟨before, after, rfl, rfl⟩ := h
  exact ⟨before ++ part, after, by simp, by simp⟩

theorem CodeAt.getElem? (h : CodeAt code pc (i :: part)) : code[pc]? = some i := by
  obtain ⟨before, after, rfl, rfl⟩ := h
  simp

theorem CodeAt.tail (h : CodeAt code pc (i :: part)) : CodeAt code (pc + 1) part := by
  have hcons : CodeAt code pc ([i] ++ part) := h
  exact hcons.right

/-- An instruction with an effect takes the machine to the next one. -/
theorem step_of_effect (hi : code[pc]? = some i) (h : effect calls i s = some s') :
    Machine.step calls code ⟨pc, s⟩ = some ⟨pc + 1, s'⟩ := by
  unfold Machine.step
  rw [hi]
  cases i with
  | goto name => simp [effect] at h
  | ifGoto name => simp [effect] at h
  | ret => simp [effect] at h
  | _ => simp only [h, Option.map_some]

/-- Code without jumps runs from its start to its end. -/
theorem reaches_of_execute : ∀ {part : List Instruction} {pc : Nat} {s : State},
    CodeAt code pc part → execute calls part s = some s' →
      Reaches calls code ⟨pc, s⟩ ⟨pc + part.length, s'⟩
  | [], pc, s, _, h => by
      obtain rfl : s = s' := Option.some.inj h
      exact Relation.ReflTransGen.refl
  | i :: part, pc, s, hcode, h => by
      obtain ⟨m, hi, hrest⟩ := Option.bind_eq_some_iff.mp h
      have hpart := reaches_of_execute hcode.tail hrest
      rw [Nat.add_right_comm, Nat.add_assoc] at hpart
      exact .head (step_of_effect hcode.getElem? hi) hpart

theorem reaches_goto {name : String} {target : Nat} (h : CodeAt code pc (.goto name :: part))
    (htarget : labelIndex? code name = some target) :
    Reaches calls code ⟨pc, s⟩ ⟨target, s⟩ := by
  apply Relation.ReflTransGen.single
  simp only [Machine.step, h.getElem?, htarget, Option.map_some]

theorem reaches_label {name : String} (h : CodeAt code pc (.label name :: part)) :
    Reaches calls code ⟨pc, s⟩ ⟨pc + 1, s⟩ :=
  Relation.ReflTransGen.single (step_of_effect h.getElem? rfl)

/-- A conditional jump goes on when the word on the stack is zero. -/
theorem reaches_ifGoto_zero {name : String} {rest : List Word}
    (h : CodeAt code pc (.ifGoto name :: part)) (hs : s.stack = 0 :: rest) :
    Reaches calls code ⟨pc, s⟩ ⟨pc + 1, { s with stack := rest }⟩ := by
  apply Relation.ReflTransGen.single
  simp only [Machine.step, h.getElem?, hs, if_true]

theorem reaches_ifGoto {name : String} {target : Nat} {v : Word} {rest : List Word}
    (h : CodeAt code pc (.ifGoto name :: part)) (hs : s.stack = v :: rest) (hv : v ≠ 0)
    (htarget : labelIndex? code name = some target) :
    Reaches calls code ⟨pc, s⟩ ⟨target, { s with stack := rest }⟩ := by
  apply Relation.ReflTransGen.single
  simp only [Machine.step, h.getElem?, hs, if_neg hv, htarget, Option.map_some]

/-- Where all labels differ, a label is found where it stands. -/
theorem labelIndex?_of_codeAt {name : String} (h : CodeAt code pc (.label name :: part))
    (hnodup : (labelNames code).Nodup) : labelIndex? code name = some pc := by
  obtain ⟨before, after, rfl, rfl⟩ := h
  -- the label would stand twice
  have hbefore : .label name ∉ before := by
    intro hmem
    rw [List.append_assoc, labelNames_append, List.nodup_append] at hnodup
    have hname : name ∈ labelNames before := List.mem_filterMap.mpr ⟨_, hmem, rfl⟩
    exact hnodup.2.2 _ hname name (by simp [labelNames_cons, Instruction.labelName?]) rfl
  have hnone : before.idxOf? (.label name) = none := List.idxOf?_eq_none_iff.mpr hbefore
  rw [List.idxOf?] at hnone
  rw [labelIndex?, List.idxOf?, List.append_assoc, List.findIdx?_append, hnone]
  simp [List.findIdx?_cons]

end

end JackVm
