import JackVm.Proofs.Acceptance
import JackVm.Proofs.Layout
import JackVm.Proofs.Machine

/-!
# Expression code computes the expression

Expressions are evaluated on the tree: operands from left to right, no operator
before another, the base of an array element before its index. Main statement:
the code of every expression in an accepted class leaves the value of the
expression on the stack and the memory as the evaluation left it
(`ofSource_computes_expressions`).

Expression code does not jump, so what it computes is said without a place in the
code. It may change pointer 1, through which array elements are read.
-/

namespace JackVm.Tree

/-! ## Values -/

/-- The value of a variable. -/
def Slot.value (v : Slot) (frame : Frame) (m : Memory) : Word :=
  match v.storage with
  | .static => m.static v.index
  | .field => m.heap (frame.this + BitVec.ofNat 16 v.index)
  | .argument => frame.argument v.index
  | .var => frame.locals v.index

/-- The value of the variable a name stands for. -/
def Env.value (env : Env) (frame : Frame) (x : Identifier) (m : Memory) : Word :=
  match env.find? x.text with
  | some v => v.value frame m
  | none => 0

/-- The object that a call passes on before its arguments. -/
def Env.receiverValues (env : Env) (frame : Frame) (m : Memory) : CallName → List Word
  | .bare _ => [frame.this]
  | .dotted x _ =>
      match env.find? x.text with
      | some v => [v.value frame m]
      | none => []

def constantValue (frame : Frame) : KeywordConstant → Word
  | .truth => BitVec.allOnes 16
  | .falsity | .null => 0
  | .self => frame.this

def unaryValue : UnaryOp → Word → Word
  | .neg, v => -v
  | .not, v => ~~~v

section
variable (r : Runtime) (calls : Calls)

def binaryValue : BinaryOp → Word → Word → Memory → Word × Memory
  | .add, v, w, m => (v + w, m)
  | .sub, v, w, m => (v - w, m)
  | .mul, v, w, m => calls (r.math ++ ".multiply") [v, w] m
  | .div, v, w, m => calls (r.math ++ ".divide") [v, w] m
  | .and, v, w, m => (v &&& w, m)
  | .or, v, w, m => (v ||| w, m)
  | .lt, v, w, m => (truthWord (v.slt w), m)
  | .gt, v, w, m => (truthWord (w.slt v), m)
  | .eq, v, w, m => (truthWord (v == w), m)

/-- Appends a character to a string. -/
def appendChar (string : Word × Memory) (c : Char) : Word × Memory :=
  calls (r.string ++ ".appendChar") [string.1, BitVec.ofNat 16 c.toNat] string.2

/-- A new string, to which the characters of the text are appended. -/
def textValue (text : String) (m : Memory) : Word × Memory :=
  text.toList.foldl (appendChar r calls)
    (calls (r.string ++ ".new") [BitVec.ofNat 16 text.length] m)

end

section
variable (env : Env) (r : Runtime) (calls : Calls) (frame : Frame)

mutual
def Term.eval : Term → Memory → Word × Memory
  | .integer n, m => (BitVec.ofNat 16 n.value, m)
  | .string text, m => textValue r calls text m
  | .constant c, m => (constantValue frame c, m)
  | .var x, m => (env.value frame x m, m)
  | .element x i, m =>
      let base := env.value frame x m
      let (index, m) := i.eval m
      (m.heap (base + index), m)
  | .call f args, m =>
      let receiver := env.receiverValues frame m f
      let (vs, m) := args.eval m
      calls (env.callee f) (receiver ++ vs) m
  | .group e, m => e.eval m
  | .unary op t, m =>
      let (v, m) := t.eval m
      (unaryValue op v, m)
def Expression.eval : Expression → Memory → Word × Memory
  | .mk first rest, m =>
      let (v, m) := first.eval m
      rest.eval v m
/-- What the operations make of the value of the first operand. -/
def Operations.eval : Operations → Word → Memory → Word × Memory
  | .nil, v, m => (v, m)
  | .cons op t rest, v, m =>
      let (w, m) := t.eval m
      let (v, m) := binaryValue r calls op v w m
      rest.eval v m
def ArgumentList.eval : ArgumentList → Memory → List Word × Memory
  | .nil, m => ([], m)
  | .cons e rest, m =>
      let (v, m) := e.eval m
      let (vs, m) := rest.eval m
      (v :: vs, m)
end

end

end JackVm.Tree

namespace JackVm

open JackVm.Tree

/-! ## Code without jumps -/

/-- From the state `s` the code leads to the stack and the memory given, and changes
nothing else but pointer 1. -/
def Computes (calls : Calls) (code : List Instruction) (s : State) (stack : List Word)
    (m : Memory) : Prop :=
  ∃ that, execute calls code s = some { s with stack := stack, memory := m, that := that }

section
variable {calls : Calls} {code code' : List Instruction} {i : Instruction} {s : State}
  {stack stack' : List Word} {m m' : Memory}

theorem Computes.nil (hs : s.stack = stack) : Computes calls [] s stack s.memory := by
  subst hs
  exact ⟨s.that, rfl⟩

theorem Computes.append (h : Computes calls code s stack m)
    (h' : ∀ that, Computes calls code' { s with stack := stack, memory := m, that := that }
      stack' m') : Computes calls (code ++ code') s stack' m' := by
  obtain ⟨that, hcode⟩ := h
  obtain ⟨that', hcode'⟩ := h' that
  refine ⟨that', ?_⟩
  rw [execute_append, hcode]
  exact hcode'

theorem Computes.of_effect
    (h : effect calls i s = some { s with stack := stack, memory := m }) :
    Computes calls [i] s stack m := by
  refine ⟨s.that, ?_⟩
  rw [execute, h]
  rfl

/-- A constant keeps its low 16 bits, so the width of its index does not matter. -/
theorem ofNat_toNat_ofNat (n : Nat) :
    BitVec.ofNat 16 (UInt32.ofNat n).toNat = BitVec.ofNat 16 n := by
  apply BitVec.eq_of_toNat_eq
  rw [BitVec.toNat_ofNat, BitVec.toNat_ofNat, UInt32.toNat_ofNat']
  exact Nat.mod_mod_of_dvd n (by decide)

theorem computes_constant (n : Nat) :
    Computes calls [.push .constant (UInt32.ofNat n)] s (BitVec.ofNat 16 n :: s.stack)
      s.memory := by
  apply Computes.of_effect
  rw [effect, State.read, ofNat_toNat_ofNat]
  rfl

/-- A call replaces the words it is passed by its result. -/
theorem computes_call {name : String} (vs : List Word) {rest : List Word} {n : UInt32}
    (hn : n.toNat = vs.length) (hs : s.stack = vs.reverse ++ rest) :
    Computes calls [.call name n] s ((calls name vs s.memory).1 :: rest)
      (calls name vs s.memory).2 := by
  have hlength : n.toNat ≤ s.stack.length := by
    rw [hs, List.length_append, List.length_reverse]
    omega
  have htake : (s.stack.take n.toNat).reverse = vs := by
    rw [hs, hn, List.take_left' List.length_reverse, List.reverse_reverse]
  have hdrop : s.stack.drop n.toNat = rest := by
    rw [hs, hn, List.drop_left' List.length_reverse]
  apply Computes.of_effect
  rw [effect, if_pos hlength, State.call, htake, hdrop]

end

/-! ## Leaves -/

section
variable {env : Env} {r : Runtime} {calls : Calls} {s : State}

theorem computes_slot {v : Slot} (hv : v.index < UInt32.size) :
    Computes calls [.push (home v.storage) (UInt32.ofNat v.index)] s
      (v.value s.frame s.memory :: s.stack) s.memory := by
  apply Computes.of_effect
  obtain ⟨type, storage, index⟩ := v
  cases storage with
  | _ =>
      simp only [effect, home, State.read, UInt32.toNat_ofNat_of_lt' hv, Slot.value,
        Option.map_some]

theorem computes_load (hfits : env.Fits) {x : Identifier} (hx : env.Uses x) :
    Computes calls (env.load x.text) s (env.value s.frame x s.memory :: s.stack) s.memory := by
  obtain ⟨v, hv, -⟩ := hx
  rw [Env.load, Env.value, hv]
  exact computes_slot (hfits _ _ hv)

theorem computes_receiver (hfits : env.Fits) (f : CallName) :
    Computes calls (env.receiver f) s
      ((env.receiverValues s.frame s.memory f).reverse ++ s.stack) s.memory := by
  cases f with
  | bare f => exact Computes.of_effect rfl
  | dotted x f =>
      rw [Env.receiver, Env.load, Env.receiverValues]
      cases hv : env.find? x.text with
      | none => exact Computes.nil rfl
      | some v => exact computes_slot (hfits _ _ hv)

theorem length_receiverValues (env : Env) (frame : Frame) (m : Memory) (f : CallName) :
    (env.receiverValues frame m f).length = env.receivers f := by
  cases f with
  | bare f => rfl
  | dotted x f =>
      rw [Env.receiverValues, Env.receivers]
      cases env.find? x.text with
      | none => rfl
      | some v => rfl

theorem receivers_le (env : Env) (f : CallName) : env.receivers f ≤ 1 := by
  cases f with
  | bare f => exact Nat.le_refl 1
  | dotted x f =>
      rw [Env.receivers]
      split <;> omega

theorem computes_constantCode (c : KeywordConstant) :
    Computes calls (constantCode c) s (constantValue s.frame c :: s.stack) s.memory := by
  cases c with
  | truth => exact ⟨s.that, rfl⟩
  | falsity => exact Computes.of_effect rfl
  | null => exact Computes.of_effect rfl
  | self => exact Computes.of_effect rfl

theorem computes_unary (op : UnaryOp) {v : Word} {rest : List Word} (hs : s.stack = v :: rest) :
    Computes calls [unaryCommand op] s (unaryValue op v :: rest) s.memory := by
  apply Computes.of_effect
  cases op with
  | _ => simp only [unaryCommand, effect, hs, Command.apply, unaryValue, Option.map_some]

theorem computes_binary (op : BinaryOp) {v w : Word} {rest : List Word}
    (hs : s.stack = w :: v :: rest) :
    Computes calls [binaryCommand r op] s
      ((binaryValue r calls op v w s.memory).1 :: rest)
      (binaryValue r calls op v w s.memory).2 := by
  cases op with
  | mul => exact computes_call [v, w] rfl hs
  | div => exact computes_call [v, w] rfl hs
  | _ =>
      apply Computes.of_effect
      simp only [binaryCommand, effect, hs, Command.apply, binaryValue, Option.map_some]

/-- Each character is appended to the string on the stack. -/
theorem computes_chars {rest : List Word} : ∀ (cs : List Char) {s : State} {w : Word},
    s.stack = w :: rest →
      Computes calls
        (cs.flatMap fun c =>
          [.push .constant (UInt32.ofNat c.toNat), .call (r.string ++ ".appendChar") 2]) s
        ((cs.foldl (appendChar r calls) (w, s.memory)).1 :: rest)
        (cs.foldl (appendChar r calls) (w, s.memory)).2
  | [], s, w, hs => Computes.nil hs
  | c :: cs, s, w, hs => by
      have hcall : ∀ that, Computes calls [.call (r.string ++ ".appendChar") 2]
          { s with stack := BitVec.ofNat 16 c.toNat :: s.stack, that := that }
          ((appendChar r calls (w, s.memory) c).1 :: rest)
          (appendChar r calls (w, s.memory) c).2 := by
        intro that
        exact computes_call [w, BitVec.ofNat 16 c.toNat] rfl (by simp [hs])
      have hchar := (computes_constant c.toNat).append hcall
      exact hchar.append fun that => computes_chars cs rfl

theorem computes_textCode (text : String) :
    Computes calls (textCode r text) s ((textValue r calls text s.memory).1 :: s.stack)
      (textValue r calls text s.memory).2 := by
  have hcall : ∀ that, Computes calls [.call (r.string ++ ".new") 1]
      { s with stack := BitVec.ofNat 16 text.length :: s.stack, that := that }
      ((calls (r.string ++ ".new") [BitVec.ofNat 16 text.length] s.memory).1 :: s.stack)
      (calls (r.string ++ ".new") [BitVec.ofNat 16 text.length] s.memory).2 := by
    intro that
    exact computes_call [BitVec.ofNat 16 text.length] rfl rfl
  have hnew := (computes_constant text.length).append hcall
  exact hnew.append fun that => computes_chars text.toList rfl

end

/-! ## Expressions -/

theorem Tree.ArgumentList.length_eval (env : Env) (r : Runtime) (calls : Calls) (frame : Frame) :
    ∀ (a : ArgumentList) (m : Memory), (a.eval env r calls frame m).1.length = a.length
  | .nil, _ => rfl
  | .cons e rest, m => by
      simp only [ArgumentList.eval, ArgumentList.length, List.length_cons]
      rw [ArgumentList.length_eval env r calls frame rest]

theorem Tree.ArgumentList.length_le_printMore (a : ArgumentList) :
    a.length ≤ a.printMore.length := by
  induction a using ArgumentList.length.induct with
  | case1 => exact Nat.le_refl 0
  | case2 e rest ih =>
      simp only [ArgumentList.length, ArgumentList.printMore, List.length_append, List.length_cons]
      omega

section
variable {env : Env} {r : Runtime} {calls : Calls}

/-- The array element whose base and index are on the stack is read through pointer 1. -/
theorem computes_fetch {s : State} {base index : Word} {rest : List Word}
    (hs : s.stack = index :: base :: rest) :
    Computes calls [.command .add, .pop .pointer 1, .push .that 0] s
      (s.memory.heap (base + index) :: rest) s.memory := by
  refine ⟨base + index, ?_⟩
  simp [execute, effect, hs, Command.apply, State.write, State.read]

mutual
theorem Tree.Term.computes (hfits : env.Fits) : ∀ (e : Term) {s : State}, e.Valid env →
    e.print.length < UInt32.size → Computes calls (e.code env r) s
      ((e.eval env r calls s.frame s.memory).1 :: s.stack)
      (e.eval env r calls s.frame s.memory).2
  | .integer n, s, _, _ => computes_constant n.value
  | .string text, s, _, _ => computes_textCode text
  | .constant c, s, _, _ => computes_constantCode c
  | .var x, s, hx, _ => computes_load hfits hx
  | .element x i, s, h, hsize => by
      have hi : i.print.length < UInt32.size := by
        simp only [Term.print, List.length_append] at hsize
        omega
      have hindex : Computes calls (env.load x.text ++ i.code env r) s
          ((i.eval env r calls s.frame s.memory).1 :: env.value s.frame x s.memory :: s.stack)
          (i.eval env r calls s.frame s.memory).2 :=
        (computes_load hfits h.1).append fun that => Expression.computes hfits i h.2 hi
      exact hindex.append fun that => computes_fetch rfl
  | .call f args, s, h, hsize => by
      have hmore := args.length_printMore_le
      have hlength := args.length_le_printMore
      have hreceivers := receivers_le env f
      simp only [Term.print, List.length_append, List.length_cons, List.length_nil] at hsize
      -- the count of passed words does not wrap
      have hcount : env.receivers f + args.length < UInt32.size := by omega
      have hargs : Computes calls (env.receiver f ++ args.code env r) s
          ((args.eval env r calls s.frame s.memory).1.reverse ++
            ((env.receiverValues s.frame s.memory f).reverse ++ s.stack))
          (args.eval env r calls s.frame s.memory).2 :=
        (computes_receiver hfits f).append
          fun that => ArgumentList.computes hfits args h.2 (by omega)
      refine hargs.append fun that => computes_call
        (env.receiverValues s.frame s.memory f ++ (args.eval env r calls s.frame s.memory).1) ?_ ?_
      · rw [List.length_append, length_receiverValues, ArgumentList.length_eval]
        exact UInt32.toNat_ofNat_of_lt' hcount
      · simp
  | .group e, s, h, hsize => by
      have he : e.print.length < UInt32.size := by
        simp only [Term.print, List.length_append] at hsize
        omega
      exact Expression.computes hfits e h he
  | .unary op e, s, h, hsize => by
      have he : e.print.length < UInt32.size := by
        simp only [Term.print, List.length_append] at hsize
        omega
      exact (Term.computes hfits e h he).append fun that => computes_unary op rfl
theorem Tree.Expression.computes (hfits : env.Fits) : ∀ (e : Expression) {s : State},
    e.Valid env → e.print.length < UInt32.size → Computes calls (e.code env r) s
      ((e.eval env r calls s.frame s.memory).1 :: s.stack)
      (e.eval env r calls s.frame s.memory).2
  | .mk first rest, s, h, hsize => by
      simp only [Expression.print, List.length_append] at hsize
      exact (Term.computes hfits first h.1 (by omega)).append
        fun that => Operations.computes hfits rest rfl h.2 (by omega)
theorem Tree.Operations.computes (hfits : env.Fits) : ∀ (o : Operations) {s : State} {v : Word}
    {rest : List Word}, s.stack = v :: rest → o.Valid env → o.print.length < UInt32.size →
      Computes calls (o.code env r) s ((o.eval env r calls s.frame v s.memory).1 :: rest)
        (o.eval env r calls s.frame v s.memory).2
  | .nil, s, v, rest, hs, _, _ => Computes.nil hs
  | .cons op e more, s, v, rest, hs, h, hsize => by
      simp only [Operations.print, List.length_append] at hsize
      let w := e.eval env r calls s.frame s.memory
      have hop : Computes calls (e.code env r ++ [binaryCommand r op]) s
          ((binaryValue r calls op v w.1 w.2).1 :: rest) (binaryValue r calls op v w.1 w.2).2 :=
        (Term.computes hfits e h.1 (by omega)).append
          fun that => computes_binary op (by rw [hs])
      exact hop.append fun that => Operations.computes hfits more rfl h.2 (by omega)
theorem Tree.ArgumentList.computes (hfits : env.Fits) : ∀ (a : ArgumentList) {s : State},
    a.Valid env → a.printMore.length < UInt32.size → Computes calls (a.code env r) s
      ((a.eval env r calls s.frame s.memory).1.reverse ++ s.stack)
      (a.eval env r calls s.frame s.memory).2
  | .nil, s, _, _ => Computes.nil rfl
  | .cons e rest, s, h, hsize => by
      simp only [ArgumentList.printMore, List.length_append] at hsize
      let v := e.eval env r calls s.frame s.memory
      have hall : Computes calls (e.code env r ++ rest.code env r) s
          ((rest.eval env r calls s.frame v.2).1.reverse ++ v.1 :: s.stack)
          (rest.eval env r calls s.frame v.2).2 :=
        (Expression.computes hfits e h.1 (by omega)).append
          fun that => ArgumentList.computes hfits rest h.2 (by omega)
      simpa [ArgumentList.code, ArgumentList.eval] using hall
end

end

/-! ## Expressions in their place -/

/-- The code of a fragment of a body stands in the code of the subroutine. -/
theorem Tree.Holds.subroutine_code {r : Runtime} {c : Tree.Class} {sub : Subroutine} {f : Fragment}
    {before after : List Instruction}
    (h : Holds (c.env sub) r (c.env sub).label (.statements 0 sub.body) before f after) :
    sub.code r c =
      (c.env sub).header r ++ before ++ f.code (c.env sub) r (c.env sub).label ++ after := by
  have hbody := h.code_eq
  rw [Fragment.code] at hbody
  rw [Subroutine.code, hbody]
  simp

/-- The body of a subroutine of a class that is printed with fewer than 2 ^ 32
lexemes. -/
theorem Tree.Class.Valid.body {name : String} {c : Tree.Class} {sub : Subroutine}
    (hvalid : c.Valid name) (hsub : sub ∈ c.subroutines) (hsize : c.print.length < UInt32.size) :
    (Fragment.statements 0 sub.body).WellFormed (c.env sub) where
  valid := (hvalid.subroutines sub hsub).body
  size := by
    have hprint := Subroutine.length_print_le hsub
    have hbody : sub.body.print.length ≤ sub.print.length := by
      simp only [Subroutine.print, List.length_append]
      omega
    show sub.body.print.length < UInt32.size
    omega

/-- In the code of a subroutine the code of every expression computes the expression:
from its first instruction, in any state, the machine gets to the end of it with the
value on top of the stack and the memory that evaluating the tree leads to. Of the
rest of the state only pointer 1 may change. -/
def Tree.Subroutine.ComputesExpressions (r : Runtime) (c : Tree.Class) (sub : Subroutine) : Prop :=
  ∀ before e after,
    Holds (c.env sub) r (c.env sub).label (.statements 0 sub.body) before (.expression e) after →
    sub.code r c = (c.env sub).header r ++ before ++ e.code (c.env sub) r ++ after ∧
    ∀ (calls : Calls) (s : State), ∃ that,
      Reaches calls (sub.code r c)
        ⟨((c.env sub).header r ++ before).length, s⟩
        ⟨((c.env sub).header r ++ before ++ e.code (c.env sub) r).length,
          { s with
            stack := (e.eval (c.env sub) r calls s.frame s.memory).1 :: s.stack
            memory := (e.eval (c.env sub) r calls s.frame s.memory).2
            that := that }⟩

theorem Tree.Subroutine.computesExpressions {r : Runtime} {c : Tree.Class} {sub : Subroutine}
    (hfits : (c.env sub).Fits) (hbody : (Fragment.statements 0 sub.body).WellFormed (c.env sub)) :
    sub.ComputesExpressions r c := by
  intro before e after h
  have hcode := h.subroutine_code
  have he := h.wellFormed hbody
  refine ⟨hcode, fun calls s => ?_⟩
  have hcomputes : Computes calls (e.code (c.env sub) r) s _ _ :=
    Expression.computes hfits e he.valid he.size
  obtain ⟨that, hexecute⟩ := hcomputes
  have hend : ((c.env sub).header r ++ before ++ e.code (c.env sub) r).length =
      ((c.env sub).header r ++ before).length + (e.code (c.env sub) r).length :=
    List.length_append
  refine ⟨that, ?_⟩
  rw [hend]
  exact reaches_of_execute ⟨_, _, hcode, rfl⟩ hexecute

namespace Compilation

/-- In the code of an accepted source text all expressions are computed. The bound
keeps the 32-bit counts of variables and arguments from wrapping. -/
theorem ofSource_computes_expressions {t : Target} {table : VariableTable} {source : String}
    {outlet : Outlet} (h : (ofSource t table source outlet).result = .ok ())
    (hlength : source.length < UInt32.size) :
    ∃ tokens, ∃ c : Tree.Class, scan source = .ok tokens ∧ tokens.map (·.toLexeme) = c.print ∧
      (ofSource t table source outlet).sink.code =
        c.subroutines.flatMap (Subroutine.code t.runtime c) ∧
      ∀ sub ∈ c.subroutines, sub.ComputesExpressions t.runtime c := by
  obtain ⟨tokens, c, hscan, hprint, hvalid, hbound, hcode⟩ := exists_code_of_ofSource h hlength
  refine ⟨tokens, c, hscan, hprint, hcode, ?_⟩
  intro sub hsub
  exact sub.computesExpressions (Class.env_fits hsub hbound) (hvalid.body hsub hbound)

theorem ofSource_computes_expressions_summing :
    (ofSource ⟨"P", {}⟩ {} summingSource {}).result = .ok () ∧
      ∃ tokens, ∃ c : Tree.Class, scan summingSource = .ok tokens ∧
        tokens.map (·.toLexeme) = c.print ∧
        (ofSource ⟨"P", {}⟩ {} summingSource {}).sink.code =
          c.subroutines.flatMap (Subroutine.code {} c) ∧
        ∀ sub ∈ c.subroutines, sub.ComputesExpressions {} c :=
  ⟨result_summingSource, ofSource_computes_expressions result_summingSource (by decide +kernel)⟩

end Compilation

end JackVm
