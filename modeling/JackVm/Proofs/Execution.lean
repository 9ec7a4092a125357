import JackVm.Proofs.Evaluation
import JackVm.Proofs.Labels

/-!
# Statement code has the control flow of the statements

Statements run on the tree: a condition holds when its value is the word of
`true`, a loop asks its condition before each round, and an array assignment
finds its address before its value. Main statement: whatever a statement list of
an accepted class does, its code does (`ofSource_follows_statements`).

The proof goes by induction on the run of the statements. What carries it is that
code between two statements leaves the stack as it was, and keeps all temporaries
but the first.
-/

namespace JackVm

open JackVm.Tree

/-! ## Runs of statements -/

/-- What statements change. -/
structure Store where
  frame : Frame
  memory : Memory

/-- How statements end: after the last one, or in a return with a value. -/
inductive Outcome where
  | normal (σ : Store)
  | returned (v : Word) (σ : Store)

namespace Tree

def Slot.assign (x : Slot) (v : Word) (σ : Store) : Store :=
  match x.storage with
  | .static => { σ with memory := σ.memory.setStatic x.index v }
  | .field =>
      { σ with memory := σ.memory.setHeap (σ.frame.this + BitVec.ofNat 16 x.index) v }
  | .argument =>
      let argument := Function.update σ.frame.argument x.index v
      { σ with frame := { σ.frame with argument := argument } }
  | .var =>
      let locals := Function.update σ.frame.locals x.index v
      { σ with frame := { σ.frame with locals := locals } }

/-- Changes the variable a name stands for. -/
def Env.assign (env : Env) (x : Identifier) (v : Word) (σ : Store) : Store :=
  match env.find? x.text with
  | some slot => slot.assign v σ
  | none => σ

/-- What runs. -/
inductive Block where
  | statement (s : Statement)
  | statements (ss : StatementList)

/-- The fragment of code after `k` labels were drawn. -/
def Block.at (k : Nat) : Block → Fragment
  | .statement s => .statement k s
  | .statements ss => .statements k ss

section
variable (env : Env) (r : Runtime) (calls : Calls)

/-- Run from a store, statements come to an outcome. -/
inductive Runs : Block → Store → Outcome → Prop where
  | letVar {x e σ v m} (he : e.eval env r calls σ.frame σ.memory = (v, m)) :
      Runs (.statement (.letVar x e)) σ (.normal (env.assign x v { σ with memory := m }))
  | letElement {x i e σ index m v m'}
      (hi : i.eval env r calls σ.frame σ.memory = (index, m))
      (he : e.eval env r calls σ.frame m = (v, m')) :
      Runs (.statement (.letElement x i e)) σ (.normal { σ with
        memory := m'.setHeap (env.value σ.frame x σ.memory + index) v })
  | ifThenTrue {c b σ m o}
      (hc : c.eval env r calls σ.frame σ.memory = (BitVec.allOnes 16, m))
      (hb : Runs (.statements b) { σ with memory := m } o) :
      Runs (.statement (.ifThen c b)) σ o
  | ifThenFalse {c b σ v m} (hc : c.eval env r calls σ.frame σ.memory = (v, m))
      (hv : v ≠ BitVec.allOnes 16) :
      Runs (.statement (.ifThen c b)) σ (.normal { σ with memory := m })
  | ifElseTrue {c b b' σ m o}
      (hc : c.eval env r calls σ.frame σ.memory = (BitVec.allOnes 16, m))
      (hb : Runs (.statements b) { σ with memory := m } o) :
      Runs (.statement (.ifElse c b b')) σ o
  | ifElseFalse {c b b' σ v m o} (hc : c.eval env r calls σ.frame σ.memory = (v, m))
      (hv : v ≠ BitVec.allOnes 16) (hb : Runs (.statements b') { σ with memory := m } o) :
      Runs (.statement (.ifElse c b b')) σ o
  | whileFalse {c b σ v m} (hc : c.eval env r calls σ.frame σ.memory = (v, m))
      (hv : v ≠ BitVec.allOnes 16) :
      Runs (.statement (.whileDo c b)) σ (.normal { σ with memory := m })
  | whileTrue {c b σ m σ' o}
      (hc : c.eval env r calls σ.frame σ.memory = (BitVec.allOnes 16, m))
      (hb : Runs (.statements b) { σ with memory := m } (.normal σ'))
      (hw : Runs (.statement (.whileDo c b)) σ' o) :
      Runs (.statement (.whileDo c b)) σ o
  | whileReturned {c b σ m v σ'}
      (hc : c.eval env r calls σ.frame σ.memory = (BitVec.allOnes 16, m))
      (hb : Runs (.statements b) { σ with memory := m } (.returned v σ')) :
      Runs (.statement (.whileDo c b)) σ (.returned v σ')
  | doCall {f args σ v m}
      (hf : (Term.call f args).eval env r calls σ.frame σ.memory = (v, m)) :
      Runs (.statement (.doCall f args)) σ (.normal { σ with memory := m })
  | returnNothing {σ} : Runs (.statement .returnNothing) σ (.returned 0 σ)
  | returnValue {e σ v m} (he : e.eval env r calls σ.frame σ.memory = (v, m)) :
      Runs (.statement (.returnValue e)) σ (.returned v { σ with memory := m })
  | nil {σ} : Runs (.statements .nil) σ (.normal σ)
  | next {s rest σ σ' o} (hs : Runs (.statement s) σ (.normal σ'))
      (hrest : Runs (.statements rest) σ' o) : Runs (.statements (.cons s rest)) σ o
  | stop {s rest σ v σ'} (hs : Runs (.statement s) σ (.returned v σ')) :
      Runs (.statements (.cons s rest)) σ (.returned v σ')

end

end Tree

/-! ## Runs of the machine -/

def State.store (s : State) : Store := ⟨s.frame, s.memory⟩

/-- The operand stack is the same, and so are all temporaries but the first. -/
structure Keeps (s s' : State) : Prop where
  stack : s'.stack = s.stack
  temp : ∀ i, i ≠ 0 → s'.temp i = s.temp i

theorem Keeps.refl (s : State) : Keeps s s := ⟨rfl, fun _ _ => rfl⟩

theorem Keeps.trans {s s' s'' : State} (h : Keeps s s') (h' : Keeps s' s'') : Keeps s s'' where
  stack := h'.stack.trans h.stack
  temp i hi := (h'.temp i hi).trans (h.temp i hi)

/-- The machine does what the outcome says: it gets to the place `finish` with the
store, or to a return with the value on top of the stack. -/
def Ends (calls : Calls) (code : List Instruction) (m : Machine) (finish : Nat) : Outcome → Prop
  | .normal σ => ∃ s, Keeps m.state s ∧ s.store = σ ∧ Reaches calls code m ⟨finish, s⟩
  | .returned v σ => ∃ pc s, code[pc]? = some .ret ∧ Keeps m.state s ∧ s.store = σ ∧
      Reaches calls code m ⟨pc, { s with stack := v :: s.stack }⟩

section
variable {calls : Calls} {code part : List Instruction} {m : Machine} {pc finish mid : Nat}
  {s s' : State} {o : Outcome} {σ : Store} {v : Word}

/-- Steps that keep the stack may come before. -/
theorem Ends.of_reaches (h : Reaches calls code ⟨pc, s⟩ ⟨mid, s'⟩) (hkeeps : Keeps s s')
    (hends : Ends calls code ⟨mid, s'⟩ finish o) : Ends calls code ⟨pc, s⟩ finish o := by
  cases o with
  | normal σ =>
      obtain ⟨s'', hkeeps', hstore, hreaches⟩ := hends
      exact ⟨s'', hkeeps.trans hkeeps', hstore, h.trans hreaches⟩
  | returned v σ =>
      obtain ⟨pc', s'', hret, hkeeps', hstore, hreaches⟩ := hends
      exact ⟨pc', s'', hret, hkeeps.trans hkeeps', hstore, h.trans hreaches⟩

/-- What goes on after a normal end. -/
theorem Ends.next (h : Ends calls code ⟨pc, s⟩ mid (.normal σ))
    (hnext : ∀ s', s'.store = σ → Ends calls code ⟨mid, s'⟩ finish o) :
    Ends calls code ⟨pc, s⟩ finish o := by
  obtain ⟨s', hkeeps, hstore, hreaches⟩ := h
  exact .of_reaches hreaches hkeeps (hnext s' hstore)

/-- A jump at the end of a block takes its normal outcome along. -/
theorem Ends.jump (h : Ends calls code ⟨pc, s⟩ mid o)
    (hjump : ∀ s', Reaches calls code ⟨mid, s'⟩ ⟨finish, s'⟩) :
    Ends calls code ⟨pc, s⟩ finish o := by
  cases o with
  | normal σ =>
      obtain ⟨s', hkeeps, hstore, hreaches⟩ := h
      exact ⟨s', hkeeps, hstore, hreaches.trans (hjump s')⟩
  | returned v σ => exact h

/-- Code without jumps leads to the store `σ`. -/
def Updates (calls : Calls) (part : List Instruction) (s : State) (σ : Store) : Prop :=
  ∃ s', execute calls part s = some s' ∧ Keeps s s' ∧ s'.store = σ

theorem Ends.of_updates (hcode : CodeAt code pc part) (h : Updates calls part s σ) :
    Ends calls code ⟨pc, s⟩ (pc + part.length) (.normal σ) := by
  obtain ⟨s', hexecute, hkeeps, hstore⟩ := h
  exact ⟨s', hkeeps, hstore, reaches_of_execute hcode hexecute⟩

end

/-! ## Single statements -/

section
variable {env : Env} {r : Runtime} {calls : Calls} {label : Tag → Nat → String}
  {code : List Instruction} {pc : Nat} {s : State} {v : Word} {m : Memory} {σ : Store}

theorem Tree.Expression.computes_of_eval (hfits : env.Fits) {e : Expression}
    (hwell : (Fragment.expression e).WellFormed env)
    (he : e.eval env r calls s.frame s.memory = (v, m)) :
    Computes calls (e.code env r) s (v :: s.stack) m := by
  have hcomputes : Computes calls (e.code env r) s _ _ := e.computes hfits hwell.valid hwell.size
  rw [he] at hcomputes
  exact hcomputes

theorem Tree.Term.computes_of_eval (hfits : env.Fits) {e : Term}
    (hwell : (Fragment.term e).WellFormed env)
    (he : e.eval env r calls s.frame s.memory = (v, m)) :
    Computes calls (e.code env r) s (v :: s.stack) m := by
  have hcomputes : Computes calls (e.code env r) s _ _ := e.computes hfits hwell.valid hwell.size
  rw [he] at hcomputes
  exact hcomputes

theorem not_eq_zero_iff (v : Word) : ~~~v = 0 ↔ v = BitVec.allOnes 16 := by
  have hzero : ~~~(0 : Word) = BitVec.allOnes 16 := by decide
  rw [BitVec.not_eq_comm, hzero, eq_comm]

/-- A condition goes on if it holds, and jumps if not. -/
theorem reaches_condition (hfits : env.Fits) {c : Expression}
    (hwell : (Fragment.expression c).WellFormed env) {name : String}
    (hcode : CodeAt code pc (c.code env r ++ [.command .not, .ifGoto name]))
    (hc : c.eval env r calls s.frame s.memory = (v, m)) :
    ∃ s', Keeps s s' ∧ s'.store = ⟨s.frame, m⟩ ∧
      (v = BitVec.allOnes 16 →
        Reaches calls code ⟨pc, s⟩ ⟨pc + (c.code env r).length + 2, s'⟩) ∧
      (v ≠ BitVec.allOnes 16 → ∀ target, labelIndex? code name = some target →
        Reaches calls code ⟨pc, s⟩ ⟨target, s'⟩) := by
  obtain ⟨that, hexecute⟩ := c.computes_of_eval hfits hwell hc
  -- the value is inverted, so zero on the stack means that the condition holds
  have htest : Reaches calls code ⟨pc, s⟩ ⟨pc + (c.code env r).length + 1,
      { s with stack := ~~~v :: s.stack, memory := m, that := that }⟩ := by
    have hnot : execute calls (c.code env r ++ [.command .not]) s =
        some { s with stack := ~~~v :: s.stack, memory := m, that := that } := by
      rw [execute_append, hexecute]
      rfl
    have hcode' : CodeAt code pc (c.code env r ++ [.command .not] ++ [.ifGoto name]) := by
      rw [List.append_assoc]
      exact hcode
    have hreaches := reaches_of_execute hcode'.left hnot
    rwa [List.length_append] at hreaches
  have hgoto : CodeAt code (pc + (c.code env r).length + 1) [.ifGoto name] := hcode.right.tail
  refine ⟨{ s with memory := m, that := that }, ⟨rfl, fun _ _ => rfl⟩, rfl, ?_, ?_⟩
  · intro hv
    have hzero : ~~~v = 0 := (not_eq_zero_iff v).mpr hv
    rw [hzero] at htest
    exact htest.trans (reaches_ifGoto_zero hgoto rfl)
  · intro hv target htarget
    have hne : ~~~v ≠ 0 := fun hzero => hv ((not_eq_zero_iff v).mp hzero)
    exact htest.trans (reaches_ifGoto hgoto rfl hne htarget)

theorem execute_store (hfits : env.Fits) {x : Identifier} (hx : env.Uses x) {rest : List Word}
    (hs : s.stack = v :: rest) : ∃ s', execute calls (env.store x.text) s = some s' ∧
      s'.store = env.assign x v s.store ∧ s'.stack = rest ∧ s'.temp = s.temp := by
  obtain ⟨slot, hslot, -⟩ := hx
  have hindex := UInt32.toNat_ofNat_of_lt' (hfits _ _ hslot)
  simp only [Env.store, Env.assign, hslot, execute, effect, hs, hindex]
  obtain ⟨type, storage, index⟩ := slot
  cases storage with
  | _ => exact ⟨_, rfl, rfl, rfl, rfl⟩

theorem updates_letVar (hfits : env.Fits) {x : Identifier} {e : Expression} (hx : env.Uses x)
    (he : Computes calls (e.code env r) s (v :: s.stack) m) :
    Updates calls (e.code env r ++ env.store x.text) s (env.assign x v ⟨s.frame, m⟩) := by
  obtain ⟨that, hvalue⟩ := he
  have hstore : ∃ s', execute calls (env.store x.text) { s with
      stack := v :: s.stack, memory := m, that := that } = some s' ∧ _ :=
    execute_store hfits hx rfl
  obtain ⟨s', hstore, hassign, hstack, htemp⟩ := hstore
  refine ⟨s', ?_, ⟨hstack, fun i _ => by rw [htemp]⟩, hassign⟩
  rw [execute_append, hvalue]
  exact hstore

/-- The value on the stack goes to the address below it. -/
theorem execute_storeElement {address : Word} {rest : List Word}
    (hs : s.stack = v :: address :: rest) :
    execute calls [.pop .temp 0, .pop .pointer 1, .push .temp 0, .pop .that 0] s = some { s with
      stack := rest
      memory := s.memory.setHeap address v
      that := address
      temp := Function.update s.temp 0 v } := by
  simp [execute, effect, hs, State.write, State.read]

/-- The address is on the stack before the value is computed. -/
theorem updates_letElement (hfits : env.Fits) {x : Identifier} {i e : Expression}
    {base index : Word} {m' : Memory} (hx : env.Uses x)
    (hbase : env.value s.frame x s.memory = base)
    (hi : ∀ that, Computes calls (i.code env r)
      { s with stack := base :: s.stack, that := that } (index :: base :: s.stack) m)
    (he : ∀ that, Computes calls (e.code env r)
      { s with stack := (base + index) :: s.stack, memory := m, that := that }
      (v :: (base + index) :: s.stack) m') :
    Updates calls (env.load x.text ++ i.code env r ++ [.command .add] ++ e.code env r
        ++ [.pop .temp 0, .pop .pointer 1, .push .temp 0, .pop .that 0]) s
      ⟨s.frame, m'.setHeap (base + index) v⟩ := by
  subst hbase
  have hindex := (computes_load hfits hx).append hi
  have haddress : Computes calls (env.load x.text ++ i.code env r ++ [.command .add]) s
      ((env.value s.frame x s.memory + index) :: s.stack) m :=
    hindex.append fun that => Computes.of_effect rfl
  obtain ⟨that, hvalue⟩ := haddress.append he
  refine ⟨{ s with
    memory := m'.setHeap (env.value s.frame x s.memory + index) v
    that := env.value s.frame x s.memory + index
    temp := Function.update s.temp 0 v }, ?_,
    ⟨rfl, fun i hi => Function.update_of_ne hi _ _⟩, rfl⟩
  rw [execute_append, hvalue, Option.bind_some]
  exact execute_storeElement rfl

theorem updates_doCall {part : List Instruction}
    (h : Computes calls part s (v :: s.stack) m) :
    Updates calls (part ++ [.pop .temp 0]) s ⟨s.frame, m⟩ := by
  obtain ⟨that, hvalue⟩ := h
  refine ⟨{ s with memory := m, that := that, temp := Function.update s.temp 0 v }, ?_,
    ⟨rfl, fun i hi => Function.update_of_ne hi _ _⟩, rfl⟩
  rw [execute_append, hvalue]
  rfl

/-- A return is reached with the value on the stack. -/
theorem ends_return {part : List Instruction} {finish : Nat}
    (hcode : CodeAt code pc (part ++ [.ret])) (h : Computes calls part s (v :: s.stack) m) :
    Ends calls code ⟨pc, s⟩ finish (.returned v ⟨s.frame, m⟩) := by
  obtain ⟨that, hexecute⟩ := h
  exact ⟨pc + part.length, { s with memory := m, that := that }, hcode.right.getElem?,
    ⟨rfl, fun _ _ => rfl⟩, rfl, reaches_of_execute hcode.left hexecute⟩

end

/-! ## Branches and loops -/

section
variable {env : Env} {r : Runtime} {calls : Calls} {label : Tag → Nat → String}
  {code : List Instruction} {pc k : Nat} {c : Expression} {b b' : StatementList}

/-- Where the parts of a branch stand. -/
theorem codeAt_ifThen (h : CodeAt code pc ((Statement.ifThen c b).code env r label k)) :
    CodeAt code pc (c.code env r ++ [.command .not, .ifGoto (label .ifFalse k)]) ∧
    CodeAt code (pc + (c.code env r).length + 2) (b.code env r label (k + 2)) ∧
    CodeAt code (pc + (c.code env r).length + 2 + (b.code env r label (k + 2)).length)
      [.goto (label .ifEnd (k + 1)), .label (label .ifFalse k),
        .label (label .ifEnd (k + 1))] ∧
    pc + ((Statement.ifThen c b).code env r label k).length =
      pc + (c.code env r).length + 2 + (b.code env r label (k + 2)).length + 3 := by
  rw [Statement.code] at h ⊢
  have hblock := h.left.right
  have hends := h.right
  simp only [List.length_append, ← Nat.add_assoc] at hblock hends ⊢
  exact ⟨h.left.left, hblock, hends, rfl⟩

theorem codeAt_ifElse (h : CodeAt code pc ((Statement.ifElse c b b').code env r label k)) :
    CodeAt code pc (c.code env r ++ [.command .not, .ifGoto (label .ifFalse k)]) ∧
    CodeAt code (pc + (c.code env r).length + 2) (b.code env r label (k + 2)) ∧
    CodeAt code (pc + (c.code env r).length + 2 + (b.code env r label (k + 2)).length)
      [.goto (label .ifEnd (k + 1)), .label (label .ifFalse k)] ∧
    CodeAt code (pc + (c.code env r).length + 2 + (b.code env r label (k + 2)).length + 2)
      (b'.code env r label (k + 2 + b.labels)) ∧
    CodeAt code (pc + (c.code env r).length + 2 + (b.code env r label (k + 2)).length + 2
        + (b'.code env r label (k + 2 + b.labels)).length)
      [.label (label .ifEnd (k + 1))] ∧
    pc + ((Statement.ifElse c b b').code env r label k).length =
      pc + (c.code env r).length + 2 + (b.code env r label (k + 2)).length + 2
        + (b'.code env r label (k + 2 + b.labels)).length + 1 := by
  rw [Statement.code] at h ⊢
  have hblock := h.left.left.left.right
  have hmiddle := h.left.left.right
  have hother := h.left.right
  have hend := h.right
  simp only [List.length_append, ← Nat.add_assoc] at hblock hmiddle hother hend ⊢
  exact ⟨h.left.left.left.left, hblock, hmiddle, hother, hend, rfl⟩

theorem codeAt_whileDo (h : CodeAt code pc ((Statement.whileDo c b).code env r label k)) :
    CodeAt code pc [.label (label .whileExp k)] ∧
    CodeAt code (pc + 1)
      (c.code env r ++ [.command .not, .ifGoto (label .whileEnd (k + 1))]) ∧
    CodeAt code (pc + 1 + (c.code env r).length + 2) (b.code env r label (k + 2)) ∧
    CodeAt code (pc + 1 + (c.code env r).length + 2 + (b.code env r label (k + 2)).length)
      [.goto (label .whileExp k), .label (label .whileEnd (k + 1))] ∧
    pc + ((Statement.whileDo c b).code env r label k).length =
      pc + 1 + (c.code env r).length + 2 + (b.code env r label (k + 2)).length + 2 := by
  rw [Statement.code] at h ⊢
  have hcond := h.left.left
  rw [List.append_assoc] at hcond
  have hblock := h.left.right
  have hends := h.right
  simp only [List.length_append, ← Nat.add_assoc] at hblock hends ⊢
  exact ⟨hcond.left, hcond.right, hblock, hends, rfl⟩

variable {s : State} {v : Word} {m : Memory} {o : Outcome}

/-- A branch whose condition holds does what its block does. -/
theorem ends_ifThen_true (hfits : env.Fits) (hnodup : (labelNames code).Nodup)
    (hwell : (Fragment.statement k (.ifThen c b)).WellFormed env)
    (hcode : CodeAt code pc ((Statement.ifThen c b).code env r label k))
    (hc : c.eval env r calls s.frame s.memory = (BitVec.allOnes 16, m))
    (hblock : ∀ {pc s'}, s'.store = ⟨s.frame, m⟩ →
      CodeAt code pc (b.code env r label (k + 2)) →
      Ends calls code ⟨pc, s'⟩ (pc + (b.code env r label (k + 2)).length) o) :
    Ends calls code ⟨pc, s⟩ (pc + ((Statement.ifThen c b).code env r label k).length) o := by
  have hwc : (Fragment.expression c).WellFormed env :=
    hwell.part r label (by simp [Fragment.pieces])
  obtain ⟨hcond, hb, hends, hfinish⟩ := codeAt_ifThen hcode
  obtain ⟨s', hkeeps, hstore, htrue, -⟩ := reaches_condition hfits hwc hcond hc
  -- the block jumps over the label that a failed test goes to
  have hend := labelIndex?_of_codeAt hends.tail.tail hnodup
  rw [hfinish]
  refine .of_reaches (htrue rfl) hkeeps ((hblock hstore hb).jump fun s'' => ?_)
  exact (reaches_goto hends hend).trans (reaches_label hends.tail.tail)

theorem ends_ifThen_false (hfits : env.Fits) (hnodup : (labelNames code).Nodup)
    (hwell : (Fragment.statement k (.ifThen c b)).WellFormed env)
    (hcode : CodeAt code pc ((Statement.ifThen c b).code env r label k))
    (hc : c.eval env r calls s.frame s.memory = (v, m)) (hv : v ≠ BitVec.allOnes 16) :
    Ends calls code ⟨pc, s⟩ (pc + ((Statement.ifThen c b).code env r label k).length)
      (.normal ⟨s.frame, m⟩) := by
  have hwc : (Fragment.expression c).WellFormed env :=
    hwell.part r label (by simp [Fragment.pieces])
  obtain ⟨hcond, -, hends, hfinish⟩ := codeAt_ifThen hcode
  obtain ⟨s', hkeeps, hstore, -, hfalse⟩ := reaches_condition hfits hwc hcond hc
  have hjump := hfalse hv _ (labelIndex?_of_codeAt hends.tail hnodup)
  rw [hfinish]
  exact ⟨s', hkeeps, hstore,
    hjump.trans ((reaches_label hends.tail).trans (reaches_label hends.tail.tail))⟩

theorem ends_ifElse_true (hfits : env.Fits) (hnodup : (labelNames code).Nodup)
    (hwell : (Fragment.statement k (.ifElse c b b')).WellFormed env)
    (hcode : CodeAt code pc ((Statement.ifElse c b b').code env r label k))
    (hc : c.eval env r calls s.frame s.memory = (BitVec.allOnes 16, m))
    (hblock : ∀ {pc s'}, s'.store = ⟨s.frame, m⟩ →
      CodeAt code pc (b.code env r label (k + 2)) →
      Ends calls code ⟨pc, s'⟩ (pc + (b.code env r label (k + 2)).length) o) :
    Ends calls code ⟨pc, s⟩ (pc + ((Statement.ifElse c b b').code env r label k).length) o := by
  have hwc : (Fragment.expression c).WellFormed env :=
    hwell.part r label (by simp [Fragment.pieces])
  obtain ⟨hcond, hb, hmiddle, -, hlast, hfinish⟩ := codeAt_ifElse hcode
  obtain ⟨s', hkeeps, hstore, htrue, -⟩ := reaches_condition hfits hwc hcond hc
  have hend := labelIndex?_of_codeAt hlast hnodup
  rw [hfinish]
  refine .of_reaches (htrue rfl) hkeeps ((hblock hstore hb).jump fun s'' => ?_)
  exact (reaches_goto hmiddle hend).trans (reaches_label hlast)

theorem ends_ifElse_false (hfits : env.Fits) (hnodup : (labelNames code).Nodup)
    (hwell : (Fragment.statement k (.ifElse c b b')).WellFormed env)
    (hcode : CodeAt code pc ((Statement.ifElse c b b').code env r label k))
    (hc : c.eval env r calls s.frame s.memory = (v, m)) (hv : v ≠ BitVec.allOnes 16)
    (hblock : ∀ {pc s'}, s'.store = ⟨s.frame, m⟩ →
      CodeAt code pc (b'.code env r label (k + 2 + b.labels)) →
      Ends calls code ⟨pc, s'⟩ (pc + (b'.code env r label (k + 2 + b.labels)).length) o) :
    Ends calls code ⟨pc, s⟩ (pc + ((Statement.ifElse c b b').code env r label k).length) o := by
  have hwc : (Fragment.expression c).WellFormed env :=
    hwell.part r label (by simp [Fragment.pieces])
  obtain ⟨hcond, -, hmiddle, hother, hlast, hfinish⟩ := codeAt_ifElse hcode
  obtain ⟨s', hkeeps, hstore, -, hfalse⟩ := reaches_condition hfits hwc hcond hc
  have hjump := hfalse hv _ (labelIndex?_of_codeAt hmiddle.tail hnodup)
  rw [hfinish]
  refine .of_reaches (hjump.trans (reaches_label hmiddle.tail)) hkeeps ?_
  exact (hblock hstore hother).jump fun s'' => reaches_label hlast

theorem ends_whileDo_false (hfits : env.Fits) (hnodup : (labelNames code).Nodup)
    (hwell : (Fragment.statement k (.whileDo c b)).WellFormed env)
    (hcode : CodeAt code pc ((Statement.whileDo c b).code env r label k))
    (hc : c.eval env r calls s.frame s.memory = (v, m)) (hv : v ≠ BitVec.allOnes 16) :
    Ends calls code ⟨pc, s⟩ (pc + ((Statement.whileDo c b).code env r label k).length)
      (.normal ⟨s.frame, m⟩) := by
  have hwc : (Fragment.expression c).WellFormed env :=
    hwell.part r label (by simp [Fragment.pieces])
  obtain ⟨hfirst, hcond, -, hends, hfinish⟩ := codeAt_whileDo hcode
  obtain ⟨s', hkeeps, hstore, -, hfalse⟩ := reaches_condition hfits hwc hcond hc
  have hjump := hfalse hv _ (labelIndex?_of_codeAt hends.tail hnodup)
  rw [hfinish]
  exact ⟨s', hkeeps, hstore,
    (reaches_label hfirst).trans (hjump.trans (reaches_label hends.tail))⟩

/-- A round of a loop ends at the start of the loop, unless it ends in a return. -/
theorem ends_whileDo_round (hfits : env.Fits) (hnodup : (labelNames code).Nodup)
    (hwell : (Fragment.statement k (.whileDo c b)).WellFormed env)
    (hcode : CodeAt code pc ((Statement.whileDo c b).code env r label k))
    (hc : c.eval env r calls s.frame s.memory = (BitVec.allOnes 16, m))
    (hblock : ∀ {pc s'}, s'.store = ⟨s.frame, m⟩ →
      CodeAt code pc (b.code env r label (k + 2)) →
      Ends calls code ⟨pc, s'⟩ (pc + (b.code env r label (k + 2)).length) o) :
    Ends calls code ⟨pc, s⟩ pc o := by
  have hwc : (Fragment.expression c).WellFormed env :=
    hwell.part r label (by simp [Fragment.pieces])
  obtain ⟨hfirst, hcond, hb, hends, -⟩ := codeAt_whileDo hcode
  obtain ⟨s', hkeeps, hstore, htrue, -⟩ := reaches_condition hfits hwc hcond hc
  have hstart := labelIndex?_of_codeAt hfirst hnodup
  refine .of_reaches ((reaches_label hfirst).trans (htrue rfl)) hkeeps ?_
  exact (hblock hstore hb).jump fun s'' => reaches_goto hends hstart

end

/-! ## All statements -/

section
variable {env : Env} {r : Runtime} {calls : Calls} {label : Tag → Nat → String}
  {code : List Instruction}

/-- The code of statements does what the statements do. -/
theorem Tree.Runs.ends (hfits : env.Fits) (hnodup : (labelNames code).Nodup) {b : Block}
    {σ : Store} {o : Outcome} (h : Runs env r calls b σ o) : ∀ {pc k : Nat} {s : State},
      s.store = σ → CodeAt code pc ((b.at k).code env r label) → (b.at k).WellFormed env →
      Ends calls code ⟨pc, s⟩ (pc + ((b.at k).code env r label).length) o := by
  induction h with
  | @letVar x e σ v m he =>
      intro pc k s hs hcode hwell
      subst hs
      have hwe : (Fragment.expression e).WellFormed env :=
        hwell.part r label (by simp [Block.at, Fragment.pieces])
      exact .of_updates hcode
        (updates_letVar hfits hwell.valid.1 (e.computes_of_eval hfits hwe he))
  | @letElement x i e σ index m v m' hi he =>
      intro pc k s hs hcode hwell
      subst hs
      have hwi : (Fragment.expression i).WellFormed env :=
        hwell.part r label (by simp [Block.at, Fragment.pieces])
      have hwe : (Fragment.expression e).WellFormed env :=
        hwell.part r label (by simp [Block.at, Fragment.pieces])
      exact .of_updates hcode (updates_letElement hfits hwell.valid.1 rfl
        (fun that => i.computes_of_eval hfits hwi hi)
        (fun that => e.computes_of_eval hfits hwe he))
  | @ifThenTrue c b σ m o hc hb ih =>
      intro pc k s hs hcode hwell
      subst hs
      have hwb : (Fragment.statements (k + 2) b).WellFormed env :=
        hwell.part r label (by simp [Block.at, Fragment.pieces])
      exact ends_ifThen_true hfits hnodup hwell hcode hc fun hs' hb' => ih hs' hb' hwb
  | @ifThenFalse c b σ v m hc hv =>
      intro pc k s hs hcode hwell
      subst hs
      exact ends_ifThen_false hfits hnodup hwell hcode hc hv
  | @ifElseTrue c b b' σ m o hc hb ih =>
      intro pc k s hs hcode hwell
      subst hs
      have hwb : (Fragment.statements (k + 2) b).WellFormed env :=
        hwell.part r label (by simp [Block.at, Fragment.pieces])
      exact ends_ifElse_true hfits hnodup hwell hcode hc fun hs' hb' => ih hs' hb' hwb
  | @ifElseFalse c b b' σ v m o hc hv hb ih =>
      intro pc k s hs hcode hwell
      subst hs
      have hwb : (Fragment.statements (k + 2 + b.labels) b').WellFormed env :=
        hwell.part r label (by simp [Block.at, Fragment.pieces])
      exact ends_ifElse_false hfits hnodup hwell hcode hc hv fun hs' hb' => ih hs' hb' hwb
  | @whileFalse c b σ v m hc hv =>
      intro pc k s hs hcode hwell
      subst hs
      exact ends_whileDo_false hfits hnodup hwell hcode hc hv
  | @whileTrue c b σ m σ' o hc hb hw ihb ihw =>
      intro pc k s hs hcode hwell
      subst hs
      have hwb : (Fragment.statements (k + 2) b).WellFormed env :=
        hwell.part r label (by simp [Block.at, Fragment.pieces])
      have hround := ends_whileDo_round hfits hnodup hwell hcode hc
        fun hs' hb' => ihb hs' hb' hwb
      -- the round led back to the start of the same code
      exact hround.next fun s' hs' => ihw hs' hcode hwell
  | @whileReturned c b σ m v σ' hc hb ih =>
      intro pc k s hs hcode hwell
      subst hs
      have hwb : (Fragment.statements (k + 2) b).WellFormed env :=
        hwell.part r label (by simp [Block.at, Fragment.pieces])
      exact ends_whileDo_round hfits hnodup hwell hcode hc fun hs' hb' => ih hs' hb' hwb
  | @doCall f args σ v m hf =>
      intro pc k s hs hcode hwell
      subst hs
      have hwf : (Fragment.term (.call f args)).WellFormed env :=
        hwell.part r label (by simp [Block.at, Fragment.pieces])
      exact .of_updates hcode (updates_doCall (Term.computes_of_eval hfits hwf hf))
  | @returnNothing σ =>
      intro pc k s hs hcode hwell
      subst hs
      have hzero : Computes calls [.push .constant 0] s (0 :: s.stack) s.memory :=
        Computes.of_effect rfl
      exact ends_return hcode hzero
  | @returnValue e σ v m he =>
      intro pc k s hs hcode hwell
      subst hs
      have hwe : (Fragment.expression e).WellFormed env :=
        hwell.part r label (by simp [Block.at, Fragment.pieces])
      exact ends_return hcode (e.computes_of_eval hfits hwe he)
  | @nil σ =>
      intro pc k s hs hcode hwell
      exact ⟨s, Keeps.refl s, hs, Relation.ReflTransGen.refl⟩
  | @next st rest σ σ' o hst hrest ihst ihrest =>
      intro pc k s hs hcode hwell
      have hfirst : (Fragment.statement k st).WellFormed env :=
        hwell.part r label (by simp [Block.at, Fragment.pieces])
      have hothers : (Fragment.statements (k + st.labels) rest).WellFormed env :=
        hwell.part r label (by simp [Block.at, Fragment.pieces])
      rw [Block.at, Fragment.code, StatementList.code] at hcode ⊢
      rw [List.length_append, ← Nat.add_assoc]
      exact (ihst hs hcode.left hfirst).next fun s' hs' => ihrest hs' hcode.right hothers
  | @stop st rest σ v σ' hst ih =>
      intro pc k s hs hcode hwell
      have hfirst : (Fragment.statement k st).WellFormed env :=
        hwell.part r label (by simp [Block.at, Fragment.pieces])
      rw [Block.at, Fragment.code, StatementList.code] at hcode
      exact ih hs hcode.left hfirst

end

/-! ## Statements in their place -/

/-- In the code of a subroutine the code of every statement list does what the
statements do: from its first instruction, in any state, the machine gets to the end
of it if the statements end normally, and to a return with the value if they end in
one. -/
def Tree.Subroutine.FollowsStatements (r : Runtime) (c : Tree.Class) (sub : Subroutine) : Prop :=
  ∀ before k ss after,
    Holds (c.env sub) r (c.env sub).label (.statements 0 sub.body) before (.statements k ss)
      after →
    sub.code r c =
      (c.env sub).header r ++ before ++ ss.code (c.env sub) r (c.env sub).label k ++ after ∧
    ∀ (calls : Calls) (s : State) (o : Outcome),
      Runs (c.env sub) r calls (.statements ss) s.store o →
      Ends calls (sub.code r c)
        ⟨((c.env sub).header r ++ before).length, s⟩
        ((c.env sub).header r ++ before ++
          ss.code (c.env sub) r (c.env sub).label k).length o

theorem Tree.Subroutine.followsStatements {r : Runtime} {c : Tree.Class} {sub : Subroutine}
    (hfits : (c.env sub).Fits) (hbody : (Fragment.statements 0 sub.body).WellFormed (c.env sub)) :
    sub.FollowsStatements r c := by
  intro before k ss after h
  have hcode := h.subroutine_code
  refine ⟨hcode, fun calls s o hruns => ?_⟩
  have hends := hruns.ends hfits (sub.nodup_labels r c) rfl ⟨_, _, hcode, rfl⟩ (h.wellFormed hbody)
  have hend : ((c.env sub).header r ++ before ++
      ss.code (c.env sub) r (c.env sub).label k).length =
      ((c.env sub).header r ++ before).length +
        (ss.code (c.env sub) r (c.env sub).label k).length :=
    List.length_append
  rw [hend]
  exact hends

namespace Compilation

/-- In the code of an accepted source text all statements are followed. The bound
keeps the 32-bit counts of variables, arguments and labels from wrapping. -/
theorem ofSource_follows_statements {t : Target} {table : VariableTable} {source : String}
    {outlet : Outlet} (h : (ofSource t table source outlet).result = .ok ())
    (hlength : source.length < UInt32.size) :
    ∃ tokens, ∃ c : Tree.Class, scan source = .ok tokens ∧ tokens.map (·.toLexeme) = c.print ∧
      (ofSource t table source outlet).sink.code =
        c.subroutines.flatMap (Subroutine.code t.runtime c) ∧
      ∀ sub ∈ c.subroutines, sub.FollowsStatements t.runtime c := by
  obtain ⟨tokens, c, hscan, hprint, hvalid, hbound, hcode⟩ := exists_code_of_ofSource h hlength
  refine ⟨tokens, c, hscan, hprint, hcode, ?_⟩
  intro sub hsub
  exact sub.followsStatements (Class.env_fits hsub hbound) (hvalid.body hsub hbound)

theorem ofSource_follows_statements_summing :
    (ofSource ⟨"P", {}⟩ {} summingSource {}).result = .ok () ∧
      ∃ tokens, ∃ c : Tree.Class, scan summingSource = .ok tokens ∧
        tokens.map (·.toLexeme) = c.print ∧
        (ofSource ⟨"P", {}⟩ {} summingSource {}).sink.code =
          c.subroutines.flatMap (Subroutine.code {} c) ∧
        ∀ sub ∈ c.subroutines, sub.FollowsStatements {} c :=
  ⟨result_summingSource, ofSource_follows_statements result_summingSource (by decide +kernel)⟩

end Compilation

end JackVm
