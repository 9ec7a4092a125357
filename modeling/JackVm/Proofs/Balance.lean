import JackVm.Proofs.Execution
import JackVm.Proofs.Routines
import Mathlib.Data.List.Induction

/-!
# Stack discipline

Code is scanned in the order of its text with the height of the stack. Main statement:
in every routine of an accepted class no instruction needs more words than there are,
the stack is empty wherever a jump goes from or to, and a return finds one word
(`ofSource_keeps_stack_discipline`). The scan follows the text, so this holds of code
that no run reaches too, such as a statement after a return.

For code without jumps the height is read off the machine: where it runs, it finds
the words it needs (`safe_of_execute`). Statements are put together from such code.
-/

namespace JackVm

/-! ## Heights -/

/-- How many words a command takes. -/
def Command.operands : Command → Nat
  | .neg | .not => 1
  | .add | .sub | .eq | .gt | .lt | .and | .or => 2

/-- How many words an instruction needs on the stack. It takes them all. -/
def Instruction.needs : Instruction → Nat
  | .pop _ _ | .ifGoto _ | .ret => 1
  | .command c => c.operands
  | .call _ n => n.toNat
  | .push _ _ | .label _ | .goto _ | .function _ _ => 0

/-- How many words an instruction puts on the stack. -/
def Instruction.gives : Instruction → Nat
  | .push _ _ | .command _ | .call _ _ => 1
  | .pop _ _ | .label _ | .goto _ | .ifGoto _ | .function _ _ | .ret => 0

/-- By how much an instruction changes the height of the stack. -/
def Instruction.net (i : Instruction) : Int := i.gives - i.needs

/-- By how much code changes the height of the stack, scanned in order. -/
@[simp] def height : List Instruction → Int
  | [] => 0
  | i :: code => i.net + height code

@[simp] theorem height_append (code code' : List Instruction) :
    height (code ++ code') = height code + height code' := by
  induction code with
  | nil => simp
  | cons i code ih => simp only [List.cons_append, height, ih, Int.add_assoc]

/-- What an instruction asks of the height before it. -/
def Instruction.StandsAt (h : Int) (i : Instruction) : Prop :=
  i.needs ≤ h ∧
    match i with
    | .label _ | .goto _ => h = 0
    | .ifGoto _ | .ret => h = 1
    | _ => True

attribute [simp] Command.operands Instruction.needs Instruction.gives Instruction.net
  Instruction.StandsAt

/-- Scanned from height `h` on, all instructions find what they ask for. -/
@[simp] def Safe (h : Int) : List Instruction → Prop
  | [] => True
  | i :: code => i.StandsAt h ∧ Safe (h + i.net) code

theorem safe_append {code code' : List Instruction} {h : Int} :
    Safe h (code ++ code') ↔ Safe h code ∧ Safe (h + height code) code' := by
  induction code generalizing h with
  | nil => simp [Safe]
  | cons i code ih => simp [Safe, ih, and_assoc, Int.add_assoc]

/-- Wherever it stands, the code finds the words it needs among its own, and leaves
`n` more on the stack. -/
structure Lifts (n : Nat) (code : List Instruction) : Prop where
  rise : height code = n
  safe : ∀ h : Nat, Safe h code

/-- Code that starts and ends with an empty stack. -/
structure Level (code : List Instruction) : Prop where
  rise : height code = 0
  safe : Safe 0 code

section
variable {code code' : List Instruction} {i : Instruction} {m n : Nat}

theorem Lifts.append (hcode : Lifts m code) (hcode' : Lifts n code') :
    Lifts (m + n) (code ++ code') where
  rise := by
    rw [height_append, hcode.rise, hcode'.rise]
    rfl
  safe h := by
    rw [safe_append, hcode.rise]
    exact ⟨hcode.safe h, hcode'.safe (h + m)⟩

theorem Lifts.flatten {codes : List (List Instruction)} (h : ∀ code ∈ codes, Lifts 1 code) :
    Lifts codes.length codes.flatten := by
  induction codes with
  | nil => exact ⟨rfl, fun _ => trivial⟩
  | cons code codes ih =>
      have hcode := h code List.mem_cons_self
      have hcodes := ih fun code' hcode' => h code' (List.mem_cons_of_mem _ hcode')
      rw [List.flatten_cons, List.length_cons, Nat.add_comm]
      exact hcode.append hcodes

/-- An instruction after the words it needs. -/
theorem Lifts.snoc (hcode : Lifts n code) (hneeds : i.needs ≤ n)
    (hstands : ∀ h : Int, i.needs ≤ h → i.StandsAt h) :
    Lifts (n - i.needs + i.gives) (code ++ [i]) where
  rise := by
    rw [height_append, hcode.rise, height, height, Instruction.net]
    omega
  safe h := by
    rw [safe_append, hcode.rise]
    exact ⟨hcode.safe h, hstands (h + n) (by omega), trivial⟩

theorem Level.append (hcode : Level code) (hcode' : Level code') : Level (code ++ code') where
  rise := by
    rw [height_append, hcode.rise, hcode'.rise]
    rfl
  safe := by
    rw [safe_append, hcode.rise]
    exact ⟨hcode.safe, hcode'.safe⟩

/-- Code that takes what was left on the stack. -/
theorem Lifts.level (hcode : Lifts n code) (hheight : height code' = -n) (hsafe : Safe n code') :
    Level (code ++ code') where
  rise := by rw [height_append, hcode.rise, hheight, Int.add_right_neg]
  safe := by
    rw [safe_append, hcode.rise, Int.zero_add]
    exact ⟨hcode.safe 0, hsafe⟩

end

/-! ## Operands -/

/-- What stands above more words than it needs, or leaves a word itself, neither jumps
nor returns, and stands wherever there are words enough. -/
theorem Instruction.StandsAt.everywhere {i : Instruction} {h : Int} (hi : i.StandsAt h)
    (hmore : i.gives = 1 ∨ i.needs < h) : ∀ h' : Int, i.needs ≤ h' → i.StandsAt h' := by
  intro h' hneeds
  cases i <;> simp at hi hmore hneeds ⊢ <;> omega

theorem Instruction.gives_eq (i : Instruction) : i.gives = 0 ∨ i.gives = 1 := by
  cases i <;> simp

theorem exists_last {α : Type} {l : List α} {n : Nat} (h : n ≤ l.length) :
    ∃ front back, l = front ++ back ∧ back.length = n := by
  refine ⟨l.take (l.length - n), l.drop (l.length - n), (List.take_append_drop _ _).symm, ?_⟩
  rw [List.length_drop]
  omega

/-- At each place of safe code, the words on the stack come from pieces of code one
after the other, each of which leaves one word. -/
theorem Safe.exists_operands {code : List Instruction} (hsafe : Safe 0 code) :
    ∃ (outer : List Instruction) (operands : List (List Instruction)),
      code = outer ++ operands.flatten ∧ operands.length = height code ∧
      ∀ piece ∈ operands, Lifts 1 piece := by
  -- by induction from the end, since an instruction changes the pieces before it
  induction code using List.reverseRecOn with
  | nil => exact ⟨[], [], rfl, rfl, by simp⟩
  | append_singleton code i ih =>
      rw [safe_append, Int.zero_add] at hsafe
      obtain ⟨hcode, hi, -⟩ := hsafe
      obtain ⟨outer, operands, rfl, hlength, hlifts⟩ := ih hcode
      -- the instruction takes the last words, and with them their pieces
      have hneeds : i.needs ≤ operands.length := by
        have := hi.1
        omega
      obtain ⟨kept, taken, rfl, htaken⟩ := exists_last hneeds
      rw [List.forall_mem_append] at hlifts
      have hpieces : Lifts i.needs taken.flatten := htaken ▸ Lifts.flatten hlifts.2
      rw [List.length_append] at hlength
      have hheight : height (outer ++ (kept ++ taken).flatten ++ [i]) = kept.length + i.gives := by
        rw [height_append, ← hlength, height, height, Instruction.net]
        omega
      rcases i.gives_eq with hgives | hgives
      · rcases List.eq_nil_or_concat kept with rfl | ⟨kept, piece, rfl⟩
        · -- the stack is empty
          refine ⟨outer ++ ([] ++ taken).flatten ++ [i], [], by simp, ?_, by simp⟩
          rw [hheight, hgives]
          rfl
        · -- what leaves no word belongs to the piece of the word below
          rw [List.concat_eq_append, List.forall_mem_append, List.forall_mem_singleton] at hlifts
          rw [List.length_concat] at hlength hheight
          have hnew : Lifts 1 (piece ++ taken.flatten ++ [i]) := by
            have hsnoc := (hlifts.1.2.append hpieces).snoc (Nat.le_add_left _ _)
              (hi.everywhere (.inr (by omega)))
            rwa [Nat.add_sub_cancel, hgives] at hsnoc
          refine ⟨outer, kept ++ [piece ++ taken.flatten ++ [i]], by simp, ?_, ?_⟩
          · rw [hheight, hgives, List.length_append]
            rfl
          · rw [List.forall_mem_append, List.forall_mem_singleton]
            exact ⟨hlifts.1.1, hnew⟩
      · -- the new word takes the place of those it was made from
        have hnew : Lifts 1 (taken.flatten ++ [i]) := by
          have hsnoc := hpieces.snoc (Nat.le_refl _) (hi.everywhere (.inl hgives))
          rwa [Nat.sub_self, hgives] at hsnoc
        refine ⟨outer, kept ++ [taken.flatten ++ [i]], by simp, ?_, ?_⟩
        · rw [hheight, hgives, List.length_append]
          rfl
        · rw [List.forall_mem_append, List.forall_mem_singleton]
          exact ⟨hlifts.1, hnew⟩

/-! ## The machine -/

theorem Command.length_apply {c : Command} {stack stack' : List Word}
    (h : c.apply stack = some stack') :
    c.operands ≤ stack.length ∧ stack'.length + c.operands = stack.length + 1 := by
  cases c <;> rcases stack with _ | ⟨y, _ | ⟨x, rest⟩⟩ <;>
    simp only [Command.apply, Option.some.injEq, reduceCtorEq] at h <;> subst h <;>
    simp [Command.operands]

theorem State.stack_write {s s' : State} {v : Word} {segment : Segment} {n : Nat}
    (h : s.write v segment n = some s') : s'.stack = s.stack := by
  unfold State.write at h
  split at h <;> cases h <;> rfl

/-- An instruction with an effect finds the words it needs, and the height changes as
the scan says. -/
theorem effect_height {calls : Calls} {i : Instruction} {s s' : State}
    (h : effect calls i s = some s') :
    i.needs ≤ s.stack.length ∧ (s'.stack.length : Int) = s.stack.length + i.net := by
  cases i with
  | push segment n =>
      obtain ⟨v, -, rfl⟩ := Option.map_eq_some_iff.mp h
      simp [Instruction.needs, Instruction.net, Instruction.gives]
  | pop segment n =>
      rw [effect] at h
      split at h
      · next v rest hstack =>
          have hrest : s'.stack = rest := State.stack_write h
          simp only [Instruction.needs, Instruction.net, Instruction.gives, hstack, hrest,
            List.length_cons]
          omega
      · cases h
  | command c =>
      obtain ⟨stack, happly, rfl⟩ := Option.map_eq_some_iff.mp h
      obtain ⟨hneeds, hlength⟩ := Command.length_apply happly
      simp only [Instruction.needs, Instruction.net, Instruction.gives]
      omega
  | label name =>
      cases h
      simp [Instruction.needs, Instruction.net, Instruction.gives]
  | call name n =>
      rw [effect] at h
      split at h
      · next hn =>
          cases h
          simp only [Instruction.needs, Instruction.net, Instruction.gives, State.call,
            List.length_cons, List.length_drop]
          omega
      · cases h
  | function name n =>
      cases h
      simp [Instruction.needs, Instruction.net, Instruction.gives]
  | goto name => cases h
  | ifGoto name => cases h
  | ret => cases h

/-- Code without jumps and labels that runs is safe. -/
theorem safe_of_execute {calls : Calls} : ∀ {code : List Instruction} {s s' : State},
    labelNames code = [] → execute calls code s = some s' →
      Safe s.stack.length code ∧ (s'.stack.length : Int) = s.stack.length + height code
  | [], s, s', _, h => by
      cases h
      exact ⟨trivial, (Int.add_zero _).symm⟩
  | i :: code, s, s', hlabels, h => by
      obtain ⟨m, hi, hcode⟩ := Option.bind_eq_some_iff.mp h
      rw [labelNames_cons, List.append_eq_nil_iff] at hlabels
      obtain ⟨hneeds, hm⟩ := effect_height hi
      obtain ⟨hsafe, hs'⟩ := safe_of_execute hlabels.2 hcode
      rw [hm] at hsafe hs'
      refine ⟨⟨⟨by omega, ?_⟩, hsafe⟩, by rw [hs', height, Int.add_assoc]⟩
      cases i with
      | label name => cases hlabels.1
      | goto name => cases hi
      | ifGoto name => cases hi
      | ret => cases hi
      | _ => trivial

/-- Calls that do nothing. -/
def idle : Calls := fun _ _ m => (0, m)

/-- A machine with `h` words on the stack. -/
def State.ofHeight (h : Nat) : State where
  stack := List.replicate h 0
  frame := ⟨fun _ => 0, fun _ => 0, 0⟩
  memory := ⟨fun _ => 0, fun _ => 0⟩
  that := 0
  temp := fun _ => 0

/-- Code that computes `n` words on any stack lifts the height by `n`. -/
theorem lifts_of_computes {code : List Instruction} {n : Nat} (hlabels : labelNames code = [])
    (h : ∀ s : State, ∃ stack m, stack.length = s.stack.length + n ∧
      Computes idle code s stack m) : Lifts n code := by
  have hscan : ∀ k : Nat, Safe k code ∧ height code = n := by
    intro k
    obtain ⟨stack, m, hlength, that, hexecute⟩ := h (State.ofHeight k)
    obtain ⟨hsafe, hheight⟩ := safe_of_execute hlabels hexecute
    have hk : (State.ofHeight k).stack.length = k := List.length_replicate
    rw [hk] at hsafe hheight hlength
    simp only [hlength] at hheight
    exact ⟨hsafe, by omega⟩
  exact ⟨(hscan 0).2, fun k => (hscan k).1⟩

namespace Tree

section
variable {env : Env} {r : Runtime} {label : Tag → Nat → String} {k : Nat}

theorem Term.lifts (hfits : env.Fits) {e : Term} (hwell : (Fragment.term e).WellFormed env) :
    Lifts 1 (e.code env r) := by
  apply lifts_of_computes (Term.labelNames_code e)
  intro s
  exact ⟨_, _, rfl, e.computes hfits hwell.valid hwell.size⟩

theorem Expression.lifts (hfits : env.Fits) {e : Expression}
    (hwell : (Fragment.expression e).WellFormed env) : Lifts 1 (e.code env r) := by
  apply lifts_of_computes (Expression.labelNames_code e)
  intro s
  exact ⟨_, _, rfl, e.computes hfits hwell.valid hwell.size⟩

theorem lifts_load (hfits : env.Fits) {x : Identifier} (hx : env.Uses x) :
    Lifts 1 (env.load x.text) := by
  apply lifts_of_computes (labelNames_load x.text)
  intro s
  exact ⟨_, _, rfl, computes_load hfits hx⟩

/-- Before a call its receiver and its arguments are pushed. -/
theorem lifts_passed (hfits : env.Fits) {f : CallName} {args : ArgumentList}
    (hwell : (Fragment.arguments args).WellFormed env) :
    Lifts (env.receivers f + args.length) (env.receiver f ++ args.code env r) := by
  have hreceiver : Lifts (env.receivers f) (env.receiver f) := by
    apply lifts_of_computes (labelNames_receiver f)
    intro s
    refine ⟨_, _, ?_, computes_receiver hfits f⟩
    rw [List.length_append, List.length_reverse, length_receiverValues, Nat.add_comm]
  have hargs : Lifts args.length (args.code env r) := by
    apply lifts_of_computes (ArgumentList.labelNames_code args)
    intro s
    refine ⟨_, _, ?_, args.computes hfits hwell.valid hwell.size⟩
    rw [List.length_append, List.length_reverse, ArgumentList.length_eval, Nat.add_comm]
  exact hreceiver.append hargs

/-! ## Statements -/

/-- The condition of a branch or a loop is tested and taken from the stack. -/
theorem level_condition (hfits : env.Fits) {c : Expression}
    (hwell : (Fragment.expression c).WellFormed env) (name : String) :
    Level (c.code env r ++ [.command .not, .ifGoto name]) :=
  (Expression.lifts hfits hwell).level rfl (by simp)

mutual
theorem Statement.level (hfits : env.Fits) : ∀ (s : Statement) (k : Nat),
    (Fragment.statement k s).WellFormed env → Level (s.code env r label k)
  | .letVar x e, k, hwell => by
      have he : (Fragment.expression e).WellFormed env :=
        hwell.part r label (by simp [Fragment.pieces])
      obtain ⟨v, hv, -⟩ := hwell.valid.1
      rw [Statement.code, Env.store, hv]
      exact (Expression.lifts hfits he).level rfl (by simp)
  | .letElement x i e, k, hwell => by
      have hi : (Fragment.expression i).WellFormed env :=
        hwell.part r label (by simp [Fragment.pieces])
      have he : (Fragment.expression e).WellFormed env :=
        hwell.part r label (by simp [Fragment.pieces])
      have hindex : Lifts 2 (env.load x.text ++ i.code env r) :=
        (lifts_load hfits hwell.valid.1).append (Expression.lifts hfits hi)
      have haddress : Lifts 1 (env.load x.text ++ i.code env r ++ [.command .add]) :=
        hindex.snoc (i := .command .add) (by simp) (by simp)
      have hvalue : Lifts 2 _ := haddress.append (Expression.lifts (r := r) hfits he)
      exact hvalue.level rfl (by simp)
  | .ifThen c b, k, hwell => by
      have hc : (Fragment.expression c).WellFormed env :=
        hwell.part r label (by simp [Fragment.pieces])
      have hb : (Fragment.statements (k + 2) b).WellFormed env :=
        hwell.part r label (by simp [Fragment.pieces])
      have hblock := (level_condition (r := r) hfits hc (label .ifFalse k)).append
        (StatementList.level hfits b (k + 2) hb)
      exact hblock.append ⟨rfl, by simp⟩
  | .ifElse c b b', k, hwell => by
      have hc : (Fragment.expression c).WellFormed env :=
        hwell.part r label (by simp [Fragment.pieces])
      have hb : (Fragment.statements (k + 2) b).WellFormed env :=
        hwell.part r label (by simp [Fragment.pieces])
      have hb' : (Fragment.statements (k + 2 + b.labels) b').WellFormed env :=
        hwell.part r label (by simp [Fragment.pieces])
      have hblock := (level_condition (r := r) hfits hc (label .ifFalse k)).append
        (StatementList.level hfits b (k + 2) hb)
      have helse : Level (_ ++ [.goto (label .ifEnd (k + 1)), .label (label .ifFalse k)]) :=
        hblock.append ⟨rfl, by simp⟩
      exact (helse.append (StatementList.level hfits b' _ hb')).append ⟨rfl, by simp⟩
  | .whileDo c b, k, hwell => by
      have hc : (Fragment.expression c).WellFormed env :=
        hwell.part r label (by simp [Fragment.pieces])
      have hb : (Fragment.statements (k + 2) b).WellFormed env :=
        hwell.part r label (by simp [Fragment.pieces])
      have hlabel : Level [.label (label .whileExp k)] := ⟨rfl, by simp⟩
      have htest := hlabel.append (level_condition (r := r) hfits hc (label .whileEnd (k + 1)))
      rw [← List.append_assoc] at htest
      have hblock := htest.append (StatementList.level hfits b (k + 2) hb)
      exact hblock.append ⟨rfl, by simp⟩
  | .doCall f args, k, hwell => by
      have hcall : (Fragment.term (.call f args)).WellFormed env :=
        hwell.part r label (by simp [Fragment.pieces])
      exact (Term.lifts hfits hcall).level rfl (by simp)
  | .returnNothing, k, _ => ⟨rfl, by simp [Statement.code]⟩
  | .returnValue e, k, hwell => by
      have he : (Fragment.expression e).WellFormed env :=
        hwell.part r label (by simp [Fragment.pieces])
      exact (Expression.lifts hfits he).level rfl (by simp)
theorem StatementList.level (hfits : env.Fits) : ∀ (ss : StatementList) (k : Nat),
    (Fragment.statements k ss).WellFormed env → Level (ss.code env r label k)
  | .nil, k, _ => ⟨rfl, trivial⟩
  | .cons s rest, k, hwell => by
      have hs : (Fragment.statement k s).WellFormed env :=
        hwell.part r label (by simp [Fragment.pieces])
      have hrest : (Fragment.statements (k + s.labels) rest).WellFormed env :=
        hwell.part r label (by simp [Fragment.pieces])
      exact (Statement.level hfits s k hs).append (StatementList.level hfits rest _ hrest)
end

theorem level_binding : Level (env.binding r) := by
  unfold Env.binding
  split
  · exact ⟨rfl, by simp⟩
  · exact ⟨rfl, by simp⟩
  · exact ⟨rfl, trivial⟩

end

end Tree

/-! ## Routines -/

/-- The stack discipline of a routine. Its height is 0 after its `function` line. -/
structure Routine.KeepsDiscipline (b : Routine) : Prop where
  /-- No instruction needs more words than there are. -/
  enough : ∀ before i after, b.body = before ++ i :: after → i.needs ≤ height before
  label : ∀ before name after, b.body = before ++ .label name :: after → height before = 0
  goto : ∀ before name after, b.body = before ++ .goto name :: after → height before = 0
  ifGoto : ∀ before name after, b.body = before ++ .ifGoto name :: after →
    height (before ++ [.ifGoto name]) = 0
  ret : ∀ before after, b.body = before ++ .ret :: after →
    height before = 1 ∧ height (before ++ [.ret]) = 0
  finish : height b.body = 0
  /-- The words that a call takes are pushed right before it, each by a piece of code
  of its own. -/
  call : ∀ before name n after, b.body = before ++ .call name n :: after →
    ∃ (outer : List Instruction) (operands : List (List Instruction)),
      before = outer ++ operands.flatten ∧ operands.length = n.toNat ∧
      ∀ piece ∈ operands, Lifts 1 piece

theorem Level.standsAt {code before after : List Instruction} {i : Instruction} (h : Level code)
    (hsplit : code = before ++ i :: after) : i.StandsAt (height before) := by
  have hsafe := h.safe
  rw [hsplit, safe_append, Int.zero_add] at hsafe
  exact hsafe.2.1

theorem Level.keepsDiscipline {b : Routine} (h : Level b.body) : b.KeepsDiscipline where
  enough _ _ _ hsplit := (h.standsAt hsplit).1
  label _ _ _ hsplit := (h.standsAt hsplit).2
  goto _ _ _ hsplit := (h.standsAt hsplit).2
  ifGoto before name after hsplit := by
    rw [height_append, (h.standsAt hsplit).2]
    rfl
  ret before after hsplit := by
    refine ⟨(h.standsAt hsplit).2, ?_⟩
    rw [height_append, (h.standsAt hsplit).2]
    rfl
  finish := h.rise
  call before name n after hsplit := by
    have hneeds : n.toNat ≤ height before := (h.standsAt hsplit).1
    have hsafe := h.safe
    rw [hsplit, safe_append] at hsafe
    obtain ⟨outer, operands, rfl, hlength, hlifts⟩ := hsafe.1.exists_operands
    obtain ⟨kept, taken, rfl, htaken⟩ := exists_last (l := operands) (n := n.toNat) (by omega)
    refine ⟨outer ++ kept.flatten, taken, by simp, htaken, ?_⟩
    intro piece hpiece
    exact hlifts piece (List.mem_append_right _ hpiece)

namespace Tree

/-- Each call in the source passes on as many words as are pushed between the start of
its code and the call: its receiver, if it has one, and its arguments. -/
def Subroutine.PassesArguments (r : Runtime) (c : Class) (sub : Subroutine) (b : Routine) : Prop :=
  ∀ before f args after,
    Holds (c.env sub) r (c.env sub).label (.statements 0 sub.body) before (.term (.call f args))
      after →
    ∃ passed n,
      b.body = (c.env sub).binding r ++ before ++ passed ++
        .call ((c.env sub).callee f) n :: after ∧
      Lifts n.toNat passed ∧ n.toNat = (c.env sub).receivers f + args.length

section
variable {r : Runtime} {c : Class} {sub : Subroutine}

theorem Subroutine.passesArguments (hfits : (c.env sub).Fits)
    (hbody : (Fragment.statements 0 sub.body).WellFormed (c.env sub)) :
    sub.PassesArguments r c (sub.routine r c (c.env sub).label) := by
  intro before f args after hholds
  have hcall := hholds.wellFormed hbody
  have hargs : (Fragment.arguments args).WellFormed (c.env sub) :=
    hcall.part r (c.env sub).label (by simp [Fragment.pieces])
  -- the count of passed words does not wrap
  have hcount : (c.env sub).receivers f + args.length < UInt32.size := by
    have hsize := hcall.size
    have hmore := args.length_printMore_le
    have hlength := args.length_le_printMore
    have hreceivers := receivers_le (c.env sub) f
    simp only [Fragment.size, Term.print, List.length_append, List.length_cons,
      List.length_nil] at hsize
    omega
  have hn := UInt32.toNat_ofNat_of_lt' hcount
  refine ⟨(c.env sub).receiver f ++ args.code (c.env sub) r,
    UInt32.ofNat ((c.env sub).receivers f + args.length), ?_, ?_, hn⟩
  · have hcode := hholds.code_eq
    rw [Fragment.code, Fragment.code, Term.code] at hcode
    rw [Subroutine.routine, hcode]
    simp
  · rw [hn]
    exact lifts_passed hfits hargs

end

end Tree

namespace Compilation

open JackVm.Tree

/-- The program of an accepted source text keeps the stack discipline. The bound keeps
the 32-bit counts of arguments from wrapping. -/
theorem ofSource_keeps_stack_discipline {t : Target} {table : VariableTable} {source : String}
    {outlet : Outlet} (h : (ofSource t table source outlet).result = .ok ())
    (hlength : source.length < UInt32.size) :
    ∃ tokens, ∃ c : Tree.Class, scan source = .ok tokens ∧ tokens.map (·.toLexeme) = c.print ∧
      c.Routinewise (fun sub b => b.KeepsDiscipline ∧ sub.PassesArguments t.runtime c b)
        (ofSource t table source outlet).sink.code := by
  refine routinewise_of_short h hlength ?_
  intro c sub hvalid hsub hbound
  have hfits := Class.env_fits hsub hbound
  have hbody := hvalid.body hsub hbound
  have hlevel : Level (sub.routine t.runtime c (c.env sub).label).body :=
    level_binding.append (sub.body.level hfits 0 hbody)
  exact ⟨hlevel.keepsDiscipline, sub.passesArguments hfits hbody⟩

theorem ofSource_keeps_stack_discipline_table :
    (ofSource ⟨"T", {}⟩ {} tableSource {}).result = .ok () ∧
      tableSource.length < UInt32.size ∧
      ∃ tokens, ∃ c : Tree.Class, scan tableSource = .ok tokens ∧
        tokens.map (·.toLexeme) = c.print ∧
        c.Routinewise (fun sub b => b.KeepsDiscipline ∧ sub.PassesArguments {} c b)
          (ofSource ⟨"T", {}⟩ {} tableSource {}).sink.code :=
  ⟨result_tableSource, length_tableSource,
    ofSource_keeps_stack_discipline result_tableSource length_tableSource⟩

end Compilation

end JackVm
