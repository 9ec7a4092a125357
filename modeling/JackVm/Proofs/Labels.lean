import JackVm.Proofs.Machine
import JackVm.Proofs.Translation

/-!
# The labels of a subroutine

Every branch and every loop draws two numbers of its own and names its labels
after them. So no label stands twice in the code of a subroutine
(`Subroutine.nodup_labels`), and a jump has one place to go.
-/

namespace JackVm.Tree

/-! ## Names -/

/-- Two labels of a subroutine with one name have one number. -/
theorem Env.label_number {env : Env} {tag tag' : Tag} {n n' : Nat}
    (h : env.label tag n = env.label tag' n') : n = n' := by
  have htexts : tag.text.toList ++ n.repr.toList = tag'.text.toList ++ n'.repr.toList := by
    have hlist := congrArg String.toList h
    simpa only [Env.label, String.toList_append, List.append_assoc,
      List.append_cancel_left_eq] using hlist
  have hdigits : n.repr.toList = n'.repr.toList := by
    by_cases htag : tag = tag'
    · subst htag
      exact List.append_cancel_left htexts
    · -- the tags differ in a letter, before any digit
      exfalso
      revert htexts htag
      cases tag <;> cases tag' <;> simp [Tag.text]
  rw [Nat.toList_repr, Nat.toList_repr] at hdigits
  rw [← Nat.ofDigitChars_ten_toDigits (n := n), hdigits, Nat.ofDigitChars_ten_toDigits]

/-! ## Code without labels -/

section
variable {env : Env} {r : Runtime}

theorem labelNames_load (x : String) : labelNames (env.load x) = [] := by
  unfold Env.load
  split <;> rfl

theorem labelNames_store (x : String) : labelNames (env.store x) = [] := by
  unfold Env.store
  split <;> rfl

theorem labelNames_receiver (f : CallName) : labelNames (env.receiver f) = [] := by
  cases f with
  | bare f => rfl
  | dotted x f => exact labelNames_load x.text

theorem labelNames_textCode (text : String) : labelNames (textCode r text) = [] := by
  unfold textCode
  rw [labelNames_append]
  induction text.toList with
  | nil => rfl
  | cons c cs ih => exact ih

theorem labelNames_header : labelNames (env.header r) = [] := by
  unfold Env.header
  cases env.kind <;> rfl

mutual
theorem Term.labelNames_code : ∀ t : Term, labelNames (t.code env r) = []
  | .integer n => rfl
  | .string text => labelNames_textCode text
  | .constant c => by cases c <;> rfl
  | .var x => labelNames_load x.text
  | .element x i => by
      rw [Term.code, labelNames_append, labelNames_append, labelNames_load,
        Expression.labelNames_code i]
      rfl
  | .call f args => by
      rw [Term.code, labelNames_append, labelNames_append, labelNames_receiver,
        ArgumentList.labelNames_code args]
      rfl
  | .group e => Expression.labelNames_code e
  | .unary op t => by
      rw [Term.code, labelNames_append, Term.labelNames_code t]
      cases op <;> rfl
theorem Expression.labelNames_code : ∀ e : Expression, labelNames (e.code env r) = []
  | .mk first rest => by
      rw [Expression.code, labelNames_append, Term.labelNames_code first,
        Operations.labelNames_code rest]
      rfl
theorem Operations.labelNames_code : ∀ o : Operations, labelNames (o.code env r) = []
  | .nil => rfl
  | .cons op t rest => by
      rw [Operations.code, labelNames_append, labelNames_append, Term.labelNames_code t,
        Operations.labelNames_code rest]
      cases op <;> rfl
theorem ArgumentList.labelNames_code : ∀ a : ArgumentList, labelNames (a.code env r) = []
  | .nil => rfl
  | .cons e rest => by
      rw [ArgumentList.code, labelNames_append, Expression.labelNames_code e,
        ArgumentList.labelNames_code rest]
      rfl
end

end

/-! ## Code with labels -/

/-- No two labels in the code are the same, and their numbers are among `N`. -/
structure Draws (label : Tag → Nat → String) (N : Nat → Prop) (code : List Instruction) :
    Prop where
  nodup : (labelNames code).Nodup
  numbers : ∀ name ∈ labelNames code, ∃ tag n, N n ∧ name = label tag n

section
variable {env : Env} {r : Runtime} {label : Tag → Nat → String} {N N' : Nat → Prop}
  {code code' : List Instruction}

theorem Draws.of_none (h : labelNames code = []) : Draws label (fun _ => False) code where
  nodup := by simp [h]
  numbers := by simp [h]

theorem Draws.single (tag : Tag) (n : Nat) : Draws label (· = n) [.label (label tag n)] where
  nodup := by simp [labelNames_cons, Instruction.labelName?]
  numbers name hname := ⟨tag, n, rfl, List.mem_singleton.mp hname⟩

/-- Only the labels of the code matter. -/
theorem Draws.congr (h : Draws label N code) (hcode : labelNames code = labelNames code') :
    Draws label N code' where
  nodup := hcode ▸ h.nodup
  numbers := hcode ▸ h.numbers

theorem Draws.weaken (h : Draws label N code) (hN : ∀ n, N n → N' n) : Draws label N' code where
  nodup := h.nodup
  numbers name hname := by
    obtain ⟨tag, n, hn, rfl⟩ := h.numbers name hname
    exact ⟨tag, n, hN n hn, rfl⟩

/-- Pieces of code that draw different numbers have different labels. -/
theorem Draws.append (hlabel : ∀ tag tag' n n', label tag n = label tag' n' → n = n')
    (h : Draws label N code) (h' : Draws label N' code') (hdisjoint : ∀ n, N n → ¬N' n) :
    Draws label (fun n => N n ∨ N' n) (code ++ code') where
  nodup := by
    rw [labelNames_append, List.nodup_append]
    refine ⟨h.nodup, h'.nodup, ?_⟩
    intro name hname name' hname' heq
    obtain ⟨tag, n, hn, rfl⟩ := h.numbers name hname
    obtain ⟨tag', n', hn', rfl⟩ := h'.numbers name' hname'
    exact hdisjoint n hn (hlabel _ _ _ _ heq ▸ hn')
  numbers name hname := by
    rw [labelNames_append, List.mem_append] at hname
    rcases hname with hname | hname
    · obtain ⟨tag, n, hn, rfl⟩ := h.numbers name hname
      exact ⟨tag, n, .inl hn, rfl⟩
    · obtain ⟨tag, n, hn, rfl⟩ := h'.numbers name hname
      exact ⟨tag, n, .inr hn, rfl⟩

variable (hlabel : ∀ tag tag' n n', label tag n = label tag' n' → n = n')
include hlabel

mutual
theorem Statement.draws : ∀ (s : Statement) (k : Nat),
    Draws label (fun n => k ≤ n ∧ n < k + s.labels) (s.code env r label k)
  | .letVar x e, k => by
      have hnone : labelNames ((Statement.letVar x e).code env r label k) = [] := by
        rw [Statement.code, labelNames_append, Expression.labelNames_code, labelNames_store]
        rfl
      exact (Draws.of_none hnone).weaken (by simp)
  | .letElement x i e, k => by
      have hnone : labelNames ((Statement.letElement x i e).code env r label k) = [] := by
        simp only [Statement.code, labelNames_append, Expression.labelNames_code, labelNames_load]
        rfl
      exact (Draws.of_none hnone).weaken (by simp)
  | .ifThen c b, k => by
      -- `k` and `k + 1` are drawn before the block, so it has other numbers
      have hb := StatementList.draws b (k + 2)
      have hfalse := hb.append hlabel (Draws.single .ifFalse k) (by omega)
      have hend := hfalse.append hlabel (Draws.single .ifEnd (k + 1)) (by omega)
      refine (hend.weaken ?_).congr ?_
      · intro n hn
        rw [Statement.labels]
        omega
      · simp only [Statement.code, labelNames_append, Expression.labelNames_code]
        simp [labelNames_cons, Instruction.labelName?]
  | .ifElse c b b', k => by
      have hb := StatementList.draws b (k + 2)
      have hb' := StatementList.draws b' (k + 2 + b.labels)
      have hfalse := hb.append hlabel (Draws.single .ifFalse k) (by omega)
      have helse := hfalse.append hlabel hb' (by omega)
      have hend := helse.append hlabel (Draws.single .ifEnd (k + 1)) (by omega)
      refine (hend.weaken ?_).congr ?_
      · intro n hn
        rw [Statement.labels]
        omega
      · simp only [Statement.code, labelNames_append, Expression.labelNames_code]
        simp [labelNames_cons, Instruction.labelName?]
  | .whileDo c b, k => by
      have hb := StatementList.draws b (k + 2)
      have hexp := (Draws.single .whileExp k).append hlabel hb (by omega)
      have hend := hexp.append hlabel (Draws.single .whileEnd (k + 1)) (by omega)
      refine (hend.weaken ?_).congr ?_
      · intro n hn
        rw [Statement.labels]
        omega
      · simp only [Statement.code, labelNames_append, Expression.labelNames_code]
        simp [labelNames_cons, Instruction.labelName?]
  | .doCall f args, k => by
      have hnone : labelNames ((Statement.doCall f args).code env r label k) = [] := by
        rw [Statement.code, labelNames_append, Term.labelNames_code]
        rfl
      exact (Draws.of_none hnone).weaken (by simp)
  | .returnNothing, k => (Draws.of_none rfl).weaken (by simp)
  | .returnValue e, k => by
      have hnone : labelNames ((Statement.returnValue e).code env r label k) = [] := by
        rw [Statement.code, labelNames_append, Expression.labelNames_code]
        rfl
      exact (Draws.of_none hnone).weaken (by simp)
theorem StatementList.draws : ∀ (ss : StatementList) (k : Nat),
    Draws label (fun n => k ≤ n ∧ n < k + ss.labels) (ss.code env r label k)
  | .nil, k => (Draws.of_none rfl).weaken (by simp)
  | .cons s rest, k => by
      have hs := Statement.draws s k
      have hrest := StatementList.draws rest (k + s.labels)
      refine (hs.append hlabel hrest (by omega)).weaken ?_
      intro n hn
      rw [StatementList.labels]
      omega
end

end

/-- No label stands twice in the code of a subroutine. -/
theorem Subroutine.nodup_labels (r : Runtime) (c : Class) (sub : Subroutine) :
    (labelNames (sub.code r c)).Nodup := by
  rw [Subroutine.code, labelNames_append, labelNames_header, List.nil_append]
  exact (sub.body.draws (fun _ _ _ _ => Env.label_number) 0).nodup

end JackVm.Tree
