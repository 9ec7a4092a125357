import JackVm.Proofs.Labels
import JackVm.Proofs.Routines
import Mathlib.Data.List.Nodup

/-!
# Jumps

A branch or a loop jumps only to the labels that it draws itself. Main statement: in
every routine of an accepted class the labels differ and are named after the routine,
and each jump has exactly one label to go to (`ofSource_closes_jumps`).
-/

namespace JackVm

/-- The label that an instruction jumps to. -/
def Instruction.jumpName? : Instruction → Option String
  | .goto name | .ifGoto name => some name
  | _ => none

/-- The names of the labels that a piece of code jumps to. -/
def jumpNames (code : List Instruction) : List String := code.filterMap Instruction.jumpName?

@[simp] theorem jumpNames_nil : jumpNames [] = [] := rfl

@[simp] theorem jumpNames_append (code code' : List Instruction) :
    jumpNames (code ++ code') = jumpNames code ++ jumpNames code' :=
  List.filterMap_append

theorem jumpNames_cons (i : Instruction) (code : List Instruction) :
    jumpNames (i :: code) = i.jumpName?.toList ++ jumpNames code := by
  unfold jumpNames
  rw [List.filterMap_cons]
  cases i.jumpName? <;> rfl

theorem count_label (name : String) (code : List Instruction) :
    code.count (.label name) = (labelNames code).count name := by
  induction code with
  | nil => rfl
  | cons i code ih =>
      rw [labelNames_cons, List.count_append, ← ih]
      cases i with
      | label name' =>
          by_cases hname : name' = name
          · subst hname
            simp [Instruction.labelName?, Nat.add_comm]
          · simp [Instruction.labelName?, hname]
      | _ => simp [Instruction.labelName?]

/-- A routine whose jumps stay inside: its labels differ and are named after it, and
each jump goes to a label that stands once in it. -/
structure Routine.ClosesJumps (b : Routine) : Prop where
  distinct : (labelNames b.body).Nodup
  target : ∀ name ∈ jumpNames b.body, b.body.count (.label name) = 1
  qualified : ∀ name ∈ labelNames b.body, (b.name ++ "$").toList <+: name.toList

namespace Tree

section
variable {env : Env} {r : Runtime} {label : Tag → Nat → String}

/-! ## Code without jumps -/

theorem jumpNames_of_evaluates {code : List Instruction} (h : ∀ i ∈ code, env.Evaluates i) :
    jumpNames code = [] := by
  rw [jumpNames, List.filterMap_eq_nil_iff]
  intro i hi
  cases h i hi <;> rfl

theorem jumpNames_store (x : String) : jumpNames (env.store x) = [] := by
  unfold Env.store
  split <;> rfl

theorem jumpNames_binding : jumpNames (env.binding r) = [] := by
  unfold Env.binding
  split <;> rfl

theorem labelNames_binding : labelNames (env.binding r) = [] := by
  unfold Env.binding
  split <;> rfl

theorem Expression.jumpNames_code {e : Expression} (he : e.Valid env) :
    jumpNames (e.code env r) = [] := jumpNames_of_evaluates (e.evaluates he)

/-! ## Code with jumps -/

mutual
/-- A statement jumps to labels in its own code. -/
theorem Statement.jumps : ∀ (s : Statement) (k : Nat), s.Valid env →
    jumpNames (s.code env r label k) ⊆ labelNames (s.code env r label k)
  | .letVar x e, _, h => by
      rw [Statement.code, jumpNames_append, Expression.jumpNames_code h.2, jumpNames_store]
      exact List.nil_subset _
  | .letElement x i e, _, h => by
      have hload : jumpNames (env.load x.text) = [] :=
        jumpNames_of_evaluates (evaluates_load h.1)
      simp only [Statement.code, jumpNames_append, hload, Expression.jumpNames_code h.2.1,
        Expression.jumpNames_code h.2.2]
      exact List.nil_subset _
  | .ifThen c b, k, h => by
      have hb := StatementList.jumps b (k + 2) h.2
      have hjumps : jumpNames ((Statement.ifThen c b).code env r label k) =
          label .ifFalse k :: (jumpNames (b.code env r label (k + 2)) ++
            [label .ifEnd (k + 1)]) := by
        simp [Statement.code, Expression.jumpNames_code h.1, jumpNames_cons,
          Instruction.jumpName?]
      have hlabels : labelNames ((Statement.ifThen c b).code env r label k) =
          labelNames (b.code env r label (k + 2)) ++
            [label .ifFalse k, label .ifEnd (k + 1)] := by
        simp [Statement.code, Expression.labelNames_code, labelNames_cons,
          Instruction.labelName?]
      rw [hjumps, hlabels, List.cons_subset, List.append_subset]
      exact ⟨by simp, List.subset_append_of_subset_left _ hb, by simp⟩
  | .ifElse c b b', k, h => by
      have hb := StatementList.jumps b (k + 2) h.2.1
      have hb' := StatementList.jumps b' (k + 2 + b.labels) h.2.2
      have hjumps : jumpNames ((Statement.ifElse c b b').code env r label k) =
          label .ifFalse k :: (jumpNames (b.code env r label (k + 2)) ++
            label .ifEnd (k + 1) :: jumpNames (b'.code env r label (k + 2 + b.labels))) := by
        simp [Statement.code, Expression.jumpNames_code h.1, jumpNames_cons,
          Instruction.jumpName?]
      have hlabels : labelNames ((Statement.ifElse c b b').code env r label k) =
          labelNames (b.code env r label (k + 2)) ++ label .ifFalse k ::
            (labelNames (b'.code env r label (k + 2 + b.labels)) ++ [label .ifEnd (k + 1)]) := by
        simp [Statement.code, Expression.labelNames_code, labelNames_cons,
          Instruction.labelName?]
      rw [hjumps, hlabels, List.cons_subset, List.append_subset, List.cons_subset]
      refine ⟨by simp, List.subset_append_of_subset_left _ hb, by simp, ?_⟩
      apply List.subset_append_of_subset_right
      apply List.subset_cons_of_subset
      exact List.subset_append_of_subset_left _ hb'
  | .whileDo c b, k, h => by
      have hb := StatementList.jumps b (k + 2) h.2
      have hjumps : jumpNames ((Statement.whileDo c b).code env r label k) =
          label .whileEnd (k + 1) :: (jumpNames (b.code env r label (k + 2)) ++
            [label .whileExp k]) := by
        simp [Statement.code, Expression.jumpNames_code h.1, jumpNames_cons,
          Instruction.jumpName?]
      have hlabels : labelNames ((Statement.whileDo c b).code env r label k) =
          label .whileExp k :: (labelNames (b.code env r label (k + 2)) ++
            [label .whileEnd (k + 1)]) := by
        simp [Statement.code, Expression.labelNames_code, labelNames_cons,
          Instruction.labelName?]
      rw [hjumps, hlabels, List.cons_subset, List.append_subset]
      refine ⟨by simp, ?_, by simp⟩
      apply List.subset_cons_of_subset
      exact List.subset_append_of_subset_left _ hb
  | .doCall f args, _, h => by
      have hcall : jumpNames ((Term.call f args).code env r) = [] :=
        jumpNames_of_evaluates ((Term.call f args).evaluates h)
      rw [Statement.code, jumpNames_append, hcall]
      exact List.nil_subset _
  | .returnNothing, _, _ => List.nil_subset _
  | .returnValue e, _, h => by
      rw [Statement.code, jumpNames_append, Expression.jumpNames_code h.2]
      exact List.nil_subset _
theorem StatementList.jumps : ∀ (ss : StatementList) (k : Nat), ss.Valid env →
    jumpNames (ss.code env r label k) ⊆ labelNames (ss.code env r label k)
  | .nil, _, _ => List.nil_subset _
  | .cons s rest, k, h => by
      have hs := Statement.jumps s k h.1
      have hrest := StatementList.jumps rest (k + s.labels) h.2
      rw [StatementList.code, jumpNames_append, labelNames_append, List.append_subset]
      exact ⟨List.subset_append_of_subset_left _ hs, List.subset_append_of_subset_right _ hrest⟩
end

end

/-! ## Routines -/

theorem Subroutine.closesJumps {c : Class} {sub : Subroutine} (hvalid : sub.Valid c)
    (r : Runtime) : (sub.routine r c (c.env sub).label).ClosesJumps := by
  let code := sub.body.code (c.env sub) r (c.env sub).label 0
  have hdraws : Draws (c.env sub).label _ code := sub.body.draws (fun _ _ _ _ => Env.label_number) 0
  have hlabels : labelNames (sub.routine r c (c.env sub).label).body = labelNames code := by
    rw [Subroutine.routine, labelNames_append, labelNames_binding, List.nil_append]
  have hjumps : jumpNames (sub.routine r c (c.env sub).label).body = jumpNames code := by
    rw [Subroutine.routine, jumpNames_append, jumpNames_binding, List.nil_append]
  refine ⟨?_, ?_, ?_⟩
  · rw [hlabels]
    exact hdraws.nodup
  · intro name hname
    rw [hjumps] at hname
    rw [count_label, hlabels]
    exact List.count_eq_one_of_mem hdraws.nodup (sub.body.jumps 0 hvalid.body hname)
  · intro name hname
    rw [hlabels] at hname
    obtain ⟨tag, n, -, rfl⟩ := hdraws.numbers name hname
    refine ⟨tag.text.toList ++ n.repr.toList, ?_⟩
    simp [Subroutine.routine, Env.label, Class.env]

end Tree

namespace Compilation

open JackVm.Tree

/-- In the program of an accepted source text all jumps stay in their routine. The
bound keeps the 32-bit count of labels from wrapping. -/
theorem ofSource_closes_jumps {t : Target} {table : VariableTable} {source : String}
    {outlet : Outlet} (h : (ofSource t table source outlet).result = .ok ())
    (hlength : source.length < UInt32.size) :
    (routines (ofSource t table source outlet).sink.code).flatMap Routine.code =
        (ofSource t table source outlet).sink.code ∧
      ∀ b ∈ routines (ofSource t table source outlet).sink.code, b.ClosesJumps := by
  obtain ⟨-, c, -, -, hroutines⟩ := routinewise_of_short (P := fun _ _ b => b.ClosesJumps) h hlength
    fun c sub hvalid hsub _ => sub.closesJumps (hvalid.subroutines sub hsub) t.runtime
  have heach := hroutines.each.flip.imp fun b sub hb => And.comm.mp hb
  exact ⟨hroutines.covers, ((List.forall₂_and_left _ _).mp heach).1⟩

theorem ofSource_closes_jumps_table :
    (ofSource ⟨"T", {}⟩ {} tableSource {}).result = .ok () ∧
      tableSource.length < UInt32.size ∧
      (routines (ofSource ⟨"T", {}⟩ {} tableSource {}).sink.code).flatMap Routine.code =
        (ofSource ⟨"T", {}⟩ {} tableSource {}).sink.code ∧
      ∀ b ∈ routines (ofSource ⟨"T", {}⟩ {} tableSource {}).sink.code, b.ClosesJumps :=
  ⟨result_tableSource, length_tableSource,
    ofSource_closes_jumps result_tableSource length_tableSource⟩

end Compilation

end JackVm
