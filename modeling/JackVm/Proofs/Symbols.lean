import JackVm.Proofs.Labels
import JackVm.Proofs.Routines
import Mathlib.Data.List.Nodup

/-!
# The symbols of a program

A routine is named after its subroutine, and a label after the routine it stands in.
The count of labels begins anew with each subroutine, so symbols are as distinct as the
names of the subroutines are. A class may declare two subroutines of one name, though.

Main statements: the `function` lines of an accepted program are distinct exactly when
the subroutines of the class have distinct names, and then all its labels are distinct,
too (`ofSource_unique_symbols`). There is an accepted class that repeats symbols of
both kinds (`ofSource_repeats_symbols`).
-/

namespace JackVm

/-- The name of the routine that an instruction begins. -/
def Instruction.functionName? : Instruction → Option String
  | .function name _ => some name
  | _ => none

/-- The names of the `function` lines in a piece of code. -/
def functionNames (code : List Instruction) : List String :=
  code.filterMap Instruction.functionName?

theorem functionNames_eq_routines (code : List Instruction) :
    functionNames code = (routines code).map Routine.name := by
  induction code with
  | nil => rfl
  | cons i code ih =>
      cases i with
      | function name locals => exact congrArg (name :: ·) ih
      | _ => exact ih

namespace Tree

/-! ## Names of subroutines -/

theorem Identifier.dollar_not_mem (x : Identifier) : '$' ∉ x.text.toList := by
  intro hmem
  have hspelled := x.spelled
  unfold isIdentifier at hspelled
  split at hspelled
  · cases hspelled
  · next c cs hcs =>
      rw [Bool.and_eq_true, List.all_eq_true] at hspelled
      obtain ⟨hfirst, hrest⟩ := hspelled
      rw [hcs, List.mem_cons] at hmem
      rcases hmem with rfl | hmem
      · exact absurd hfirst (by decide)
      · exact absurd (hrest _ hmem) (by decide)

/-- The routines of a class are named apart by their subroutines. -/
theorem Class.qualified_injective (c : Class) :
    Function.Injective fun x : Identifier => c.name.text ++ "." ++ x.text := by
  intro x y hxy
  have hlist := congrArg String.toList hxy
  simp only [String.toList_append, List.append_assoc, List.append_cancel_left_eq] at hlist
  exact Identifier.text_injective (String.ext hlist)

theorem Class.Routinewise.functionNames_eq {c : Class} {P : Subroutine → Routine → Prop}
    {code : List Instruction} (h : c.Routinewise P code) :
    functionNames code =
      (c.subroutines.map Subroutine.name).map fun x => c.name.text ++ "." ++ x.text := by
  have hnames : List.Forall₂ (fun sub b => c.name.text ++ "." ++ Identifier.text sub.name = b.name)
      c.subroutines (routines code) := h.each.imp fun _ _ hb => hb.1.symm
  rw [← List.forall₂_map_right_iff, ← List.forall₂_map_left_iff, List.forall₂_eq_eq_eq] at hnames
  rw [functionNames_eq_routines, List.map_map]
  exact hnames.symm

/-! ## Labels of a class -/

/-- Two labels of a class with one name are of subroutines with one name. -/
theorem Class.label_subroutine {c : Class} {sub sub' : Subroutine} {tag tag' : Tag} {n n' : Nat}
    (h : (c.env sub).label tag n = (c.env sub').label tag' n') : sub.name = sub'.name := by
  have hlist := congrArg String.toList h
  simp only [Env.label, Class.env, String.toList_append, List.append_assoc,
    List.append_cancel_left_eq] at hlist
  -- the dollar sign ends the name of the subroutine
  obtain ⟨hname, -⟩ := append_cons_cancel sub.name.dollar_not_mem sub'.name.dollar_not_mem hlist
  exact Identifier.text_injective (String.ext hname)

theorem Class.labelNames_code (r : Runtime) (c : Class) :
    labelNames (c.code r) = c.subroutines.flatMap fun sub => labelNames (sub.code r c) := by
  unfold Class.code labelNames
  rw [List.filterMap_flatMap]

theorem Subroutine.mem_labelNames {r : Runtime} {c : Class} {sub : Subroutine} {name : String}
    (h : name ∈ labelNames (sub.code r c)) : ∃ tag n, name = (c.env sub).label tag n := by
  rw [Subroutine.code, labelNames_append, labelNames_header, List.nil_append] at h
  obtain ⟨tag, n, -, hname⟩ := (sub.body.draws (fun _ _ _ _ => Env.label_number) 0).numbers name h
  exact ⟨tag, n, hname⟩

/-- In a class whose subroutines have distinct names no label stands twice. -/
theorem Class.nodup_labels (r : Runtime) {c : Class}
    (h : (c.subroutines.map Subroutine.name).Nodup) : (labelNames (c.code r)).Nodup := by
  rw [Class.labelNames_code, List.nodup_flatMap]
  refine ⟨fun sub _ => sub.nodup_labels r c, ?_⟩
  refine (List.pairwise_map.mp h).imp ?_
  intro sub sub' hne name hname hname'
  obtain ⟨tag, n, rfl⟩ := Subroutine.mem_labelNames hname
  obtain ⟨tag', n', heq⟩ := Subroutine.mem_labelNames hname'
  exact hne (Class.label_subroutine heq)

end Tree

namespace Compilation

open JackVm.Tree

/-- The symbols of an accepted source text are as distinct as the names of its
subroutines. The bound keeps the 32-bit count of labels from wrapping. -/
theorem ofSource_unique_symbols {t : Target} {table : VariableTable} {source : String}
    {outlet : Outlet} (h : (ofSource t table source outlet).result = .ok ())
    (hlength : source.length < UInt32.size) :
    ∃ tokens, ∃ c : Tree.Class, scan source = .ok tokens ∧ tokens.map (·.toLexeme) = c.print ∧
      ((functionNames (ofSource t table source outlet).sink.code).Nodup ↔
        (c.subroutines.map Subroutine.name).Nodup) ∧
      ((c.subroutines.map Subroutine.name).Nodup →
        (labelNames (ofSource t table source outlet).sink.code).Nodup) := by
  obtain ⟨tokens, c, hscan, hprint, hvalid, -, hcode⟩ := exists_code_of_ofSource h hlength
  have hroutines : c.Routinewise (fun _ _ => True) (c.code t.runtime) :=
    Class.routinewise hvalid t.runtime (fun sub => (c.env sub).label) fun _ _ => trivial
  refine ⟨tokens, c, hscan, hprint, ?_, ?_⟩
  · rw [hcode, hroutines.functionNames_eq]
    exact List.nodup_map_iff c.qualified_injective
  · intro hnames
    rw [hcode]
    exact Class.nodup_labels t.runtime hnames

theorem ofSource_unique_symbols_table :
    (ofSource ⟨"T", {}⟩ {} tableSource {}).result = .ok () ∧
      tableSource.length < UInt32.size ∧
      ∃ tokens, ∃ c : Tree.Class, scan tableSource = .ok tokens ∧
        tokens.map (·.toLexeme) = c.print ∧
        ((functionNames (ofSource ⟨"T", {}⟩ {} tableSource {}).sink.code).Nodup ↔
          (c.subroutines.map Subroutine.name).Nodup) ∧
        ((c.subroutines.map Subroutine.name).Nodup →
          (labelNames (ofSource ⟨"T", {}⟩ {} tableSource {}).sink.code).Nodup) :=
  ⟨result_tableSource, length_tableSource,
    ofSource_unique_symbols result_tableSource length_tableSource⟩

/-- The source text of a class that declares one subroutine twice. -/
def twiceSource : String :=
  "class A{function void f(){while(0){}return;}
function void f(){while(0){}return;}}"

/-- An accepted class may repeat the symbols of a subroutine. -/
theorem ofSource_repeats_symbols :
    (ofSource ⟨"A", {}⟩ {} twiceSource {}).result = .ok () ∧
      ¬(functionNames (ofSource ⟨"A", {}⟩ {} twiceSource {}).sink.code).Nodup ∧
      ¬(labelNames (ofSource ⟨"A", {}⟩ {} twiceSource {}).sink.code).Nodup := by
  have hrun : (ofSource ⟨"A", {}⟩ {} twiceSource {}).result.isOk = true ∧
      functionNames (ofSource ⟨"A", {}⟩ {} twiceSource {}).sink.code = ["A.f", "A.f"] ∧
      labelNames (ofSource ⟨"A", {}⟩ {} twiceSource {}).sink.code =
        ["A.f$WHILE_EXP0", "A.f$WHILE_END1", "A.f$WHILE_EXP0", "A.f$WHILE_END1"] := by
    rw [ofSource_eq]
    decide +kernel
  obtain ⟨hok, hfunctions, hlabels⟩ := hrun
  refine ⟨result_eq_ok hok, ?_, ?_⟩
  · rw [hfunctions]
    decide
  · rw [hlabels]
    decide

end Compilation

end JackVm
