import JackVm.Proofs.Descent
import JackVm.Proofs.Parsing
import JackVm.Proofs.Performing
import JackVm.Proofs.Scanning
import JackVm.Proofs.Unambiguity

/-!
# What is accepted, and what is written

A token list is accepted exactly when it is the printed form of a class that
obeys the rules, unless the sink fails. What is then written is the code of the
class.

Main statements: the printed form of every class that obeys the rules is
compiled to its code (`ofTokens_valid_class`), and nothing else is accepted
(`ofSource_sound`).
-/

namespace JackVm

open JackVm.Tree

/-! ## Counters -/

/-- Labels below 2 ^ 32 are numbered alike by words and by numbers. -/
theorem Tree.Env.wordLabel_eq (env : Env) {tag : Tag} {n : Nat} (h : n < UInt32.size) :
    env.wordLabel tag n = env.label tag n := by
  rw [Env.wordLabel, UInt32.toNat_ofNat_of_lt' h]

theorem Tree.Subroutine.wordCode_eq {r : Runtime} {c : Tree.Class} {sub : Subroutine}
    (h : sub.body.labels ≤ UInt32.size) : sub.wordCode r c = sub.code r c := by
  unfold Subroutine.wordCode Subroutine.code
  congr 1
  apply StatementList.code_congr
  intro tag n hn
  exact Env.wordLabel_eq _ (by omega)

theorem Tree.Subroutine.length_print_le {c : Tree.Class} {sub : Subroutine}
    (h : sub ∈ c.subroutines) : sub.print.length ≤ c.print.length := by
  obtain ⟨before, after, hsubs⟩ := List.append_of_mem h
  rw [Class.print, hsubs, List.flatMap_append, List.flatMap_cons]
  simp only [List.length_append]
  omega

/-- A class that is printed with fewer than 2 ^ 32 lexemes draws no label twice. -/
theorem Tree.Class.wordCode_eq {r : Runtime} {c : Tree.Class} (h : c.print.length < UInt32.size) :
    c.subroutines.flatMap (Subroutine.wordCode r c) = c.code r := by
  rw [Class.code, List.flatMap_def, List.flatMap_def]
  congr 1
  apply List.map_congr_left
  intro sub hsub
  apply Subroutine.wordCode_eq
  have hprint := Subroutine.length_print_le hsub
  have hlabels := sub.body.labels_le
  have hbody : sub.body.print.length ≤ sub.print.length := by
    simp only [Subroutine.print, List.length_append]
    omega
  omega

theorem length_flatMap_le {α β γ : Type} {f : α → List β} {g : α → List γ}
    (h : ∀ a, (f a).length ≤ (g a).length) :
    ∀ l : List α, (l.flatMap f).length ≤ (l.flatMap g).length
  | [] => Nat.le_refl 0
  | a :: l => by
      have ha := h a
      have hl := length_flatMap_le h l
      simp only [List.flatMap_cons, List.length_append]
      omega

theorem Tree.VarDec.length_decls_le (st : Storage) (d : VarDec) :
    (d.decls st).length ≤ d.print.length := by
  have hmore := length_flatMap_le (f := fun x => [x]) (g := fun x => [mark ',', x.lexeme])
    (fun _ => by simp) d.more
  rw [List.flatMap_singleton'] at hmore
  simp only [VarDec.decls, VarDec.names, VarDec.print, List.length_map, List.length_cons,
    List.length_append]
  omega

theorem Tree.Class.length_decls_le (c : Tree.Class) : c.decls.length ≤ c.print.length := by
  have hvariables : c.decls.length ≤ (c.classVars.flatMap ClassVarDec.print).length := by
    apply length_flatMap_le
    intro v
    have hdec := v.dec.length_decls_le v.storage
    simp only [ClassVarDec.print, List.length_cons]
    omega
  simp only [Class.print, List.length_append]
  omega

theorem length_printParameters_le (ps : List Parameter) :
    ps.length ≤ (printParameters ps).length := by
  cases ps with
  | nil => exact Nat.le_refl 0
  | cons p ps =>
      have hmore := length_flatMap_le (f := fun q => [q])
        (g := fun q => mark ',' :: Parameter.print q) (fun _ => by simp) ps
      rw [List.flatMap_singleton'] at hmore
      simp only [printParameters, Parameter.print, List.length_append, List.length_cons] at hmore ⊢
      omega

theorem Tree.Subroutine.length_decls_le (c : Tree.Class) (sub : Subroutine) :
    (sub.receiver c ++ sub.decls).length ≤ sub.print.length := by
  have hreceiver : (sub.receiver c).length ≤ 1 := by
    unfold Subroutine.receiver
    split <;> simp
  have hparameters := length_printParameters_le sub.parameters
  have hlocals : (sub.locals.flatMap (VarDec.decls .var)).length ≤
      (sub.locals.flatMap fun d => word "var" :: d.print).length := by
    apply length_flatMap_le
    intro d
    have hdec := d.length_decls_le .var
    simp only [List.length_cons]
    omega
  simp only [Subroutine.decls, Subroutine.print, List.length_append, List.length_map,
    List.length_cons]
  omega

/-- The numbers of all variables are machine words. -/
def Tree.Env.Fits (env : Env) : Prop := ∀ x v, env.find? x = some v → v.index < UInt32.size

/-- A class that is printed with fewer than 2 ^ 32 lexemes has no more variables. -/
theorem Tree.Class.env_fits {c : Tree.Class} {sub : Subroutine} (hsub : sub ∈ c.subroutines)
    (h : c.print.length < UInt32.size) : (c.env sub).Fits := by
  intro x v hv
  rw [Env.find?, Option.or_eq_some_iff] at hv
  rcases hv with hv | ⟨-, hv⟩
  · have hindex : v.index < (sub.receiver c ++ sub.decls).length := slot?_index_lt hv
    have hdecls := sub.length_decls_le c
    have hprint := Subroutine.length_print_le hsub
    omega
  · have hindex : v.index < c.decls.length := slot?_index_lt hv
    have hdecls := c.length_decls_le
    omega

namespace Compilation

variable {t : Target} {tokens : List Token} {outlet : Outlet} {c : Tree.Class}

/-! ## Runs -/

theorem result_eq_ok {compilation : Compilation} (h : compilation.result.isOk = true) :
    compilation.result = .ok () := by
  cases hresult : compilation.result with
  | ok => rfl
  | error e =>
      rw [hresult] at h
      cases h

/-- The compiler before the first token. -/
def start (outlet : Outlet) : Compiler := { sink := { outlet := outlet } }

theorem ofTokens_sink : (ofTokens t tokens outlet).sink =
    ((start outlet).run t (tokens.map (·.toLexeme))).sink := by
  rw [ofTokens_eq]
  rfl

theorem result_ofTokens_iff : (ofTokens t tokens outlet).result = .ok () ↔
    ((start outlet).run t (tokens.map (·.toLexeme))).fault? = none := by
  simp only [ofTokens_eq, Compiler.compilation, ofEngine, Compiler.ending, atEnd, start]
  split
  · next hnone => exact ⟨fun _ => hnone, fun _ => rfl⟩
  · next fault position hsome =>
      constructor
      · intro h
        cases h
      · intro hnone
        cases hsome.symm.trans hnone

/-- An accepted token list was read to the end of a class, and its events were
performed. -/
theorem reads_of_ofTokens (h : (ofTokens t tokens outlet).result = .ok ()) :
    ∃ es s, Reads classItems (tokens.map (·.toLexeme)) es [] ∧
      Performs t {} es s (ofTokens t tokens outlet).sink.code := by
  rw [result_ofTokens_iff, Compiler.fault?, Option.or_eq_none_iff, Option.map_eq_none_iff] at h
  obtain ⟨hrunning, hawaited⟩ := h
  obtain ⟨es, code, hreads, hperforms, hcode, hsettled⟩ :=
    Compiler.reads_of_run (c := start outlet) trivial hrunning
  rw [ofTokens_sink, hcode]
  rw [hsettled.eq_nil hawaited] at hreads
  exact ⟨es, _, hreads, hperforms⟩

theorem ofTokens_of_reads {es : List Event} {s : Scope} {code : List Instruction}
    (hlimit : outlet.limit = none) (hreads : Reads classItems (tokens.map (·.toLexeme)) es [])
    (hperforms : Performs t {} es s code) :
    (ofTokens t tokens outlet).result = .ok () := by
  have hend : Settled [] := trivial
  have hrunning := Compiler.run_of_reads (c := start outlet) rfl hlimit hend hreads hperforms
  obtain ⟨es', code', hreads', -, -, hsettled⟩ :=
    Compiler.reads_of_run (c := start outlet) trivial hrunning
  obtain ⟨-, hitems⟩ := hreads.unique hreads' hend hsettled trivial
  rw [result_ofTokens_iff, Compiler.fault?, hrunning, ← hitems]
  rfl

/-! ## Trees -/

/-- The printed form of a class is accepted only if the class obeys the rules, and
its code is then written. -/
theorem valid_of_ofTokens (hprint : tokens.map (·.toLexeme) = c.print)
    (h : (ofTokens t tokens outlet).result = .ok ()) :
    c.Valid t.className ∧ (ofTokens t tokens outlet).sink.code =
      c.subroutines.flatMap (Subroutine.wordCode t.runtime c) := by
  obtain ⟨es, s, hreads, hperforms⟩ := reads_of_ofTokens h
  rw [hprint] at hreads
  -- the events are those of the class, since reading is deterministic
  obtain ⟨rfl, -⟩ := hreads.unique c.reads_print trivial trivial trivial
  obtain ⟨m, hstands⟩ := c.stands (t := t)
  obtain ⟨hvalid, -, hcode⟩ := (hstands _ _).mp hperforms
  exact ⟨hvalid, hcode⟩

theorem ofTokens_of_valid (hprint : tokens.map (·.toLexeme) = c.print)
    (hvalid : c.Valid t.className) (hlimit : outlet.limit = none) :
    (ofTokens t tokens outlet).result = .ok () := by
  obtain ⟨m, hstands⟩ := c.stands (t := t)
  exact ofTokens_of_reads hlimit (hprint ▸ c.reads_print) ((hstands _ _).mpr ⟨hvalid, rfl, rfl⟩)

/-- The printed form of a class that obeys the rules is compiled, and its code is
what is written. The runtime may have any names; the counters must not wrap. -/
theorem ofTokens_valid_class (hvalid : c.Valid t.className)
    (hprint : tokens.map (·.toLexeme) = c.print) (hlength : tokens.length < UInt32.size)
    (hlimit : outlet.limit = none) :
    (ofTokens t tokens outlet).result = .ok () ∧
      (ofTokens t tokens outlet).sink.code = c.code t.runtime := by
  have hok := ofTokens_of_valid hprint hvalid hlimit
  obtain ⟨-, hcode⟩ := valid_of_ofTokens hprint hok
  have hbound : c.print.length < UInt32.size := by
    rw [← hprint, List.length_map]
    exact hlength
  exact ⟨hok, hcode.trans (Class.wordCode_eq hbound)⟩

/-- A class whose method adds up the numbers below its argument in a field. -/
def summing : Tree.Class :=
  let name (text : String) (h : isIdentifier text.toList = true ∧ text ∉ keywords) : Identifier :=
    ⟨text, h.1, h.2⟩
  let n := name "n" (by decide)
  let x := name "x" (by decide)
  { name := name "P" (by decide)
    classVars := [.field ⟨.int, x, []⟩]
    subroutines := [{
      kind := .method
      result := none
      name := name "run" (by decide)
      parameters := [⟨.int, n⟩]
      locals := []
      body := .cons
        (.whileDo (.mk (.var n) (.cons .gt (.integer ⟨"0", by decide, by decide⟩) .nil))
          (.cons (.letVar x (.mk (.var x) (.cons .add (.var n) .nil)))
            (.cons (.letVar n (.mk (.var n)
              (.cons .sub (.integer ⟨"1", by decide, by decide⟩) .nil))) .nil)))
        (.cons .returnNothing .nil) }] }

theorem ofTokens_summing :
    (ofTokens ⟨"P", {}⟩ (summing.print.map fun l => ⟨l, 1⟩) {}).result = .ok () ∧
      (ofTokens ⟨"P", {}⟩ (summing.print.map fun l => ⟨l, 1⟩) {}).sink.code =
        summing.code {} := by
  have hprint : (summing.print.map fun l => (⟨l, 1⟩ : Token)).map (·.toLexeme) =
      summing.print := by
    rw [List.map_map]
    exact List.map_id _
  exact ofTokens_valid_class (by decide +kernel) hprint (by decide +kernel) rfl

/-! ## Source texts -/

/-- An accepted source text is scanned, and its tokens are accepted. -/
theorem ofTokens_of_ofSource {table : VariableTable} {source : String}
    (h : (ofSource t table source outlet).result = .ok ()) :
    ∃ tokens, scan source = .ok tokens ∧ (ofTokens t tokens outlet).result = .ok () ∧
      (ofSource t table source outlet).sink = (ofTokens t tokens outlet).sink := by
  unfold ofSource at h ⊢
  cases hscan : scan source with
  | error e =>
      rw [hscan] at h
      cases h
  | ok tokens =>
      simp only [hscan] at h ⊢
      refine ⟨tokens, rfl, ?_⟩
      unfold flush at h ⊢
      split at h
      · cases h
      · exact ⟨h, rfl⟩

/-- The tokens of an accepted source text are the printed form of a class. -/
theorem exists_class_of_ofSource {table : VariableTable} {source : String}
    (h : (ofSource t table source outlet).result = .ok ()) :
    ∃ tokens c, scan source = .ok tokens ∧ tokens.map (·.toLexeme) = Class.print c ∧
      (ofTokens t tokens outlet).result = .ok () ∧
      (ofSource t table source outlet).sink = (ofTokens t tokens outlet).sink := by
  obtain ⟨tokens, hscan, hok, hsink⟩ := ofTokens_of_ofSource h
  obtain ⟨es, s, hreads, -⟩ := reads_of_ofTokens hok
  obtain ⟨c, hprint, -⟩ := exists_class_of_reads hreads (proper_of_scan hscan)
  exact ⟨tokens, c, hscan, hprint, hok, hsink⟩

/-- Unless the counters wrap, an accepted source text is compiled to the code of its
class. -/
theorem exists_code_of_ofSource {table : VariableTable} {source : String}
    (h : (ofSource t table source outlet).result = .ok ()) (hlength : source.length < UInt32.size) :
    ∃ tokens, ∃ c : Tree.Class, scan source = .ok tokens ∧ tokens.map (·.toLexeme) = c.print ∧
      c.Valid t.className ∧ c.print.length < UInt32.size ∧
      (ofSource t table source outlet).sink.code = c.code t.runtime := by
  obtain ⟨tokens, c, hscan, hprint, hok, hsink⟩ := exists_class_of_ofSource h
  obtain ⟨hvalid, hcode⟩ := valid_of_ofTokens hprint hok
  have hbound : c.print.length < UInt32.size := by
    have hscanned := length_of_scan hscan
    rw [← hprint, List.length_map]
    omega
  refine ⟨tokens, c, hscan, hprint, hvalid, hbound, ?_⟩
  rw [hsink, hcode, Class.wordCode_eq hbound]

/-- Nothing is accepted but the printed form of a class that obeys the rules, and
it is the printed form of no other class. -/
theorem ofSource_sound {table : VariableTable} {source : String}
    (h : (ofSource t table source outlet).result = .ok ()) :
    ∃ tokens, scan source = .ok tokens ∧
      ∃ c : Tree.Class, tokens.map (·.toLexeme) = c.print ∧ c.Valid t.className ∧
        ∀ c' : Tree.Class, tokens.map (·.toLexeme) = c'.print → c' = c := by
  obtain ⟨tokens, c, hscan, hprint, hok, -⟩ := exists_class_of_ofSource h
  obtain ⟨hvalid, -⟩ := valid_of_ofTokens hprint hok
  refine ⟨tokens, hscan, c, hprint, hvalid, ?_⟩
  intro c' hprint'
  exact Class.print_injective (hprint'.symm.trans hprint)

/-- The source text of a class with a loop. -/
def summingSource : String :=
  "class P { field int x;
    method void run(int n) { while (n > 0) { let x = x + n; let n = n - 1; } return; } }"

theorem result_summingSource : (ofSource ⟨"P", {}⟩ {} summingSource {}).result = .ok () := by
  rw [ofSource_eq]
  exact result_eq_ok (by decide +kernel)

theorem ofSource_sound_summing :
    (ofSource ⟨"P", {}⟩ {} summingSource {}).result = .ok () ∧
      ∃ tokens, scan summingSource = .ok tokens ∧
        ∃ c : Tree.Class, tokens.map (·.toLexeme) = c.print ∧ c.Valid "P" ∧
          ∀ c' : Tree.Class, tokens.map (·.toLexeme) = c'.print → c' = c :=
  ⟨result_summingSource, ofSource_sound result_summingSource⟩

end Compilation

end JackVm
