import JackVm.Proofs.Recording
import Mathlib.Data.String.Basic

/-!
# The history of a variable table

A table is asked to declare variables, to forget those of a subroutine, and to forget all. What
was asked so far is its history. The declarations of a scope that were accepted since it was
cleared last are live, and the table says of them what their order says: the variables of a
storage class are numbered as they were declared, and listed by name.

Main statement: after every history the table records the live declarations and nothing else
(`table_records_history`).
-/

namespace JackVm

/-! ## Histories -/

/-- What a table is asked to do. -/
inductive TableRequest where
  | declare (name type : String) (storage : Storage)
  /-- To forget the variables of the subroutine. -/
  | dropLocals
  /-- To forget all variables. -/
  | reset
deriving DecidableEq, Repr

/-- The table after a request. A declaration that is refused changes nothing. -/
def VariableTable.after (t : VariableTable) : TableRequest → VariableTable
  | .declare name type storage =>
      match t.declare name type storage with
      | .ok t' => t'
      | .error _ => t
  | .dropLocals => t.dropLocals
  | .reset => {}

/-- A variable as it was declared. -/
structure Declaration where
  name : String
  type : String
  storage : Storage
deriving DecidableEq, Repr

/-- What a new table was asked so far, the last request first. -/
abbrev History := List TableRequest

namespace History

/-- The table that a history leads to. -/
def table : History → VariableTable
  | [] => {}
  | r :: past => (table past).after r

/-- The declarations of the class, or of the subroutine, that were accepted since its scope was
cleared last, in their order. -/
def live (ofClass : Bool) : History → List Declaration
  | [] => []
  | .declare name type storage :: past =>
      if storage.isOfClass = ofClass ∧ ((table past).declare name type storage).isOk then
        live ofClass past ++ [⟨name, type, storage⟩]
      else live ofClass past
  | .dropLocals :: past => if ofClass then live ofClass past else []
  | .reset :: _ => []

/-- The live declarations of a storage class. -/
def declared (h : History) (storage : Storage) : List Declaration :=
  (h.live storage.isOfClass).filter (·.storage = storage)

end History

/-- Declarations of one storage class with the variables they stand for: each is numbered by its
place. -/
def numbered (ds : List Declaration) : Bindings :=
  ds.mapIdx fun i d => (d.name, ⟨d.type, d.storage, UInt32.ofNat i⟩)

theorem numbered_snoc (ds : List Declaration) (d : Declaration) :
    numbered (ds ++ [d]) =
      numbered ds ++ [(d.name, ⟨d.type, d.storage, UInt32.ofNat ds.length⟩)] :=
  List.mapIdx_concat

theorem mem_numbered {b : String × Variable} {ds : List Declaration} :
    b ∈ numbered ds ↔ ∃ i d, ds[i]? = some d ∧
      b = (d.name, ⟨d.type, d.storage, UInt32.ofNat i⟩) := by
  simp only [numbered, List.mem_mapIdx, List.getElem?_eq_some_iff]
  constructor
  · rintro ⟨i, hi, rfl⟩
    exact ⟨i, ds[i], ⟨hi, rfl⟩, rfl⟩
  · rintro ⟨i, d, ⟨hi, rfl⟩, rfl⟩
    exact ⟨i, hi, rfl⟩

theorem map_index_numbered {ds : List Declaration} (h : ds.length < UInt32.size) :
    (numbered ds).map (·.2.index.toNat) = List.range ds.length := by
  apply List.ext_getElem
  · simp [numbered]
  · intro i hi _
    have hlt : i < UInt32.size := by
      rw [List.length_map, numbered, List.length_mapIdx] at hi
      omega
    simp [numbered, UInt32.toNat_ofNat_of_lt' hlt]

/-! ## One scope -/

theorem perm_insertBinding (name : String) (v : Variable) :
    ∀ bs : Bindings, (insertBinding name v bs).Perm ((name, v) :: bs)
  | [] => .refl _
  | b :: bs => by
      unfold insertBinding
      split
      · exact .refl _
      · exact ((perm_insertBinding name v bs).cons b).trans (.swap ..)

/-- A name that is not bound yet is put at its place in the order. -/
theorem pairwise_insertBinding {name : String} {v : Variable} : ∀ {bs : Bindings},
    bs.Pairwise (·.1 < ·.1) → (∀ b ∈ bs, b.1 ≠ name) →
      (insertBinding name v bs).Pairwise (·.1 < ·.1)
  | [], _, _ => List.pairwise_singleton ..
  | b :: bs, hsorted, hnew => by
      obtain ⟨hb, hbs⟩ := List.pairwise_cons.mp hsorted
      unfold insertBinding
      split
      · next hlt =>
          refine List.pairwise_cons.mpr ⟨?_, hsorted⟩
          intro b' hb'
          rcases List.mem_cons.mp hb' with rfl | hb'
          · exact hlt
          · exact lt_trans hlt (hb b' hb')
      · next hlt =>
          have hrest := pairwise_insertBinding (v := v) hbs
            fun b' hb' => hnew b' (List.mem_cons_of_mem _ hb')
          refine List.pairwise_cons.mpr ⟨?_, hrest⟩
          intro b' hb'
          rcases List.mem_cons.mp ((perm_insertBinding name v bs).mem_iff.mp hb') with rfl | hb'
          · exact lt_of_le_of_ne (not_lt.mp hlt) (hnew b List.mem_cons_self)
          · exact hb b' hb'

/-- In bindings by strictly increasing name each name is found. -/
theorem lookup_eq_some_iff_mem {name : String} {v : Variable} : ∀ {bs : Bindings},
    bs.Pairwise (·.1 < ·.1) → (bs.lookup name = some v ↔ (name, v) ∈ bs)
  | [], _ => by simp
  | (first, w) :: bs, hsorted => by
      obtain ⟨hfirst, hbs⟩ := List.pairwise_cons.mp hsorted
      rw [List.lookup_cons, List.mem_cons]
      by_cases hname : name = first
      · subst hname
        have habsent : (name, v) ∉ bs := fun hmem => lt_irrefl name (hfirst (name, v) hmem)
        simp [habsent, eq_comm]
      · have hne : (name == first) = false := beq_eq_false_iff_ne.mpr hname
        rw [hne, lookup_eq_some_iff_mem hbs]
        simp [hname]

/-- The bindings of a scope record declarations: they are listed by name, and those of a
storage class are the declared variables, numbered in the order of their declaration. -/
structure ScopeRecords (bs : Bindings) (ofClass : Bool) (ds : List Declaration) : Prop where
  sorted : bs.Pairwise (·.1 < ·.1)
  ofScope : ∀ b ∈ bs, b.2.storage.isOfClass = ofClass
  rows : ∀ storage, (bs.filter (·.2.storage = storage)).Perm
    (numbered (ds.filter (·.storage = storage)))

namespace ScopeRecords

variable {bs : Bindings} {ofClass : Bool} {ds : List Declaration} {name : String}

theorem empty (ofClass : Bool) : ScopeRecords [] ofClass [] where
  sorted := .nil
  ofScope _ hb := absurd hb List.not_mem_nil
  rows _ := .refl _

/-- A variable is bound when there is a declaration of it. -/
theorem exists_binding_iff (h : ScopeRecords bs ofClass ds) {storage : Storage} :
    (∃ v, (name, v) ∈ bs ∧ v.storage = storage) ↔
      ∃ d ∈ ds, d.name = name ∧ d.storage = storage := by
  have hrow : ∀ v : Variable, (name, v) ∈ bs ∧ v.storage = storage ↔
      (name, v) ∈ numbered (ds.filter (·.storage = storage)) := by
    intro v
    rw [← (h.rows storage).mem_iff, List.mem_filter, decide_eq_true_iff]
  simp only [hrow, mem_numbered]
  constructor
  · rintro ⟨v, i, d, hd, heq⟩
    obtain ⟨hmem, hstorage⟩ := List.mem_filter.mp (List.mem_of_getElem? hd)
    exact ⟨d, hmem, (Prod.mk.inj heq).1.symm, of_decide_eq_true hstorage⟩
  · rintro ⟨d, hmem, rfl, rfl⟩
    have hkept : d ∈ ds.filter (·.storage = d.storage) := List.mem_filter.mpr ⟨hmem, by simp⟩
    obtain ⟨i, hi⟩ := List.mem_iff_getElem?.mp hkept
    exact ⟨_, i, d, hi, rfl⟩

/-- A name is bound exactly when it is declared. -/
theorem bound_iff (h : ScopeRecords bs ofClass ds) :
    (∃ v, (name, v) ∈ bs) ↔ ∃ d ∈ ds, d.name = name := by
  constructor
  · rintro ⟨v, hv⟩
    obtain ⟨d, hd, hname, -⟩ := h.exists_binding_iff.mp ⟨v, hv, rfl⟩
    exact ⟨d, hd, hname⟩
  · rintro ⟨d, hd, hname⟩
    obtain ⟨v, hv, -⟩ := h.exists_binding_iff.mpr ⟨d, hd, hname, rfl⟩
    exact ⟨v, hv⟩

/-- A further declaration is recorded when it gets the next number of its storage class. -/
theorem snoc (h : ScopeRecords bs ofClass ds) {d : Declaration} (hd : d.storage.isOfClass = ofClass)
    (hnew : bs.lookup d.name = none) :
    ScopeRecords (insertBinding d.name
      ⟨d.type, d.storage, UInt32.ofNat (ds.filter (·.storage = d.storage)).length⟩ bs)
      ofClass (ds ++ [d]) := by
  have hperm := perm_insertBinding d.name
    ⟨d.type, d.storage, UInt32.ofNat (ds.filter (·.storage = d.storage)).length⟩ bs
  refine ⟨pairwise_insertBinding h.sorted ?_, ?_, ?_⟩
  · rintro ⟨name, v⟩ hb rfl
    rw [(lookup_eq_some_iff_mem h.sorted).mpr hb] at hnew
    cases hnew
  · intro b hb
    rcases List.mem_cons.mp (hperm.mem_iff.mp hb) with rfl | hb
    · exact hd
    · exact h.ofScope b hb
  · intro storage
    refine (hperm.filter _).trans ?_
    rw [List.filter_append]
    by_cases hstorage : d.storage = storage
    · subst hstorage
      rw [List.filter_cons_of_pos (by simp), List.filter_cons_of_pos (by simp), List.filter_nil,
        numbered_snoc]
      exact ((h.rows _).cons _).trans (List.perm_append_singleton ..).symm
    · rw [List.filter_cons_of_neg (by simpa using hstorage),
        List.filter_cons_of_neg (by simpa using hstorage), List.filter_nil, List.append_nil]
      exact h.rows storage

end ScopeRecords

/-! ## The table -/

namespace VariableTable

variable {t : VariableTable} {name type : String} {storage : Storage}

theorem scope_add (t : VariableTable) (name type : String) (storage other : Storage) :
    (t.add name type storage).scope other =
      if storage.isOfClass = other.isOfClass then
        insertBinding name ⟨type, storage, t.count storage⟩ (t.scope other)
      else t.scope other := by
  cases storage <;> cases other <;> rfl

theorem count_add (t : VariableTable) (name type : String) (storage other : Storage) :
    (t.add name type storage).count other =
      if storage = other then t.count storage + 1 else t.count other := by
  cases storage <;> cases other <;> rfl

theorem scope_dropLocals (t : VariableTable) (other : Storage) :
    t.dropLocals.scope other = if other.isOfClass then t.scope other else [] := by
  cases other <;> rfl

theorem count_dropLocals (t : VariableTable) (other : Storage) :
    t.dropLocals.count other = if other.isOfClass then t.count other else 0 := by
  cases other <;> rfl

theorem declare_of_lookup {existing : Variable}
    (h : (t.scope storage).lookup name = some existing) (type : String) :
    t.declare name type storage = .error (.redeclared name existing.storage) := by
  rw [declare, h]

theorem declare_of_new (h : (t.scope storage).lookup name = none) (type : String) :
    t.declare name type storage = .ok (t.add name type storage) := by
  rw [declare, h]

/-- A table records a history: each scope its live declarations, and each counter their
number. -/
structure RecordsHistory (t : VariableTable) (h : History) : Prop where
  scope : ∀ storage, ScopeRecords (t.scope storage) storage.isOfClass (h.live storage.isOfClass)
  count : ∀ storage, t.count storage = UInt32.ofNat (h.declared storage).length

/-- One more request is recorded, whatever became of it. -/
theorem RecordsHistory.step {h : History} (hr : t.RecordsHistory h) (ht : h.table = t)
    (r : TableRequest) : (t.after r).RecordsHistory (r :: h) := by
  cases r with
  | declare name type storage =>
      cases hlookup : (t.scope storage).lookup name with
      | some existing =>
          have hdeclare := declare_of_lookup hlookup type
          have hlive : ∀ ofClass, History.live ofClass (.declare name type storage :: h) =
              h.live ofClass := by
            intro ofClass
            simp [History.live, ht, hdeclare, Except.isOk, Except.toBool]
          have htable : t.after (.declare name type storage) = t := by rw [after, hdeclare]
          rw [htable]
          refine ⟨fun other => ?_, fun other => ?_⟩
          · rw [hlive]
            exact hr.scope other
          · rw [History.declared, hlive]
            exact hr.count other
      | none =>
          have hdeclare := declare_of_new hlookup type
          have hlive : ∀ ofClass, History.live ofClass (.declare name type storage :: h) =
              if storage.isOfClass = ofClass then h.live ofClass ++ [⟨name, type, storage⟩]
              else h.live ofClass := by
            intro ofClass
            simp [History.live, ht, hdeclare, Except.isOk, Except.toBool]
          have htable : t.after (.declare name type storage) = t.add name type storage := by
            rw [after, hdeclare]
          rw [htable]
          refine ⟨fun other => ?_, fun other => ?_⟩
          · rw [hlive, scope_add]
            split
            · next hscope =>
                have hscopes : t.scope other = t.scope storage := by
                  unfold VariableTable.scope
                  rw [hscope]
                have hnew : (t.scope other).lookup name = none := by rw [hscopes, hlookup]
                have hsnoc := (hr.scope other).snoc (d := ⟨name, type, storage⟩) hscope hnew
                rw [hr.count storage, History.declared, hscope]
                exact hsnoc
            · exact hr.scope other
          · rw [count_add, History.declared, hlive]
            by_cases hsame : storage = other
            · subst hsame
              simp [hr.count storage, History.declared, UInt32.ofNat_add]
            · rw [if_neg hsame, hr.count other, History.declared]
              split
              · simp [hsame]
              · rfl
  | dropLocals =>
      refine ⟨fun other => ?_, fun other => ?_⟩
      · rw [after, scope_dropLocals, History.live]
        split
        · exact hr.scope other
        · exact .empty _
      · rw [after, count_dropLocals, History.declared, History.live]
        split
        · exact hr.count other
        · rfl
  | reset =>
      refine ⟨fun other => ?_, fun other => ?_⟩
      · have hscope : ({} : VariableTable).scope other = [] := by cases other <;> rfl
        rw [after, hscope]
        exact .empty _
      · cases other <;> rfl

theorem recordsHistory_table : ∀ h : History, h.table.RecordsHistory h
  | [] => by
      refine ⟨fun other => ?_, fun other => ?_⟩
      · have hscope : ({} : VariableTable).scope other = [] := by cases other <;> rfl
        rw [History.table, hscope]
        exact .empty _
      · cases other <;> rfl
  | r :: h => (recordsHistory_table h).step rfl r

end VariableTable

/-! ## What a table tells -/

/-- The variable that a live declaration stands for: its index is the place of the declaration
among those of its storage class. -/
def History.Made (h : History) (d : Declaration) (v : Variable) : Prop :=
  v.type = d.type ∧ v.storage = d.storage ∧ (h.declared d.storage)[v.index.toNat]? = some d

/-- A table is a faithful record of a history. -/
structure VariableTable.Faithful (t : VariableTable) (h : History) : Prop where
  sorted : ∀ storage, (t.stored storage).Pairwise (·.1 < ·.1)
  rows : ∀ storage name v, (name, v) ∈ t.stored storage ↔
    ∃ d ∈ h.declared storage, d.name = name ∧ h.Made d v
  count : ∀ storage, (t.count storage).toNat = (h.declared storage).length
  indices : ∀ storage, ((t.stored storage).map (·.2.index.toNat)).Perm
    (List.range (t.count storage).toNat)
  /-- A name is refused exactly when a declaration of it is live in the same scope, and the
  error says how that one is stored. -/
  refuses : ∀ name type storage e, t.declare name type storage = .error e ↔
    ∃ d ∈ h.live storage.isOfClass, d.name = name ∧ e = .redeclared name d.storage
  refused : ∀ name type storage, (t.declare name type storage).isOk = false →
    History.table (.declare name type storage :: h) = t
  /-- A variable of the subroutine is preferred. -/
  findsLocal : ∀ d ∈ h.live false, ∃ v, t.get? d.name = some v ∧ h.Made d v
  findsOfClass : ∀ d ∈ h.live true, (∀ d' ∈ h.live false, d'.name ≠ d.name) →
    ∃ v, t.get? d.name = some v ∧ h.Made d v
  findsNothing : ∀ name, (∀ ofClass, ∀ d ∈ h.live ofClass, d.name ≠ name) → t.get? name = none
  gets : ∀ name, t.get name = match t.get? name with
    | some v => .ok v
    | none => .error (.undeclared name)
  /-- The start of a subroutine concerns no variable of the class. -/
  keepsClass : ∀ storage, storage.isOfClass = true →
    (History.table (.dropLocals :: h)).stored storage = t.stored storage ∧
      (History.table (.dropLocals :: h)).count storage = t.count storage

namespace History

variable {h : History} {ofClass : Bool} {d : Declaration}

theorem isOfClass_of_live : ∀ {h : History}, d ∈ h.live ofClass → d.storage.isOfClass = ofClass
  | .declare name type storage :: past, hd => by
      rw [live] at hd
      split at hd
      · next haccepted =>
          rcases List.mem_append.mp hd with hd | hd
          · exact isOfClass_of_live hd
          · rw [List.mem_singleton.mp hd]
            exact haccepted.1
      · exact isOfClass_of_live hd
  | .dropLocals :: past, hd => by
      rw [live] at hd
      split at hd
      · exact isOfClass_of_live hd
      · cases hd

theorem mem_declared_iff {storage : Storage} :
    d ∈ h.declared storage ↔ d ∈ h.live storage.isOfClass ∧ d.storage = storage := by
  rw [declared, List.mem_filter, decide_eq_true_iff]

theorem mem_declared_of_live (hd : d ∈ h.live ofClass) : d ∈ h.declared d.storage := by
  rw [mem_declared_iff, isOfClass_of_live hd]
  exact ⟨hd, rfl⟩

/-- The numbers of the live declarations of a storage class say which variables they made. -/
theorem mem_numbered_declared {storage : Storage}
    (hbound : (h.declared storage).length < UInt32.size) {name : String} {v : Variable} :
    (name, v) ∈ numbered (h.declared storage) ↔
      ∃ d ∈ h.declared storage, d.name = name ∧ h.Made d v := by
  rw [mem_numbered]
  constructor
  · rintro ⟨i, d, hi, heq⟩
    obtain ⟨rfl, rfl⟩ := Prod.mk.inj heq
    have hd := List.mem_of_getElem? hi
    have hlt : i < UInt32.size := by
      have := (List.getElem?_eq_some_iff.mp hi).1
      omega
    refine ⟨d, hd, rfl, rfl, rfl, ?_⟩
    rw [UInt32.toNat_ofNat_of_lt' hlt, (mem_declared_iff.mp hd).2]
    exact hi
  · rintro ⟨d, hd, rfl, htype, hstorage, hi⟩
    rw [(mem_declared_iff.mp hd).2] at hi
    refine ⟨v.index.toNat, d, hi, ?_⟩
    rw [← htype, ← hstorage, UInt32.ofNat_toNat]

end History

namespace VariableTable.RecordsHistory

variable {t : VariableTable} {h : History} {name : String} {v : Variable} {storage : Storage}

theorem mem_stored_iff (hr : t.RecordsHistory h)
    (hbound : (h.declared storage).length < UInt32.size) :
    (name, v) ∈ t.stored storage ↔ ∃ d ∈ h.declared storage, d.name = name ∧ h.Made d v := by
  rw [← History.mem_numbered_declared hbound]
  exact ((hr.scope storage).rows storage).mem_iff

/-- A live declaration is found in its scope, as the variable it made. -/
theorem exists_lookup (hr : t.RecordsHistory h) {d : Declaration} {ofClass : Bool}
    (hbound : (h.declared d.storage).length < UInt32.size) (hd : d ∈ h.live ofClass) :
    ∃ v, (t.scope d.storage).lookup d.name = some v ∧ h.Made d v := by
  obtain ⟨i, hi⟩ := List.mem_iff_getElem?.mp (History.mem_declared_of_live hd)
  have hlt : i < UInt32.size := by
    have := (List.getElem?_eq_some_iff.mp hi).1
    omega
  have hmade : h.Made d ⟨d.type, d.storage, UInt32.ofNat i⟩ :=
    ⟨rfl, rfl, by rwa [UInt32.toNat_ofNat_of_lt' hlt]⟩
  have hrow := (hr.mem_stored_iff hbound).mpr ⟨d, History.mem_declared_of_live hd, rfl, hmade⟩
  refine ⟨_, ?_, hmade⟩
  rw [lookup_eq_some_iff_mem (hr.scope d.storage).sorted]
  exact (List.mem_filter.mp hrow).1

theorem lookup_eq_none (hr : t.RecordsHistory h) (storage : Storage)
    (hnone : ∀ d ∈ h.live storage.isOfClass, d.name ≠ name) :
    (t.scope storage).lookup name = none := by
  cases hlookup : (t.scope storage).lookup name with
  | none => rfl
  | some v =>
      have hmem := (lookup_eq_some_iff_mem (hr.scope storage).sorted).mp hlookup
      obtain ⟨d, hd, hname⟩ := (hr.scope storage).bound_iff.mp ⟨v, hmem⟩
      exact absurd hname (hnone d hd)

theorem declare_eq_error_iff (hr : t.RecordsHistory h) {type : String} {e : TableError} :
    t.declare name type storage = .error e ↔
      ∃ d ∈ h.live storage.isOfClass, d.name = name ∧ e = .redeclared name d.storage := by
  have hscope := hr.scope storage
  constructor
  · intro herror
    cases hlookup : (t.scope storage).lookup name with
    | none =>
        rw [declare_of_new hlookup] at herror
        cases herror
    | some existing =>
        rw [declare_of_lookup hlookup] at herror
        have hmem := (lookup_eq_some_iff_mem hscope.sorted).mp hlookup
        obtain ⟨d, hd, hname, hstorage⟩ := hscope.exists_binding_iff.mp ⟨existing, hmem, rfl⟩
        exact ⟨d, hd, hname, by rw [hstorage, ← Except.error.inj herror]⟩
  · rintro ⟨d, hd, hname, rfl⟩
    obtain ⟨v, hmem, hstorage⟩ := hscope.exists_binding_iff.mpr ⟨d, hd, hname, rfl⟩
    have hlookup := (lookup_eq_some_iff_mem hscope.sorted).mpr hmem
    rw [declare_of_lookup hlookup, hstorage]

end VariableTable.RecordsHistory

/-- After every history the table is a faithful record of it. The bound keeps the 32-bit counts
from wrapping. -/
theorem table_records_history (h : History)
    (hbound : ∀ storage, (h.declared storage).length < UInt32.size) : h.table.Faithful h := by
  have hr := VariableTable.recordsHistory_table h
  have hcount : ∀ storage, (h.table.count storage).toNat = (h.declared storage).length := by
    intro storage
    rw [hr.count storage, UInt32.toNat_ofNat_of_lt' (hbound storage)]
  refine
    { sorted := fun storage => (hr.scope storage).sorted.filter _
      rows := fun storage name v => hr.mem_stored_iff (hbound storage)
      count := hcount
      indices := fun storage => ?_
      refuses := fun name type storage e => hr.declare_eq_error_iff
      refused := fun name type storage hno => ?_
      findsLocal := fun d hd => ?_
      findsOfClass := fun d hd hhidden => ?_
      findsNothing := fun name hnone => ?_
      gets := fun _ => rfl
      keepsClass := fun storage hclass => ?_ }
  · rw [hcount storage, ← map_index_numbered (hbound storage)]
    exact ((hr.scope storage).rows storage).map _
  · rw [History.table, VariableTable.after]
    cases hdeclare : h.table.declare name type storage with
    | ok t' =>
        rw [hdeclare] at hno
        cases hno
    | error e => rfl
  · obtain ⟨v, hv, hmade⟩ := hr.exists_lookup (hbound d.storage) hd
    rw [VariableTable.scope, History.isOfClass_of_live hd] at hv
    have hlocal : h.table.ofSubroutine.lookup d.name = some v := hv
    exact ⟨v, by rw [VariableTable.get?, hlocal]; rfl, hmade⟩
  · obtain ⟨v, hv, hmade⟩ := hr.exists_lookup (hbound d.storage) hd
    rw [VariableTable.scope, History.isOfClass_of_live hd] at hv
    have hlocal : h.table.ofSubroutine.lookup d.name = none :=
      hr.lookup_eq_none .var hhidden
    exact ⟨v, by rw [VariableTable.get?, hlocal]; exact hv, hmade⟩
  · have hlocal : h.table.ofSubroutine.lookup name = none :=
      hr.lookup_eq_none .var (hnone false)
    have hclass : h.table.ofClass.lookup name = none :=
      hr.lookup_eq_none .static (hnone true)
    rw [VariableTable.get?, hlocal, hclass]
    rfl
  · rw [History.table, VariableTable.after, VariableTable.stored,
      VariableTable.scope_dropLocals, VariableTable.count_dropLocals, if_pos hclass, if_pos hclass]
    exact ⟨rfl, rfl⟩

/-- A field that a local variable hides, after a declaration that was refused. -/
def hidingHistory : History :=
  [.declare "x" "char" .var, .dropLocals, .declare "x" "int" .static, .declare "y" "int" .field,
    .declare "x" "int" .field]

theorem table_records_history_hiding :
    (∀ storage, (hidingHistory.declared storage).length < UInt32.size) ∧
      hidingHistory.table.Faithful hidingHistory := by
  have hbound : ∀ storage, (hidingHistory.declared storage).length < UInt32.size := by
    intro storage
    cases storage <;> decide
  exact ⟨hbound, table_records_history hidingHistory hbound⟩

end JackVm
