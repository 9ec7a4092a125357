import JackVm.Proofs.Printing
import JackVm.Proofs.Translation

/-!
# Declarations in the variable table

A table records declarations when it knows exactly the declared names, and for
each of them the variable that the declarations say it stands for. Main
statement: declarations can be made one after the other exactly when no name is
declared twice in a scope, and the table then records them
(`stands_declarations`).
-/

namespace JackVm

open JackVm.Tree

/-- A variable as the table knows it. -/
def Tree.Slot.variable (v : Slot) : Variable := ⟨v.type.text, v.storage, UInt32.ofNat v.index⟩

/-- Bindings hold the declared names. -/
def Binds (bs : Bindings) (ds : List Decl) : Prop :=
  ∀ x, bs.lookup x = (slot? x ds).map Slot.variable

/-- A table records the declarations `cs` of a class and `ss` of a subroutine. -/
structure VariableTable.Records (t : VariableTable) (cs ss : List Decl) : Prop where
  ofClass : Binds t.ofClass cs
  ofSubroutine : Binds t.ofSubroutine ss
  statics : t.statics = UInt32.ofNat (countOf .static cs)
  fields : t.fields = UInt32.ofNat (countOf .field cs)
  arguments : t.arguments = UInt32.ofNat (countOf .argument ss)
  vars : t.vars = UInt32.ofNat (countOf .var ss)

/-! ## One declaration -/

/-- A new name is found at its place, and hides no other. -/
theorem lookup_insertBinding {x : String} {v : Variable} : ∀ {bs : Bindings} (y : String),
    bs.lookup x = none →
      (insertBinding x v bs).lookup y = if x = y then some v else bs.lookup y
  | [], y, _ => by
      by_cases hxy : x = y
      · simp [insertBinding, hxy]
      · simp [insertBinding, hxy, List.lookup_cons, beq_eq_false_iff_ne.mpr (Ne.symm hxy)]
  | (z, w) :: bs, y, h => by
      have hxz : (x == z) = false := by
        cases hx : x == z with
        | false => rfl
        | true => simp [List.lookup_cons, hx] at h
      have hbs : bs.lookup x = none := by simpa [List.lookup_cons, hxz] using h
      -- the bindings are sorted: the new one stands here or further on
      unfold insertBinding
      by_cases hlt : x < z
      · rw [if_pos hlt]
        by_cases hxy : x = y
        · simp [hxy]
        · simp [hxy, List.lookup_cons, beq_eq_false_iff_ne.mpr (Ne.symm hxy)]
      · rw [if_neg hlt]
        by_cases hyz : y = z
        · have hne : x ≠ z := beq_eq_false_iff_ne.mp hxz
          subst hyz
          simp [hne]
        · have hyz' : (y == z) = false := beq_eq_false_iff_ne.mpr hyz
          simpa [List.lookup_cons, hyz'] using lookup_insertBinding y hbs

theorem Binds.lookup_eq_none_iff {bs : Bindings} {ds : List Decl} (h : Binds bs ds) {x : String} :
    bs.lookup x = none ↔ x ∉ ds.map Decl.name := by
  rw [h x, Option.map_eq_none_iff, slot?_eq_none_iff]

/-- A variable that gets the next number of its storage class is recorded. -/
theorem Binds.snoc {bs : Bindings} {ds : List Decl} {d : Decl} (h : Binds bs ds)
    (hd : d.name ∉ ds.map Decl.name) :
    Binds (insertBinding d.name ⟨d.type.text, d.storage, UInt32.ofNat (countOf d.storage ds)⟩ bs)
      (ds ++ [d]) := by
  intro x
  rw [lookup_insertBinding x (h.lookup_eq_none_iff.mpr hd), slot?_snoc]
  by_cases hx : d.name = x
  · have hnone : slot? x ds = none := slot?_eq_none_iff.mpr (hx ▸ hd)
    simp [hx, hnone, Slot.variable]
  · simp [hx, h x]

theorem ofNat_countOf_snoc {st : Storage} {n : UInt32} {ds : List Decl} {d : Decl}
    (h : n = UInt32.ofNat (countOf st ds)) :
    UInt32.ofNat (countOf st (ds ++ [d])) = if d.storage = st then n + 1 else n := by
  rw [countOf_snoc, h]
  by_cases hd : d.storage = st
  · simp [hd, UInt32.ofNat_add]
  · simp [hd]

namespace VariableTable

variable {t : VariableTable} {cs ss : List Decl} {d : Decl}

/-- Adds a declared variable. -/
def addDecl (t : VariableTable) (d : Decl) : VariableTable := t.add d.name d.type.text d.storage

theorem records_empty : Records {} [] [] where
  ofClass _ := rfl
  ofSubroutine _ := rfl
  statics := rfl
  fields := rfl
  arguments := rfl
  vars := rfl

theorem Records.dropLocals (h : Records t cs ss) : Records t.dropLocals cs [] where
  ofClass := h.ofClass
  ofSubroutine _ := rfl
  statics := h.statics
  fields := h.fields
  arguments := rfl
  vars := rfl

theorem Records.addDecl_class (h : Records t cs ss) (hd : d.storage.isOfClass = true)
    (hnew : d.name ∉ cs.map Decl.name) : Records (t.addDecl d) (cs ++ [d]) ss := by
  have hbinds := h.ofClass.snoc hnew
  have hstatics := ofNat_countOf_snoc (d := d) h.statics
  have hfields := ofNat_countOf_snoc (d := d) h.fields
  obtain ⟨storage, type, name⟩ := d
  cases storage with
  | static =>
      rw [← h.statics] at hbinds
      exact ⟨hbinds, h.ofSubroutine, hstatics.symm, hfields.symm, h.arguments, h.vars⟩
  | field =>
      rw [← h.fields] at hbinds
      exact ⟨hbinds, h.ofSubroutine, hstatics.symm, hfields.symm, h.arguments, h.vars⟩
  | argument => simp [Storage.isOfClass] at hd
  | var => simp [Storage.isOfClass] at hd

theorem Records.addDecl_subroutine (h : Records t cs ss) (hd : d.storage.isOfClass = false)
    (hnew : d.name ∉ ss.map Decl.name) : Records (t.addDecl d) cs (ss ++ [d]) := by
  have hbinds := h.ofSubroutine.snoc hnew
  have harguments := ofNat_countOf_snoc (d := d) h.arguments
  have hvars := ofNat_countOf_snoc (d := d) h.vars
  obtain ⟨storage, type, name⟩ := d
  cases storage with
  | static => simp [Storage.isOfClass] at hd
  | field => simp [Storage.isOfClass] at hd
  | argument =>
      rw [← h.arguments] at hbinds
      exact ⟨h.ofClass, hbinds, h.statics, h.fields, harguments.symm, hvars.symm⟩
  | var =>
      rw [← h.vars] at hbinds
      exact ⟨h.ofClass, hbinds, h.statics, h.fields, harguments.symm, hvars.symm⟩

end VariableTable

/-! ## Many declarations -/

def Tree.Decl.event (d : Decl) : Event := .declare d.storage d.type.text d.name

theorem stands_declare {t : Target} {s : Scope} (d : Decl) :
    Stands t s [d.event] ((s.table.scope d.storage).lookup d.name = none)
      { s with table := s.table.addDecl d } [] := by
  apply Stands.checked
  · intro hd
    simp only [Decl.event, Scope.perform, VariableTable.declare, hd, VariableTable.addDecl]
  · intro hd
    obtain ⟨v, hv⟩ := Option.ne_none_iff_exists'.mp hd
    exact ⟨_, by simp only [Decl.event, Scope.perform, VariableTable.declare, hv]; rfl⟩

theorem nodup_names_cons {ds new : List Decl} {d : Decl} :
    (d.name ∉ ds.map Decl.name ∧ ((ds ++ [d] ++ new).map Decl.name).Nodup) ↔
      ((ds ++ d :: new).map Decl.name).Nodup := by
  have hassoc : ds ++ d :: new = ds ++ [d] ++ new := by simp
  rw [hassoc]
  refine ⟨fun h => h.2, fun h => ⟨?_, h⟩⟩
  intro hd
  rw [← hassoc, List.map_append, List.nodup_append] at h
  exact h.2.2 _ hd d.name (by simp) rfl

theorem nodup_names_snoc {ds : List Decl} {d : Decl} (hds : (ds.map Decl.name).Nodup)
    (hd : d.name ∉ ds.map Decl.name) : ((ds ++ [d]).map Decl.name).Nodup := by
  rw [List.map_append, List.nodup_append]
  refine ⟨hds, by simp, ?_⟩
  intro x hx y hy hxy
  simp only [List.map_cons, List.map_nil, List.mem_singleton] at hy
  exact hd (hy ▸ hxy ▸ hx)

section
variable {t : Target}

/-- Declarations in one of the two scopes. `R` says that a table records the
declarations of that scope, whatever it records in the other. -/
theorem stands_declarations {own : Bool} {R : VariableTable → List Decl → Prop}
    (lookup : ∀ {table ds} {d : Decl}, R table ds → d.storage.isOfClass = own →
      ((table.scope d.storage).lookup d.name = none ↔ d.name ∉ ds.map Decl.name))
    (add : ∀ {table ds} {d : Decl}, R table ds → d.storage.isOfClass = own →
      d.name ∉ ds.map Decl.name → R (table.addDecl d) (ds ++ [d])) :
    ∀ {new ds : List Decl} {s : Scope}, R s.table ds →
      (∀ d ∈ new, d.storage.isOfClass = own) → (ds.map Decl.name).Nodup →
      Stands t s (new.map Decl.event) ((ds ++ new).map Decl.name).Nodup
        { s with table := new.foldl .addDecl s.table } [] ∧
      (((ds ++ new).map Decl.name).Nodup → R (new.foldl .addDecl s.table) (ds ++ new))
  | [], ds, s, hR, _, hds => by
      rw [List.append_nil]
      exact ⟨Stands.nil.congr (by simp [hds]), fun _ => hR⟩
  | d :: new, ds, s, hR, hown, hds => by
      have hd : d.storage.isOfClass = own := hown d List.mem_cons_self
      have hrest : ∀ e ∈ new, e.storage.isOfClass = own :=
        fun e he => hown e (List.mem_cons_of_mem _ he)
      have hfirst := (stands_declare (t := t) d).congr (lookup hR hd)
      have ih := fun hnew => stands_declarations lookup add
        (s := { s with table := s.table.addDecl d }) (add hR hd hnew) hrest
        (nodup_names_snoc hds hnew)
      constructor
      · exact (hfirst.append fun hnew => (ih hnew).1).congr nodup_names_cons
      · intro hnodup
        obtain ⟨hnew, hnodup'⟩ := nodup_names_cons.mpr hnodup
        have hR' := (ih hnew).2 hnodup'
        rwa [List.append_assoc] at hR'

variable {s : Scope} {cs ss new : List Decl}

theorem VariableTable.Records.stands_class (h : s.table.Records cs ss)
    (hown : ∀ d ∈ new, d.storage.isOfClass = true) (hcs : (cs.map Decl.name).Nodup) :
    Stands t s (new.map Decl.event) ((cs ++ new).map Decl.name).Nodup
        { s with table := new.foldl .addDecl s.table } [] ∧
      (((cs ++ new).map Decl.name).Nodup →
        (new.foldl .addDecl s.table).Records (cs ++ new) ss) := by
  refine stands_declarations (R := fun table ds => table.Records ds ss) ?_ ?_ h hown hcs
  · intro table ds d hR hd
    rw [VariableTable.scope, hd]
    exact hR.ofClass.lookup_eq_none_iff
  · intro table ds d hR hd hnew
    exact hR.addDecl_class hd hnew

theorem VariableTable.Records.stands_subroutine (h : s.table.Records cs ss)
    (hown : ∀ d ∈ new, d.storage.isOfClass = false) (hss : (ss.map Decl.name).Nodup) :
    Stands t s (new.map Decl.event) ((ss ++ new).map Decl.name).Nodup
        { s with table := new.foldl .addDecl s.table } [] ∧
      (((ss ++ new).map Decl.name).Nodup →
        (new.foldl .addDecl s.table).Records cs (ss ++ new)) := by
  refine stands_declarations (R := fun table ds => table.Records cs ds) ?_ ?_ h hown hss
  · intro table ds d hR hd
    rw [VariableTable.scope, hd]
    exact hR.ofSubroutine.lookup_eq_none_iff
  · intro table ds d hR hd hnew
    exact hR.addDecl_subroutine hd hnew

end

end JackVm
