import JackVm.Proofs.Routines

/-!
# Which words a routine uses

Variables are numbered by the declarations before them, so a variable in use has a
number below the count of its storage class. All declarations of a subroutine come
before its code, so these counts are the sizes of the segments. Main statements: no
access is out of its segment (`ofSource_stays_in_segments`), and the current object is
used only where it is bound, and after that (`ofSource_binds_object`).
-/

namespace JackVm

/-- The segment and the index that an instruction reads or writes. -/
def Instruction.access? : Instruction → Option (Segment × UInt32)
  | .push segment n | .pop segment n => some (segment, n)
  | _ => none

/-- An instruction of the routine reads or writes a word of a segment. -/
def Routine.Accesses (b : Routine) (segment : Segment) (n : UInt32) : Prop :=
  ∃ i ∈ b.body, i.access? = some (segment, n)

/-- The instruction needs the current object: it uses a field or the object itself. -/
def Instruction.UsesObject (i : Instruction) : Prop :=
  (∃ n, i.access? = some (.this, n)) ∨ i.access? = some (.pointer, 0)

namespace Tree

/-! ## Counting declarations -/

theorem countOf_append (st : Storage) (ds es : List Decl) :
    countOf st (ds ++ es) = countOf st ds + countOf st es := List.countP_append

theorem countOf_eq_zero {st : Storage} {ds : List Decl} (h : ∀ d ∈ ds, d.storage ≠ st) :
    countOf st ds = 0 := by
  rw [countOf, List.countP_eq_zero]
  intro d hd hst
  exact h d hd (of_decide_eq_true hst)

theorem slotAfter_index_lt_countOf {x : String} {v : Slot} : ∀ {ds before : List Decl},
    slotAfter x before ds = some v → v.index < countOf v.storage (before ++ ds)
  | d :: ds, before, h => by
      by_cases hd : d.name = x
      · rw [slotAfter, if_pos hd, Option.some.injEq] at h
        have hpos : 0 < countOf d.storage (d :: ds) := List.countP_pos_iff.mpr ⟨d, by simp⟩
        rw [← h]
        show countOf d.storage before < countOf d.storage (before ++ d :: ds)
        rw [countOf_append]
        omega
      · rw [slotAfter, if_neg hd] at h
        have hlt := slotAfter_index_lt_countOf h
        rwa [List.append_assoc] at hlt

/-- The number of a variable is below the count of its storage class. -/
theorem Env.index_lt {env : Env} {x : String} {v : Slot} (h : env.find? x = some v) :
    v.index < countOf v.storage env.ofClass + countOf v.storage env.ofSubroutine := by
  rw [Env.find?, Option.or_eq_some_iff] at h
  rcases h with h | ⟨-, h⟩
  · have hlt := slotAfter_index_lt_countOf h
    rw [List.nil_append] at hlt
    omega
  · have hlt := slotAfter_index_lt_countOf h
    rw [List.nil_append] at hlt
    omega

/-- A name declared once stands for its declaration. -/
theorem slot?_of_split {d : Decl} {before after : List Decl}
    (h : ((before ++ d :: after).map Decl.name).Nodup) :
    slot? d.name (before ++ d :: after) = some ⟨d.type, d.storage, countOf d.storage before⟩ := by
  have hbefore : slotAfter d.name [] before = none := by
    rw [slotAfter_eq_none_iff]
    rw [List.map_append, List.map_cons, List.nodup_append] at h
    intro hmem
    exact h.2.2 _ hmem d.name List.mem_cons_self rfl
  rw [slot?, slotAfter_append, hbefore, Option.none_or, slotAfter, if_pos rfl, List.nil_append]

/-- How many arguments a subroutine is passed besides its parameters. -/
def Subroutine.hidden (sub : Subroutine) : Nat := if sub.kind = .method then 1 else 0

section
variable {c : Class} {sub : Subroutine}

theorem countOf_ofClass {st : Storage} (h : st.isOfClass = false) : countOf st c.decls = 0 := by
  apply countOf_eq_zero
  intro d hd hst
  have hclass := c.isOfClass_decls d hd
  rw [hst, h] at hclass
  cases hclass

theorem countOf_ofSubroutine {st : Storage} (h : st.isOfClass = true) :
    countOf st (sub.receiver c ++ sub.decls) = 0 := by
  apply countOf_eq_zero
  intro d hd hst
  rcases List.mem_append.mp hd with hd | hd
  · unfold Subroutine.receiver at hd
    split at hd
    · rw [List.mem_singleton.mp hd] at hst
      rw [← hst] at h
      cases h
    · cases hd
  · have hsub := sub.isOfClass_decls d hd
    rw [hst, h] at hsub
    cases hsub

theorem countOf_receiver : countOf .argument (sub.receiver c) = sub.hidden := by
  unfold Subroutine.receiver Subroutine.hidden
  split <;> rfl

theorem countOf_parameters (ps : List Parameter) :
    countOf .argument (ps.map Parameter.decl) = ps.length := by
  rw [countOf, List.countP_eq_length.mpr, List.length_map]
  intro d hd
  obtain ⟨p, -, rfl⟩ := List.mem_map.mp hd
  rfl

theorem countOf_arguments :
    countOf .argument (sub.receiver c ++ sub.decls) = sub.parameters.length + sub.hidden := by
  have hlocals : countOf .argument (sub.locals.flatMap (VarDec.decls .var)) = 0 := by
    apply countOf_eq_zero
    intro d hd hst
    obtain ⟨v, -, hd⟩ := List.mem_flatMap.mp hd
    obtain ⟨x, -, rfl⟩ := List.mem_map.mp hd
    cases hst
  rw [Subroutine.decls, countOf_append, countOf_append, countOf_receiver, countOf_parameters,
    hlocals]
  omega

/-- The parameters are numbered in their order, in a method after the current object. -/
theorem Subroutine.find?_parameter (hvalid : sub.Valid c) {ps qs : List Parameter} {p : Parameter}
    (hp : sub.parameters = ps ++ p :: qs) :
    (c.env sub).find? p.name.text = some ⟨p.type, .argument, ps.length + sub.hidden⟩ := by
  have hsplit : sub.receiver c ++ sub.decls = (sub.receiver c ++ ps.map Parameter.decl) ++
      p.decl :: (qs.map Parameter.decl ++ sub.locals.flatMap (VarDec.decls .var)) := by
    simp [Subroutine.decls, hp]
  have hnodup := (sub.nodup_receiver c).mpr hvalid.distinct
  rw [hsplit] at hnodup
  have hslot := slot?_of_split hnodup
  rw [← hsplit] at hslot
  have hcount : countOf p.decl.storage (sub.receiver c ++ ps.map Parameter.decl) =
      ps.length + sub.hidden := by
    rw [countOf_append]
    show countOf .argument _ + countOf .argument _ = _
    rw [countOf_receiver, countOf_parameters, Nat.add_comm]
  rw [hcount] at hslot
  show (slot? p.decl.name (sub.receiver c ++ sub.decls)).or _ = _
  rw [hslot]
  rfl

end

/-! ## Accesses -/

section
variable {env : Env} {i : Instruction}

/-- A body uses variables, constants, the current object where there is one, and
single words of the other segments. -/
theorem Env.Emits.access (h : env.Emits i) {segment : Segment} {n : UInt32}
    (hi : i.access? = some (segment, n)) :
    (∃ x v, env.find? x = some v ∧ env.Admits v ∧ segment = home v.storage ∧
      n = UInt32.ofNat v.index) ∨
    segment = .constant ∨ (segment = .pointer ∧ n = 0 ∧ env.HasObject) ∨
    (segment, n) ∈ [(.pointer, 1), (.that, 0), (.temp, 0)] := by
  cases h with
  | evaluate he =>
      cases he with
      | load hv hadmits =>
          cases hi
          exact .inl ⟨_, _, hv, hadmits, rfl, rfl⟩
      | constant n =>
          cases hi
          exact .inr (.inl rfl)
      | self hobject =>
          cases hi
          exact .inr (.inr (.inl ⟨rfl, rfl, hobject⟩))
      | address | element =>
          cases hi
          exact .inr (.inr (.inr (by simp)))
      | command | call => cases hi
  | store hv hadmits =>
      cases hi
      exact .inl ⟨_, _, hv, hadmits, rfl, rfl⟩
  | setElement | value | setValue =>
      cases hi
      exact .inr (.inr (.inr (by simp)))
  | label | goto | ifGoto | ret => cases hi

/-- A body writes neither a constant nor pointer 0. -/
theorem Env.Emits.pop {segment : Segment} {n : UInt32} (h : env.Emits (.pop segment n)) :
    segment ≠ .constant ∧ (segment, n) ≠ (.pointer, 0) := by
  cases h with
  | evaluate he => cases he with | address => exact ⟨by decide, by decide⟩
  | @store x v hv _ =>
      cases v.storage with
      | _ => simp [home]
  | setElement => exact ⟨by decide, by decide⟩
  | setValue => exact ⟨by decide, by decide⟩

/-- Only a body with a current object uses it. -/
theorem Env.Emits.usesObject (h : env.Emits i) (hi : i.UsesObject) : env.HasObject := by
  rcases hi with ⟨n, hi⟩ | hi
  · rcases h.access hi with ⟨x, v, -, hadmits, hhome, -⟩ | hconstant | ⟨hpointer, -⟩ | hother
    · apply hadmits
      cases hst : v.storage with
      | field => rfl
      | _ => simp [hst, home] at hhome
    · cases hconstant
    · cases hpointer
    · simp at hother
  · rcases h.access hi with ⟨x, v, -, -, hhome, -⟩ | hconstant | ⟨-, -, hobject⟩ | hother
    · cases hst : v.storage with
      | _ => simp [hst, home] at hhome
    · cases hconstant
    · exact hobject
    · simp at hother

end

/-! ## Segments -/

/-- The size of a segment in the routine of a subroutine. Arguments are numbered from
the current object on if there is one. Constants have no bound; of `pointer` there are
two words, and of `that` and `temp` only the first is used. -/
def Subroutine.extent (c : Class) (sub : Subroutine) (b : Routine) : Segment → Option Nat
  | .constant => none
  | .argument => some (sub.parameters.length + sub.hidden)
  | .locals => some b.locals.toNat
  | .static => some (countOf .static c.decls)
  | .this => some (countOf .field c.decls)
  | .that => some 1
  | .pointer => some 2
  | .temp => some 1

/-- No access of a routine is out of its segment. -/
structure Subroutine.StaysInSegments (r : Runtime) (c : Class) (sub : Subroutine) (b : Routine) :
    Prop where
  bounded : ∀ segment size n, sub.extent c b segment = some size → b.Accesses segment n →
    n.toNat < size
  /-- The parameters follow the current object. -/
  parameters : ∀ before p after, sub.parameters = before ++ p :: after →
    (c.env sub).find? p.name.text = some ⟨p.type, .argument, before.length + sub.hidden⟩
  /-- A constructor allocates all fields of the class. -/
  allocation : sub.kind = .constructor → ∃ fields rest,
    b.body = .push .constant fields :: .call (r.memory ++ ".alloc") 1 :: .pop .pointer 0 :: rest ∧
      fields.toNat = countOf .field c.decls
  constants : ∀ n, .pop .constant n ∉ b.body

section
variable {c : Class} {sub : Subroutine} {r : Runtime} {label : Tag → Nat → String}

/-- Binding the current object uses a constant or the first argument, and pointer 0. -/
theorem Env.access_binding {env : Env} {i : Instruction} {segment : Segment} {n : UInt32}
    (hi : i ∈ env.binding r) (haccess : i.access? = some (segment, n)) :
    segment = .constant ∨ (segment = .pointer ∧ n = 0) ∨
      (env.kind = .method ∧ segment = .argument ∧ n = 0) := by
  unfold Env.binding at hi
  split at hi
  · simp only [List.mem_cons, List.not_mem_nil, or_false] at hi
    rcases hi with rfl | rfl | rfl
    · cases haccess
      exact .inl rfl
    · cases haccess
    · cases haccess
      exact .inr (.inl ⟨rfl, rfl⟩)
  · next hkind =>
      simp only [List.mem_cons, List.not_mem_nil, or_false] at hi
      rcases hi with rfl | rfl
      · cases haccess
        exact .inr (.inr ⟨hkind, rfl, rfl⟩)
      · cases haccess
        exact .inr (.inl ⟨rfl, rfl⟩)
  · cases hi

theorem Subroutine.mem_routine {i : Instruction} (hvalid : sub.Valid c)
    (hi : i ∈ (sub.routine r c label).body) :
    i ∈ (c.env sub).binding r ∨ (c.env sub).Emits i := by
  rcases List.mem_append.mp hi with hi | hi
  · exact .inl hi
  · exact .inr (sub.body.emits 0 hvalid.body i hi)

/-- The number of a variable in use is below the size of its segment. -/
theorem Subroutine.index_lt_extent {x : String} {v : Slot} (h : (c.env sub).find? x = some v)
    (hvars : countOf .var (sub.receiver c ++ sub.decls) < UInt32.size) {size : Nat}
    (hsize : sub.extent c (sub.routine r c label) (home v.storage) = some size) :
    v.index < size := by
  have hindex : v.index < countOf v.storage c.decls +
      countOf v.storage (sub.receiver c ++ sub.decls) := Env.index_lt h
  cases hst : v.storage with
  | static =>
      rw [hst] at hindex hsize
      rw [countOf_ofSubroutine rfl] at hindex
      exact Option.some.inj hsize ▸ hindex
  | field =>
      rw [hst] at hindex hsize
      rw [countOf_ofSubroutine rfl] at hindex
      exact Option.some.inj hsize ▸ hindex
  | argument =>
      rw [hst] at hindex hsize
      rw [countOf_ofClass rfl, countOf_arguments, Nat.zero_add] at hindex
      exact Option.some.inj hsize ▸ hindex
  | var =>
      rw [hst] at hindex hsize
      rw [countOf_ofClass rfl, Nat.zero_add] at hindex
      have hlocals : (sub.routine r c label).locals.toNat =
          countOf .var (sub.receiver c ++ sub.decls) := UInt32.toNat_ofNat_of_lt' hvars
      rw [← Option.some.inj hsize, hlocals]
      exact hindex

theorem Subroutine.staysInSegments (hvalid : sub.Valid c)
    (hvars : countOf .var (sub.receiver c ++ sub.decls) < UInt32.size)
    (hfields : countOf .field c.decls < UInt32.size) :
    sub.StaysInSegments r c (sub.routine r c label) where
  bounded := by
    rintro segment size n hsize ⟨i, hi, haccess⟩
    rcases sub.mem_routine hvalid hi with hi | hemits
    · rcases Env.access_binding hi haccess with rfl | ⟨rfl, rfl⟩ | ⟨hkind, rfl, rfl⟩
      · cases hsize
      · cases hsize
        decide
      · have hhidden : sub.hidden = 1 := if_pos hkind
        rw [← Option.some.inj hsize, hhidden]
        exact Nat.succ_pos _
    · rcases hemits.access haccess with ⟨x, v, hv, -, rfl, rfl⟩ | rfl | ⟨rfl, rfl, -⟩ | hother
      · have hindex := sub.index_lt_extent hv hvars hsize
        rw [UInt32.toNat_ofNat']
        exact Nat.lt_of_le_of_lt (Nat.mod_le _ _) hindex
      · cases hsize
      · cases hsize
        decide
      · simp only [List.mem_cons, Prod.mk.injEq, List.not_mem_nil, or_false] at hother
        rcases hother with ⟨rfl, rfl⟩ | ⟨rfl, rfl⟩ | ⟨rfl, rfl⟩
        · cases hsize
          decide
        · cases hsize
          decide
        · cases hsize
          decide
  parameters _ _ _ hp := sub.find?_parameter hvalid hp
  allocation hkind := by
    refine ⟨UInt32.ofNat (countOf .field c.decls), sub.body.code (c.env sub) r label 0, ?_,
      UInt32.toNat_ofNat_of_lt' hfields⟩
    have hkind' : (c.env sub).kind = .constructor := hkind
    rw [Subroutine.routine, Env.binding, hkind']
    rfl
  constants n hn := by
    rcases sub.mem_routine hvalid hn with hn | hemits
    · unfold Env.binding at hn
      split at hn <;> simp at hn
    · exact hemits.pop.1 rfl

/-! ## The current object -/

/-- The current object of a routine: a function has none, and in a constructor or
method it is bound once, right at the start, before it is used. -/
structure Subroutine.BindsObject (r : Runtime) (sub : Subroutine) (b : Routine) : Prop where
  function : sub.kind = .function → ∀ i ∈ b.body, ¬i.UsesObject
  constructor : sub.kind = .constructor → ∃ fields rest,
    b.body = [.push .constant fields, .call (r.memory ++ ".alloc") 1] ++ .pop .pointer 0 :: rest
  method : sub.kind = .method → ∃ rest, b.body = [.push .argument 0] ++ .pop .pointer 0 :: rest
  once : sub.kind ≠ .function → b.body.count (.pop .pointer 0) = 1
  first : ∀ before i after, b.body = before ++ i :: after → i.UsesObject →
    i = .pop .pointer 0 ∨ .pop .pointer 0 ∈ before

theorem Env.binding_function {env : Env} (h : env.kind = .function) : env.binding r = [] := by
  rw [Env.binding, h]

/-- The binding of the current object ends with the only write to pointer 0, and
nothing before it uses the object. -/
theorem Env.exists_binding {env : Env} (h : env.HasObject) :
    ∃ front, env.binding r = front ++ [.pop .pointer 0] ∧ ∀ i ∈ front, ¬i.UsesObject := by
  cases hkind : env.kind with
  | constructor =>
      refine ⟨[.push .constant (UInt32.ofNat (countOf .field env.ofClass)),
        .call (r.memory ++ ".alloc") 1], by rw [Env.binding, hkind]; rfl, ?_⟩
      simp [Instruction.UsesObject, Instruction.access?]
  | method =>
      refine ⟨[.push .argument 0], by rw [Env.binding, hkind]; rfl, ?_⟩
      simp [Instruction.UsesObject, Instruction.access?]
  | function => exact absurd hkind h

end

end Tree

/-- If nothing before a write to pointer 0 uses the object, every use comes after it. -/
theorem usesObject_after {front code before after : List Instruction} {i : Instruction}
    (hfront : ∀ j ∈ front, ¬j.UsesObject)
    (hsplit : front ++ .pop .pointer 0 :: code = before ++ i :: after) (hi : i.UsesObject) :
    i = .pop .pointer 0 ∨ .pop .pointer 0 ∈ before := by
  rcases List.append_eq_append_iff.mp hsplit with ⟨rest, rfl, hrest⟩ | ⟨rest, rfl, hrest⟩
  · cases rest with
    | nil => exact .inl (List.cons.inj hrest).1.symm
    | cons j rest =>
        obtain ⟨rfl, -⟩ := List.cons.inj hrest
        exact .inr (by simp)
  · cases rest with
    | nil => exact .inl (List.cons.inj hrest).1
    | cons j rest =>
        obtain ⟨rfl, -⟩ := List.cons.inj hrest
        exact absurd hi (hfront i (by simp))

namespace Tree

theorem Subroutine.bindsObject {c : Class} {sub : Subroutine} (hvalid : sub.Valid c) (r : Runtime)
    (label : Tag → Nat → String) : sub.BindsObject r (sub.routine r c label) := by
  let code := sub.body.code (c.env sub) r label 0
  have hemits : ∀ i ∈ code, (c.env sub).Emits i := sub.body.emits 0 hvalid.body
  have hbody : (sub.routine r c label).body = (c.env sub).binding r ++ code := rfl
  by_cases hobject : (c.env sub).HasObject
  · obtain ⟨front, hbinding, hfront⟩ := Env.exists_binding (r := r) hobject
    rw [hbinding, List.append_assoc, List.singleton_append] at hbody
    have hfirst : .pop .pointer 0 ∉ front := fun h => hfront _ h (.inr rfl)
    have hlast : .pop .pointer 0 ∉ code := fun h => (hemits _ h).pop.2 rfl
    refine ⟨fun h => absurd h hobject, ?_, ?_, ?_, ?_⟩
    · intro hkind
      have hkind' : (c.env sub).kind = .constructor := hkind
      refine ⟨UInt32.ofNat (countOf .field c.decls), code, ?_⟩
      rw [Subroutine.routine, Env.binding, hkind']
      rfl
    · intro hkind
      have hkind' : (c.env sub).kind = .method := hkind
      refine ⟨code, ?_⟩
      rw [Subroutine.routine, Env.binding, hkind']
      rfl
    · intro _
      rw [hbody, List.count_append, List.count_cons_self, List.count_eq_zero_of_not_mem hfirst,
        List.count_eq_zero_of_not_mem hlast]
    · intro before i after hsplit hi
      exact usesObject_after hfront (hbody ▸ hsplit) hi
  · have hkind : sub.kind = .function := not_not.mp hobject
    have hnone : ∀ i ∈ (sub.routine r c label).body, ¬i.UsesObject := by
      rw [hbody, Env.binding_function hkind, List.nil_append]
      exact fun i hi huses => hobject ((hemits i hi).usesObject huses)
    refine ⟨fun _ => hnone, ?_, ?_, fun h => absurd hkind h, ?_⟩
    · intro h
      rw [hkind] at h
      cases h
    · intro h
      rw [hkind] at h
      cases h
    · intro before i after hsplit hi
      exact absurd hi (hnone i (by simp [hsplit]))

end Tree

namespace Compilation

open JackVm.Tree

variable {t : Target} {table : VariableTable} {source : String} {outlet : Outlet}

/-- In the program of an accepted source text no access is out of its segment. The
bound keeps the 32-bit counts of variables from wrapping. -/
theorem ofSource_stays_in_segments (h : (ofSource t table source outlet).result = .ok ())
    (hlength : source.length < UInt32.size) :
    ∃ tokens, ∃ c : Tree.Class, scan source = .ok tokens ∧ tokens.map (·.toLexeme) = c.print ∧
      c.Routinewise (fun sub b => sub.StaysInSegments t.runtime c b)
        (ofSource t table source outlet).sink.code := by
  refine routinewise_of_short h hlength ?_
  intro c sub hvalid hsub hbound
  have hprint := Subroutine.length_print_le hsub
  have hvars := Nat.le_trans (countOf_le .var _) (sub.length_decls_le c)
  have hfields := Nat.le_trans (countOf_le .field _) c.length_decls_le
  exact sub.staysInSegments (hvalid.subroutines sub hsub) (by omega) (by omega)

theorem ofSource_stays_in_segments_table :
    (ofSource ⟨"T", {}⟩ {} tableSource {}).result = .ok () ∧
      tableSource.length < UInt32.size ∧
      ∃ tokens, ∃ c : Tree.Class, scan tableSource = .ok tokens ∧
        tokens.map (·.toLexeme) = c.print ∧
        c.Routinewise (fun sub b => sub.StaysInSegments {} c b)
          (ofSource ⟨"T", {}⟩ {} tableSource {}).sink.code :=
  ⟨result_tableSource, length_tableSource,
    ofSource_stays_in_segments result_tableSource length_tableSource⟩

/-- In the program of an accepted source text the current object is used only where it
is bound. -/
theorem ofSource_binds_object (h : (ofSource t table source outlet).result = .ok ()) :
    ∃ tokens, ∃ c : Tree.Class, scan source = .ok tokens ∧ tokens.map (·.toLexeme) = c.print ∧
      c.Routinewise (fun sub b => sub.BindsObject t.runtime b)
        (ofSource t table source outlet).sink.code := by
  refine routinewise_of_ofSource h ?_
  intro c sub hvalid hsub
  exact sub.bindsObject (hvalid.subroutines sub hsub) t.runtime (c.env sub).wordLabel

theorem ofSource_binds_object_table :
    (ofSource ⟨"T", {}⟩ {} tableSource {}).result = .ok () ∧
      ∃ tokens, ∃ c : Tree.Class, scan tableSource = .ok tokens ∧
        tokens.map (·.toLexeme) = c.print ∧
        c.Routinewise (fun sub b => sub.BindsObject {} b)
          (ofSource ⟨"T", {}⟩ {} tableSource {}).sink.code :=
  ⟨result_tableSource, ofSource_binds_object result_tableSource⟩

end Compilation

end JackVm
