import JackVm.Proofs.Paths
import Mathlib.Data.List.Induction

/-!
# Where paths lead

In a tree without links a path leads from directory to directory (`Leads`), and its last
part names a place in the directory reached (`Names`). What a request does with a path then
depends on the path as a text and on what stands at that place, and the path leads to the
same place in every tree with the same directories. Making, changing and removing files
changes no directory (`Alike`).
-/

namespace JackVm

namespace FileTree

variable {t u : FileTree} {l l' : Location}

/-! ## Entries -/

theorem lookup_cons_ite (l l' : Location) (node : Node) (entries : List (Location × Node)) :
    ((l, node) :: entries).lookup l' = if l' = l then some node else entries.lookup l' := by
  rw [List.lookup_cons]
  by_cases h : l' = l
  · simp [h]
  · rw [if_neg h, beq_false_of_ne h]

theorem lookup_replaced (node : Node) (entries : List (Location × Node)) :
    (entries.map fun e => if e.1 = l then (l, node) else e).lookup l' =
      if l' = l ∧ entries.any (·.1 = l) then some node else entries.lookup l' := by
  induction entries with
  | nil => simp
  | cons e entries ih =>
      obtain ⟨first, other⟩ := e
      by_cases hfirst : first = l
      · subst hfirst
        simp only [List.map_cons, if_true, lookup_cons_ite, ih]
        by_cases hl : l' = first <;> simp [hl]
      · simp only [List.map_cons, hfirst, if_false, lookup_cons_ite, ih]
        by_cases hl : l' = l
        · have hne : l' ≠ first := fun heq => hfirst (heq.symm.trans hl)
          rw [if_neg hne, if_neg hne, List.any_cons, decide_eq_false hfirst, Bool.false_or]
        · simp [hl]

theorem lookup_filtered (entries : List (Location × Node)) :
    (entries.filter (·.1 ≠ l)).lookup l' = if l' = l then none else entries.lookup l' := by
  induction entries with
  | nil => simp
  | cons e entries ih =>
      obtain ⟨first, other⟩ := e
      by_cases hfirst : first = l
      · rw [List.filter_cons_of_neg (by simpa using hfirst), ih, lookup_cons_ite, hfirst]
        by_cases hl : l' = l <;> simp [hl]
      · rw [List.filter_cons_of_pos (by simpa using hfirst), lookup_cons_ite, lookup_cons_ite, ih]
        by_cases hl : l' = l
        · subst hl
          simp [Ne.symm hfirst]
        · simp [hl]

theorem filter_replaced (node : Node) (entries : List (Location × Node)) :
    (entries.map fun e => if e.1 = l then (l, node) else e).filter (·.1 ≠ l) =
      entries.filter (·.1 ≠ l) := by
  induction entries with
  | nil => rfl
  | cons e entries ih => by_cases he : e.1 = l <;> simp_all

/-- What is put at a location takes the place of what was put there before. -/
theorem put_put (t : FileTree) (l : Location) (node node' : Node) :
    (t.put l node).put l node' = t.put l node' := by
  obtain ⟨entries, home⟩ := t
  by_cases hany : entries.any (·.1 = l)
  · have hagain : (entries.map fun e => if e.1 = l then (l, node) else e).any (·.1 = l) := by
      rw [List.any_map, ← hany]
      congr 1
      funext e
      by_cases he : e.1 = l <;> simp [he]
    simp only [put, hany, hagain, if_true, List.map_map]
    congr 1
    apply List.map_congr_left
    intro e _
    by_cases he : e.1 = l <;> simp [he]
  · have hmap : (entries.map fun e => if e.1 = l then (l, node') else e) = entries := by
      refine (List.map_congr_left fun e he => if_neg fun heq => ?_).trans (List.map_id' entries)
      exact hany (List.any_eq_true.mpr ⟨e, he, by simpa using heq⟩)
    simp [put, hany, hmap]

theorem erase_put (t : FileTree) (l : Location) (node : Node) :
    (t.put l node).erase l = t.erase l := by
  unfold erase put
  split
  · simp only [filter_replaced]
  · simp [List.filter_append]

/-! ## Nodes -/

/-- The home and the directories on the way to it always exist. -/
theorem isDirectory_of_home (h : l <+: t.home) : t.isDirectory l = true := by
  simp [isDirectory, node?, List.isPrefixOf_iff_prefix.mpr h]

theorem not_home (h : t.isDirectory l = false) : l.isPrefixOf t.home = false := by
  rw [Bool.eq_false_iff] at h ⊢
  exact fun hhome => h (isDirectory_of_home (List.isPrefixOf_iff_prefix.mp hhome))

theorem isDirectory_iff : t.isDirectory l = true ↔ t.node? l = some .directory := by
  unfold isDirectory
  split <;> simp_all

@[simp] theorem home_put (t : FileTree) (l : Location) (node : Node) :
    (t.put l node).home = t.home := by
  unfold put
  split <;> rfl

theorem node?_put (hl : t.isDirectory l = false) (node : Node) (l' : Location) :
    (t.put l node).node? l' = if l' = l then some node else t.node? l' := by
  have houtside : l.isPrefixOf t.home = false := not_home hl
  have hentries : (t.put l node).entries.lookup l' =
      if l' = l then some node else t.entries.lookup l' := by
    unfold put
    split
    · next hany => simp [lookup_replaced, hany]
    · next hany =>
        have hnone : t.entries.lookup l = none := by
          rw [List.lookup_eq_none_iff]
          intro e he
          simp only [List.any_eq_true, not_exists, not_and] at hany
          simpa using fun heq => hany e he (by simpa using heq.symm)
        rw [List.lookup_append, lookup_cons_ite]
        by_cases h : l' = l <;> simp [h, hnone]
  unfold node?
  rw [home_put, hentries]
  by_cases h : l' = l
  · simp [h, houtside]
  · simp [h]

theorem node?_erase (hl : t.isDirectory l = false) (l' : Location) :
    (t.erase l).node? l' = if l' = l then none else t.node? l' := by
  have houtside : l.isPrefixOf t.home = false := not_home hl
  unfold node? erase
  rw [lookup_filtered]
  by_cases h : l' = l
  · simp [h, houtside]
  · simp [h]

/-! ## Changes of files -/

/-- Nothing in the tree is a link. -/
def NoLinks (t : FileTree) : Prop := ∀ l target, t.node? l ≠ some (.link target)

theorem mem_of_lookup {entries : List (Location × Node)} {node : Node}
    (h : entries.lookup l = some node) : (l, node) ∈ entries := by
  obtain ⟨before, after, rfl, -⟩ := List.lookup_eq_some_iff.mp h
  simp

theorem noLinks_of_entries (h : ∀ e ∈ t.entries, ∀ target, e.2 ≠ .link target) : t.NoLinks := by
  intro l target hnode
  unfold node? at hnode
  split at hnode
  · cases hnode
  · exact h _ (mem_of_lookup hnode) target rfl

/-- What may become of a file. -/
inductive Change where
  | keep
  | write (text : String)
  | erase
deriving DecidableEq, Repr

/-- What stands at a place after a change. -/
def Change.after (before : Option Node) : Change → Option Node
  | .keep => before
  | .write text => some (.file text.toUTF8)
  | .erase => none

def change (t : FileTree) (l : Location) : Change → FileTree
  | .keep => t
  | .write text => t.put l (.file text.toUTF8)
  | .erase => t.erase l

/-- A change does not concern a directory. -/
def Change.Allowed (t : FileTree) (l : Location) (c : Change) : Prop :=
  c = .keep ∨ t.isDirectory l = false

theorem node?_change {c : Change} (hc : c.Allowed t l) (l' : Location) :
    (t.change l c).node? l' = if l' = l then c.after (t.node? l) else t.node? l' := by
  rcases hc with rfl | hl
  · by_cases h : l' = l <;> simp [change, Change.after, h]
  cases c with
  | keep => by_cases h : l' = l <;> simp [change, Change.after, h]
  | write text => exact node?_put hl _ l'
  | erase => exact node?_erase hl l'

theorem node?_change_self {c : Change} (hc : c.Allowed t l) :
    (t.change l c).node? l = c.after (t.node? l) := by
  rw [node?_change hc, if_pos rfl]

theorem node?_change_ne {c : Change} (hc : c.Allowed t l) (h : l' ≠ l) :
    (t.change l c).node? l' = t.node? l' := by
  rw [node?_change hc, if_neg h]

/-- The trees have the same home and the same directories, and the second has no links. -/
structure Alike (t u : FileTree) : Prop where
  home_eq : u.home = t.home
  isDirectory_eq : ∀ l, u.isDirectory l = t.isDirectory l
  noLinks : u.NoLinks

theorem Alike.refl (ht : t.NoLinks) : Alike t t := ⟨rfl, fun _ => rfl, ht⟩

theorem Alike.trans {w : FileTree} (h : Alike t u) (h' : Alike u w) : Alike t w where
  home_eq := h'.home_eq.trans h.home_eq
  isDirectory_eq l := (h'.isDirectory_eq l).trans (h.isDirectory_eq l)
  noLinks := h'.noLinks

/-- A change of a file changes no directory. -/
theorem alike_change (ht : t.NoLinks) {c : Change} (hc : c.Allowed t l) :
    Alike t (t.change l c) := by
  rcases hc with rfl | hl
  · exact .refl ht
  have hnode := node?_change (c := c) (.inr hl)
  refine ⟨?_, ?_, ?_⟩
  · cases c with
    | keep => rfl
    | write text => exact home_put t l _
    | erase => rfl
  · intro l'
    by_cases h : l' = l
    · subst h
      rw [hl]
      unfold isDirectory at hl ⊢
      rw [hnode, if_pos rfl]
      cases c with
      | keep => exact hl
      | write text => rfl
      | erase => rfl
    · unfold isDirectory
      rw [hnode, if_neg h]
  · intro l' target
    rw [hnode]
    by_cases h : l' = l
    · rw [if_pos h]
      cases c with
      | keep => exact ht l target
      | write text => simp [Change.after]
      | erase => simp [Change.after]
    · rw [if_neg h]
      exact ht l' target

/-! ## From directory to directory -/

/-- Following the parts from `here` leads through directories to the directory `there`. -/
inductive Leads (t : FileTree) : Location → List String → Location → Prop where
  | arrive {here : Location} (hd : t.isDirectory here) : Leads t here [] here
  | stay {here there : Location} {part : String} {rest : List String}
      (hpart : part = "" ∨ part = ".") (h : Leads t here rest there) :
      Leads t here (part :: rest) there
  | up {here there : Location} {rest : List String} (hd : t.isDirectory here)
      (h : Leads t here.dropLast rest there) : Leads t here (".." :: rest) there
  | down {here there : Location} {part : String} {rest : List String}
      (hpart : part ≠ "" ∧ part ≠ "." ∧ part ≠ "..") (hd : t.isDirectory here)
      (h : Leads t (here ++ [part]) rest there) : Leads t here (part :: rest) there

namespace Leads

variable {here there : Location} {ps qs : List String}

theorem isDirectory_start (h : Leads t here ps there) : t.isDirectory here = true := by
  induction h with
  | arrive hd => exact hd
  | stay _ _ ih => exact ih
  | up hd _ _ => exact hd
  | down _ hd _ _ => exact hd

theorem isDirectory_end (h : Leads t here ps there) : t.isDirectory there = true := by
  induction h with
  | arrive hd => exact hd
  | stay _ _ ih => exact ih
  | up _ _ ih => exact ih
  | down _ _ _ ih => exact ih

theorem append {mid : Location} (h : Leads t here ps mid) (h' : Leads t mid qs there) :
    Leads t here (ps ++ qs) there := by
  induction h with
  | arrive _ => exact h'
  | stay hpart _ ih => exact .stay hpart (ih h')
  | up hd _ ih => exact .up hd (ih h')
  | down hpart hd _ ih => exact .down hpart hd (ih h')

/-- A last part that leads nowhere may be left out. -/
theorem of_concat {part : String} (hpart : part = "" ∨ part = ".") :
    ∀ {ps : List String} {here : Location}, Leads t here (ps ++ [part]) there →
      Leads t here ps there
  | [], here, h => by
      cases h with
      | stay _ h => exact h
      | up _ _ => simp at hpart
      | down hne _ _ => exact (hpart.elim hne.1 hne.2.1).elim
  | _ :: ps, here, h => by
      cases h with
      | stay hp h => exact .stay hp (of_concat hpart h)
      | up hd h => exact .up hd (of_concat hpart h)
      | down hp hd h => exact .down hp hd (of_concat hpart h)

theorem trimEnd : ∀ {rs : List String}, Leads t here rs.reverse there →
    Leads t here (Path.trimEnd rs).reverse there
  | [], h => h
  | [_], h => h
  | p :: q :: rest, h => by
      rw [Path.trimEnd]
      split
      · next hp =>
          rw [List.reverse_cons] at h
          exact trimEnd (h.of_concat hp)
      · exact h

theorem trimmed (h : Leads t here ps there) : Leads t here (Path.trimmed ps) there :=
  trimEnd (by rwa [List.reverse_reverse])

/-- The same parts lead the same way where the same directories are. -/
theorem alike (h : Leads t here ps there) (hu : Alike t u) : Leads u here ps there := by
  have hsame := hu.isDirectory_eq
  induction h with
  | arrive hd => exact .arrive ((hsame _).trans hd)
  | stay hpart _ ih => exact .stay hpart ih
  | up hd _ ih => exact .up ((hsame _).trans hd) ih
  | down hpart hd _ ih => exact .down hpart ((hsame _).trans hd) ih

end Leads

/-- Where a path to a location ends. -/
def spot (t : FileTree) (l : Location) : Spot :=
  match t.node? l with
  | some _ => .taken l
  | none => .vacant l

/-- A path through directories to a name ends where the name stands, unless a part on the way
is too long. -/
theorem Leads.walk {here there : Location} {base : List String} {name : String}
    (h : Leads t here base there) (ht : t.NoLinks) (hname : Path.IsName name)
    (purpose : Purpose) :
    t.walk purpose here (base ++ [name]) = .done
      (if (base ++ [name]).any (maxName < ·.utf8ByteSize) then .error .nameTooLong
        else .ok (t.spot (there ++ [name]))) := by
  induction h with
  | @arrive here hd =>
      rw [List.nil_append, FileTree.walk]
      by_cases hlong : maxName < name.utf8ByteSize
      · simp [hd, hname.ne_empty, hname.ne_self, hname.ne_parent, hlong]
      · simp only [hd, hname.ne_empty, hname.ne_self, hname.ne_parent, hlong, spot]
        cases hnode : t.node? (here ++ [name]) with
        | none => simp [hlong]
        | some node =>
            cases node with
            | file content => simp [hlong, FileTree.walk]
            | directory => simp [hlong, FileTree.walk]
            | link target => exact absurd hnode (ht _ target)
  | @stay here there part rest hpart h ih =>
      have hshort : ¬maxName < part.utf8ByteSize := by
        rcases hpart with rfl | rfl <;> decide
      rw [List.cons_append, FileTree.walk, ih]
      simp [h.isDirectory_start, hpart, hshort]
  | @up here there rest hd h ih =>
      have hshort : ¬maxName < "..".utf8ByteSize := by decide
      rw [List.cons_append, FileTree.walk, ih]
      simp [hd, hshort]
  | @down here there part rest hpart hd h ih =>
      obtain ⟨hempty, hself, hparent⟩ := hpart
      rw [List.cons_append, FileTree.walk]
      by_cases hlong : maxName < part.utf8ByteSize
      · simp [hd, hempty, hself, hparent, hname.ne_empty, hlong]
      · have hnode := isDirectory_iff.mp h.isDirectory_start
        simp [hd, hempty, hself, hparent, hname.ne_empty, hlong, hnode, ih]

theorem isDirectory_of_walk {purpose : Purpose} {here : Location} {part : String}
    {rest : List String} {s : Spot}
    (h : t.walk purpose here (part :: rest) = .done (.ok s)) : t.isDirectory here = true := by
  by_contra hd
  rw [Bool.not_eq_true] at hd
  simp [FileTree.walk, hd] at h

/-- A walk that ends somewhere goes through directories, up to its last parts. -/
theorem leads_of_walk (ht : t.NoLinks) {qs : List String} :
    ∀ {ps : List String} {here : Location},
      t.walk .use here (ps ++ qs) = .done (.ok (.taken l)) → (qs ≠ [] ∨ t.isDirectory l) →
        ∃ there, Leads t here ps there ∧ t.walk .use there qs = .done (.ok (.taken l))
  | [], here, h, hqs => by
      refine ⟨here, .arrive ?_, h⟩
      cases qs with
      | nil =>
          obtain rfl : here = l := by simpa [FileTree.walk] using h
          exact hqs.resolve_left (by simp)
      | cons q qs => exact isDirectory_of_walk h
  | part :: ps, here, h, hqs => by
      have hd := isDirectory_of_walk h
      rw [List.cons_append, FileTree.walk] at h
      simp only [hd, Bool.not_true, Bool.false_eq_true, if_false] at h
      split at h
      · next hpart =>
          obtain ⟨there, hleads, hwalk⟩ := leads_of_walk ht h hqs
          exact ⟨there, .stay hpart hleads, hwalk⟩
      next hne =>
      split at h
      · next hpart =>
          subst hpart
          obtain ⟨there, hleads, hwalk⟩ := leads_of_walk ht h hqs
          exact ⟨there, .up hd hleads, hwalk⟩
      next hparent =>
      rw [if_neg (by simp)] at h
      split at h
      · cases h
      split at h
      · next target hnode => exact absurd hnode (ht _ target)
      · obtain ⟨there, hleads, hwalk⟩ := leads_of_walk ht h hqs
        exact ⟨there, .down ⟨(hne <| .inl ·), (hne <| .inr ·), hparent⟩ hd hleads, hwalk⟩
      · split at h <;> cases h

theorem walk_eq_done (ht : t.NoLinks) (purpose : Purpose) : ∀ (ps : List String)
    (here : Location), ∃ result, t.walk purpose here ps = .done result
  | [], here => ⟨_, rfl⟩
  | part :: rest, here => by
      have hrest := walk_eq_done ht purpose rest
      rw [FileTree.walk]
      split
      · exact ⟨_, rfl⟩
      split
      · exact hrest here
      split
      · exact hrest here.dropLast
      split
      · exact ⟨_, rfl⟩
      split
      · exact ⟨_, rfl⟩
      simp only
      split
      · next target hnode => exact absurd hnode (ht _ target)
      · exact hrest (here ++ [part])
      · split <;> exact ⟨_, rfl⟩

/-- Where there are no links, a path that leads somewhere is followed in one walk. -/
theorem walk_of_find (ht : t.NoLinks) {path : String} {s : Spot} (h : t.find path .use = .ok s) :
    t.walk .use (t.home.startOf path) (Path.parts path) = .done (.ok s) := by
  obtain ⟨result, hwalk⟩ := walk_eq_done ht .use (Path.parts path) (t.home.startOf path)
  rw [FileTree.find] at h
  split at h
  · cases h
  · simp only [maxLinks, FileTree.resolve, hwalk] at h
    rw [hwalk, h]

/-! ## Places that paths name -/

/-- Where following a base begins: at the root if its first part is empty. -/
def start (t : FileTree) (base : List String) : Location :=
  if base.head? = some "" then [] else t.home

theorem startOf_join {base : List String} {name : String} (hbase : Path.AreParts base)
    (hname : Path.IsName name) : t.home.startOf (Path.join (base ++ [name])) = t.start base := by
  rw [Location.startOf, Path.isAbsolute_join (hbase.concat hname), start]
  cases base with
  | nil => simp
  | cons part rest => simp

/-- The path leads through directories to `there`, and its last part is `name`. -/
inductive Names (t : FileTree) : String → Location → String → Prop where
  | intro {base : List String} {there : Location} {name : String} (hbase : Path.AreParts base)
      (hname : Path.IsName name) (hleads : Leads t (t.start base) base there) :
      Names t (Path.join (base ++ [name])) there name

namespace Names

variable {path name : String} {there : Location}

theorem alike (h : Names t path there name) (hu : Alike t u) : Names u path there name := by
  cases h with
  | intro hbase hname hleads =>
      refine .intro hbase hname ?_
      unfold start at hleads ⊢
      rw [hu.home_eq]
      exact hleads.alike hu

theorem find (h : Names t path there name) (ht : t.NoLinks) (purpose : Purpose) :
    t.find path purpose =
      match spotFault? path with
      | some fault => .error fault
      | none => .ok (t.spot (there ++ [name])) := by
  cases h with
  | intro hbase hname hleads =>
      unfold FileTree.find spotFault?
      cases pathFault? (Path.join (_ ++ [name])) with
      | some fault => rfl
      | none =>
          rw [Path.parts_join_concat hbase hname, startOf_join hbase hname]
          simp only [maxLinks, FileTree.resolve, hleads.walk ht hname]
          split <;> rfl

/-- A path that leads somewhere is not refused. -/
theorem spotFault?_of_find (h : Names t path there name) (ht : t.NoLinks) {purpose : Purpose}
    {s : Spot} (hfind : t.find path purpose = .ok s) : spotFault? path = none := by
  rw [h.find ht] at hfind
  cases hfault : spotFault? path with
  | none => rfl
  | some fault => simp [hfault] at hfind

theorem nodeAt (h : Names t path there name) (ht : t.NoLinks) (hfault : spotFault? path = none)
    (purpose : Purpose) :
    t.nodeAt path purpose =
      match t.node? (there ++ [name]) with
      | some node => .ok (there ++ [name], node)
      | none => .error .missing := by
  rw [FileTree.nodeAt, h.find ht, hfault]
  cases hnode : t.node? (there ++ [name]) <;> simp [spot, hnode]

/-- A file is read by its path. -/
theorem read (h : Names t path there name) (ht : t.NoLinks) (hfault : spotFault? path = none)
    {text : String} (hnode : t.node? (there ++ [name]) = some (.file text.toUTF8)) :
    t.read path = .ok text := by
  have hdecode : String.fromUTF8? text.toUTF8 = some text := dif_pos text.isValidUTF8
  simp only [FileTree.read, h.nodeAt ht hfault, hnode, hdecode]

theorem read_missing (h : Names t path there name) (ht : t.NoLinks)
    (hfault : spotFault? path = none) (hnode : t.node? (there ++ [name]) = none) :
    t.read path = .error .missing := by
  simp only [FileTree.read, h.nodeAt ht hfault, hnode]

theorem isDirectory_eq_false (h : Names t path there name) (ht : t.NoLinks)
    (hfault : spotFault? path = none) (hkind : t.kind? path ≠ some .directory) :
    t.isDirectory (there ++ [name]) = false := by
  rw [Bool.eq_false_iff, ne_eq, isDirectory_iff]
  intro hnode
  simp [FileTree.kind?, h.nodeAt ht hfault, hnode] at hkind

theorem fileSpot_eq (h : Names t path there name) (ht : t.NoLinks)
    (hfault : spotFault? path = none) :
    t.fileSpot path =
      if t.isDirectory (there ++ [name]) then .error .isDirectory else .ok (there ++ [name]) := by
  rw [FileTree.fileSpot, h.find ht, hfault]
  cases hnode : t.node? (there ++ [name]) with
  | none => simp [spot, hnode, isDirectory]
  | some node => simp [spot, hnode]

theorem fileSpot (h : Names t path there name) (ht : t.NoLinks) (hfault : spotFault? path = none)
    (hfree : t.isDirectory (there ++ [name]) = false) :
    t.fileSpot path = .ok (there ++ [name]) := by
  rw [h.fileSpot_eq ht hfault, hfree]
  rfl

theorem write (h : Names t path there name) (ht : t.NoLinks) (hfault : spotFault? path = none)
    (hfree : t.isDirectory (there ++ [name]) = false) (text : String) :
    t.write path text = .ok (t.change (there ++ [name]) (.write text)) := by
  rw [FileTree.write, h.fileSpot ht hfault hfree]
  rfl

theorem write_directory (h : Names t path there name) (ht : t.NoLinks)
    (hfault : spotFault? path = none) (hd : t.isDirectory (there ++ [name]) = true)
    (text : String) : t.write path text = .error .isDirectory := by
  rw [FileTree.write, h.fileSpot_eq ht hfault, hd]
  rfl

theorem remove (h : Names t path there name) (ht : t.NoLinks) (hfault : spotFault? path = none)
    {content : ByteArray} (hnode : t.node? (there ++ [name]) = some (.file content)) :
    t.remove path = .ok (t.erase (there ++ [name])) := by
  rw [FileTree.remove, h.nodeAt ht hfault, hnode]

/-- A file that is written again holds the new text only. -/
theorem write_again (h : Names t path there name) (ht : t.NoLinks)
    (hfault : spotFault? path = none) (hfree : t.isDirectory (there ++ [name]) = false)
    (text text' : String) :
    (t.change (there ++ [name]) (.write text)).write path text' =
      .ok (t.change (there ++ [name]) (.write text')) := by
  have hsame := alike_change ht (c := .write text) (.inr hfree)
  rw [(h.alike hsame).write hsame.noLinks hfault ((hsame.isDirectory_eq _).trans hfree)]
  simp only [change, put_put]

theorem remove_written (h : Names t path there name) (ht : t.NoLinks)
    (hfault : spotFault? path = none) (hfree : t.isDirectory (there ++ [name]) = false)
    (text : String) :
    (t.change (there ++ [name]) (.write text)).remove path =
      .ok (t.change (there ++ [name]) .erase) := by
  have hsame := alike_change ht (c := .write text) (.inr hfree)
  have hnode : (t.change (there ++ [name]) (.write text)).node? (there ++ [name]) =
      some (.file text.toUTF8) := node?_change_self (.inr hfree)
  rw [(h.alike hsame).remove hsame.noLinks hfault hnode]
  simp only [change, erase_put]

/-- What is read by a path depends on what stands at its place. -/
theorem read_congr (h : Names t path there name) (ht : t.NoLinks) (hu : Alike t u)
    (hnode : u.node? (there ++ [name]) = t.node? (there ++ [name])) :
    u.read path = t.read path := by
  have hfind : u.find path .use = t.find path .use := by
    rw [h.find ht, (h.alike hu).find hu.noLinks]
    simp [spot, hnode]
  have hnodeAt : u.nodeAt path .use = t.nodeAt path .use := by
    rw [FileTree.nodeAt, FileTree.nodeAt, hfind, h.find ht]
    cases spotFault? path with
    | some fault => rfl
    | none => cases hn : t.node? (there ++ [name]) <;> simp [spot, hn, hnode]
  rw [FileTree.read, FileTree.read, hnodeAt]

end Names

/-! ## Sources and their siblings -/

/-- Where a source is: its directory and its stem. -/
structure Site where
  directory : Location
  stem : String
deriving DecidableEq, Repr

namespace Site

/-- The place beside the source whose name has the same stem and another ending. -/
def beside (s : Site) (ending : String) : Location := s.directory ++ [s.stem ++ ending]

def source (s : Site) : Location := s.beside ".jack"

def output (s : Site) : Location := s.beside ".vm"

def listing (s : Site) : Location := s.beside "T.xml"

variable {s s' : Site}

theorem beside_inj {ending : String} (h : s.beside ending = s'.beside ending) : s = s' := by
  obtain ⟨directory, stem⟩ := s
  obtain ⟨directory', stem'⟩ := s'
  obtain ⟨rfl, hname⟩ := List.append_inj' h rfl
  have hchars := congrArg String.toList (List.singleton_inj.mp hname)
  rw [String.toList_append, String.toList_append, List.append_cancel_right_eq] at hchars
  obtain rfl : stem = stem' := String.toList_inj.mp hchars
  rfl

/-- Endings with different last characters make different places. -/
theorem beside_ne {ending ending' : String} (c d : Char)
    (hc : ending.toList.getLast? = some c) (hd : ending'.toList.getLast? = some d)
    (hne : c ≠ d) : s.beside ending ≠ s'.beside ending' := by
  intro h
  obtain ⟨-, hname⟩ := List.append_inj' h rfl
  have hchars := congrArg (·.toList.getLast?) (List.singleton_inj.mp hname)
  simp only [String.toList_append, List.getLast?_append, hc, hd, Option.some_or,
    Option.some.injEq] at hchars
  exact hne hchars

theorem source_ne_output : s.source ≠ s'.output :=
  beside_ne 'k' 'm' (by decide) (by decide) (by decide)

theorem source_ne_listing : s.source ≠ s'.listing :=
  beside_ne 'k' 'l' (by decide) (by decide) (by decide)

theorem output_ne_listing : s.output ≠ s'.listing :=
  beside_ne 'm' 'l' (by decide) (by decide) (by decide)

end Site

/-- The path names a source at the site. -/
structure SourceAt (t : FileTree) (path : String) (s : Site) : Prop where
  names : t.Names path s.directory (s.stem ++ ".jack")
  splits : Path.splitName (s.stem ++ ".jack") = (s.stem, some "jack")

namespace SourceAt

variable {path : String} {s : Site}

theorem alike (h : SourceAt t path s) (hu : Alike t u) : SourceAt u path s :=
  ⟨h.names.alike hu, h.splits⟩

theorem stem? (h : SourceAt t path s) : Path.stem? path = some s.stem := by
  obtain ⟨hnames, hsplits⟩ := h
  cases hnames with
  | intro hbase hname _ => simp [Path.stem?, Path.split?_join hbase hname, hsplits]

theorem output (h : SourceAt t path s) :
    t.Names (Path.output path) s.directory (s.stem ++ ".vm") := by
  obtain ⟨hnames, hsplits⟩ := h
  cases hnames with
  | intro hbase hname hleads =>
      rw [Path.output_join hbase hname (by rw [hsplits])]
      exact .intro hbase (hname.sibling (by decide) (by decide)) hleads

theorem listing (h : SourceAt t path s) :
    t.Names (Path.listing path) s.directory (s.stem ++ "T.xml") := by
  obtain ⟨hnames, hsplits⟩ := h
  cases hnames with
  | intro hbase hname hleads =>
      rw [Path.listing_join hbase hname (by rw [hsplits])]
      refine .intro ?_ (hname.sibling (by decide) (by decide)) ?_
      · exact fun p hp => hbase p ((Path.trimmed_prefix _).subset hp)
      · rw [start, Path.head?_trimmed]
        exact hleads.trimmed

theorem spotFault?_output (h : SourceAt t path s) (hfault : spotFault? path = none) :
    spotFault? (Path.output path) = none := by
  obtain ⟨hnames, hsplits⟩ := h
  cases hnames with
  | intro hbase hname hleads =>
      rw [Path.output_join hbase hname (by rw [hsplits])]
      refine spotFault?_of_sibling hbase hname (hname.sibling (by decide) (by decide))
        List.prefix_rfl ?_ ?_ hfault
      · rw [String.utf8ByteSize_append, String.utf8ByteSize_append]
        exact Nat.add_le_add_left (by decide) _
      · simp

theorem spotFault?_listing (h : SourceAt t path s) (hfault : spotFault? path = none) :
    spotFault? (Path.listing path) = none := by
  obtain ⟨hnames, hsplits⟩ := h
  cases hnames with
  | intro hbase hname hleads =>
      rw [Path.listing_join hbase hname (by rw [hsplits])]
      refine spotFault?_of_sibling hbase hname (hname.sibling (by decide) (by decide))
        (Path.trimmed_prefix _) ?_ ?_ hfault
      · rw [String.utf8ByteSize_append, String.utf8ByteSize_append]
        exact Nat.add_le_add_left (by decide) _
      · simp

end SourceAt

/-- Parts that lead nowhere lead nowhere. -/
theorem walk_blank : ∀ {trail : List String} {here : Location},
    (∀ part ∈ trail, part = "" ∨ part = ".") → t.walk .use here trail = .done (.ok (.taken l)) →
      here = l ∧ (trail = [] ∨ t.isDirectory l)
  | [], here, _, h => by simpa [FileTree.walk] using h
  | part :: rest, here, hblank, h => by
      have hd := isDirectory_of_walk h
      have hpart := hblank part List.mem_cons_self
      rw [FileTree.walk] at h
      simp only [hd, hpart, Bool.not_true, Bool.false_eq_true, if_false, if_true] at h
      obtain ⟨rfl, -⟩ := walk_blank (fun p hp => hblank p (List.mem_cons_of_mem _ hp)) h
      exact ⟨rfl, .inr hd⟩

theorem find_of_nodeAt {path : String} {purpose : Purpose} {node : Node}
    (h : t.nodeAt path purpose = .ok (l, node)) :
    t.find path purpose = .ok (.taken l) ∧ t.node? l = some node := by
  unfold FileTree.nodeAt at h
  cases hfind : t.find path purpose with
  | error fault => simp [hfind] at h
  | ok s =>
      cases s with
      | vacant there => simp [hfind] at h
      | taken there =>
          cases hnode : t.node? there with
          | none => simp [hfind, hnode] at h
          | some other =>
              simp only [hfind, hnode, Except.ok.injEq, Prod.mk.injEq] at h
              obtain ⟨rfl, rfl⟩ := h
              exact ⟨rfl, hnode⟩

theorem file_of_read {path text : String} (h : t.read path = .ok text) :
    ∃ l content, t.find path .use = .ok (.taken l) ∧ t.node? l = some (.file content) := by
  unfold FileTree.read at h
  split at h
  · cases h
  · next l content hnode => exact ⟨l, content, find_of_nodeAt hnode⟩
  · cases h

/-- A path that names a source and leads to a file leads to a site. -/
theorem sourceAt_of_file (ht : t.NoLinks) {path : String} {content : ByteArray}
    (hsource : Path.isSource path = true) (hfind : t.find path .use = .ok (.taken l))
    (hnode : t.node? l = some (.file content)) : ∃ site, t.SourceAt path site := by
  obtain ⟨base, stem, trail, hparts, hbase, hname, hsplits, hblank⟩ :=
    Path.parts_of_isSource hsource
  have hfile : t.isDirectory l = false := by simp [isDirectory, hnode]
  have hwalk := walk_of_find ht hfind
  rw [hparts] at hwalk
  cases trail with
  | cons part rest =>
      -- what follows the name would make it a directory's
      rw [List.append_cons] at hwalk
      obtain ⟨there, hleads, hlast⟩ := leads_of_walk ht hwalk (.inl (by simp))
      obtain ⟨rfl, -⟩ := walk_blank hblank hlast
      simp [hleads.isDirectory_end] at hfile
  | nil =>
      obtain ⟨there, hleads, -⟩ := leads_of_walk ht hwalk (.inl (by simp))
      obtain rfl : Path.join (base ++ [stem ++ ".jack"]) = path := by
        rw [← hparts, Path.join_parts]
      rw [startOf_join hbase hname] at hleads
      exact ⟨⟨there, stem⟩, .intro hbase hname hleads, hsplits⟩

end FileTree

end JackVm
