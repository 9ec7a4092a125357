import JackVm.Files.FileTree
import JackVm.Files.Session
import Mathlib.Algebra.GroupWithZero.Nat
import Mathlib.Data.List.Infix

/-!
# Paths of siblings

A source path is a base and a name. The path of the code compiled from it and that of its
token listing have the same base, up to parts at its end that lead nowhere, and a name with
the same stem (`output_join`, `listing_join`). Neither has a longer name or is longer than
the source path, so whatever a file system says against one of them, it says against the
source path, too (`spotFault?_of_sibling`).
-/

namespace JackVm

namespace Path

/-! ## Names and parts -/

/-- A name that an entry of a directory can have. -/
structure IsName (name : String) : Prop where
  ne_empty : name ≠ ""
  ne_self : name ≠ "."
  ne_parent : name ≠ ".."
  no_slash : '/' ∉ name.toList

instance : DecidablePred IsName := fun name =>
  decidable_of_iff (name ≠ "" ∧ name ≠ "." ∧ name ≠ ".." ∧ '/' ∉ name.toList)
    ⟨fun ⟨hempty, hself, hparent, hslash⟩ => ⟨hempty, hself, hparent, hslash⟩,
      fun h => ⟨h.ne_empty, h.ne_self, h.ne_parent, h.no_slash⟩⟩

/-- No part holds a slash. -/
def AreParts (ps : List String) : Prop := ∀ p ∈ ps, '/' ∉ p.toList

theorem slash_not_mem_splitOn : ∀ (cs : List Char), ∀ piece ∈ cs.splitOn '/', '/' ∉ piece
  | [], piece, h => by
      rw [List.splitOn_nil, List.mem_singleton] at h
      rw [h]
      exact List.not_mem_nil
  | c :: cs, piece, h => by
      rw [List.splitOn_cons_eq_if_modifyHead] at h
      have hrest := slash_not_mem_splitOn cs
      split at h
      · rcases List.mem_cons.mp h with rfl | h
        · exact List.not_mem_nil
        · exact hrest piece h
      · next hc =>
          obtain ⟨first, more, hsplit⟩ := List.exists_cons_of_ne_nil (List.splitOn_ne_nil '/' cs)
          rw [hsplit] at h hrest
          rcases List.mem_cons.mp h with rfl | h
          · have hfirst := hrest first List.mem_cons_self
            have hne : '/' ≠ c := fun heq => hc (beq_iff_eq.mpr heq.symm)
            simpa [hne] using hfirst
          · exact hrest piece (List.mem_cons_of_mem _ h)

theorem areParts_parts (path : String) : AreParts (parts path) := by
  intro p hp
  obtain ⟨cs, hcs, rfl⟩ := List.mem_map.mp hp
  simpa using slash_not_mem_splitOn path.toList cs hcs

theorem AreParts.concat {base : List String} {name : String} (hbase : AreParts base)
    (hname : IsName name) : AreParts (base ++ [name]) := by
  intro p hp
  rcases List.mem_append.mp hp with hp | hp
  · exact hbase p hp
  · rw [List.mem_singleton.mp hp]
    exact hname.no_slash

/-- A path begins at the root when its first part is empty and not its last. -/
theorem isAbsolute_join : ∀ {ps : List String}, AreParts ps →
    isAbsolute (join ps) = (ps.head? == some "" && decide (2 ≤ ps.length))
  | [], _ => by decide
  | [part], hps => by
      have hhead : part.toList.head? ≠ some '/' := fun h =>
        hps part List.mem_cons_self (List.mem_of_head? h)
      simpa [isAbsolute, join] using hhead
  | part :: q :: rest, hps => by
      have hpart : '/' ∉ part.toList := hps part List.mem_cons_self
      have hjoin : join (part :: q :: rest) = part ++ "/" ++ join (q :: rest) :=
        String.intercalate_cons_of_ne_nil (by simp)
      rw [isAbsolute, hjoin]
      cases hcs : part.toList with
      | nil =>
          obtain rfl : part = "" := by simpa using hcs
          simp
      | cons c cs =>
          have hc : c ≠ '/' := by
            rintro rfl
            exact hpart (by simp [hcs])
          have hempty : part ≠ "" := by
            rintro rfl
            simp at hcs
          simp [hcs, hc, hempty]

section
variable {base : List String} {name : String}

theorem parts_join_concat (hbase : AreParts base) (hname : IsName name) :
    parts (join (base ++ [name])) = base ++ [name] :=
  parts_join (hbase.concat hname) (by simp)

theorem join_cons_concat (part : String) (base : List String) (name : String) :
    join (part :: base ++ [name]) = part ++ "/" ++ join (base ++ [name]) :=
  String.intercalate_cons_of_ne_nil (by simp)

theorem mem_join_concat {c : Char} (hc : c ≠ '/') :
    c ∈ (join (base ++ [name])).toList ↔ (∃ p ∈ base, c ∈ p.toList) ∨ c ∈ name.toList := by
  induction base with
  | nil => simp [join]
  | cons part base ih =>
      rw [join_cons_concat, String.toList_append, String.toList_append, List.mem_append,
        List.mem_append, ih]
      simp [hc, or_assoc]

theorem utf8ByteSize_join_concat :
    (join (base ++ [name])).utf8ByteSize =
      (base.map (·.utf8ByteSize + 1)).sum + name.utf8ByteSize := by
  induction base with
  | nil => simp [join]
  | cons part base ih =>
      have hslash : "/".utf8ByteSize = 1 := rfl
      rw [join_cons_concat, String.utf8ByteSize_append, String.utf8ByteSize_append, ih, hslash,
        List.map_cons, List.sum_cons]
      omega

/-- The file name of a path is its last part. -/
theorem split?_join (hbase : AreParts base) (hname : IsName name) :
    split? (join (base ++ [name])) = some (base, name) := by
  have htrim : trimEnd (base ++ [name]).reverse = name :: base.reverse := by
    rw [List.reverse_concat]
    cases base.reverse with
    | nil => rfl
    | cons part rest => simp [trimEnd, hname.ne_empty, hname.ne_self]
  rw [split?, parts_join_concat hbase hname, htrim]
  simp [hname.ne_empty, hname.ne_self, hname.ne_parent]

end

/-! ## Stems -/

/-- A file name with an extension is its stem, a dot and the extension. -/
theorem splitName_eq {name stem extension : String} (h : splitName name = (stem, some extension)) :
    name = stem ++ "." ++ extension ∧ stem ≠ "" := by
  simp only [splitName] at h
  split at h
  · next c rest hdrop =>
      obtain ⟨rfl, hext⟩ := Prod.mk.inj h
      obtain rfl := Option.some.inj hext
      have hsplit := List.takeWhile_append_dropWhile (p := (· ≠ '.')) (l := name.toList.reverse)
      rw [hdrop] at hsplit
      have hname : name.toList = (c :: rest).reverse ++ '.' ::
          (name.toList.reverse.takeWhile (· ≠ '.')).reverse := by
        have hreverse := congrArg List.reverse hsplit
        simpa using hreverse.symm
      refine ⟨?_, by simp⟩
      apply String.toList_inj.mp
      simpa using hname
  · cases h

/-- A stem that makes a name with an extension makes one with any other. -/
theorem IsName.sibling {stem extension other : String} (h : IsName (stem ++ extension))
    (hother : '/' ∉ other.toList) (hlong : 2 < other.length) : IsName (stem ++ other) := by
  have hlength : (stem ++ other).length = stem.length + other.length := String.length_append _ _
  refine ⟨?_, ?_, ?_, ?_⟩
  · intro heq
    rw [heq] at hlength
    simp at hlength
    omega
  · intro heq
    rw [heq] at hlength
    have hdot : ".".length = 1 := rfl
    omega
  · intro heq
    rw [heq] at hlength
    have hdots : "..".length = 2 := rfl
    omega
  · have hstem : '/' ∉ stem.toList := fun hmem => h.no_slash (by simp [hmem])
    simp [hstem, hother]

/-! ## What a source is compiled to -/

section
variable {base : List String} {name stem : String}

/-- The base without the parts at its end that lead nowhere. -/
def trimmed (base : List String) : List String := (trimEnd base.reverse).reverse

/-- What is dropped from the end of a path leads nowhere. -/
theorem trimEnd_spec : ∀ ps : List String, ∃ dropped,
    ps = dropped ++ trimEnd ps ∧ ∀ part ∈ dropped, part = "" ∨ part = "."
  | [] => ⟨[], rfl, by simp⟩
  | [p] => ⟨[], rfl, by simp⟩
  | p :: q :: rest => by
      rw [trimEnd]
      split
      · next hp =>
          obtain ⟨dropped, heq, hblank⟩ := trimEnd_spec (q :: rest)
          refine ⟨p :: dropped, by rw [List.cons_append, ← heq], ?_⟩
          exact List.forall_mem_cons.mpr ⟨hp, hblank⟩
      · exact ⟨[], rfl, by simp⟩

theorem trimmed_prefix (base : List String) : trimmed base <+: base := by
  obtain ⟨dropped, heq, -⟩ := trimEnd_spec base.reverse
  rw [trimmed, ← List.reverse_suffix, List.reverse_reverse]
  exact ⟨dropped, heq.symm⟩

theorem getLast?_trimEnd : ∀ ps : List String, (trimEnd ps).getLast? = ps.getLast?
  | [] => rfl
  | [_] => rfl
  | p :: q :: rest => by
      rw [trimEnd]
      split
      · rw [getLast?_trimEnd (q :: rest), List.getLast?_cons_cons]
      · rfl

theorem head?_trimmed (base : List String) : (trimmed base).head? = base.head? := by
  rw [trimmed, List.head?_reverse, getLast?_trimEnd, List.getLast?_reverse]

theorem output_join (hbase : AreParts base) (hname : IsName name)
    (hstem : (splitName name).1 = stem) :
    output (join (base ++ [name])) = join (base ++ [stem ++ ".vm"]) := by
  simp [output, split?_join hbase hname, hstem]

theorem listing_join (hbase : AreParts base) (hname : IsName name)
    (hstem : (splitName name).1 = stem) :
    listing (join (base ++ [name])) = join (trimmed base ++ [stem ++ "T.xml"]) := by
  simp [listing, split?_join hbase hname, hstem, trimmed]

end

/-- A source path has a name that ends in `.jack`, and nothing after it leads further. -/
theorem parts_of_isSource {path : String} (h : isSource path = true) :
    ∃ base stem trail, parts path = base ++ (stem ++ ".jack") :: trail ∧ AreParts base ∧
      IsName (stem ++ ".jack") ∧ splitName (stem ++ ".jack") = (stem, some "jack") ∧
      ∀ part ∈ trail, part = "" ∨ part = "." := by
  obtain ⟨dropped, hparts, hblank⟩ := trimEnd_spec (parts path).reverse
  simp only [isSource, extension?, split?] at h
  cases htrim : trimEnd (parts path).reverse with
  | nil => simp [htrim] at h
  | cons name before =>
      by_cases hname : name = "" ∨ name = "." ∨ name = ".."
      · simp [htrim, hname] at h
      · simp only [htrim, hname, if_false, Option.bind_some] at h
        obtain ⟨stem, hsplit⟩ : ∃ stem, splitName name = (stem, some "jack") :=
          ⟨(splitName name).1, by rw [← of_decide_eq_true h]⟩
        have hstem : name = stem ++ ".jack" := by
          rw [(splitName_eq hsplit).1, String.append_assoc]
          rfl
        have heq : parts path = before.reverse ++ (stem ++ ".jack") :: dropped.reverse := by
          have hreverse := congrArg List.reverse hparts
          rw [htrim, hstem] at hreverse
          simpa using hreverse
        have hall := areParts_parts path
        rw [heq] at hall
        rw [hstem] at hname hsplit
        simp only [not_or] at hname
        refine ⟨before.reverse, stem, dropped.reverse, heq, ?_, ?_, hsplit, ?_⟩
        · exact fun part hpart => hall part (List.mem_append_left _ hpart)
        · exact ⟨hname.1, hname.2.1, hname.2.2, hall _ (by simp)⟩
        · exact fun part hpart => hblank part (List.mem_reverse.mp hpart)

/-- A name that is a source path has a stem. -/
theorem stem_of_isSource {name : String} (hname : IsName name) (h : isSource name = true) :
    ∃ stem, name = stem ++ ".jack" ∧ splitName name = (stem, some "jack") := by
  obtain ⟨base, stem, trail, hparts, -, -, hsplits, -⟩ := parts_of_isSource h
  have hself : parts name = [name] := by
    have hjoin : join [name] = name := by simp [join]
    rw [← hjoin, parts_join (by simpa using hname.no_slash) (by simp), hjoin]
  rw [hself, List.singleton_eq_append_iff] at hparts
  obtain ⟨-, hcons⟩ | ⟨-, hnil⟩ := hparts
  · obtain ⟨rfl, -⟩ := List.cons.inj hcons
    exact ⟨stem, rfl, hsplits⟩
  · cases hnil

/-! ## Paths below a directory -/

/-- The parts without an empty one at the end. -/
def unslashed (ps : List String) : List String :=
  if ps.getLast? = some "" then ps.dropLast else ps

theorem below_eq (directory : String) (names : List String) :
    below directory names = join (unslashed (parts directory) ++ names) := rfl

theorem unslashed_prefix (ps : List String) : unslashed ps <+: ps := by
  unfold unslashed
  split
  · exact List.dropLast_prefix ps
  · exact List.prefix_rfl

theorem areParts_unslashed (path : String) : AreParts (unslashed (parts path)) := by
  have hbegins := unslashed_prefix (parts path)
  intro part hpart
  exact areParts_parts path part (hbegins.subset hpart)

theorem areParts_below {path : String} {names : List String}
    (hnames : ∀ name ∈ names, IsName name) :
    AreParts (unslashed (parts path) ++ names) := by
  intro part hpart
  rcases List.mem_append.mp hpart with hpart | hpart
  · exact areParts_unslashed path part hpart
  · exact (hnames part hpart).no_slash

end Path

/-! ## Paths that a file system refuses -/

/-- Why a path is refused whatever there is in the file system: as a whole, or for a name
that is too long. -/
def spotFault? (path : String) : Option FileFault :=
  (pathFault? path).or <|
    if (Path.parts path).any (maxName < ·.utf8ByteSize) then some .nameTooLong else none

theorem pathFault?_eq_none_iff {path : String} : pathFault? path = none ↔
    '\x00' ∉ path.toList ∧ path ≠ "" ∧ path.utf8ByteSize ≤ maxPath := by
  unfold pathFault?
  split
  · next h => simp_all
  split
  · next h => simp [h]
  split
  · next h => simp [Nat.not_le.mpr h]
  · next h => simp_all

theorem spotFault?_eq_none_iff {path : String} : spotFault? path = none ↔
    '\x00' ∉ path.toList ∧ path ≠ "" ∧ path.utf8ByteSize ≤ maxPath ∧
      ∀ part ∈ Path.parts path, part.utf8ByteSize ≤ maxName := by
  rw [spotFault?, Option.or_eq_none_iff, pathFault?_eq_none_iff]
  simp [and_assoc]

/-- A path is not refused when its base is the beginning of one that is not, and its name is
no longer than that one's. -/
theorem spotFault?_of_sibling {base base' : List String} {name name' : String}
    (hbase : Path.AreParts base) (hname : Path.IsName name) (hname' : Path.IsName name')
    (hbegins : base' <+: base) (hsize : name'.utf8ByteSize ≤ name.utf8ByteSize)
    (hnul : '\x00' ∈ name'.toList → '\x00' ∈ name.toList)
    (h : spotFault? (Path.join (base ++ [name])) = none) :
    spotFault? (Path.join (base' ++ [name'])) = none := by
  have hbase' : Path.AreParts base' := fun p hp => hbase p (hbegins.subset hp)
  rw [spotFault?_eq_none_iff] at h ⊢
  obtain ⟨hchars, -, hpath, hparts⟩ := h
  rw [Path.mem_join_concat (by decide)] at hchars
  rw [Path.utf8ByteSize_join_concat] at hpath
  rw [Path.parts_join_concat hbase hname] at hparts
  refine ⟨?_, ?_, ?_, ?_⟩
  · rw [Path.mem_join_concat (by decide)]
    rintro (⟨p, hp, hmem⟩ | hmem)
    · exact hchars (.inl ⟨p, hbegins.subset hp, hmem⟩)
    · exact hchars (.inr (hnul hmem))
  · intro hempty
    have hzero := congrArg String.utf8ByteSize hempty
    rw [Path.utf8ByteSize_join_concat, String.utf8ByteSize_empty] at hzero
    have hname : name'.utf8ByteSize ≠ 0 := mt String.utf8ByteSize_eq_zero_iff.mp hname'.ne_empty
    omega
  · rw [Path.utf8ByteSize_join_concat]
    have hsum : (base'.map (·.utf8ByteSize + 1)).sum ≤ (base.map (·.utf8ByteSize + 1)).sum := by
      obtain ⟨rest, rfl⟩ := hbegins
      simp
    omega
  · rw [Path.parts_join_concat hbase' hname']
    intro part hpart
    rcases List.mem_append.mp hpart with hpart | hpart
    · exact hparts part (List.mem_append_left _ (hbegins.subset hpart))
    · rw [List.mem_singleton.mp hpart]
      exact hsize.trans (hparts name (by simp))

end JackVm
