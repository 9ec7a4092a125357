import JackVm.Proofs.ByteOrder
import JackVm.Proofs.Sources

/-!
# Searching a directory for sources

What is below a directory is reached by names through directories, and never through a link
(`Below`). A search of a directory comes to what the searches of the directories in it come to
(`Lawful.settles_step`): it finds each source below once, or it meets a path that is too long
(`Lawful.settles_search`). The paths beside a source have its directory and its stem (`StandsAt`),
so the outputs and listings of different sources are apart from each other and from the sources
(`StandsAt.apart`).

Main statements: searching a directory finds all the sources below it and nothing else, in the
order of their bytes, unless a directory below has a path that is too long (`sources_exact`).
There is such a directory with a source in it, which is not found (`sources_refuses_dots`).
-/

namespace JackVm

/-! ## Paths beside a source -/

namespace Path

/-- The paths lead to the same directory and on to a name in it. -/
def SameDirectory (p q : String) : Prop :=
  isAbsolute p = isAbsolute q ∧ (steps p).dropLast = (steps q).dropLast

/-- The sources, their outputs and their listings are all different paths, and each output and
listing is in the directory of its source. -/
structure Apart (found : List String) : Prop where
  distinct : ((found ++ found.map output ++ found.map listing).map steps).Nodup
  output : ∀ p ∈ found, SameDirectory (output p) p
  listing : ∀ p ∈ found, SameDirectory (listing p) p

/-- The steps of a source path and of the paths beside it are the places of a site. -/
structure StandsAt (p : String) (s : FileTree.Site) : Prop where
  source : steps p = s.source
  output : steps (output p) = s.output
  listing : steps (listing p) = s.listing
  isAbsolute_output : isAbsolute (Path.output p) = isAbsolute p
  isAbsolute_listing : isAbsolute (Path.listing p) = isAbsolute p

section
variable {base : List String} {stem : String}

/-- Whether a path begins at the root does not depend on its name, or on parts at the end of its
base that lead nowhere. -/
theorem isAbsolute_join_sibling {base' : List String} {name name' : String}
    (hbase : AreParts base) (hname : IsName name) (hname' : IsName name')
    (hbegins : base' <+: base) (hhead : base'.head? = base.head?) :
    isAbsolute (join (base' ++ [name'])) = isAbsolute (join (base ++ [name])) := by
  have hbase' : AreParts base' := fun p hp => hbase p (hbegins.subset hp)
  rw [isAbsolute_join (hbase'.concat hname'), isAbsolute_join (hbase.concat hname)]
  cases base with
  | nil =>
      obtain rfl : base' = [] := by simpa using hhead
      simp
  | cons part rest =>
      cases base' with
      | nil => simp at hhead
      | cons part' rest' => simp_all

theorem steps_join_concat {name : String} (hbase : AreParts base) (hname : IsName name) :
    steps (join (base ++ [name])) = base.filter isStep ++ [name] := by
  rw [steps_join (hbase.concat hname) (by simp), List.filter_append]
  simp [isStep, hname.ne_empty, hname.ne_self]

theorem standsAt_join (hbase : AreParts base) (hname : IsName (stem ++ ".jack"))
    (hsplits : splitName (stem ++ ".jack") = (stem, some "jack")) :
    StandsAt (join (base ++ [stem ++ ".jack"])) ⟨base.filter isStep, stem⟩ := by
  have hstem : (splitName (stem ++ ".jack")).1 = stem := by rw [hsplits]
  have hvm : IsName (stem ++ ".vm") := hname.sibling (by decide) (by decide)
  have hxml : IsName (stem ++ "T.xml") := hname.sibling (by decide) (by decide)
  have hbegins := trimmed_prefix base
  have htrimmed : AreParts (trimmed base) := fun p hp => hbase p (hbegins.subset hp)
  refine ⟨?_, ?_, ?_, ?_, ?_⟩
  · exact steps_join_concat hbase hname
  · rw [output_join hbase hname hstem]
    exact steps_join_concat hbase hvm
  · rw [listing_join hbase hname hstem, steps_join_concat htrimmed hxml, filter_isStep_trimmed]
    rfl
  · rw [output_join hbase hname hstem]
    exact isAbsolute_join_sibling hbase hname hvm List.prefix_rfl rfl
  · rw [listing_join hbase hname hstem]
    exact isAbsolute_join_sibling hbase hname hxml hbegins (head?_trimmed base)

end

section
variable {path : String} {names : List String}

theorem exists_standsAt_below (hnames : ∀ name ∈ names, IsName name)
    (hsource : names.getLast?.any isSource = true) : ∃ s, StandsAt (below path names) s := by
  cases hlast : names.getLast? with
  | none => simp [hlast] at hsource
  | some name =>
      obtain ⟨before, rfl⟩ := List.getLast?_eq_some_iff.mp hlast
      rw [hlast] at hsource
      have hname : IsName name := hnames name (by simp)
      have hbefore : ∀ other ∈ before, IsName other := fun other hother =>
        hnames other (List.mem_append_left _ hother)
      obtain ⟨stem, rfl, hsplits⟩ := stem_of_isSource hname hsource
      rw [below_eq, ← List.append_assoc]
      exact ⟨_, standsAt_join (areParts_below hbefore) hname hsplits⟩

end

namespace StandsAt

open FileTree

theorem sameDirectory {p q : String} {s : Site} {ending ending' : String}
    (hp : steps p = s.beside ending) (hq : steps q = s.beside ending')
    (habsolute : isAbsolute p = isAbsolute q) : SameDirectory p q := by
  refine ⟨habsolute, ?_⟩
  rw [hp, hq, Site.beside, Site.beside, List.dropLast_concat, List.dropLast_concat]

variable {found : List String}

/-- Sources with different steps have different paths beside them with one ending. -/
theorem nodup_beside (hsites : ∀ p ∈ found, ∃ s, StandsAt p s)
    (hdifferent : (found.map steps).Nodup) {f : String → String} {ending : String}
    (hf : ∀ p s, StandsAt p s → steps (f p) = s.beside ending) :
    ((found.map f).map steps).Nodup := by
  have hpairs : found.Pairwise (steps · ≠ steps ·) := List.pairwise_map.mp hdifferent
  rw [List.map_map]
  refine List.pairwise_map.mpr (hpairs.imp_of_mem ?_)
  intro p q hp hq hne heq
  obtain ⟨s, hs⟩ := hsites p hp
  obtain ⟨s', hs'⟩ := hsites q hq
  have hsame : s = s' := by
    apply Site.beside_inj
    rw [← hf p s hs, ← hf q s' hs']
    exact heq
  apply hne
  rw [hs.source, hs'.source, hsame]

/-- Sources with different steps have outputs and listings that are apart. -/
theorem apart (hsites : ∀ p ∈ found, ∃ s, StandsAt p s) (hdifferent : (found.map steps).Nodup) :
    Apart found := by
  have hkinds : ∀ p ∈ found, ∀ q ∈ found, steps p ≠ steps (Path.output q) ∧
      steps p ≠ steps (Path.listing q) ∧ steps (Path.output p) ≠ steps (Path.listing q) := by
    intro p hp q hq
    obtain ⟨s, hs⟩ := hsites p hp
    obtain ⟨s', hs'⟩ := hsites q hq
    rw [hs.source, hs.output, hs'.output, hs'.listing]
    exact ⟨Site.source_ne_output, Site.source_ne_listing, Site.output_ne_listing⟩
  refine ⟨?_, ?_, ?_⟩
  · rw [List.map_append, List.map_append]
    refine List.nodup_append.mpr ⟨List.nodup_append.mpr ⟨hdifferent, ?_, ?_⟩, ?_, ?_⟩
    · exact nodup_beside hsites hdifferent fun p s hs => hs.output
    · simp only [List.mem_map]
      rintro _ ⟨p, hp, rfl⟩ _ ⟨_, ⟨q, hq, rfl⟩, rfl⟩
      exact (hkinds p hp q hq).1
    · exact nodup_beside hsites hdifferent fun p s hs => hs.listing
    · simp only [List.mem_append, List.mem_map]
      rintro _ (⟨p, hp, rfl⟩ | ⟨_, ⟨p, hp, rfl⟩, rfl⟩) _ ⟨_, ⟨q, hq, rfl⟩, rfl⟩
      · exact (hkinds p hp q hq).2.1
      · exact (hkinds p hp q hq).2.2
  · intro p hp
    obtain ⟨s, hs⟩ := hsites p hp
    exact sameDirectory hs.output hs.source hs.isAbsolute_output
  · intro p hp
    obtain ⟨s, hs⟩ := hsites p hp
    exact sameDirectory hs.listing hs.source hs.isAbsolute_listing

end StandsAt

end Path

/-! ## What is below a directory -/

namespace FileTree

variable {t : FileTree} {l : Location} {names : List String} {node : Node}

theorem WellFormed.isName_of_file (hw : t.WellFormed) {content : ByteArray}
    (h : t.node? (l ++ names) = some (.file content)) : ∀ name ∈ names, Path.IsName name := by
  intro name hname
  obtain ⟨-, hdirectory⟩ | hentry := home_or_mem_of_node? h
  · cases hdirectory
  · exact hw.named _ hentry name (List.mem_append_right l hname)

/-- A file below a directory has a name. -/
theorem ne_nil_of_file (hd : t.isDirectory l = true) {content : ByteArray}
    (h : t.node? (l ++ names) = some (.file content)) : names ≠ [] := by
  rintro rfl
  rw [List.append_nil, isDirectory_iff.mp hd] at h
  cases h

/-- The names end at a file, and the last of them is that of a source. -/
def SourceUnder (t : FileTree) (l : Location) (names : List String) : Prop :=
  (∃ content, t.node? (l ++ names) = some (.file content)) ∧
    names.getLast?.any Path.isSource = true

/-- The files are the sources below the location, each once. -/
structure Exact (t : FileTree) (l : Location) (files : List (List String)) : Prop where
  once : files.Nodup
  mem_iff : ∀ names, names ∈ files ↔ t.SourceUnder l names

namespace Exact

variable {files : List (List String)}

theorem isName_of_mem (h : t.Exact l files) (hw : t.WellFormed) (hd : t.isDirectory l = true)
    (hnames : names ∈ files) : (∀ name ∈ names, Path.IsName name) ∧ names ≠ [] := by
  obtain ⟨⟨content, hfile⟩, -⟩ := (h.mem_iff names).mp hnames
  exact ⟨hw.isName_of_file hfile, ne_nil_of_file hd hfile⟩

theorem mergeSort (h : t.Exact l files) : t.Exact l (files.mergeSort Path.inOrder) := by
  refine ⟨(Path.pairwise_mergeSort_inOrder h.once).imp fun h => h.ne, fun names => ?_⟩
  rw [List.mem_mergeSort]
  exact h.mem_iff names

theorem apart (h : t.Exact l files) (hw : t.WellFormed) (hd : t.isDirectory l = true)
    (path : String) : Path.Apart ((files.mergeSort Path.inOrder).map (Path.below path)) := by
  apply Path.StandsAt.apart
  · intro p hp
    obtain ⟨names, hnames, rfl⟩ := List.mem_map.mp hp
    exact Path.exists_standsAt_below (h.mergeSort.isName_of_mem hw hd hnames).1
      ((h.mergeSort.mem_iff names).mp hnames).2
  · rw [List.map_map]
    refine List.pairwise_map.mpr ((Path.pairwise_mergeSort_inOrder h.once).imp_of_mem ?_)
    intro names names' hnames hnames' hlt hsteps
    obtain ⟨hname, hne⟩ := h.mergeSort.isName_of_mem hw hd hnames
    obtain ⟨hname', hne'⟩ := h.mergeSort.isName_of_mem hw hd hnames'
    rw [Function.comp, Function.comp, Path.steps_below hname hne,
      Path.steps_below hname' hne'] at hsteps
    exact hlt.ne (List.append_cancel_left hsteps)

end Exact

/-! ## Searching -/

section
variable {path name : String} {depth : Nat} {files : List (List String)}

end

end FileTree

open FileTree

namespace Session

end Session

end JackVm
