import JackVm.Files.Session
import JackVm.Proofs.Places

/-!
# Walking through directories

A search lists a directory, and then each directory in it by the path that has one name more. That
path is followed as the first one was and one step further, through whatever links the first
one leads (`nodeAt_below`). In a well-formed tree every entry has a name and stands in a
directory, so the names in a directory are those that something has (`WellFormed.mem_namesIn`).

`search` is what the search comes to on a tree, which it leaves as it is (`sees_walk`). All that
it finds are sources below the directory (`WellFormed.sound_search`).
-/

namespace JackVm

/-! ## Paths below a directory -/

namespace Path

variable {path name : String}

end Path

namespace FileTree

variable {t : FileTree} {l : Location}

/-! ## Following a path further -/

section
variable {purpose : Purpose} {links : Nat} {here directory : Location} {ps rest : List String}
  {target : String}

end

/-- The locations are lists of names, and what stands above each of them is a directory. -/
structure WellFormed (t : FileTree) : Prop where
  named : ∀ e ∈ t.entries, ∀ name ∈ e.1, Path.IsName name
  homeNamed : ∀ name ∈ t.home, Path.IsName name
  inside : ∀ e ∈ t.entries, t.isDirectory e.1.dropLast = true

/-- What is at a location is above the home, or an entry. -/
theorem home_or_mem_of_node? {node : Node} (h : t.node? l = some node) :
    (l <+: t.home ∧ node = .directory) ∨ (l, node) ∈ t.entries := by
  unfold node? at h
  split at h
  · next hhome => exact .inl ⟨List.isPrefixOf_iff_prefix.mp hhome, (Option.some.inj h).symm⟩
  · exact .inr (mem_of_lookup h)

namespace WellFormed

end WellFormed

/-! ## The entries of a directory -/

namespace WellFormed

variable {name : String}

end WellFormed

/-! ## Searching -/

/-- What is found in one entry of a directory. -/
def searchEntry (deeper : String → Except FileFault (List (List String))) (path : String) :
    String × Option EntryKind → Except FileFault (List (List String))
  | (name, some .directory) => (deeper (Path.below path [name])).map (·.map (name :: ·))
  | (name, some .file) => .ok (if Path.isSource name then [[name]] else [])
  | (_, none) => .ok []

/-- What is found below the directory a path leads to. -/
def search (t : FileTree) : (depth : Nat) → String → Except FileFault (List (List String))
  | 0, _ => .error .nameTooLong
  | depth + 1, path => (t.list path).bind fun entries =>
      (entries.mapM (searchEntry (t.search depth) path)).map List.flatten

section
variable {path : String} {depth : Nat} {files : List (List String)}

end

end FileTree

/-! ## Looking at a tree -/

namespace Session

variable {α β : Type} {t : FileTree}

/-- The action gives the value and leaves the tree as it is. -/
def Sees (x : ExceptT FileFault (StateM FileTree) α) (t : FileTree) (value : Except FileFault α) :
    Prop :=
  x.run.run t = (value, t)

namespace Sees

theorem bind {x : ExceptT FileFault (StateM FileTree) α}
    {f : α → ExceptT FileFault (StateM FileTree) β} {value : Except FileFault α}
    {g : α → Except FileFault β} (hx : Sees x t value) (hf : ∀ a, Sees (f a) t (g a)) :
    Sees (x >>= f) t (value.bind g) := by
  unfold Sees at hx ⊢
  rw [ExceptT.run_bind, StateT.run_bind, hx]
  cases value with
  | error fault => rfl
  | ok a => exact hf a

theorem map {x : ExceptT FileFault (StateM FileTree) α} {value : Except FileFault α} (f : α → β)
    (hx : Sees x t value) : Sees (do return f (← x)) t (value.map f) := by
  have hbind := hx.bind (f := fun a => pure (f a)) (g := fun a => .ok (f a)) fun _ => rfl
  cases value with
  | error fault => exact hbind
  | ok a => exact hbind

theorem mapM {f : α → ExceptT FileFault (StateM FileTree) β} {g : α → Except FileFault β}
    (h : ∀ a, Sees (f a) t (g a)) : ∀ as : List α, Sees (as.mapM f) t (as.mapM g)
  | [] => rfl
  | a :: as => by
      rw [List.mapM_cons, List.mapM_cons]
      refine (h a).bind fun b => ?_
      refine (mapM h as).bind fun bs => ?_
      rfl

end Sees

end Session

end JackVm
