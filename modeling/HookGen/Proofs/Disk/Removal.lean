import HookGen.Proofs.Disk.Walk

/-!
Sequences of removals. Files are taken from a disk as they are, directories only when they are empty.
-/

namespace HookGen.Disk

inductive Removal
  | file (place : Place)
  | directory (place : Place)

def Removal.place : Removal → Place
  | .file place => place
  | .directory place => place

def Removal.file? : Removal → Option Place
  | .file place => some place
  | .directory _ => none

-- One removal after the other leads from one disk to another.
inductive Removes : Disk → List Removal → Disk → Prop
  | nothing (disk : Disk) : Removes disk [] disk
  | file {disk last : Disk} {place : Place} {content : Bytes} {rest : List Removal}
      (there : disk.entry? place = some (.file content))
      (tail : Removes (disk.erase place) rest last) : Removes disk (.file place :: rest) last
  | directory {disk last : Disk} {place : Place} {rest : List Removal} (below : place ≠ [])
      (there : disk.entry? place = some .directory)
      (empty : ∀ name, disk.entry? (place ++ [name]) = none)
      (tail : Removes (disk.erase place) rest last) : Removes disk (.directory place :: rest) last

variable {disk last : Disk} {place : Place}

theorem ne_nil_of_file {content : Bytes} (h : disk.entry? place = some (.file content)) :
    place ≠ [] := by
  rintro rfl
  simp at h

-- There is nothing in a file.
theorem IsTree.none_of_file (tree : disk.IsTree) {content : Bytes}
    (h : disk.entry? place = some (.file content)) (name : Text) :
    disk.entry? (place ++ [name]) = none := by
  by_contra hsome
  have hdirectory := tree.parent place name (Option.isSome_iff_ne_none.mpr hsome)
  rw [h] at hdirectory
  simp at hdirectory

namespace Removes

theorem append {mid : Disk} {before after : List Removal} (h : Removes disk before mid)
    (h' : Removes mid after last) : Removes disk (before ++ after) last := by
  induction h with
  | nothing disk => exact h'
  | file there _ ih => exact .file there (ih h')
  | directory below there empty _ ih => exact .directory below there empty (ih h')

theorem isTree {removals : List Removal} (tree : disk.IsTree) (h : Removes disk removals last) :
    last.IsTree := by
  induction h with
  | nothing disk => exact tree
  | file there _ ih => exact ih (tree.erase (ne_nil_of_file there) (tree.none_of_file there))
  | directory below _ empty _ ih => exact ih (tree.erase below empty)

theorem sameLinks {removals : List Removal} (tree : disk.IsTree) (h : Removes disk removals last) :
    SameLinks disk last := by
  induction h with
  | nothing disk => exact .refl disk
  | file there _ ih =>
    have hne := ne_nil_of_file there
    have hfirst := SameLinks.erase tree hne (by simp [linkAt?, there])
    exact hfirst.trans (ih (tree.erase hne (tree.none_of_file there)))
  | directory below there empty _ ih =>
    have hfirst := SameLinks.erase tree below (by simp [linkAt?, there])
    exact hfirst.trans (ih (tree.erase below empty))

-- Nothing but what is removed changes.
theorem entry {removals : List Removal} (h : Removes disk removals last) (place : Place) :
    last.entry? place =
      if place ∈ removals.map Removal.place then none else disk.entry? place := by
  have hcons {disk last : Disk} {first : Place} {rest : List Removal} (hne : first ≠ [])
      (ih : last.entry? place = if place ∈ rest.map Removal.place then none
        else Disk.entry? (disk.erase first) place) :
      last.entry? place =
        if place ∈ first :: rest.map Removal.place then none else disk.entry? place := by
    rw [ih, entry_erase hne]
    by_cases hfirst : place = first
    · simp [hfirst]
    · simp [hfirst]
  induction h with
  | nothing disk => simp
  | file there _ ih => exact hcons (ne_nil_of_file there) ih
  | directory below _ _ _ ih => exact hcons below ih

end Removes

end HookGen.Disk
