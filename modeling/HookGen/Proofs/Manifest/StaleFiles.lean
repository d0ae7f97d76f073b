import HookGen.Proofs.Manifest.CleanUp

/-!
Cleaning up removes every stale file. The entries of a manifest are taken to be paths without links here,
as those of generated files are.
-/

namespace HookGen.Manifest

open Disk Run

variable {disk last : Disk} {base place : Place} {current : List Path}

theorem directory_of_mem {removals : List Removal} (h : Removes disk removals last)
    (hmem : .directory place ∈ removals) : disk.entry? place = some .directory := by
  have hthere {disk : Disk} {first : Place} (hne : first ≠ [])
      (h : Disk.entry? (disk.erase first) place = some .directory) :
      disk.entry? place = some .directory := by
    rw [entry_erase hne] at h
    split at h
    · simp at h
    · exact h
  induction h with
  | nothing disk => simp at hmem
  | file there _ ih =>
    rcases List.mem_cons.mp hmem with heq | hrest
    · simp at heq
    · exact hthere (ne_nil_of_file there) (ih hrest)
  | directory below there _ _ ih =>
    rcases List.mem_cons.mp hmem with heq | hrest
    · cases heq
      exact there
    · exact hthere below (ih hrest)

-- The loop over directories keeps all files.
theorem Prunes.file_iff {removals : List Removal} (h : Prunes base disk place removals last)
    (other : Place) (content : Bytes) :
    last.entry? other = some (.file content) ↔ disk.entry? other = some (.file content) := by
  rw [h.removes.entry]
  split
  · rename_i hmem
    obtain ⟨removal, hremoval, rfl⟩ := List.mem_map.mp hmem
    obtain ⟨above, rfl, _⟩ := h.directories removal hremoval
    have hdirectory := directory_of_mem h.removes hremoval
    simp [Removal.place, hdirectory]
  · rfl

theorem isFile_of_file (tree : disk.IsTree) (hreal : disk.IsReal place) {content : Bytes}
    (hfile : disk.entry? place = some (.file content))
    (hchecked : checkText (Path.ofPlace place).text = .ok ()) :
    disk.isFile (.ofPlace place) ≠ .ok false := by
  rw [Disk.isFile, ask, hchecked]
  rcases find_of_entry tree hreal hfile with hfind | hfind <;> simp [hfind]

-- What becomes of a file that a manifest names.
structure Doomed (base : Place) (current : List Path) (place : Place) : Prop where
  below : IsBelow base place
  old : .ofPlace place ∉ current
  other : place.getLast? ≠ some fileName

theorem Stale.doomed {entry : Text} (h : Stale disk base current entry place) :
    Doomed base current place := ⟨h.below, h.old, h.other⟩

theorem removeEntry_file_iff (tree : disk.IsTree) {named : Place} {entry : Text}
    (hnamed : Path.child (.ofPlace base) entry = .ofPlace named) (hreal : disk.IsReal named)
    {removed : Option Path}
    (h : Ends (removeEntry (.ofPlace base) current entry) disk last (.ok removed))
    (place : Place) (content : Bytes) :
    last.entry? place = some (.file content) ↔
      disk.entry? place = some (.file content) ∧ ¬ (place = named ∧ Doomed base current named) := by
  rcases removeEntry_cases h with ⟨rfl, hkept⟩ | ⟨found, removals, hstale, hfile, hprunes, _⟩
  · obtain ⟨_, found, hresolve, hnot⟩ := hkept removed rfl
    rw [iff_self_and]
    rintro hthere ⟨rfl, hdoomed⟩
    rw [hnamed] at hresolve
    obtain ⟨hchecked, rfl⟩ := resolve_ofPlace_eq_ok hreal hresolve
    have hstale : Stale last base current entry place :=
      ⟨by rw [hnamed, hresolve], hdoomed.below, hdoomed.old, hdoomed.other⟩
    have htext := checkText_of_checkNames hdoomed.below.ne_nil hreal.names hchecked
    exact isFile_of_file tree hreal hthere htext (hnot hstale)
  · have hresolve := hstale.resolve
    rw [hnamed] at hresolve
    obtain ⟨_, rfl⟩ := resolve_ofPlace_eq_ok hreal hresolve
    rw [hprunes.file_iff, entry_erase hstale.below.ne_nil]
    by_cases hplace : place = named
    · simp [hplace, hstale.doomed]
    · simp [hplace]

-- Entry by entry: what is left of the files is what no entry dooms.
theorem removeEntries_file_iff (tree : disk.IsTree) (hreal : disk.IsReal base) {entries : List Text}
    (hnamed : ∀ entry ∈ entries, ∃ named,
      Path.child (.ofPlace base) entry = .ofPlace named ∧ disk.IsReal named)
    {removed : List Path}
    (h : Ends (removeEntries (.ofPlace base) current entries) disk last (.ok removed))
    (place : Place) (content : Bytes) :
    last.entry? place = some (.file content) ↔ disk.entry? place = some (.file content) ∧
      ¬ ∃ entry ∈ entries, Path.child (.ofPlace base) entry = .ofPlace place ∧
        Doomed base current place := by
  induction entries generalizing disk removed with
  | nil =>
    obtain ⟨rfl, _⟩ := ends_pure.mp h
    simp
  | cons entry rest ih =>
    rw [removeEntries, ends_bind_ok] at h
    obtain ⟨mid, first, hfirst, h⟩ := h
    obtain ⟨found, hrest, hremoved⟩ := ends_bind_pure.mp h
    cases found with
    | error e => simp [Except.map] at hremoved
    | ok later =>
      obtain ⟨named, hentry, hnamedReal⟩ := hnamed entry (List.mem_cons_self ..)
      obtain ⟨removals, hremoves, _⟩ :=
        removeEntry_removes tree hreal (hentry ▸ loopless_ofPlace hnamedReal) hfirst
      have hlinks := hremoves.sameLinks tree
      have hlater : ∀ other ∈ rest, ∃ named,
          Path.child (.ofPlace base) other = .ofPlace named ∧ mid.IsReal named := by
        intro other hother
        obtain ⟨otherNamed, hchild, hotherReal⟩ := hnamed other (List.mem_cons_of_mem entry hother)
        exact ⟨otherNamed, hchild, hlinks.isReal hotherReal⟩
      rw [ih (hremoves.isTree tree) (hlinks.isReal hreal) hlater hrest,
        removeEntry_file_iff tree hentry hnamedReal hfirst, and_assoc, ← not_or]
      refine and_congr_right fun _ => not_congr ⟨?_, ?_⟩
      · rintro (⟨rfl, hdoomed⟩ | ⟨other, hother, hchild, hdoomed⟩)
        · exact ⟨entry, List.mem_cons_self .., hentry, hdoomed⟩
        · exact ⟨other, List.mem_cons_of_mem entry hother, hchild, hdoomed⟩
      · rintro ⟨other, hother, hchild, hdoomed⟩
        rcases List.mem_cons.mp hother with rfl | hmem
        · rw [hentry] at hchild
          obtain rfl : named = place := congrArg Path.names hchild
          exact .inl ⟨rfl, hdoomed⟩
        · exact .inr ⟨other, hmem, hchild, hdoomed⟩

end HookGen.Manifest
