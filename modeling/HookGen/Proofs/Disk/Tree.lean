import HookGen.Disk.Change
import HookGen.Proofs.Path
import Mathlib.Data.List.Induction
import Mathlib.Data.List.Infix
import Mathlib.Data.List.Nodup

/-!
Disks that are trees: what stands in a directory stands in one that is there. Each change of one place
keeps this.
-/

namespace HookGen.Disk

variable {disk : Disk} {place other : Place} {entry : Entry}

theorem lookup_filter_ne (entries : List (Place × Entry)) (place other : Place) :
    (entries.filter (·.1 != place)).lookup other =
      if other = place then none else entries.lookup other := by
  induction entries with
  | nil => simp
  | cons first rest ih =>
    obtain ⟨key, value⟩ := first
    by_cases hkey : key = place
    · subst hkey
      by_cases hother : other = key
      · rw [List.filter_cons_of_neg (by simp), ih, if_pos hother, if_pos hother]
      · have htest : (other == key) = false := beq_eq_false_iff_ne.mpr hother
        simp [List.lookup_cons, htest, hother, ih]
    · by_cases hother : other = key
      · simp [hother, hkey]
      · have htest : (other == key) = false := beq_eq_false_iff_ne.mpr hother
        simp [List.lookup_cons, htest, hkey, ih]

theorem entry_eq_lookup (h : place ≠ []) : disk.entry? place = disk.entries.lookup place := by
  cases place with
  | nil => exact absurd rfl h
  | cons name rest => rfl

@[simp] theorem entry_nil : disk.entry? [] = some .directory := rfl

theorem entry_put (h : place ≠ []) (entry : Entry) (other : Place) :
    Disk.entry? (disk.put place entry) other =
      if other = place then some entry else disk.entry? other := by
  by_cases hnil : other = []
  · simp [hnil, h.symm]
  · rw [entry_eq_lookup hnil, entry_eq_lookup hnil, put, List.lookup_cons, lookup_filter_ne]
    by_cases hother : other = place
    · simp [hother]
    · have htest : (other == place) = false := beq_eq_false_iff_ne.mpr hother
      simp [hother, htest]

theorem entry_erase (h : place ≠ []) (other : Place) :
    Disk.entry? (disk.erase place) other = if other = place then none else disk.entry? other := by
  by_cases hnil : other = []
  · simp [hnil, h.symm]
  · rw [entry_eq_lookup hnil, entry_eq_lookup hnil, erase, lookup_filter_ne]

@[simp] theorem current_put : (disk.put place entry).current = disk.current := rfl

@[simp] theorem current_erase : (disk.erase place).current = disk.current := rfl

theorem mem_of_entry (hne : place ≠ []) (h : disk.entry? place = some entry) :
    (place, entry) ∈ disk.entries := by
  rw [entry_eq_lookup hne] at h
  obtain ⟨before, after, heq, _⟩ := List.lookup_eq_some_iff.mp h
  simp [heq]

theorem lookup_of_mem {entries : List (Place × Entry)} (hdistinct : (entries.map (·.1)).Nodup)
    (hmem : (place, entry) ∈ entries) : entries.lookup place = some entry := by
  induction entries with
  | nil => simp at hmem
  | cons first rest ih =>
    obtain ⟨key, value⟩ := first
    obtain ⟨habsent, hrest⟩ := List.nodup_cons.mp hdistinct
    rcases List.mem_cons.mp hmem with hsame | htail
    · cases hsame
      simp
    · have hne : place ≠ key := fun heq =>
        habsent (heq ▸ List.mem_map.mpr ⟨(place, entry), htail, rfl⟩)
      have htest : (place == key) = false := beq_eq_false_iff_ne.mpr hne
      simpa only [List.lookup_cons, htest] using ih hrest htail

-- The target of the link at a place.
def linkAt? (disk : Disk) (place : Place) : Option Text :=
  match disk.entry? place with
  | some (.link target) => some target
  | _ => none

theorem linkAt?_eq_some {target : Text} :
    disk.linkAt? place = some target ↔ disk.entry? place = some (.link target) := by
  unfold linkAt?
  split
  · simp_all
  · rename_i h
    simp only [reduceCtorEq, false_iff]
    exact h target

theorem linkAt?_eq_none : disk.linkAt? place = none ↔ ∀ target, disk.entry? place ≠ some (.link target) := by
  simp [Option.eq_none_iff_forall_ne_some, linkAt?_eq_some]

theorem linkAt?_eq_none_of_entries (h : ∀ entry ∈ disk.entries, ∀ target, entry.2 ≠ .link target)
    (place : Place) : disk.linkAt? place = none := by
  refine linkAt?_eq_none.mpr fun target hentry => ?_
  have hne : place ≠ [] := by
    rintro rfl
    simp at hentry
  exact h _ (mem_of_entry hne hentry) target rfl

-- A place with no link on the way to it or at it, so that its path leads to it.
structure IsReal (disk : Disk) (place : Place) : Prop where
  names : ∀ name ∈ place, IsName name
  noLink : ∀ start, start <+: place → disk.linkAt? start = none

-- What is found at a place is in one directory after the other.
structure IsTree (disk : Disk) : Prop where
  nodup : (disk.entries.map (·.1)).Nodup
  names : ∀ place, (disk.entry? place).isSome → ∀ name ∈ place, IsName name
  parent : ∀ place name, (disk.entry? (place ++ [name])).isSome →
    disk.entry? place = some .directory
  current : disk.IsReal disk.current

theorem isReal_iff : disk.IsReal place ↔
    (∀ name ∈ place, IsName name) ∧ ∀ start ∈ place.inits, disk.linkAt? start = none :=
  ⟨fun h => ⟨h.names, fun start hs => h.noLink start ((List.mem_inits _ _).mp hs)⟩,
    fun h => ⟨h.1, fun start hs => h.2 start ((List.mem_inits _ _).mpr hs)⟩⟩

instance (disk : Disk) (place : Place) : Decidable (disk.IsReal place) :=
  decidable_of_iff _ isReal_iff.symm

-- Whether a disk is a tree can be read off its entries.
theorem IsTree.of_entries (nodup : (disk.entries.map (·.1)).Nodup)
    (names : ∀ entry ∈ disk.entries, ∀ name ∈ entry.1, IsName name)
    (parent : ∀ entry ∈ disk.entries, disk.entry? entry.1.dropLast = some .directory)
    (current : disk.IsReal disk.current) : disk.IsTree where
  nodup := nodup
  names := by
    intro place hsome
    by_cases hnil : place = []
    · simp [hnil]
    · obtain ⟨entry, hentry⟩ := Option.isSome_iff_exists.mp hsome
      exact names _ (mem_of_entry hnil hentry)
  parent := by
    intro place name hsome
    obtain ⟨entry, hentry⟩ := Option.isSome_iff_exists.mp hsome
    simpa using parent _ (mem_of_entry (by simp) hentry)
  current := current

-- The directories on the way to something that is there.
theorem IsTree.directory_of_isSome (tree : disk.IsTree) {rest : List Text} (hrest : rest ≠ [])
    (h : (disk.entry? (place ++ rest)).isSome) : disk.entry? place = some .directory := by
  induction rest using List.reverseRec with
  | nil => exact absurd rfl hrest
  | append_singleton rest name ih =>
    rw [← List.append_assoc] at h
    have hparent := tree.parent _ _ h
    by_cases hnil : rest = []
    · simpa [hnil] using hparent
    · exact ih hnil (by simp [hparent])

theorem linkAt?_erase (h : place ≠ []) (other : Place) :
    (disk.erase place).linkAt? other = if other = place then none else disk.linkAt? other := by
  unfold linkAt?
  rw [entry_erase h]
  by_cases hother : other = place <;> simp [hother]

theorem linkAt?_put (h : place ≠ []) (hentry : ∀ target, entry ≠ .link target) (other : Place) :
    (disk.put place entry).linkAt? other = if other = place then none else disk.linkAt? other := by
  unfold linkAt?
  rw [entry_put h]
  by_cases hother : other = place
  · rw [if_pos hother, if_pos hother]
    cases entry with
    | link target => exact absurd rfl (hentry target)
    | _ => rfl
  · rw [if_neg hother, if_neg hother]

theorem nodup_filter (h : (disk.entries.map (·.1)).Nodup) (p : Place × Entry → Bool) :
    ((disk.entries.filter p).map (·.1)).Nodup :=
  h.sublist ((List.filter_sublist).map _)

-- Taking away what has nothing in it.
theorem IsTree.erase (tree : disk.IsTree) (hne : place ≠ [])
    (hempty : ∀ name, disk.entry? (place ++ [name]) = none) : (disk.erase place).IsTree where
  nodup := nodup_filter tree.nodup _
  names := by
    intro other hother
    rw [entry_erase hne] at hother
    split at hother
    · simp at hother
    · exact tree.names other hother
  parent := by
    intro other name hchild
    rw [entry_erase hne] at hchild ⊢
    split at hchild
    · simp at hchild
    · have hparent := tree.parent other name hchild
      have hother : other ≠ place := by
        rintro rfl
        simp [hempty name] at hchild
      rw [if_neg hother, hparent]
  current := by
    refine ⟨tree.current.names, fun start hstart => ?_⟩
    rw [linkAt?_erase hne]
    split
    · rfl
    · exact tree.current.noLink start hstart

-- Putting something else than a link into a directory, or a file in place of what is there unless
-- that is a directory.
theorem IsTree.put (tree : disk.IsTree) {name : Text} (hname : IsName name)
    (hparent : disk.entry? place = some .directory) (hentry : ∀ target, entry ≠ .link target)
    (hold : disk.entry? (place ++ [name]) ≠ some .directory) :
    (disk.put (place ++ [name]) entry).IsTree where
  nodup := by
    refine List.nodup_cons.mpr ⟨?_, nodup_filter tree.nodup _⟩
    simp
  names := by
    intro other hother
    rw [entry_put (by simp)] at hother
    split at hother
    · rename_i heq
      subst heq
      intro part hpart
      rcases List.mem_append.mp hpart with h | h
      · exact tree.names place (by simp [hparent]) part h
      · simpa [List.mem_singleton.mp h] using hname
    · exact tree.names other hother
  parent := by
    intro other child hchild
    rw [entry_put (by simp)] at hchild ⊢
    split at hchild
    · rename_i heq
      obtain ⟨rfl, _⟩ := List.append_inj' heq rfl
      rw [if_neg (by simp), hparent]
    · have hdirectory := tree.parent other child hchild
      have hother : other ≠ place ++ [name] := by
        rintro rfl
        exact hold hdirectory
      rw [if_neg hother, hdirectory]
  current := by
    refine ⟨tree.current.names, fun start hstart => ?_⟩
    rw [linkAt?_put (by simp) hentry]
    split
    · rfl
    · exact tree.current.noLink start hstart

end HookGen.Disk
