import HookGen.Proofs.Disk.Twins

/-!
Moving a directory with all that is in it: what was below the one place is below the other one then, and
nothing else is different.
-/

namespace HookGen.Disk

variable {disk : Disk} {base base' place other : Place} {entries : List (Place × Entry)} {names : List Text}

-- Where a place is once a directory is moved.
def shifted (base base' place : Place) : Place :=
  if base <+: place then base' ++ place.drop base.length else place

-- The place that a place was before. Where the directory was there is nothing.
def source? (base base' place : Place) : Option Place :=
  if base' <+: place then some (base ++ place.drop base'.length)
  else if base <+: place then none
  else some place

def moved (disk : Disk) (base base' : Place) : Disk where
  entries := disk.entries.map fun entry => (shifted base base' entry.1, entry.2)
  current := disk.current

-- A place that a directory can be moved to.
structure Vacant (disk : Disk) (base base' : Place) : Prop where
  free : ∀ names, disk.entry? (base' ++ names) = none
  above : disk.entry? base'.dropLast = some .directory
  aside : ¬ base <+: base'
  isName : ∀ name ∈ base', IsName name
  fits : ∀ name ∈ base', isTooLong name = false
  checked : checkText (Path.ofPlace base').text = .ok ()

theorem shifted_append (names : List Text) : shifted base base' (base ++ names) = base' ++ names := by
  rw [shifted, if_pos (List.prefix_append ..), List.drop_left]

theorem source?_append (names : List Text) : source? base base' (base' ++ names) = some (base ++ names) := by
  rw [source?, if_pos (List.prefix_append ..), List.drop_left]

theorem source?_elsewhere (h : ¬ base' <+: place) (h' : ¬ base <+: place) :
    source? base base' place = some place := by
  rw [source?, if_neg h, if_neg h']

-- Nothing was below the new place, so that each of the two undoes the other.
theorem shifted_eq_iff (h : ¬ base' <+: other) :
    shifted base base' other = place ↔ source? base base' place = some other := by
  by_cases hother : base <+: other
  · obtain ⟨names, rfl⟩ := hother
    rw [shifted_append]
    constructor
    · rintro rfl
      exact source?_append names
    · intro hsource
      rw [source?] at hsource
      split at hsource
      · rename_i hplace
        obtain ⟨others, rfl⟩ := hplace
        rw [List.drop_left] at hsource
        rw [List.append_cancel_left (Option.some.inj hsource)]
      · split at hsource
        · cases hsource
        · rename_i hnot
          obtain rfl := Option.some.inj hsource
          exact absurd (List.prefix_append ..) hnot
  · rw [shifted, if_neg hother]
    constructor
    · rintro rfl
      exact source?_elsewhere h hother
    · intro hsource
      rw [source?] at hsource
      split at hsource
      · obtain rfl := Option.some.inj hsource
        exact absurd (List.prefix_append ..) hother
      · split at hsource
        · cases hsource
        · exact (Option.some.inj hsource).symm

theorem lookup_map {f : Place → Place} {g : Place → Option Place}
    (h : ∀ entry ∈ entries, f entry.1 = place ↔ g place = some entry.1) :
    (entries.map fun entry => (f entry.1, entry.2)).lookup place =
      (g place).bind fun found => entries.lookup found := by
  induction entries with
  | nil => cases g place <;> rfl
  | cons entry rest ih =>
    obtain ⟨hentry, hrest⟩ := List.forall_mem_cons.mp h
    obtain ⟨key, value⟩ := entry
    rw [List.map_cons, List.lookup_cons, ih hrest]
    by_cases hkey : f key = place
    · rw [hentry.mp hkey, beq_iff_eq.mpr hkey.symm]
      simp
    · have hne : (place == f key) = false := by simpa using fun heq => hkey heq.symm
      rw [hne]
      cases hg : g place with
      | none => rfl
      | some found =>
        have hfound : found ≠ key := by
          rintro rfl
          exact hkey (hentry.mpr hg)
        rw [Option.bind_some, Option.bind_some, List.lookup_cons, beq_false_of_ne hfound]

namespace Vacant

theorem of_entries (free : ∀ entry ∈ disk.entries, ¬ base' <+: entry.1)
    (above : disk.entry? base'.dropLast = some .directory) (aside : ¬ base <+: base')
    (isName : ∀ name ∈ base', IsName name) (fits : ∀ name ∈ base', isTooLong name = false)
    (checked : checkText (Path.ofPlace base').text = .ok ()) (hne : base' ≠ []) : disk.Vacant base base' where
  free names := by
    by_contra hsome
    obtain ⟨entry, hentry⟩ := Option.ne_none_iff_exists'.mp hsome
    exact free _ (mem_of_entry (by simp [hne]) hentry) (List.prefix_append ..)
  above := above
  aside := aside
  isName := isName
  fits := fits
  checked := checked

variable (h : disk.Vacant base base')
include h

theorem ne_nil : base' ≠ [] := by
  rintro rfl
  have hroot := h.free []
  simp at hroot

theorem base_ne_nil : base ≠ [] := by
  rintro rfl
  exact h.aside List.nil_prefix

theorem source_ne_nil (hplace : place ≠ []) (hsource : source? base base' place = some other) : other ≠ [] := by
  rw [source?] at hsource
  split at hsource
  · obtain rfl := Option.some.inj hsource
    simp [h.base_ne_nil]
  · split at hsource
    · cases hsource
    · rwa [← Option.some.inj hsource]

theorem not_below_of_mem (tree : disk.IsTree) {entry : Place × Entry} (hentry : entry ∈ disk.entries) :
    ¬ base' <+: entry.1 := by
  rintro ⟨names, hnames⟩
  have hthere := lookup_of_mem tree.nodup hentry
  rw [← hnames, ← entry_eq_lookup (by simp [h.ne_nil]), h.free] at hthere
  cases hthere

-- What is at a place is what was where it came from.
theorem entry_moved (tree : disk.IsTree) (place : Place) : Disk.entry? (disk.moved base base') place =
    (source? base base' place).bind fun found => disk.entry? found := by
  by_cases hplace : place = []
  · subst hplace
    rw [source?_elsewhere (by simpa using h.ne_nil) (by simpa using h.base_ne_nil)]
    rfl
  · rw [entry_eq_lookup hplace, moved, lookup_map fun entry hentry => shifted_eq_iff (h.not_below_of_mem tree hentry)]
    cases hsource : source? base base' place with
    | none => rfl
    | some found => exact (entry_eq_lookup (h.source_ne_nil hplace hsource)).symm

theorem entry_moved_append (tree : disk.IsTree) (names : List Text) :
    Disk.entry? (disk.moved base base') (base' ++ names) = disk.entry? (base ++ names) := by
  rw [h.entry_moved tree, source?_append]
  rfl

theorem entry_moved_above (tree : disk.IsTree) (hplace : ¬ base' <+: place) (hplace' : ¬ base <+: place) :
    Disk.entry? (disk.moved base base') place = disk.entry? place := by
  rw [h.entry_moved tree, source?_elsewhere hplace hplace']
  rfl

theorem noLink_moved (tree : disk.IsTree) (hclear : disk.IsClear base)
    (hplace : base' <+: place ∨ disk.linkAt? place = none) : (disk.moved base base').linkAt? place = none := by
  rw [linkAt?_eq_none]
  intro target hentry
  by_cases hbelow : base' <+: place
  · obtain ⟨names, rfl⟩ := hbelow
    rw [h.entry_moved_append tree] at hentry
    exact linkAt?_eq_none.mp (hclear.below _ (List.prefix_append ..)) target hentry
  · rw [h.entry_moved tree, source?, if_neg hbelow] at hentry
    split at hentry
    · cases hentry
    · exact linkAt?_eq_none.mp (hplace.resolve_left hbelow) target hentry

theorem isTree_moved (tree : disk.IsTree) (hclear : disk.IsClear base) : (disk.moved base base').IsTree where
  nodup := by
    have hkeys : (disk.moved base base').entries.map (·.1) = (disk.entries.map (·.1)).map (shifted base base') := by
      rw [moved, List.map_map, List.map_map]
      rfl
    have hsource {key : Place} (hkey : key ∈ disk.entries.map (·.1)) :
        source? base base' (shifted base base' key) = some key := by
      obtain ⟨entry, hentry, rfl⟩ := List.mem_map.mp hkey
      exact (shifted_eq_iff (h.not_below_of_mem tree hentry)).mp rfl
    rw [hkeys]
    refine tree.nodup.map_on fun key hkey other hother heq => ?_
    exact Option.some.inj ((hsource hkey).symm.trans (heq ▸ hsource hother))
  names place hsome name hname := by
    rw [h.entry_moved tree, source?] at hsome
    split at hsome
    · rename_i hbelow
      obtain ⟨names, rfl⟩ := hbelow
      rw [List.drop_left] at hsome
      rcases List.mem_append.mp hname with hname | hname
      · exact h.isName name hname
      · exact tree.names _ hsome name (List.mem_append_right base hname)
    · split at hsome
      · cases hsome
      · exact tree.names _ hsome name hname
  parent place name hsome := by
    by_cases hbelow : base' <+: place ++ [name]
    · rcases List.prefix_concat_iff.mp hbelow with heq | hbelow
      · have hplace : place = base'.dropLast := by rw [heq, List.dropLast_concat]
        have hnot : ¬ base' <+: place := by
          intro hstarts
          have hlength := hstarts.length_le
          rw [heq, List.length_append, List.length_singleton] at hlength
          omega
        rw [h.entry_moved_above tree hnot fun hstarts => h.aside (hstarts.trans (heq ▸ List.prefix_append ..)), hplace]
        exact h.above
      · obtain ⟨names, rfl⟩ := hbelow
        rw [List.append_assoc, h.entry_moved_append tree, ← List.append_assoc] at hsome
        rw [h.entry_moved_append tree]
        exact tree.parent _ name hsome
    · rw [h.entry_moved tree, source?, if_neg hbelow] at hsome
      split at hsome
      · cases hsome
      · rename_i hnot
        have habove {start : Place} (hstart : ¬ start <+: place ++ [name]) : ¬ start <+: place :=
          fun hstarts => hstart (hstarts.trans (List.prefix_append ..))
        rw [h.entry_moved_above tree (habove hbelow) (habove hnot)]
        exact tree.parent place name hsome
  current := ⟨tree.current.names, fun start hstart =>
    h.noLink_moved tree hclear (.inr (tree.current.noLink start hstart))⟩

theorem hosts_moved (hhosts : disk.Hosts base) : (disk.moved base base').Hosts base' := by
  have tree := h.isTree_moved hhosts.tree hhosts.clear
  have hthere : Disk.entry? (disk.moved base base') base' = some .directory := by
    simpa [hhosts.there] using h.entry_moved_append hhosts.tree []
  have hclear : (disk.moved base base').IsClear base' :=
    ⟨isReal_of_directory tree hthere, fun other hother => h.noLink_moved hhosts.tree hhosts.clear (.inl hother)⟩
  exact ⟨tree, hclear, hthere, h.fits, h.checked⟩

-- What is moved is the same below its new place.
theorem twins_moved (hhosts : disk.Hosts base) : Twins base base' disk (disk.moved base base') :=
  ⟨hhosts, h.hosts_moved hhosts, h.entry_moved_append hhosts.tree⟩

end Vacant

end HookGen.Disk
