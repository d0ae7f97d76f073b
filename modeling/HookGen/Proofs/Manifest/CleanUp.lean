import HookGen.Manifest
import HookGen.Proofs.Disk.Removal
import HookGen.Proofs.Text.Sort
import HookGen.Proofs.Run

/-!
What cleaning up takes from a disk: files that the manifest of the previous generation names and that
are stale, and the directories that are empty without them.
-/

namespace HookGen.Manifest

open Disk Run

-- One place is properly below another.
def IsBelow (base place : Place) : Prop := base <+: place ∧ place ≠ base

theorem isBelow_ofPlace (base place : Place) :
    isBelow (.ofPlace base) (.ofPlace place) = true ↔ IsBelow base place := by
  simp [isBelow, IsBelow, Path.isWithin, Path.ofPlace]

theorem IsBelow.ne_nil {base place : Place} (h : IsBelow base place) : place ≠ [] := by
  rintro rfl
  exact h.2 (List.prefix_nil.mp h.1).symm

variable {disk other last : Disk} {base place : Place}

-- When the loop over the directories above a removed file removes one of them.
structure Prunable (disk : Disk) (base place : Place) : Prop where
  below : IsBelow base place
  there : disk.entry? place = some .directory
  empty : ∀ name, disk.entry? (place ++ [name]) = none

-- A run of this loop to its end, with what it removes.
inductive Prunes (base : Place) : Disk → Place → List Removal → Disk → Prop
  | stop {disk : Disk} {place : Place} (full : ¬ Prunable disk base place) :
      Prunes base disk place [] disk
  | up {disk last : Disk} {place : Place} {rest : List Removal} (empty : Prunable disk base place)
      (tail : Prunes base (disk.erase place) place.dropLast rest last) :
      Prunes base disk place (.directory place :: rest) last

theorem Prunes.removes {removals : List Removal} (h : Prunes base disk place removals last) :
    Removes disk removals last := by
  induction h with
  | stop _ => exact .nothing _
  | up empty _ ih => exact .directory empty.below.ne_nil empty.there empty.empty ih

theorem Prunes.directories {removals : List Removal} (h : Prunes base disk place removals last) :
    ∀ removal ∈ removals, ∃ above, removal = .directory above ∧ IsBelow base above := by
  induction h with
  | stop _ => simp
  | up empty _ ih =>
    intro removal hremoval
    rcases List.mem_cons.mp hremoval with rfl | hrest
    · exact ⟨_, rfl, empty.below⟩
    · exact ih removal hrest

theorem entriesIn_eq_nil (disk : Disk) (place : Place) :
    disk.entriesIn place = [] ↔ ∀ name, disk.entry? (place ++ [name]) = none := by
  rw [entriesIn, List.filter_eq_nil_iff]
  constructor
  · intro h name
    by_contra hsome
    obtain ⟨entry, hentry⟩ := Option.ne_none_iff_exists'.mp hsome
    have hmem := mem_of_entry (by simp) hentry
    exact h _ hmem (by simp)
  · rintro h ⟨key, entry⟩ hmem hkey
    simp only [Bool.and_eq_true, Bool.not_eq_true', List.isEmpty_eq_false_iff, beq_iff_eq] at hkey
    obtain ⟨hne, rfl⟩ := hkey
    have hnone := h (key.getLast hne)
    rw [List.dropLast_append_getLast hne, entry_eq_lookup hne, List.lookup_eq_none_iff] at hnone
    simpa using hnone _ hmem

-- The loop always comes to its end, after at most as many rounds as there are directories above.
theorem removeEmptyUp_ends (base : Place) (disk : Disk) (place : Place) :
    ∃ removals last, Prunes base disk place removals last ∧
      Ends (removeEmptyUp (.ofPlace base) place.reverse) disk last (.ok ()) := by
  induction hnames : place.reverse generalizing disk place with
  | nil =>
    obtain rfl := List.reverse_eq_nil_iff.mp hnames
    have hstop : ¬ Prunable disk base [] := fun h => h.below.ne_nil rfl
    exact ⟨[], disk, .stop hstop, rfl, rfl⟩
  | cons name above ih =>
    have hplace : (name :: above).reverse = place := by rw [← hnames, List.reverse_reverse]
    have habove : place.dropLast.reverse = above := by rw [← hplace]; simp
    simp only [removeEmptyUp, hplace]
    by_cases hbelow : IsBelow base place
    · rw [(isBelow_ofPlace base place).mpr hbelow]
      simp only [Bool.not_true, Bool.false_eq_true, if_false]
      by_cases hempty : Prunable disk base place
      · obtain ⟨removals, last, hprunes, hends⟩ := ih (disk.erase place) place.dropLast habove
        refine ⟨_, last, .up hempty hprunes, ?_⟩
        have htest : disk.isDirectoryAt place && (disk.entriesIn place).isEmpty := by
          simp [isDirectoryAt, hempty.there, (entriesIn_eq_nil disk place).mpr hempty.empty]
        refine ends_bind_ok.mpr ⟨disk, true, ends_query.mpr ⟨rfl, ?_⟩, ?_⟩
        · exact congrArg Except.ok htest
        · exact ends_bind_ok.mpr ⟨disk.erase place, (), ends_change.mpr (.inl ⟨(), rfl, rfl⟩), hends⟩
      · refine ⟨[], disk, .stop hempty, ?_⟩
        have htest : (disk.isDirectoryAt place && (disk.entriesIn place).isEmpty) = false := by
          by_contra hne
          simp only [Bool.not_eq_false, Bool.and_eq_true, isDirectoryAt, beq_iff_eq,
            List.isEmpty_iff] at hne
          exact hempty ⟨hbelow, hne.1, (entriesIn_eq_nil disk place).mp hne.2⟩
        refine ends_bind_ok.mpr ⟨disk, false, ends_query.mpr ⟨rfl, ?_⟩, ?_⟩
        · exact congrArg Except.ok htest
        · exact ⟨rfl, rfl⟩
    · refine ⟨[], disk, .stop fun h => hbelow h.below, ?_⟩
      have htest : isBelow (.ofPlace base) (.ofPlace place) = false := by
        rw [← Bool.not_eq_true, isBelow_ofPlace]
        exact hbelow
      rw [htest]
      exact ⟨rfl, rfl⟩

-- A question about a real place is answered by what is there.
theorem file_of_isFile (hreal : disk.IsReal place)
    (h : disk.isFile (.ofPlace place) = .ok true) :
    ∃ content, disk.entry? place = some (.file content) := by
  rw [Disk.isFile, ask] at h
  split at h
  · simp at h
  · split at h
    · rename_i found entry hfind
      obtain ⟨_, hentry⟩ := find_of_isReal hreal hfind
      cases entry with
      | file content => exact ⟨content, hentry⟩
      | _ => simp at h
    · simp at h
    · simp at h

-- A file that an entry of a manifest names and that is not kept: it is below the output directory, no
-- current file and no manifest.
structure Stale (disk : Disk) (base : Place) (current : List Path) (entry : Text) (place : Place) :
    Prop where
  resolve : disk.resolve (Path.child (.ofPlace base) entry) = .ok place
  below : IsBelow base place
  old : .ofPlace place ∉ current
  other : place.getLast? ≠ some fileName

theorem name_ofPlace (place : Place) : (Path.ofPlace place).name = place.getLast?.getD [] := rfl

theorem name_eq_fileName (place : Place) :
    (Path.ofPlace place).name = fileName ↔ place.getLast? = some fileName := by
  rw [name_ofPlace]
  cases place.getLast? with
  | none => simp [fileName, Text.ofString, Text.ofChars]
  | some name => simp

-- What removing an entry does: nothing, or one file goes and the loop runs over the directories above.
theorem removeEntry_cases {current : List Path} {entry : Text}
    {outcome : Except RunError (Option Path)}
    (h : Ends (removeEntry (.ofPlace base) current entry) disk last outcome) :
    (last = disk ∧ ∀ removed, outcome = .ok removed → removed = none ∧ ∃ place,
      disk.resolve (Path.child (.ofPlace base) entry) = .ok place ∧
      (Stale disk base current entry place → disk.isFile (.ofPlace place) = .ok false)) ∨
    ∃ place removals, Stale disk base current entry place ∧
      disk.isFile (.ofPlace place) = .ok true ∧
      Prunes base (disk.erase place) place.dropLast removals last ∧
      outcome = .ok (some (.ofPlace place)) := by
  rw [removeEntry] at h
  rcases error_or_ok (disk.resolve (Path.child (.ofPlace base) entry)) with
    ⟨e, hfault⟩ | ⟨place, hplace⟩
  · obtain ⟨rfl, rfl⟩ := (ends_bind_of_error (ends_resolve_error hfault)).mp h
    exact .inl ⟨rfl, by simp⟩
  · rw [ends_bind_of_ok (ends_resolve_ok hplace)] at h
    -- every way of keeping the file ends with no change and no removed file
    have hkeep (hends : disk = last ∧ Except.ok none = outcome)
        (hnot : Stale disk base current entry place → disk.isFile (.ofPlace place) = .ok false) :
        last = disk ∧ ∀ removed, outcome = .ok removed → removed = none ∧ ∃ place,
          disk.resolve (Path.child (.ofPlace base) entry) = .ok place ∧
          (Stale disk base current entry place → disk.isFile (.ofPlace place) = .ok false) := by
      obtain ⟨rfl, rfl⟩ := hends
      exact ⟨rfl, fun removed hok => ⟨(Except.ok.inj hok).symm, place, hplace, hnot⟩⟩
    split at h
    · rename_i hbelow
      rw [Run.logWarning, ends_log_bind, ends_pure] at h
      refine .inl (hkeep h fun hstale => ?_)
      rw [(isBelow_ofPlace base place).mpr hstale.below] at hbelow
      simp at hbelow
    · rename_i hbelow
      simp only [Bool.not_eq_true', Bool.not_eq_false, isBelow_ofPlace] at hbelow
      split at h
      · rename_i hkept
        simp only [Bool.or_eq_true, List.contains_iff_mem, beq_iff_eq, name_eq_fileName] at hkept
        refine .inl (hkeep (ends_pure.mp h) fun hstale => ?_)
        exact absurd hkept (not_or_intro hstale.old hstale.other)
      · rename_i hkept
        simp only [Bool.or_eq_true, List.contains_iff_mem, beq_iff_eq, name_eq_fileName,
          not_or] at hkept
        have hstale : Stale disk base current entry place := ⟨hplace, hbelow, hkept.1, hkept.2⟩
        rcases error_or_ok (disk.isFile (.ofPlace place)) with ⟨e, hfile⟩ | ⟨isFile, hfile⟩
        · obtain ⟨rfl, rfl⟩ := (ends_bind_of_error (ends_query_error hfile)).mp h
          exact .inl ⟨rfl, by simp⟩
        · have hrest := (ends_bind_of_ok (ends_query_ok hfile)).mp h
          cases isFile with
          | false => exact .inl (hkeep (ends_pure.mp hrest) fun _ => hfile)
          | true =>
            obtain ⟨removals, pruned, hprunes, hends⟩ :=
              removeEmptyUp_ends base (disk.erase place) place.dropLast
            simp only [Bool.not_true, Bool.false_eq_true, if_false] at hrest
            rw [ends_bind_of_ok (ends_change_ok rfl), Run.logDebug, ends_log_bind] at hrest
            have hlast := (ends_bind_of_ok hends).mp hrest
            obtain ⟨rfl, rfl⟩ := ends_pure.mp hlast
            exact .inr ⟨place, removals, hstale, hfile, hprunes, rfl⟩

-- What is removed is a stale file of one of the entries, or a directory below the output directory.
def Permitted (disk : Disk) (base : Place) (current : List Path) (entries : List Text) :
    Removal → Prop
  | .file place => ∃ entry ∈ entries, Stale disk base current entry place
  | .directory place => IsBelow base place

-- The files among removed things, in the order of their removal.
def removedFiles (removals : List Removal) : List Path :=
  (removals.filterMap Removal.file?).map .ofPlace

theorem removedFiles_append (before after : List Removal) :
    removedFiles (before ++ after) = removedFiles before ++ removedFiles after := by
  simp [removedFiles]

theorem Prunes.removedFiles_eq_nil {removals : List Removal}
    (h : Prunes base disk place removals last) : removedFiles removals = [] := by
  simp only [removedFiles, List.map_eq_nil_iff, List.filterMap_eq_nil_iff]
  intro removal hremoval
  obtain ⟨above, rfl, _⟩ := h.directories removal hremoval
  rfl

theorem Permitted.mono {current : List Path} {entries more : List Text} {removal : Removal}
    (h : Permitted disk base current entries removal) (hsub : entries ⊆ more) :
    Permitted disk base current more removal := by
  cases removal with
  | file place =>
    obtain ⟨entry, hmem, hstale⟩ := h
    exact ⟨entry, hsub hmem, hstale⟩
  | directory place => exact h

-- A stale file of a disk with the same links is one of this disk.
theorem Stale.congr {current : List Path} {entry : Text} (tree : disk.IsTree)
    (hreal : disk.IsReal base) (hlinks : SameLinks other disk)
    (loopless : other.Loopless (Path.child (.ofPlace base) entry))
    (h : Stale other base current entry place) : Stale disk base current entry place where
  resolve := ((resolves_of_resolve loopless h.resolve).congr hlinks).resolve tree
    ((isRead_ofPlace hreal).child entry)
  below := h.below
  old := h.old
  other := h.other

theorem Permitted.congr {current : List Path} {entries : List Text} {removal : Removal}
    (tree : disk.IsTree) (hreal : disk.IsReal base) (hlinks : SameLinks other disk)
    (loopless : ∀ entry ∈ entries, other.Loopless (Path.child (.ofPlace base) entry))
    (h : Permitted other base current entries removal) :
    Permitted disk base current entries removal := by
  cases removal with
  | file place =>
    obtain ⟨entry, hmem, hstale⟩ := h
    exact ⟨entry, hmem, hstale.congr tree hreal hlinks (loopless entry hmem)⟩
  | directory place => exact h

theorem removeEntry_removes (tree : disk.IsTree) (hreal : disk.IsReal base)
    {current : List Path} {entry : Text} {outcome : Except RunError (Option Path)}
    (loopless : disk.Loopless (Path.child (.ofPlace base) entry))
    (h : Ends (removeEntry (.ofPlace base) current entry) disk last outcome) :
    ∃ removals, Removes disk removals last ∧
      (∀ removal ∈ removals, Permitted disk base current [entry] removal) ∧
      ∀ removed, outcome = .ok removed → removed.toList = removedFiles removals := by
  rcases removeEntry_cases h with ⟨rfl, hnone⟩ | ⟨place, removals, hstale, hfile, hprunes, rfl⟩
  · refine ⟨[], .nothing last, by simp, fun removed hok => ?_⟩
    rw [(hnone removed hok).1]
    rfl
  · have hread := (isRead_ofPlace hreal).child entry
    have hplace := (resolves_of_resolve loopless hstale.resolve).isReal tree hread
    obtain ⟨content, hthere⟩ := file_of_isFile hplace hfile
    refine ⟨.file place :: removals, .file hthere hprunes.removes, ?_, ?_⟩
    · intro removal hremoval
      rcases List.mem_cons.mp hremoval with rfl | hrest
      · exact ⟨entry, by simp, hstale⟩
      · obtain ⟨above, rfl, hbelow⟩ := hprunes.directories removal hrest
        exact hbelow
    · intro removed hok
      have hfiles := hprunes.removedFiles_eq_nil
      simp only [removedFiles, List.map_eq_nil_iff] at hfiles
      simp [← Except.ok.inj hok, removedFiles, Removal.file?, hfiles]

-- Entry by entry: the links stay as they are, so that what is stale later was so at the start.
theorem removeEntries_removes (tree : disk.IsTree) (hreal : disk.IsReal base)
    {current : List Path} {entries : List Text} {outcome : Except RunError (List Path)}
    (loopless : ∀ entry ∈ entries, disk.Loopless (Path.child (.ofPlace base) entry))
    (h : Ends (removeEntries (.ofPlace base) current entries) disk last outcome) :
    ∃ removals, Removes disk removals last ∧
      (∀ removal ∈ removals, Permitted disk base current entries removal) ∧
      ∀ removed, outcome = .ok removed → removed = removedFiles removals := by
  induction entries generalizing disk outcome with
  | nil =>
    obtain ⟨rfl, rfl⟩ := ends_pure.mp h
    exact ⟨[], .nothing disk, by simp, fun removed hok => (Except.ok.inj hok).symm⟩
  | cons entry rest ih =>
    rw [removeEntries] at h
    rcases ends_bind.mp h with ⟨mid, first, hfirst, h⟩ | ⟨e, hfirst, rfl⟩
    · obtain ⟨before, hbefore, hallowed, hfiles⟩ :=
        removeEntry_removes tree hreal (loopless entry (List.mem_cons_self ..)) hfirst
      have hlinks := hbefore.sameLinks tree
      have hlater : ∀ other ∈ rest, mid.Loopless (Path.child (.ofPlace base) other) :=
        fun other hother => (loopless other (List.mem_cons_of_mem entry hother)).congr hlinks
      obtain ⟨found, hrest, rfl⟩ := ends_bind_pure.mp h
      obtain ⟨after, hafter, hallowed', hfiles'⟩ :=
        ih (hbefore.isTree tree) (hlinks.isReal hreal) hlater hrest
      refine ⟨before ++ after, hbefore.append hafter, ?_, ?_⟩
      · intro removal hremoval
        rcases List.mem_append.mp hremoval with hm | hm
        · exact (hallowed removal hm).mono (by simp)
        · have hpermitted := (hallowed' removal hm).congr tree hreal hlinks.symm hlater
          exact hpermitted.mono (List.subset_cons_self ..)
      · intro removed hok
        cases found with
        | error e => simp [Except.map] at hok
        | ok later =>
          rw [removedFiles_append, ← hfiles' later rfl, ← hfiles first rfl]
          exact (Except.ok.inj hok).symm
    · obtain ⟨removals, hremoves, hall, _⟩ :=
        removeEntry_removes tree hreal (loopless entry (List.mem_cons_self ..)) hfirst
      exact ⟨removals, hremoves, fun removal hm => (hall removal hm).mono (by simp), by simp⟩

theorem resolveAll_ends {files : List Text} {outcome : Except RunError (List Path)}
    (h : Ends (resolveAll files) disk last outcome) :
    last = disk ∧ ∀ current, outcome = .ok current → ∀ file ∈ files, ∀ place,
      disk.resolve (.ofText file) = .ok place → .ofPlace place ∈ current := by
  induction files generalizing outcome with
  | nil =>
    obtain ⟨rfl, rfl⟩ := ends_pure.mp h
    exact ⟨rfl, by simp⟩
  | cons file rest ih =>
    rw [resolveAll] at h
    cases hplace : disk.resolve (.ofText file) with
    | error e =>
      obtain ⟨rfl, rfl⟩ := (ends_bind_of_error (ends_resolve_error hplace)).mp h
      exact ⟨rfl, by simp⟩
    | ok place =>
      rw [ends_bind_of_ok (ends_resolve_ok hplace)] at h
      obtain ⟨found, hrest, rfl⟩ := ends_bind_pure.mp h
      obtain ⟨rfl, hmem⟩ := ih hrest
      refine ⟨rfl, fun current hok other hother otherPlace hresolve => ?_⟩
      cases found with
      | error e => simp [Except.map] at hok
      | ok later =>
        obtain rfl : Path.ofPlace place :: later = current := Except.ok.inj hok
        rcases List.mem_cons.mp hother with rfl | hlater
        · rw [hplace, Except.ok.injEq] at hresolve
          simp [hresolve]
        · exact List.mem_cons_of_mem _ (hmem later rfl other hlater otherPlace hresolve)

-- Cleaning up changes nothing before all paths are resolved and the manifest is read.
theorem cleanUp_cases {previous : Json} {files : List Text} {output : Path}
    {outcome : Except RunError (List Path)}
    (h : Ends (cleanUp previous files output) disk last outcome) :
    (last = disk ∧ ∃ e, outcome = .error e) ∨
      ∃ base current names, disk.resolve output = .ok base ∧
        Ends (resolveAll files) disk disk (.ok current) ∧ entries previous = .ok names ∧
        Ends (removeEntries (.ofPlace base) current (Text.sortDistinct names)) disk last outcome := by
  rw [cleanUp] at h
  cases hbase : disk.resolve output with
  | error e =>
    obtain ⟨rfl, rfl⟩ := (ends_bind_of_error (ends_resolve_error hbase)).mp h
    exact .inl ⟨rfl, _, rfl⟩
  | ok base =>
    rw [ends_bind_of_ok (ends_resolve_ok hbase)] at h
    rcases ends_bind.mp h with ⟨mid, current, hcurrent, hrest⟩ | ⟨e, hcurrent, rfl⟩
    · obtain ⟨rfl, _⟩ := resolveAll_ends hcurrent
      rcases ends_bind.mp hrest with ⟨_, names, hnames, hremove⟩ | ⟨e, hnames, rfl⟩
      · obtain ⟨rfl, hok⟩ := ends_ofExcept.mp hnames
        cases hentries : entries previous with
        | error e => simp [hentries] at hok
        | ok found =>
          simp only [hentries, mapError_ok, Except.ok.injEq] at hok
          exact .inr ⟨base, current, found, rfl, hcurrent, rfl, hok ▸ hremove⟩
      · obtain ⟨rfl, _⟩ := ends_ofExcept.mp hnames
        exact .inl ⟨rfl, e, rfl⟩
    · obtain ⟨rfl, _⟩ := resolveAll_ends hcurrent
      exact .inl ⟨rfl, e, rfl⟩

-- Cleaning up removes nothing else than files that the manifest lists, below the output directory, that
-- are neither generated now nor manifests, and directories there once they are empty. The loop over
-- directories always ends.
theorem cleanUp_removes (tree : disk.IsTree) (free : disk.LoopFree) {previous : Json}
    {elements : List Json} (listed : previous.field? "generatedFiles" = some (.arr elements))
    (files : List Text) (output : Text) :
    (∃ removals, Removes disk removals (cleanUp previous files (.ofText output) disk).1 ∧
      (∀ place, .file place ∈ removals → ∃ base entry,
        disk.resolve (.ofText output) = .ok base ∧ .str entry ∈ elements ∧
        disk.resolve (Path.child (.ofPlace base) entry) = .ok place ∧ IsBelow base place ∧
        (∀ file ∈ files, disk.resolve (.ofText file) ≠ .ok place) ∧
        place.getLast? ≠ some fileName) ∧
      (∀ place, .directory place ∈ removals → ∃ base,
        disk.resolve (.ofText output) = .ok base ∧ IsBelow base place) ∧
      (∀ place, Disk.entry? (cleanUp previous files (.ofText output) disk).1 place =
        if place ∈ removals.map Removal.place then none else disk.entry? place) ∧
      ∀ removed, (cleanUp previous files (.ofText output) disk).2.outcome = .ok removed →
        removed = removedFiles removals) ∧
    ∀ base place (now : Disk), ∃ removals last, Prunes base now place removals last ∧
      Ends (removeEmptyUp (.ofPlace base) place.reverse) now last (.ok ()) := by
  refine ⟨?_, fun base place now => removeEmptyUp_ends base now place⟩
  rcases cleanUp_cases (Ends.self (cleanUp previous files (.ofText output)) disk) with
    ⟨hsame, e, herror⟩ | ⟨base, current, names, hbase, hcurrent, hnames, hends⟩
  · rw [hsame, herror]
    exact ⟨[], .nothing disk, by simp, by simp, by simp, by simp⟩
  · have hreal : disk.IsReal base :=
      (resolves_of_resolve (free.loopless _) hbase).isReal tree (Path.isRead_ofText output)
    obtain ⟨removals, hremoves, hpermitted, hremoved⟩ :=
      removeEntries_removes tree hreal (fun entry _ => free.loopless _) hends
    refine ⟨removals, hremoves, ?_, ?_, hremoves.entry, hremoved⟩
    · intro place hplace
      obtain ⟨entry, hentry, hstale⟩ := hpermitted _ hplace
      have hmem : .str entry ∈ elements := by
        simp only [entries, listed, Except.ok.injEq] at hnames
        have hname := Text.mem_sortDistinct.mp hentry
        rw [← hnames, List.mem_filterMap] at hname
        obtain ⟨element, helement, htext⟩ := hname
        cases element with
        | str t =>
          rw [Json.text?, Option.some.injEq] at htext
          rwa [← htext]
        | _ => simp [Json.text?] at htext
      refine ⟨base, entry, hbase, hmem, hstale.resolve, hstale.below, ?_, hstale.other⟩
      intro file hfile hresolve
      exact hstale.old ((resolveAll_ends hcurrent).2 current rfl file hfile place hresolve)
    · intro place hplace
      exact ⟨base, hbase, hpermitted _ hplace⟩

-- A disk on which a link leads into the output directory, and a manifest that goes through it.
def linkedDisk : Disk where
  entries := [
    (["out"], .directory), (["out", "a"], .directory), (["out", "a", "old.ts"], .file []),
    (["link"], .link "out/a")]
  current := []

def linkedManifest : Json :=
  .obj [("generatedFiles", .arr [.str "../link/old.ts", .null])]

theorem linkedDisk_isTree : linkedDisk.IsTree :=
  .of_entries (by decide +kernel) (by decide +kernel) (by decide +kernel) (by decide +kernel)

theorem linkedDisk_loopFree : linkedDisk.LoopFree := by
  apply loopFree_of_real
  intro entry hentry target htarget
  simp only [linkedDisk, List.mem_cons, List.not_mem_nil, or_false] at hentry
  rcases hentry with rfl | rfl | rfl | rfl
  · cases htarget
  · cases htarget
  · cases htarget
  · cases htarget
    decide +kernel

-- The file goes with the directory that it leaves empty.
theorem cleanUp_removes_linked : ∃ removals,
    Removes linkedDisk removals (cleanUp linkedManifest [] (.ofText "out") linkedDisk).1 ∧
      (["out", "a", "old.ts"] : Place) ∈ removals.map Removal.place ∧
      (["out", "a"] : Place) ∈ removals.map Removal.place := by
  obtain ⟨⟨removals, hremoves, _, _, hentry, _⟩, _⟩ :=
    cleanUp_removes linkedDisk_isTree linkedDisk_loopFree
      (show linkedManifest.field? "generatedFiles" = some (.arr [.str "../link/old.ts", .null]) from rfl)
      [] "out"
  refine ⟨removals, hremoves, ?_, ?_⟩
  · by_contra hkept
    have hthere := hentry ["out", "a", "old.ts"]
    rw [if_neg hkept] at hthere
    revert hthere
    decide +kernel
  · by_contra hkept
    have hthere := hentry ["out", "a"]
    rw [if_neg hkept] at hthere
    revert hthere
    decide +kernel

end HookGen.Manifest
