import HookGen.Proofs.Disk.Writable
import HookGen.Proofs.Manifest.Update

/-!
When cleaning up comes to its end: each entry of the manifest names a path that can be resolved and, if
that is one of a stale file, looked up.
-/

namespace HookGen.Manifest

open Disk Run

variable {disk last : Disk} {base : Place} {current : List Path} {entry : Text} {listed files : List Text}

-- What removing an entry asks the disk has an answer.
def Answered (disk : Disk) (base : Place) (current : List Path) (entry : Text) : Prop :=
  ∃ place, disk.resolve (Path.child (.ofPlace base) entry) = .ok place ∧
    (Stale disk base current entry place → ∃ there, disk.isFile (.ofPlace place) = .ok there)

theorem removeEntry_ends_iff :
    (∃ removed last, Ends (removeEntry (.ofPlace base) current entry) disk last (.ok removed)) ↔
      Answered disk base current entry := by
  constructor
  · rintro ⟨removed, last, h⟩
    rcases removeEntry_cases h with ⟨rfl, hkept⟩ | ⟨place, _, hstale, hfile, _⟩
    · obtain ⟨_, place, hplace, hnot⟩ := hkept removed rfl
      exact ⟨place, hplace, fun hstale => ⟨false, hnot hstale⟩⟩
    · exact ⟨place, hstale.resolve, fun _ => ⟨true, hfile⟩⟩
  · rintro ⟨place, hplace, hask⟩
    rw [removeEntry]
    simp only [ends_bind_of_ok (ends_resolve_ok hplace)]
    by_cases hbelow : isBelow (.ofPlace base) (.ofPlace place) = true
    · simp only [hbelow, Bool.not_true, Bool.false_eq_true, if_false]
      by_cases hkept : (current.contains (.ofPlace place) || (Path.ofPlace place).name == fileName) = true
      · simp only [hkept, if_true]
        exact ⟨none, disk, rfl, rfl⟩
      · have hstale : Stale disk base current entry place := by
          simp only [Bool.or_eq_true, List.contains_iff_mem, beq_iff_eq, name_eq_fileName, not_or] at hkept
          exact ⟨hplace, (isBelow_ofPlace base place).mp hbelow, hkept.1, hkept.2⟩
        obtain ⟨there, hthere⟩ := hask hstale
        simp only [hkept, if_false, Bool.false_eq_true]
        cases there with
        | false => exact ⟨none, disk, (ends_bind_of_ok (ends_query_ok hthere)).mpr ⟨rfl, rfl⟩⟩
        | true =>
          obtain ⟨_, pruned, _, hends⟩ := removeEmptyUp_ends base (disk.erase place) place.dropLast
          refine ⟨some (.ofPlace place), pruned, (ends_bind_of_ok (ends_query_ok hthere)).mpr ?_⟩
          simp only [Bool.not_true, Bool.false_eq_true, if_false]
          exact (ends_bind_of_ok (ends_change_ok rfl)).mpr
            (ends_log_bind.mpr ((ends_bind_of_ok hends).mpr ⟨rfl, rfl⟩))
    · simp only [hbelow, Bool.not_false, if_true]
      exact ⟨none, disk, (ends_log_bind).mpr ⟨rfl, rfl⟩⟩

-- Each entry has its answers once those before it are cleaned up.
def Passes (disk : Disk) (base : Place) (current : List Path) (listed : List Text) : Prop :=
  ∀ before entry after, listed = before ++ entry :: after → ∀ removed mid,
    Ends (removeEntries (.ofPlace base) current before) disk mid (.ok removed) →
      Answered mid base current entry

theorem ends_removeEntries_cons {removed : List Path} :
    Ends (removeEntries (.ofPlace base) current (entry :: listed)) disk last (.ok removed) ↔
      ∃ mid first, Ends (removeEntry (.ofPlace base) current entry) disk mid (.ok first) ∧
        ∃ others, Ends (removeEntries (.ofPlace base) current listed) mid last (.ok others) ∧
          first.toList ++ others = removed := by
  rw [removeEntries, ends_bind_ok]
  exact exists_congr fun mid => exists_congr fun first => and_congr_right fun _ => ends_bind_pure_ok

theorem removeEntries_ends_iff :
    (∃ removed last, Ends (removeEntries (.ofPlace base) current listed) disk last (.ok removed)) ↔
      Passes disk base current listed := by
  induction listed generalizing disk with
  | nil => simp [removeEntries, Passes]
  | cons entry rest ih =>
    constructor
    · rintro ⟨removed, last, h⟩ before other after hsplit found mid hbefore
      obtain ⟨next, first, hfirst, others, hrest, _⟩ := ends_removeEntries_cons.mp h
      cases before with
      | nil =>
        obtain ⟨rfl, rfl⟩ := List.cons_eq_cons.mp hsplit
        obtain ⟨rfl, _⟩ := ends_pure.mp hbefore
        exact removeEntry_ends_iff.mp ⟨first, next, hfirst⟩
      | cons _ before =>
        obtain ⟨rfl, rfl⟩ := List.cons_eq_cons.mp hsplit
        obtain ⟨next', first', hfirst', others', hbefore, _⟩ := ends_removeEntries_cons.mp hbefore
        obtain ⟨rfl, _⟩ := hfirst.unique hfirst'
        exact ih.mp ⟨others, last, hrest⟩ before other after rfl others' mid hbefore
    · intro hpasses
      obtain ⟨first, mid, hfirst⟩ := removeEntry_ends_iff.mpr (hpasses [] entry rest rfl [] disk ⟨rfl, rfl⟩)
      have hlater : Passes mid base current rest := by
        intro before other after hsplit found next hbefore
        refine hpasses (entry :: before) other after (by rw [hsplit, List.cons_append]) (first.toList ++ found)
          next ?_
        exact ends_removeEntries_cons.mpr ⟨mid, first, hfirst, found, hbefore, rfl⟩
      obtain ⟨others, last, hrest⟩ := ih.mpr hlater
      exact ⟨_, last, ends_removeEntries_cons.mpr ⟨mid, first, hfirst, others, hrest, rfl⟩⟩

-- Entries that lead out of the output directory are passed over.
theorem passes_of_outside (h : ∀ entry ∈ listed, ∃ place,
    disk.resolve (Path.child (.ofPlace base) entry) = .ok place ∧ ¬ IsBelow base place) :
    Passes disk base current listed := by
  refine removeEntries_ends_iff.mp ⟨[], disk, ?_⟩
  induction listed with
  | nil => exact ⟨rfl, rfl⟩
  | cons entry rest ih =>
    obtain ⟨⟨place, hplace, houtside⟩, hrest⟩ := List.forall_mem_cons.mp h
    refine ends_removeEntries_cons.mpr ⟨disk, none, ?_, [], ih hrest, rfl⟩
    rw [removeEntry, ends_bind_of_ok (ends_resolve_ok hplace), if_pos]
    · exact ends_log_bind.mpr ⟨rfl, rfl⟩
    · simpa [← isBelow_ofPlace] using houtside

-- So are entries of modules: each is a place below the output directory, the files of which can be looked up.
theorem passes_of_isModule (tree : disk.IsTree) (hclear : disk.IsClear base) {old : List Text}
    (hlisted : ∀ entry ∈ listed, ∃ file ∈ old, entryName base file = entry)
    (hold : ∀ file ∈ old, IsModule base file ∧ checkNames [] (base ++ wayTo base file) = .ok () ∧
      ∀ part ∈ base ++ wayTo base file, isTooLong part = false) :
    Passes disk base current listed := by
  intro before entry after hsplit removed mid hbefore
  have hnamed : ∀ other ∈ listed, ∃ file ∈ old, Path.child (.ofPlace base) other =
      .ofPlace (base ++ wayTo base file) ∧ disk.IsReal (base ++ wayTo base file) := by
    intro other hother
    obtain ⟨file, hfile, rfl⟩ := hlisted other hother
    have hat := (hold file hfile).1.fileAt
    exact ⟨file, hfile, (child_entryName (hold file hfile).1).trans hat.path, hat.isReal hclear⟩
  have hloopless : ∀ other ∈ before, disk.Loopless (Path.child (.ofPlace base) other) := by
    intro other hother
    obtain ⟨file, _, hchild, hreal⟩ := hnamed other (by simp [hsplit, hother])
    rw [hchild]
    exact loopless_ofPlace hreal
  obtain ⟨removals, hremoves, _⟩ := removeEntries_removes tree hclear.real hloopless hbefore
  obtain ⟨file, hfile, hchild, hreal⟩ := hnamed entry (by simp [hsplit])
  obtain ⟨_, hchecked, hfits⟩ := hold file hfile
  have hmid := (hremoves.sameLinks tree).isReal hreal
  refine ⟨base ++ wayTo base file, ?_, fun _ => exists_isFile hmid hfits⟩
  rw [hchild, resolve_ofPlace hmid, hchecked]
  rfl

-- Cleaning up ends if all entries pass.
theorem cleanUp_ends_iff {previous : Json} (hbase : disk.resolve (.ofPlace base) = .ok base)
    (hcurrent : Ends (resolveAll files) disk disk (.ok current)) :
    (∃ removed last, Ends (cleanUp previous files (.ofPlace base)) disk last (.ok removed)) ↔
      ∃ names, entries previous = .ok names ∧ Passes disk base current (Text.sortDistinct names) := by
  constructor
  · rintro ⟨removed, last, h⟩
    rcases cleanUp_cases h with ⟨_, _, herror⟩ | ⟨found, current', names, hfound, hcurrent', hnames, hends⟩
    · simp at herror
    · obtain rfl := Except.ok.inj (hbase.symm.trans hfound)
      obtain rfl := Except.ok.inj (hcurrent.unique hcurrent').2
      exact ⟨names, hnames, removeEntries_ends_iff.mp ⟨removed, last, hends⟩⟩
  · rintro ⟨names, hnames, hpasses⟩
    obtain ⟨removed, last, hends⟩ := removeEntries_ends_iff.mpr hpasses
    have hentries : Ends (ofExcept id (entries previous)) disk disk (.ok names) :=
      ends_ofExcept.mpr ⟨rfl, by rw [hnames]; rfl⟩
    exact ⟨removed, last, (ends_bind_of_ok (ends_resolve_ok hbase)).mpr
      ((ends_bind_of_ok hcurrent).mpr ((ends_bind_of_ok hentries).mpr hends))⟩

-- All paths that a manifest has names for can be resolved.
theorem resolveAll_of_calls {output : Path} {names : List Text}
    (h : List.Forall₂ (Calls disk output) files names) :
    ∃ current, Ends (resolveAll files) disk disk (.ok current) := by
  induction h with
  | nil => exact ⟨[], rfl, rfl⟩
  | cons hname _ ih =>
    obtain ⟨_, _, _, hplace, _⟩ := hname
    obtain ⟨current, hcurrent⟩ := ih
    exact ⟨_, (ends_bind_of_ok (ends_resolve_ok hplace)).mpr (ends_bind_pure_ok.mpr ⟨current, hcurrent, rfl⟩)⟩

-- What files are called depends on links only.
theorem Calls.congr {other : Disk} {output : Path} {file name : Text} (free : disk.LoopFree) (tree : disk.IsTree)
    (hread : output.IsRead) (hlinks : SameLinks disk other) (h : Calls disk output file name) :
    Calls other output file name := by
  have hresolve {path : Path} {place : Place} (hpath : path.IsRead) (hplace : disk.resolve path = .ok place) :
      other.resolve path = .ok place :=
    resolve_congr hlinks ((resolves_of_resolve (free.loopless path) hplace).isReal tree hpath) hplace
  obtain ⟨base, names, hbase, hplace, hname⟩ := h
  exact ⟨base, names, hresolve hread hbase, hresolve (Path.isRead_ofText file) hplace, hname⟩

-- Cleaning up spares the manifest itself.
theorem cleanUp_spares {previous : Json} {removed : List Path} {bytes : Bytes} (tree : disk.IsTree)
    (hreal : disk.IsReal base) (loopless : ∀ names, entries previous = .ok names →
      ∀ entry ∈ names, disk.Loopless (Path.child (.ofPlace base) entry))
    (hfile : disk.entry? (placeIn base) = some (.file bytes))
    (h : Ends (cleanUp previous files (.ofPlace base)) disk last (.ok removed)) :
    last.IsTree ∧ SameLinks disk last ∧ last.entry? (placeIn base) = some (.file bytes) := by
  rcases cleanUp_cases h with ⟨_, _, herror⟩ | ⟨found, current, names, hfound, _, hnames, hends⟩
  · simp at herror
  · obtain ⟨_, rfl⟩ := resolve_ofPlace_eq_ok hreal hfound
    have hloopless : ∀ entry ∈ Text.sortDistinct names, disk.Loopless (Path.child (.ofPlace base) entry) :=
      fun entry hentry => loopless names hnames entry (Text.mem_sortDistinct.mp hentry)
    obtain ⟨removals, hremoves, hpermitted, _⟩ := removeEntries_removes tree hreal hloopless hends
    refine ⟨hremoves.isTree tree, hremoves.sameLinks tree, ?_⟩
    have hkept : placeIn base ∉ removals.map Removal.place := by
      intro hmem
      obtain ⟨removal, hremoval, hplace⟩ := List.mem_map.mp hmem
      cases removal with
      | file place =>
        obtain rfl : place = placeIn base := hplace
        obtain ⟨_, _, hstale⟩ := hpermitted _ hremoval
        exact hstale.other (List.getLast?_concat ..)
      | directory place =>
        obtain rfl : place = placeIn base := hplace
        simp [directory_of_mem hremoves hremoval] at hfile
    rw [hremoves.entry, if_neg hkept, hfile]

end HookGen.Manifest
