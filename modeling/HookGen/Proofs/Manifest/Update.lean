import HookGen.Proofs.Manifest.Load
import HookGen.Proofs.Manifest.StaleFiles

/-!
From one generation to the next: the manifest that one generation leaves tells the next one which files
to remove.
-/

namespace HookGen.Manifest

open Disk Run

variable {disk last : Disk} {base : Place} {old files : List Text} {config : Config} {root : Path}

theorem FileAt.isReal {names : List Text} {file : Text} (h : FileAt base names file)
    (hclear : disk.IsClear base) : disk.IsReal (base ++ names) := hclear.isReal_append h.isName

-- A file below a directory that is no manifest.
def IsModule (base : Place) (file : Text) : Prop :=
  ∃ names, FileAt base names file ∧ names.getLast? ≠ some fileName

theorem IsModule.fileAt {file : Text} (h : IsModule base file) : FileAt base (wayTo base file) file := by
  obtain ⟨names, hfile, _⟩ := h
  rwa [hfile.wayTo_eq]

-- The text of a manifest file.
def textOf (now : Text) (schema : Schema) (clientPath : Text) (base : Place) (files : List Text) : Text :=
  Json.print style (listing now schema clientPath (files.map (entryName base))) ++ "\n"

-- The bytes of a manifest file that lists some files.
structure Lists (base : Place) (files : List Text) (bytes : Bytes) : Prop where
  isModule : ∀ file ∈ files, IsModule base file
  checked : ∀ file ∈ files, checkNames [] (base ++ wayTo base file) = .ok ()
  path : checkText (Path.ofPlace (placeIn base)).text = .ok ()
  text : ∃ now schema clientPath, Utf8.encode (textOf now schema clientPath base files) = .ok bytes

-- What a generation finds: a manifest with the files of the previous one, or none if there were none.
def Remembers (base : Place) (disk : Disk) (files : List Text) : Prop :=
  (files = [] ∧ ∀ bytes, disk.entry? (placeIn base) ≠ some (.file bytes)) ∨
    ∃ bytes, disk.entry? (placeIn base) = some (.file bytes) ∧ Lists base files bytes

theorem remembers_isModule (h : Remembers base disk files) : ∀ file ∈ files, IsModule base file := by
  rcases h with ⟨rfl, _⟩ | ⟨bytes, _, hlists⟩
  · simp
  · exact hlists.isModule

theorem isReal_placeIn (hclear : disk.IsClear base) : disk.IsReal (placeIn base) :=
  hclear.isReal_append (by simpa using isName_fileName)

-- Reading a manifest file gives the entries that it was written with.
theorem Lists.read {bytes : Bytes} (h : Lists base files bytes) (hbase : ∀ name ∈ base, IsName name) :
    ∃ t fields, Utf8.decode bytes = .ok t ∧ Json.read (normalizeLines t) = .ok (.obj fields) ∧
      fields ≠ [] ∧ entries (.obj fields) = .ok (Text.sort (files.map (entryName base))) := by
  obtain ⟨now, schema, clientPath, hencode⟩ := h.text
  have hrejoin : ∀ name ∈ files.map (entryName base), Json.rejoin name = name := by
    intro name hname
    obtain ⟨file, hfile, rfl⟩ := List.mem_map.mp hname
    exact rejoin_entryName (h.isModule file hfile).fileAt hbase (h.checked file hfile)
  obtain ⟨t, fields, hdecode, hjson, hne, hentries⟩ :=
    @read_fileText (files.map (entryName base)) now clientPath schema bytes hencode
  exact ⟨t, fields, hdecode, hjson, hne, by rw [hentries, map_rejoin_sort hrejoin]⟩

theorem load_of_remembers (tree : disk.IsTree) (hclear : disk.IsClear base)
    (hbase : disk.resolve (root.child config.output) = .ok base) (h : Remembers base disk old)
    {found : Option Json} (hload : Ends (load config root) disk last (.ok found)) :
    last = disk ∧ ((found = none ∧ old = []) ∨ ∃ fields, found = some (.obj fields) ∧ fields ≠ [] ∧
      entries (.obj fields) = .ok (Text.sort (old.map (entryName base)))) := by
  have hreal := isReal_placeIn hclear
  rcases h with ⟨hnil, hnone⟩ | ⟨bytes, hfile, hlists⟩
  · obtain ⟨rfl, hfound⟩ := load_of_no_file hbase hreal hnone hload
    exact ⟨rfl, .inl ⟨hfound, hnil⟩⟩
  · obtain ⟨t, fields, hdecode, hjson, hne, hentries⟩ := hlists.read hclear.real.names
    obtain ⟨rfl, hfound⟩ := load_of_file tree hbase hreal hfile hlists.path hdecode hjson hload
    exact ⟨rfl, .inr ⟨fields, hfound, hne, hentries⟩⟩

theorem resolveAll_of_isReal {current : List Path}
    (hfiles : ∀ file ∈ files, ∃ place, Path.ofText file = .ofPlace place ∧ disk.IsReal place)
    (h : Ends (resolveAll files) disk last (.ok current)) : current = files.map Path.ofText := by
  induction files generalizing current with
  | nil => exact (Except.ok.inj (ends_pure.mp h).2).symm
  | cons file rest ih =>
    obtain ⟨place, hplace, hreal⟩ := hfiles file (List.mem_cons_self ..)
    rw [resolveAll, ends_bind_ok] at h
    obtain ⟨mid, path, hfirst, h⟩ := h
    obtain ⟨rfl, found, hfound, rfl⟩ := resolve_of_ends hfirst
    rw [hplace] at hfound
    obtain ⟨_, rfl⟩ := resolve_ofPlace_eq_ok hreal hfound
    obtain ⟨others, hrest, hcurrent⟩ := ends_bind_pure.mp h
    cases others with
    | error e => simp [Except.map] at hcurrent
    | ok later =>
      have hlater := fun other hother => hfiles other (List.mem_cons_of_mem file hother)
      rw [← Except.ok.inj hcurrent, ih hlater hrest, List.map_cons, hplace]

theorem child_entryName {file : Text} (h : IsModule base file) :
    Path.child (.ofPlace base) (entryName base file) = Path.ofText file := by
  have hfile := h.fileAt
  rw [Path.child, entryName, Path.ofText_join hfile.ne_nil hfile.isName, hfile.path]
  rfl

-- Cleaning up removes the files of the previous generation that are not among the current ones, and no
-- other file.
theorem cleanUp_file_iff (tree : disk.IsTree) (hclear : disk.IsClear base) {previous : Json}
    (hentries : entries previous = .ok (Text.sort (old.map (entryName base))))
    (hold : ∀ file ∈ old, IsModule base file) (hfiles : ∀ file ∈ files, IsModule base file)
    {removed : List Path}
    (h : Ends (cleanUp previous files (.ofPlace base)) disk last (.ok removed)) :
    last.IsTree ∧ SameLinks disk last ∧ ∀ place content, last.entry? place = some (.file content) ↔
      disk.entry? place = some (.file content) ∧ ¬ ((∃ file ∈ old, Path.ofText file = .ofPlace place) ∧
        ∀ file ∈ files, Path.ofText file ≠ .ofPlace place) := by
  rcases cleanUp_cases h with ⟨_, e, herror⟩ | ⟨found, current, names, hfound, hcurrent, hnames, hends⟩
  · simp at herror
  · obtain ⟨_, rfl⟩ := resolve_ofPlace_eq_ok hclear.real hfound
    obtain rfl := Except.ok.inj (hentries.symm.trans hnames)
    have hreal : ∀ file, IsModule base file →
        ∃ place, Path.ofText file = .ofPlace place ∧ disk.IsReal place :=
      fun file hmodule => ⟨_, hmodule.fileAt.path, hmodule.fileAt.isReal hclear⟩
    obtain rfl := resolveAll_of_isReal (fun file hfile => hreal file (hfiles file hfile)) hcurrent
    have hmem (entry : Text) : entry ∈ Text.sortDistinct (Text.sort (old.map (entryName base))) ↔
        ∃ file ∈ old, entryName base file = entry := by
      simp
    have hnamed : ∀ entry ∈ Text.sortDistinct (Text.sort (old.map (entryName base))), ∃ named,
        Path.child (.ofPlace base) entry = .ofPlace named ∧ disk.IsReal named := by
      intro entry hentry
      obtain ⟨file, hfile, rfl⟩ := (hmem entry).mp hentry
      rw [child_entryName (hold file hfile)]
      exact hreal file (hold file hfile)
    have hloopless : ∀ entry ∈ Text.sortDistinct (Text.sort (old.map (entryName base))),
        disk.Loopless (Path.child (.ofPlace base) entry) := by
      intro entry hentry
      obtain ⟨named, hchild, hnamedReal⟩ := hnamed entry hentry
      rw [hchild]
      exact loopless_ofPlace hnamedReal
    obtain ⟨removals, hremoves, _⟩ := removeEntries_removes tree hclear.real hloopless hends
    refine ⟨hremoves.isTree tree, hremoves.sameLinks tree, fun place content => ?_⟩
    rw [removeEntries_file_iff tree hclear.real hnamed hends]
    refine and_congr_right fun _ => not_congr ⟨?_, ?_⟩
    · rintro ⟨entry, hentry, hchild, hdoomed⟩
      obtain ⟨file, hfile, rfl⟩ := (hmem entry).mp hentry
      rw [child_entryName (hold file hfile)] at hchild
      refine ⟨⟨file, hfile, hchild⟩, fun other hother heq => hdoomed.old ?_⟩
      exact List.mem_map.mpr ⟨other, hother, heq⟩
    · rintro ⟨⟨file, hfile, hplace⟩, hnew⟩
      refine ⟨_, (hmem _).mpr ⟨file, hfile, rfl⟩, (child_entryName (hold file hfile)).trans hplace, ?_⟩
      obtain ⟨names, hat, hlast⟩ := hold file hfile
      obtain rfl : base ++ names = place := congrArg Path.names (hat.path.symm.trans hplace)
      refine ⟨⟨List.prefix_append base names, by simp [hat.ne_nil]⟩, ?_, ?_⟩
      · intro hcurrentMem
        obtain ⟨other, hother, heq⟩ := List.mem_map.mp hcurrentMem
        exact hnew other hother heq
      · rwa [List.getLast?_append_of_ne_nil _ hat.ne_nil]

end HookGen.Manifest
