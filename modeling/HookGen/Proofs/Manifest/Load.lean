import HookGen.Proofs.Manifest.Listing

/-!
Loading the manifest of the previous generation: a readable one is found, and without a file there is
none.
-/

namespace HookGen.Manifest

open Disk Run

variable {disk last : Disk} {base : Place} {config : Config} {root : Path}

-- Where the manifest of an output directory is.
def placeIn (base : Place) : Place := base ++ [fileName]

theorem isName_fileName : IsName fileName := by decide

theorem path_ends (hbase : disk.resolve (root.child config.output) = .ok base) :
    Ends (path config root) disk disk (.ok (.ofPlace (placeIn base))) := by
  have houtput : Ends (config.outputPath root) disk disk (.ok (.ofPlace base)) :=
    ends_resolve_ok hbase
  rw [path, ends_bind_of_ok houtput, Path.child_of_isName _ isName_fileName]
  exact ⟨rfl, rfl⟩

-- What the bytes of a manifest file say: the manifest is an object, or does not count, or is what makes a
-- run fail.
def loaded (bytes : Bytes) : Except RunError (Option Json) :=
  match Utf8.decode bytes with
  | .error e => .error (.unreadable e)
  | .ok t =>
    match Json.read (normalizeLines t) with
    | .error (.tooManyDigits count) => .error (.numberTooLong (.tooManyDigits count))
    | .error _ => .ok none
    | .ok (.obj fields) => .ok (some (.obj fields))
    | .ok _ => .ok none

-- A manifest file that is found is read.
theorem load_of_find (hbase : disk.resolve (root.child config.output) = .ok base) {place : Place}
    {bytes : Bytes} (hfind : disk.find (.ofPlace (placeIn base)) = .ok (place, .file bytes))
    (hchecked : checkText (Path.ofPlace (placeIn base)).text = .ok ()) :
    Ends (load config root) disk disk (loaded bytes) := by
  have hthere : disk.pathExists (.ofPlace (placeIn base)) = .ok true := by
    simp [Disk.pathExists, ask, hchecked, hfind]
  have hread : disk.read (.ofPlace (placeIn base)) = .ok bytes := by
    simp [Disk.read, hchecked, hfind, refuse, bind, Except.bind, pure, Except.pure]
  rw [load, ends_bind_of_ok (path_ends hbase)]
  refine (ends_bind_of_ok (ends_query_ok hthere)).mpr ?_
  simp only [Bool.not_true, Bool.false_eq_true, if_false]
  have htext : Ends (some <$> readText (.ofPlace (placeIn base))) disk disk
      ((((Utf8.decode bytes).mapError .unreadable).map normalizeLines).map some) :=
    ends_bind_pure.mpr ⟨_, ends_readText hread, rfl⟩
  rw [loaded]
  cases hdecode : Utf8.decode bytes with
  | error e =>
    rw [hdecode] at htext
    rw [ends_bind_of_error (ends_orElse.mpr (.inr ⟨_, _, htext, ⟨rfl, rfl⟩⟩))]
    exact ⟨rfl, rfl⟩
  | ok t =>
    rw [hdecode] at htext
    rw [ends_bind_of_ok (ends_orElse.mpr (.inl ⟨_, htext, rfl⟩))]
    dsimp only
    cases Json.read (normalizeLines t) with
    | error e => cases e <;> exact ⟨rfl, rfl⟩
    | ok manifest => cases manifest <;> exact ⟨rfl, rfl⟩

-- A readable manifest is loaded.
theorem load_of_file (tree : disk.IsTree) (hbase : disk.resolve (root.child config.output) = .ok base)
    (hreal : disk.IsReal (placeIn base)) {bytes : Bytes}
    (hfile : disk.entry? (placeIn base) = some (.file bytes))
    (hchecked : checkText (Path.ofPlace (placeIn base)).text = .ok ()) {t : Text}
    (hdecode : Utf8.decode bytes = .ok t) {fields : List (Text × Json)}
    (hjson : Json.read (normalizeLines t) = .ok (.obj fields)) {found : Option Json}
    (h : Ends (load config root) disk last (.ok found)) :
    last = disk ∧ found = some (.obj fields) := by
  rcases find_of_entry tree hreal hfile with hfind | hfind
  · have hloaded : loaded bytes = .ok (some (.obj fields)) := by rw [loaded, hdecode]; simp only [hjson]
    obtain ⟨rfl, hfound⟩ := h.unique (hloaded ▸ load_of_find hbase hfind hchecked)
    exact ⟨rfl, Except.ok.inj hfound⟩
  · have hfault : disk.pathExists (.ofPlace (placeIn base)) =
        .error (.refused .nameTooLong (Path.ofPlace (placeIn base)).text) := by
      simp [Disk.pathExists, ask, hchecked, hfind]
    rw [load, ends_bind_of_ok (path_ends hbase)] at h
    have hfailed := (ends_bind_of_error (ends_query_error hfault)).mp h
    simp at hfailed

theorem read_of_no_file {place : Place} (hreal : disk.IsReal place)
    (hnone : ∀ bytes, disk.entry? place ≠ some (.file bytes))
    (hthere : disk.pathExists (.ofPlace place) = .ok true) :
    disk.read (.ofPlace place) = .error (.refused .isADirectory (Path.ofPlace place).text) := by
  rw [Disk.pathExists, ask] at hthere
  split at hthere
  · simp at hthere
  · rename_i hchecked
    split at hthere
    · rename_i found entry hfind
      have hentry := (find_of_isReal hreal hfind).2
      cases entry with
      | file bytes => exact absurd hentry (hnone bytes)
      | _ => simp [Disk.read, hchecked, hfind, refuse, bind, Except.bind]
    · simp at hthere
    · simp at hthere

-- Where there is no file, there is no manifest. A directory in its place is unreadable.
theorem load_of_no_file (hbase : disk.resolve (root.child config.output) = .ok base)
    (hreal : disk.IsReal (placeIn base))
    (hnone : ∀ bytes, disk.entry? (placeIn base) ≠ some (.file bytes)) {found : Option Json}
    (h : Ends (load config root) disk last (.ok found)) : last = disk ∧ found = none := by
  rw [load, ends_bind_of_ok (path_ends hbase)] at h
  cases hthere : disk.pathExists (.ofPlace (placeIn base)) with
  | error e =>
    have hfailed := (ends_bind_of_error (ends_query_error hthere)).mp h
    simp at hfailed
  | ok there =>
    have hrest := (ends_bind_of_ok (ends_query_ok hthere)).mp h
    cases there with
    | false =>
      simp only [Bool.not_false, if_true, ends_pure, Except.ok.injEq] at hrest
      exact ⟨hrest.1.symm, hrest.2.symm⟩
    | true =>
      simp only [Bool.not_true, Bool.false_eq_true, if_false] at hrest
      have hread := readText_ends_error (read_of_no_file hreal hnone hthere)
      have hsome : Ends (some <$> readText (.ofPlace (placeIn base))) disk disk
          (.error (.disk (.refused .isADirectory (Path.ofPlace (placeIn base)).text))) :=
        ends_bind_pure.mpr ⟨_, hread, rfl⟩
      rw [ends_bind_of_ok (ends_orElse.mpr (.inr ⟨_, _, hsome, (ends_bind_of_ok
        (ends_log_bind.mpr ⟨rfl, rfl⟩)).mpr ⟨rfl, rfl⟩⟩))] at hrest
      simp only [ends_pure, Except.ok.injEq] at hrest
      exact ⟨hrest.1.symm, hrest.2.symm⟩

end HookGen.Manifest
