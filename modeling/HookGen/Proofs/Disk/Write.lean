import HookGen.Proofs.Disk.Lookup
import HookGen.Proofs.Run

/-!
What writing a file does to a disk: the file holds the text, directories may be made above it, and
nothing else changes.
-/

namespace HookGen.Disk

open Run

variable {disk mid last : Disk} {place : Place} {path : Path}

-- A place is as it was, or was free and holds a directory now.
def Kept (disk last : Disk) (place : Place) : Prop :=
  last.entry? place = disk.entry? place ∨
    disk.entry? place = none ∧ last.entry? place = some .directory

theorem Kept.trans (h : Kept disk mid place) (h' : Kept mid last place) : Kept disk last place := by
  rcases h with hsame | ⟨hfree, hmade⟩
  · unfold Kept
    rw [← hsame]
    exact h'
  · rcases h' with hsame | ⟨hfree', _⟩
    · exact .inr ⟨hfree, hsame.trans hmade⟩
    · rw [hmade] at hfree'
      simp at hfree'

-- Some free places have become directories, and nothing else has changed.
structure Grows (disk last : Disk) : Prop where
  tree : last.IsTree
  links : SameLinks disk last
  kept : ∀ place, Kept disk last place

theorem Grows.refl (tree : disk.IsTree) : Grows disk disk := ⟨tree, .refl disk, fun _ => .inl rfl⟩

theorem Grows.trans (h : Grows disk mid) (h' : Grows mid last) : Grows disk last :=
  ⟨h'.tree, h.links.trans h'.links, fun place => (h.kept place).trans (h'.kept place)⟩

theorem linkAt?_of_none (h : disk.entry? place = none) : disk.linkAt? place = none := by
  simp [linkAt?, h]

-- A new directory goes under a new name into one that is there.
theorem freePlace_eq_ok : disk.freePlace path = .ok place ↔ ∃ above,
    disk.locate true path.parent = .ok above ∧ disk.entry? above = some .directory ∧ path.names ≠ [] ∧
      path.name ≠ ".." ∧ isTooLong path.name = false ∧ disk.entry? (above ++ [path.name]) = none ∧
      above ++ [path.name] = place := by
  rw [freePlace]
  cases hlocate : disk.locate true path.parent with
  | error fault => simp [bind, Except.bind]
  | ok above =>
    simp only [bind, Except.bind, Except.ok.injEq, exists_eq_left']
    cases hentry : disk.entry? above with
    | none => simp
    | some entry =>
      cases entry with
      | directory =>
        by_cases hnames : path.names = [] <;> by_cases hpoints : path.name = ".." <;>
          by_cases hfits : isTooLong path.name = true <;>
          cases hthere : disk.entry? (above ++ [path.name]) <;> simp [hnames, hpoints, hfits]
      | _ => simp

theorem freePlace_cases (hread : path.IsRead) (h : disk.freePlace path = .ok place) :
    ∃ above name, place = above ++ [name] ∧ IsName name ∧ disk.entry? above = some .directory ∧
      disk.entry? (above ++ [name]) = none := by
  obtain ⟨above, _, hdirectory, hnames, hpoints, _, hfree, rfl⟩ := freePlace_eq_ok.mp h
  have hname : path.name = path.names.getLast hnames := by
    simp [Path.name, List.getLast?_eq_getLast_of_ne_nil hnames]
  exact ⟨above, path.name, rfl, hread _ (hname ▸ List.getLast_mem hnames) hpoints, hdirectory, hfree⟩

-- Directories above it are missing.
theorem freePlace_eq_missing : disk.freePlace path = .error .missing ↔
    disk.locate true path.parent = .error .missing ∨
      ∃ above, disk.locate true path.parent = .ok above ∧ disk.entry? above = none := by
  rw [freePlace]
  cases hlocate : disk.locate true path.parent with
  | error fault => simp [bind, Except.bind]
  | ok above =>
    simp only [bind, Except.bind, Except.ok.injEq, exists_eq_left', reduceCtorEq, false_or]
    cases hentry : disk.entry? above with
    | none => simp
    | some entry =>
      cases entry with
      | directory =>
        by_cases hnames : path.names = [] <;> by_cases hpoints : path.name = ".." <;>
          by_cases hfits : isTooLong path.name = true <;>
          cases hthere : disk.entry? (above ++ [path.name]) <;> simp [hnames, hpoints, hfits]
      | _ => simp

theorem makeDirectory_eq (hchecked : checkText path.text = .ok ()) : disk.makeDirectory path =
    ((disk.freePlace path).mapError (DiskError.refused · path.text)).map (disk.put · .directory) := by
  rw [makeDirectory, hchecked]
  cases hfree : disk.freePlace path <;> rfl

theorem makeDirectory_eq_ok : disk.makeDirectory path = .ok last ↔
    checkText path.text = .ok () ∧ ∃ place, disk.freePlace path = .ok place ∧
      disk.put place .directory = last := by
  cases hcheck : checkText path.text with
  | error e => simp [makeDirectory, hcheck, bind, Except.bind]
  | ok done =>
    rw [makeDirectory_eq hcheck]
    cases hfree : disk.freePlace path <;> simp [Except.map]

theorem makeDirectory_eq_refused {fault : Fault} {t : Text} :
    disk.makeDirectory path = .error (.refused fault t) ↔
      checkText path.text = .ok () ∧ disk.freePlace path = .error fault ∧ path.text = t := by
  cases hcheck : checkText path.text with
  | error e =>
    have hnot : e ≠ .refused fault t := by
      rintro rfl
      rw [checkText] at hcheck
      split at hcheck
      · simp at hcheck
      · split at hcheck <;> simp at hcheck
    simp [makeDirectory, hcheck, bind, Except.bind, hnot]
  | ok done =>
    rw [makeDirectory_eq hcheck]
    cases hfree : disk.freePlace path <;> simp [Except.map]

theorem makeDirectory_grows (tree : disk.IsTree) (hread : path.IsRead)
    (h : disk.makeDirectory path = .ok last) : Grows disk last := by
  obtain ⟨_, found, hfree, rfl⟩ := makeDirectory_eq_ok.mp h
  obtain ⟨above, name, rfl, hname, hdirectory, hnone⟩ := freePlace_cases hread hfree
  refine ⟨tree.put hname hdirectory (by simp) (by simp [hnone]),
    .put tree (by simp) (linkAt?_of_none hnone) (by simp), fun other => ?_⟩
  unfold Kept
  rw [entry_put (by simp)]
  split
  · rename_i heq
    exact .inr ⟨heq ▸ hnone, rfl⟩
  · exact .inl rfl

theorem ask_eq_error {question : Entry → Bool} {e : DiskError} (h : disk.ask path question = .error e) :
    e = .refused .nameTooLong path.text := by
  rw [ask] at h
  split at h
  · simp at h
  · split at h
    · simp at h
    · exact (Except.error.inj h).symm
    · simp at h

theorem isDirectory_eq_true : disk.isDirectory path = .ok true ↔ checkText path.text = .ok () ∧
    ∃ found, disk.locate true path = .ok found ∧ disk.entry? found = some .directory := by
  rw [Disk.isDirectory, ask, find]
  cases hcheck : checkText path.text with
  | error e => simp
  | ok done =>
    cases hlocate : disk.locate true path with
    | error fault => cases fault <;> simp [bind, Except.bind]
    | ok found => cases hentry : disk.entry? found <;> simp [bind, Except.bind, pure, Except.pure, hentry]

-- How making one directory can end: there is a new one, or nothing changes, as it is there already or as
-- the disk refuses it.
theorem makeLastDirectory_cases {outcome : Except RunError Unit}
    (h : Ends (makeLastDirectory path) disk last outcome) :
    disk.makeDirectory path = .ok last ∧ outcome = .ok () ∨ disk = last ∧
      (((∃ fault, fault ≠ .missing ∧ disk.makeDirectory path = .error (.refused fault path.text)) ∧
          disk.isDirectory path = .ok true ∧ outcome = .ok ()) ∨
        ∃ e, outcome = .error (.disk e) ∧
          ∀ t, e = .refused .missing t → disk.makeDirectory path = .error e) := by
  rw [makeLastDirectory, ends_orElse] at h
  rcases h with ⟨_, hmade, rfl⟩ | ⟨mid, first, hfailed, hhandle⟩
  · rcases ends_change.mp hmade with ⟨_, hmade, _⟩ | ⟨_, _, _, herror⟩
    · cases hmake : disk.makeDirectory path with
      | error e => simp [hmake, bind, Except.bind] at hmade
      | ok made =>
        simp only [hmake, bind, Except.bind, pure, Except.pure, Except.ok.injEq, Prod.mk.injEq] at hmade
        exact .inl ⟨congrArg Except.ok hmade.1, rfl⟩
    · simp at herror
  · rcases ends_change.mp hfailed with ⟨_, _, hok⟩ | ⟨e, hmake, rfl, herror⟩
    · simp at hok
    · obtain rfl := Except.error.inj herror
      have hrefused : disk.makeDirectory path = .error e := by
        cases hmake' : disk.makeDirectory path with
        | error e' => simpa [hmake', bind, Except.bind] using hmake
        | ok made => simp [hmake', bind, Except.bind, pure, Except.pure] at hmake
      right
      -- the answer to a failure only asks whether the directory is there already
      cases e with
      | refused fault t =>
        by_cases hfault : fault = .missing
        · subst hfault
          obtain ⟨rfl, rfl⟩ := ends_fail.mp hhandle
          exact ⟨rfl, .inr ⟨_, rfl, fun _ _ => hrefused⟩⟩
        · have hask : Ends (do
              if ← query fun disk => disk.isDirectory path then done ()
              else fail (.disk (.refused fault t))) disk last outcome := by
            cases fault <;> first | exact absurd rfl hfault | exact hhandle
          rcases ends_bind.mp hask with ⟨_, there, hquery, hrest⟩ | ⟨_, hquery, rfl⟩
          · obtain ⟨rfl, hthere⟩ := ends_query.mp hquery
            cases there with
            | true =>
              obtain ⟨rfl, rfl⟩ := ends_done.mp hrest
              have hisDirectory : disk.isDirectory path = .ok true := by
                cases hdirectory : disk.isDirectory path with
                | error e => simp [hdirectory] at hthere
                | ok found => simpa [hdirectory] using hthere
              obtain ⟨_, _, rfl⟩ := makeDirectory_eq_refused.mp hrefused
              exact ⟨rfl, .inl ⟨⟨fault, hfault, hrefused⟩, hisDirectory, rfl⟩⟩
            | false =>
              obtain ⟨rfl, rfl⟩ := ends_fail.mp hrest
              refine ⟨rfl, .inr ⟨_, rfl, fun other heq => ?_⟩⟩
              exact absurd (DiskError.refused.inj heq).1 hfault
          · obtain ⟨rfl, hfailed⟩ := ends_query.mp hquery
            cases hdirectory : disk.isDirectory path with
            | error e' =>
              obtain rfl := ask_eq_error hdirectory
              simp only [hdirectory, mapError_error, Except.error.injEq] at hfailed
              exact ⟨rfl, .inr ⟨_, congrArg Except.error hfailed.symm, by simp⟩⟩
            | ok there => simp [hdirectory] at hfailed
      | _ =>
        obtain ⟨rfl, rfl⟩ := ends_fail.mp hhandle
        exact ⟨rfl, .inr ⟨_, rfl, by simp⟩⟩

theorem makeLastDirectory_grows (tree : disk.IsTree) (hread : path.IsRead)
    {outcome : Except RunError Unit}
    (h : Ends (makeLastDirectory path) disk last outcome) : Grows disk last := by
  rcases makeLastDirectory_cases h with ⟨hmade, _⟩ | ⟨rfl, _⟩
  · exact makeDirectory_grows tree hread hmade
  · exact .refl tree

theorem makeLastDirectory_of_made (h : disk.makeDirectory path = .ok last) :
    Ends (makeLastDirectory path) disk last (.ok ()) := by
  rw [makeLastDirectory, ends_orElse]
  exact .inl ⟨(), ends_change_ok (by rw [h]; rfl), rfl⟩

theorem makeLastDirectory_of_there {fault : Fault} (hfault : fault ≠ .missing)
    (h : disk.makeDirectory path = .error (.refused fault path.text))
    (hthere : disk.isDirectory path = .ok true) : Ends (makeLastDirectory path) disk disk (.ok ()) := by
  have hchange : Ends (change fun disk => do return (← disk.makeDirectory path, ()))
      disk disk (.error (.disk (.refused fault path.text))) :=
    ends_change.mpr (.inr ⟨_, by rw [h]; rfl, rfl, rfl⟩)
  rw [makeLastDirectory, ends_orElse]
  refine .inr ⟨disk, _, hchange, ?_⟩
  cases fault <;>
    first
    | exact absurd rfl hfault
    | exact (ends_bind_of_ok (ends_query_ok hthere)).mpr ⟨rfl, rfl⟩

theorem makeLastDirectory_of_missing {t : Text} (h : disk.makeDirectory path = .error (.refused .missing t)) :
    Ends (makeLastDirectory path) disk disk (.error (.disk (.refused .missing t))) := by
  have hchange : Ends (change fun disk => do return (← disk.makeDirectory path, ()))
      disk disk (.error (.disk (.refused .missing t))) :=
    ends_change.mpr (.inr ⟨_, by rw [h]; rfl, rfl, rfl⟩)
  rw [makeLastDirectory, ends_orElse]
  exact .inr ⟨disk, _, hchange, ⟨rfl, rfl⟩⟩

-- A directory that is there is not made again.
theorem makeDirectory_of_isDirectory (hread : path.IsRead) (hthere : disk.isDirectory path = .ok true) :
    ∃ fault, fault ≠ .missing ∧ disk.makeDirectory path = .error (.refused fault path.text) := by
  obtain ⟨hchecked, found, hlocate, hfound⟩ := isDirectory_eq_true.mp hthere
  -- its parent is a directory, so that nothing is missing, and its name is taken
  have hparent : ∃ above, disk.locate true path.parent = .ok above ∧
      disk.entry? above = some .directory ∧ (path.names ≠ [] → path.name ≠ ".." →
        disk.entry? (above ++ [path.name]) ≠ none) := by
    by_cases hnames : path.names = []
    · have hsame : path.parent = path := by
        rw [Path.parent, hnames]
        exact congrArg (Path.mk path.anchor) hnames.symm
      exact ⟨found, hsame.symm ▸ hlocate, hfound, fun hne => absurd hnames hne⟩
    · obtain ⟨above, rest, habove, hwalks⟩ := locate_parent hnames hlocate
      have hname : path.name = path.names.getLast hnames := by
        simp [Path.name, List.getLast?_eq_getLast_of_ne_nil hnames]
      obtain ⟨hdirectory, hthere⟩ := hwalks.last_there (by simp [hfound])
      refine ⟨above, habove, hdirectory, fun _ hpoints => hthere ?_ hpoints⟩
      exact (hread _ (hname ▸ List.getLast_mem hnames) hpoints).ne_point
  obtain ⟨above, habove, hdirectory, htaken⟩ := hparent
  cases hfree : disk.freePlace path with
  | error fault =>
    refine ⟨fault, ?_, makeDirectory_eq_refused.mpr ⟨hchecked, hfree, rfl⟩⟩
    rintro rfl
    rcases freePlace_eq_missing.mp hfree with hmissing | ⟨other, hother, hnone⟩
    · simp [habove] at hmissing
    · obtain rfl := Except.ok.inj (habove.symm.trans hother)
      simp [hdirectory] at hnone
  | ok place =>
    obtain ⟨other, hother, _, hnames, hpoints, _, hnone, _⟩ := freePlace_eq_ok.mp hfree
    obtain rfl := Except.ok.inj (habove.symm.trans hother)
    exact absurd hnone (htaken hnames hpoints)

theorem makeDirectoriesUp_grows {anchor : Anchor} {names : List Text} (tree : disk.IsTree)
    (hread : Path.IsRead ⟨anchor, names.reverse⟩) {outcome : Except RunError Unit}
    (h : Ends (makeDirectoriesUp anchor names) disk last outcome) : Grows disk last := by
  induction names generalizing disk last outcome with
  | nil => exact makeLastDirectory_grows tree hread h
  | cons name above ih =>
    rw [makeDirectoriesUp, ends_orElse] at h
    rcases h with ⟨_, hmade, _⟩ | ⟨mid, e, hfailed, hhandle⟩
    · exact makeLastDirectory_grows tree hread hmade
    · have hfirst := makeLastDirectory_grows tree hread hfailed
      have habove : Path.IsRead ⟨anchor, above.reverse⟩ := by
        simpa [Path.parent] using hread.parent
      split at hhandle
      · rcases ends_bind.mp hhandle with ⟨next, _, hup, hlast⟩ | ⟨_, hup, _⟩
        · have hsecond := ih hfirst.tree habove hup
          exact hfirst.trans (hsecond.trans (makeLastDirectory_grows hsecond.tree hread hlast))
        · exact hfirst.trans (ih hfirst.tree habove hup)
      · exact hhandle.1 ▸ hfirst

theorem makeDirectories_grows (tree : disk.IsTree) (hread : path.IsRead)
    {outcome : Except RunError Unit}
    (h : Ends (makeDirectories path) disk last outcome) : Grows disk last :=
  makeDirectoriesUp_grows tree (by simpa using hread) h

-- Making directories can fail at what the disk refuses only.
theorem makeLastDirectory_error {e : RunError}
    (h : Ends (makeLastDirectory path) disk last (.error e)) : ∃ cause, e = .disk cause := by
  rcases makeLastDirectory_cases h with ⟨_, hok⟩ | ⟨_, ⟨_, _, hok⟩ | ⟨cause, herror, _⟩⟩
  · simp at hok
  · simp at hok
  · exact ⟨cause, Except.error.inj herror⟩

theorem makeDirectoriesUp_error {anchor : Anchor} {names : List Text} {e : RunError}
    (h : Ends (makeDirectoriesUp anchor names) disk last (.error e)) : ∃ cause, e = .disk cause := by
  induction names generalizing disk last e with
  | nil => exact makeLastDirectory_error h
  | cons name above ih =>
    rw [makeDirectoriesUp, ends_orElse] at h
    rcases h with ⟨_, _, hok⟩ | ⟨mid, first, hfailed, hhandle⟩
    · simp at hok
    · split at hhandle
      · rcases ends_bind.mp hhandle with ⟨_, _, _, hlast⟩ | ⟨_, hup, herror⟩
        · exact makeLastDirectory_error hlast
        · obtain rfl := Except.error.inj herror
          exact ih hup
      · obtain rfl := Except.error.inj (ends_fail.mp hhandle).2
        exact makeLastDirectory_error hfailed

theorem makeDirectories_error {e : RunError}
    (h : Ends (makeDirectories path) disk last (.error e)) : ∃ cause, e = .disk cause :=
  makeDirectoriesUp_error h

-- Opening a file for writing empties what the path leads to.
theorem openForWriting_eq_ok : disk.openForWriting path = .ok (last, place) ↔
    checkText path.text = .ok () ∧ disk.locate true path = .ok place ∧
      disk.entry? place ≠ some .directory ∧ disk.put place (.file []) = last := by
  rw [openForWriting]
  cases hcheck : checkText path.text with
  | error e => simp [bind, Except.bind]
  | ok done =>
    cases hlocate : disk.locate true path with
    | error fault => simp [refuse, bind, Except.bind]
    | ok found =>
      simp only [refuse, mapError_ok, bind, Except.bind, Except.ok.injEq, true_and]
      by_cases hold : disk.entry? found = some .directory
      · simp only [hold, if_true, reduceCtorEq, false_iff, not_and]
        rintro rfl hne
        exact absurd hold hne
      · simp only [hold, if_false, pure, Except.pure, Except.ok.injEq, Prod.mk.injEq]
        constructor
        · rintro ⟨rfl, rfl⟩
          exact ⟨rfl, hold, rfl⟩
        · rintro ⟨rfl, _, rfl⟩
          exact ⟨rfl, rfl⟩

-- This is in a directory that is there.
theorem openForWriting_cases (tree : disk.IsTree) (hread : path.IsRead) (hleads : disk.Leads path)
    (h : disk.openForWriting path = .ok (last, place)) :
    checkText path.text = .ok () ∧ disk.locate true path = .ok place ∧
      last = disk.put place (.file []) ∧ disk.entry? place ≠ some .directory ∧ disk.IsReal place ∧
      ∃ above name, place = above ++ [name] ∧ disk.entry? above = some .directory := by
  obtain ⟨hchecked, hlocate, hold, rfl⟩ := openForWriting_eq_ok.mp h
  obtain ⟨rfl | ⟨above, name, rfl, hname, hdirectory⟩, hlink⟩ := locate_stands tree hread hleads hlocate
  · exact absurd rfl hold
  · exact ⟨hchecked, hlocate, rfl, hold, (isReal_of_directory tree hdirectory).concat hname hlink, above, name,
      rfl, hdirectory⟩

-- What writing a file does: the file holds the bytes, and places that were free may have become
-- directories.
structure Writes (disk : Disk) (place : Place) (bytes : Bytes) (last : Disk) : Prop where
  tree : last.IsTree
  links : SameLinks disk last
  file : last.entry? place = some (.file bytes)
  kept : ∀ other, other ≠ place → Kept disk last other

-- Putting a file at a place that holds no directory.
theorem writes_put (tree : disk.IsTree) {above : Place} {name : Text} (bytes : Bytes)
    (hreal : disk.IsReal (above ++ [name])) (hdirectory : disk.entry? above = some .directory)
    (hold : disk.entry? (above ++ [name]) ≠ some .directory) :
    Writes disk (above ++ [name]) bytes (disk.put (above ++ [name]) (.file bytes)) where
  tree := tree.put (hreal.names name (by simp)) hdirectory (by simp) hold
  links := .put tree (by simp) (hreal.noLink _ (List.prefix_refl _)) (by simp)
  file := by rw [entry_put (by simp), if_pos rfl]
  kept := by
    intro other hother
    unfold Kept
    rw [entry_put (by simp), if_neg hother]
    exact .inl rfl

theorem Writes.again {bytes bytes' : Bytes} (h : Writes disk place bytes mid)
    (h' : Writes mid place bytes' last) : Writes disk place bytes' last where
  tree := h'.tree
  links := h.links.trans h'.links
  file := h'.file
  kept := fun other hother => (h.kept other hother).trans (h'.kept other hother)

theorem Grows.writes {bytes : Bytes} (h : Grows disk mid) (h' : Writes mid place bytes last) :
    Writes disk place bytes last where
  tree := h'.tree
  links := h.links.trans h'.links
  file := h'.file
  kept := fun other hother => (h.kept other).trans (h'.kept other hother)

theorem Kept.file_iff (h : Kept disk last place) (content : Bytes) :
    last.entry? place = some (.file content) ↔ disk.entry? place = some (.file content) := by
  rcases h with hsame | ⟨hfree, hmade⟩
  · rw [hsame]
  · simp [hfree, hmade]

theorem Writes.file_iff {bytes : Bytes} (h : Writes disk place bytes last) (other : Place)
    (content : Bytes) : last.entry? other = some (.file content) ↔
      if other = place then bytes = content else disk.entry? other = some (.file content) := by
  split
  · rename_i hother
    rw [hother, h.file, Option.some.injEq, Entry.file.injEq]
  · rename_i hother
    exact (h.kept other hother).file_iff content

theorem Grows.extends (h : Grows disk last) : Extends disk last where
  links := h.links
  directory := by
    intro place hdirectory
    rcases h.kept place with hsame | ⟨hfree, _⟩
    · rw [hsame, hdirectory]
    · simp [hfree] at hdirectory
  there := by
    intro place hthere
    rcases h.kept place with hsame | ⟨hfree, _⟩
    · rwa [hsame]
    · simp [hfree] at hthere

theorem Writes.extends {bytes : Bytes} (h : Writes disk place bytes last)
    (hold : disk.entry? place ≠ some .directory) : Extends disk last where
  links := h.links
  directory := by
    intro other hdirectory
    have hother : other ≠ place := fun heq => hold (heq ▸ hdirectory)
    rcases h.kept other hother with hsame | ⟨hfree, _⟩
    · rw [hsame, hdirectory]
    · simp [hfree] at hdirectory
  there := by
    intro other hthere
    by_cases hother : other = place
    · simp [hother, h.file]
    · rcases h.kept other hother with hsame | ⟨hfree, _⟩
      · rwa [hsame]
      · simp [hfree] at hthere

-- What a text leaves in the file that it is written to: all of it, or nothing if it has no form in bytes.
def bytesOf (text : Text) : Bytes := (Utf8.encode text).toOption.getD []

-- A file is written at the place that its path leads to.
structure WritesTo (disk : Disk) (path : Path) (bytes : Bytes) (last : Disk) (place : Place) : Prop where
  writes : Writes disk place bytes last
  leads : last.locate true path = .ok place
  old : disk.entry? place ≠ some .directory
  noLink : disk.linkAt? place = none

theorem append_opened (hplace : place ≠ []) (bytes : Bytes) :
    Disk.append (disk.put place (.file [])) place bytes =
      (disk.put place (.file [])).put place (.file bytes) := by
  simp [append, entry_put hplace]

-- One text is added to a file that is open, unless it has no form in bytes.
theorem ends_appendPieces {text : Text} {outcome : Except RunError Unit} :
    Ends (appendPieces place [text]) disk last outcome ↔
      last = (Utf8.encode text).toOption.elim disk (disk.append place) ∧
        outcome = ((Utf8.encode text).mapError .unwritable).map fun _ => () := by
  have hencoded : Ends (ofExcept .unwritable (Utf8.encode text)) disk disk
      ((Utf8.encode text).mapError .unwritable) :=
    ends_ofExcept.mpr ⟨rfl, rfl⟩
  rw [appendPieces]
  cases hencode : Utf8.encode text with
  | error e =>
    rw [hencode] at hencoded
    rw [ends_bind_of_error hencoded, eq_comm, @eq_comm _ _ outcome]
    rfl
  | ok bytes =>
    rw [hencode] at hencoded
    rw [ends_bind_of_ok hencoded, ends_bind_of_ok (ends_change_ok rfl), appendPieces, ends_done, eq_comm,
      @eq_comm _ _ outcome]
    rfl

-- How writing a file can end: the path is refused before anything is written, or the file is opened and
-- the text is written or has no form in bytes.
theorem writePieces_cases (tree : disk.IsTree) (hread : path.IsRead) (hleads : disk.Leads path) {text : Text}
    {outcome : Except RunError Unit} (h : Ends (writePieces path [text]) disk last outcome) :
    (∃ e, outcome = .error (.disk e) ∧ Grows disk last) ∨
      checkText path.text = .ok () ∧ (∃ place, WritesTo disk path (bytesOf text) last place) ∧
        outcome = ((Utf8.encode text).mapError .unwritable).map fun _ => () := by
  rw [writePieces] at h
  rcases ends_bind.mp h with ⟨mid, _, hmake, h⟩ | ⟨e, hmake, rfl⟩
  · have hgrows := makeDirectories_grows tree hread.parent hmake
    rcases ends_bind.mp h with ⟨opened, place, hopen, h⟩ | ⟨e, hopen, rfl⟩
    · rcases ends_change.mp hopen with ⟨_, hopened, hfound⟩ | ⟨_, _, _, herror⟩
      · cases hfound
        right
        obtain ⟨hchecked, hlocate, rfl, hold, hreal, above, name, rfl, hdirectory⟩ :=
          openForWriting_cases hgrows.tree hread (hleads.congr hgrows.links) hopened
        have hfirst := writes_put hgrows.tree [] hreal hdirectory hold
        have hlocated := (hfirst.extends hold).locate_eq hlocate
        have hnot : disk.entry? (above ++ [name]) ≠ some .directory :=
          fun heq => hold (hgrows.extends.directory _ heq)
        have hlink : disk.linkAt? (above ++ [name]) = none := by
          rw [hgrows.links.link, hreal.noLink _ (List.prefix_refl _)]
        refine ⟨hchecked, ?_⟩
        obtain ⟨rfl, rfl⟩ := ends_appendPieces.mp h
        cases hencode : Utf8.encode text with
        | error e =>
          refine ⟨⟨_, ⟨?_, hlocated, hnot, hlink⟩⟩, rfl⟩
          simpa [bytesOf, Except.toOption, hencode] using hgrows.writes hfirst
        | ok bytes =>
          have hdirectory' :
              Disk.entry? (mid.put (above ++ [name]) (.file [])) above = some .directory := by
            rw [entry_put (by simp), if_neg (by simp), hdirectory]
          have hsecond := writes_put hfirst.tree bytes (hfirst.links.isReal hreal) hdirectory'
            (by simp [hfirst.file])
          have happend := @append_opened mid (above ++ [name]) (by simp) bytes
          have hbytes : bytesOf text = bytes := by simp [bytesOf, hencode, Except.toOption]
          rw [hbytes]
          refine ⟨⟨_, ⟨?_, ?_, hnot, hlink⟩⟩, rfl⟩
          · simpa only [Except.toOption, Option.elim, happend] using hgrows.writes (hfirst.again hsecond)
          · simpa only [Except.toOption, Option.elim, happend] using
              (hsecond.extends (by simp [hfirst.file])).locate_eq hlocated
      · simp at herror
    · rcases ends_change.mp hopen with ⟨_, _, hok⟩ | ⟨cause, _, rfl, herror⟩
      · simp at hok
      · exact .inl ⟨cause, congrArg Except.error (Except.error.inj herror), hgrows⟩
  · obtain ⟨cause, rfl⟩ := makeDirectories_error hmake
    exact .inl ⟨cause, rfl, makeDirectories_grows tree hread.parent hmake⟩

theorem writePieces_writes (tree : disk.IsTree) (hreal : disk.IsReal place) {text : Text}
    (h : Ends (writePieces (.ofPlace place) [text]) disk last (.ok ())) :
    checkText (Path.ofPlace place).text = .ok () ∧
      ∃ bytes, Utf8.encode text = .ok bytes ∧ Writes disk place bytes last := by
  rcases writePieces_cases tree (isRead_ofPlace hreal) (.inr rfl) h with
    ⟨_, herror, _⟩ | ⟨hchecked, ⟨found, hwrites⟩, houtcome⟩
  · simp at herror
  · cases hencode : Utf8.encode text with
    | error e => simp [hencode, Except.map] at houtcome
    | ok bytes =>
      have hfound : found = place := by
        have hleads := hwrites.leads
        rcases locate_of_isReal (hwrites.writes.links.isReal hreal) true with hlocate | ⟨_, _, hlocate⟩
        · exact Except.ok.inj (hwrites.leads.symm.trans hlocate)
        · simp [hlocate] at hleads
      have hbytes : bytesOf text = bytes := by simp [bytesOf, hencode, Except.toOption]
      exact ⟨hchecked, bytes, rfl, hfound ▸ hbytes ▸ hwrites.writes⟩

-- A place that is written to can be found again, and there was no directory.
theorem writePieces_finds (tree : disk.IsTree) (hreal : disk.IsReal place) {text : Text}
    (h : Ends (writePieces (.ofPlace place) [text]) disk last (.ok ())) :
    (∀ part ∈ place, isTooLong part = false) ∧ disk.entry? place ≠ some .directory := by
  rcases writePieces_cases tree (isRead_ofPlace hreal) (.inr rfl) h with
    ⟨_, herror, _⟩ | ⟨_, ⟨found, hwrites⟩, _⟩
  · simp at herror
  · have hlast := hwrites.writes.links.isReal hreal
    have hfound : found = place := by
      have hleads := hwrites.leads
      rcases locate_of_isReal hlast true with hlocate | ⟨_, _, hlocate⟩
      · exact Except.ok.inj (hleads.symm.trans hlocate)
      · simp [hlocate] at hleads
    exact ⟨(locate_eq_ok.mp hwrites.leads).fits hlast, hfound ▸ hwrites.old⟩

end HookGen.Disk
