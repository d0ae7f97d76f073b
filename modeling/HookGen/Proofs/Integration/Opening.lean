import HookGen.Proofs.Generation.Contents
import HookGen.Proofs.Integration.Writing

/-!
Generated files that are opened one after the other, wherever their paths lead: what was on the disk
before stays there, and files hold what has been written to them last.
-/

namespace HookGen.Integration

open Disk Run Manifest

variable {disk mid last : Disk} {place : Place} {file : GeneratedFile} {before after opened : List GeneratedFile}
  {verbose : Bool}

-- What a generated file that has been opened holds.
def leftBy (file : GeneratedFile) : Bytes := bytesOf (finalText file)

-- Whether a generated file is written at a place.
def LeadsTo (disk : Disk) (place : Place) (file : GeneratedFile) : Prop :=
  disk.locate true (Path.ofText file.path) = .ok place

instance (disk : Disk) (place : Place) (file : GeneratedFile) : Decidable (LeadsTo disk place file) :=
  match h : disk.locate true (Path.ofText file.path) with
  | .ok found => decidable_of_iff (found = place) (by simp [LeadsTo, h])
  | .error _ => .isFalse (by simp [LeadsTo, h])

-- What is left at a place by the last of some generated files that leads there.
def leftAt (disk : Disk) (place : Place) (files : List GeneratedFile) : Option Bytes :=
  ((files.filter fun file => LeadsTo disk place file).map leftBy).getLast?

theorem leftAt_append (disk : Disk) (place : Place) (before after : List GeneratedFile) :
    leftAt disk place (before ++ after) = (leftAt disk place after).or (leftAt disk place before) := by
  simp [leftAt, List.getLast?_append]

theorem leftAt_eq_none :
    leftAt disk place opened = none ↔ ∀ file ∈ opened, ¬ LeadsTo disk place file := by
  simp [leftAt]

theorem exists_of_leftAt {bytes : Bytes} (h : leftAt disk place opened = some bytes) :
    ∃ file ∈ opened, LeadsTo disk place file ∧ leftBy file = bytes := by
  have hmem := List.mem_of_getLast? h
  obtain ⟨file, hfile, hbytes⟩ := List.mem_map.mp hmem
  rw [List.mem_filter, decide_eq_true_eq] at hfile
  exact ⟨file, hfile.1, hfile.2, hbytes⟩

theorem leftAt_congr (h : ∀ file ∈ opened, LeadsTo disk place file ↔ LeadsTo last place file) :
    leftAt disk place opened = leftAt last place opened := by
  unfold leftAt
  rw [List.filter_congr]
  simpa using h

-- What becomes of a disk when files are opened.
structure Opens (disk : Disk) (opened : List GeneratedFile) (last : Disk) : Prop where
  tree : last.IsTree
  more : Extends disk last
  leads : ∀ file ∈ opened, ∃ place, LeadsTo last place file ∧ disk.entry? place ≠ some .directory ∧
    disk.linkAt? place = none
  entry : ∀ place, disk.entry? place ≠ none →
    last.entry? place = ((leftAt last place opened).map Entry.file).or (disk.entry? place)
  kept : ∀ place, (∀ file ∈ opened, ¬ LeadsTo last place file) → Kept disk last place

theorem opens_of_grows (h : Grows disk last) : Opens disk [] last where
  tree := h.tree
  more := h.extends
  leads := by simp
  entry := by
    intro place hthere
    rcases h.kept place with hsame | ⟨hfree, _⟩
    · simpa [leftAt] using hsame
    · exact absurd hfree hthere
  kept := fun place _ => h.kept place

theorem Opens.append (h : Opens disk before mid) (h' : Opens mid after last) :
    Opens disk (before ++ after) last where
  tree := h'.tree
  more := h.more.trans h'.more
  leads := by
    intro file hfile
    rcases List.mem_append.mp hfile with hfile | hfile
    · obtain ⟨place, hleads, hold⟩ := h.leads file hfile
      exact ⟨place, h'.more.locate_eq hleads, hold⟩
    · obtain ⟨place, hleads, hold, hlink⟩ := h'.leads file hfile
      refine ⟨place, hleads, fun heq => hold (h.more.directory place heq), ?_⟩
      rw [h.more.links.link, hlink]
  entry := by
    intro place hthere
    have hmid : mid.entry? place ≠ none :=
      Option.isSome_iff_ne_none.mp (h.more.there place (Option.isSome_iff_ne_none.mpr hthere))
    -- where the first files lead does not change when the others are opened
    have hsame : leftAt mid place before = leftAt last place before := by
      refine leftAt_congr fun file hfile => ⟨h'.more.locate_eq, fun hlast => ?_⟩
      obtain ⟨found, hleads, _⟩ := h.leads file hfile
      obtain rfl : found = place := Except.ok.inj ((h'.more.locate_eq hleads).symm.trans hlast)
      exact hleads
    rw [h'.entry place hmid, h.entry place hthere, leftAt_append, hsame, Option.map_or, Option.or_assoc]
  kept := by
    intro place hothers
    obtain ⟨hbefore, hafter⟩ := List.forall_mem_append.mp hothers
    exact (h.kept place fun file hfile hleads => hbefore file hfile (h'.more.locate_eq hleads)).trans
      (h'.kept place hafter)

-- One file is opened.
theorem opens_of_writesTo (h : WritesTo disk (Path.ofText file.path) (leftBy file) last place) :
    Opens disk [file] last where
  tree := h.writes.tree
  more := h.writes.extends h.old
  leads := by simpa using ⟨place, h.leads, h.old, h.noLink⟩
  entry := by
    intro other hthere
    by_cases hother : other = place
    · have hleft : leftAt last place [file] = some (leftBy file) := by
        simp [leftAt, LeadsTo, h.leads]
      rw [hother, h.writes.file, hleft]
      rfl
    · have hleft : leftAt last other [file] = none := by
        rw [leftAt_eq_none]
        simpa [LeadsTo, h.leads] using fun heq => hother heq.symm
      rw [hleft]
      rcases h.writes.kept other hother with hsame | ⟨hfree, _⟩
      · simpa using hsame
      · exact absurd hfree hthere
  kept := by
    intro other hothers
    refine h.writes.kept other fun heq => ?_
    exact hothers file (List.mem_singleton.mpr rfl) (heq ▸ h.leads)

theorem names_of_generated {schema : Schema} {clientPath : Text} {output : Path} {files : List GeneratedFile}
    (h : (Generation.generate schema clientPath output).outcome = .ok files) :
    ∀ file ∈ files, (Path.ofText file.path).names ≠ [] :=
  fun file hfile => ((Generation.generate_eq_ok h).2 file hfile).names_ne_nil

-- How writing a generated file can end.
theorem writeGenerated_cases (tree : disk.IsTree) (hfile : (Path.ofText file.path).names ≠ [])
    {outcome : Except RunError Unit} (h : Ends (writeGenerated verbose file) disk last outcome) :
    (∃ e, outcome = .error (.disk e) ∧ Opens disk [] last) ∨
      Opens disk [file] last ∧ outcome = ((Utf8.encode (finalText file)).mapError .unwritable).map fun _ => () := by
  rcases writePieces_cases tree (Path.isRead_ofText file.path) (.inl hfile) (ends_writeGenerated.mp h) with
    ⟨e, herror, hgrows⟩ | ⟨_, ⟨place, hwrites⟩, houtcome⟩
  · exact .inl ⟨e, herror, opens_of_grows hgrows⟩
  · exact .inr ⟨opens_of_writesTo hwrites, houtcome⟩

-- File by file.
theorem forEach_opens {files : List GeneratedFile} (tree : disk.IsTree)
    (hfiles : ∀ file ∈ files, (Path.ofText file.path).names ≠ [])
    (h : Ends (forEach (writeGenerated verbose) files) disk last (.ok ())) :
    Opens disk files last ∧ ∀ file ∈ files, ∃ bytes, Utf8.encode (finalText file) = .ok bytes := by
  induction files generalizing disk with
  | nil =>
    obtain ⟨rfl, _⟩ := ends_done.mp h
    exact ⟨opens_of_grows (.refl tree), by simp⟩
  | cons file rest ih =>
    obtain ⟨mid, _, hfirst, hrest⟩ := ends_bind_ok.mp h
    obtain ⟨hfile, hothers⟩ := List.forall_mem_cons.mp hfiles
    rcases writeGenerated_cases tree hfile hfirst with ⟨_, herror, _⟩ | ⟨hopens, hencoded⟩
    · simp at herror
    · obtain ⟨hrests, hall⟩ := ih hopens.tree hothers hrest
      refine ⟨hopens.append hrests, List.forall_mem_cons.mpr ⟨?_, hall⟩⟩
      cases hencode : Utf8.encode (finalText file) with
      | error cause => simp [hencode, Except.map] at hencoded
      | ok bytes => exact ⟨bytes, rfl⟩

-- Writing generated files ends at one of them: those before it have been written. It has been opened too
-- if its text is what has no form in bytes.
structure Stops (verbose : Bool) (files : List GeneratedFile) (e : RunError) (disk last : Disk)
    (before : List GeneratedFile) (file : GeneratedFile) (mid : Disk) : Prop where
  split : ∃ after, files = before ++ file :: after
  written : Ends (forEach (writeGenerated verbose) before) disk mid (.ok ())
  fails : Ends (writeGenerated verbose file) mid last (.error e)
  encoded : ∀ earlier ∈ before, ∃ bytes, Utf8.encode (finalText earlier) = .ok bytes
  opens : (∃ cause, e = .disk cause) ∧ Opens disk before last ∨
    (∃ cause, e = .unwritable cause ∧ Utf8.encode (finalText file) = .error cause) ∧
      Opens disk (before ++ [file]) last

theorem exists_stops {files : List GeneratedFile} {e : RunError} (tree : disk.IsTree)
    (hfiles : ∀ file ∈ files, (Path.ofText file.path).names ≠ [])
    (h : Ends (forEach (writeGenerated verbose) files) disk last (.error e)) :
    ∃ before file mid, Stops verbose files e disk last before file mid := by
  obtain ⟨before, file, after, mid, rfl, hwritten, hfails⟩ := forEach_error h
  obtain ⟨hbefore, hfile, _⟩ := List.forall_mem_append.mp hfiles |>.imp_right List.forall_mem_cons.mp
  obtain ⟨hopens, hencoded⟩ := forEach_opens tree hbefore hwritten
  refine ⟨before, file, mid, ⟨after, rfl⟩, hwritten, hfails, hencoded, ?_⟩
  rcases writeGenerated_cases hopens.tree hfile hfails with ⟨cause, herror, hkept⟩ | ⟨hopened, herror⟩
  · obtain rfl := Except.error.inj herror
    exact .inl ⟨⟨cause, rfl⟩, by simpa using hopens.append hkept⟩
  · cases hencode : Utf8.encode (finalText file) with
    | error cause =>
      simp only [hencode, mapError_error, Except.map, Except.error.injEq] at herror
      exact .inr ⟨⟨cause, herror, rfl⟩, hopens.append hopened⟩
    | ok bytes => simp [hencode, Except.map] at herror

end HookGen.Integration
