import HookGen.Integration
import HookGen.Proofs.Disk.Write

/-!
What writing generated files does to a disk: each file holds its text, and all other files are as they
were.
-/

namespace HookGen

open Disk Run

variable {disk last : Disk} {place : Place}

-- Writing a file ends as writing its text does: a failure is logged and stays one.
theorem Manifest.ends_writeFile {path : Path} {text : Text} {outcome : Except RunError Unit} :
    Ends (Manifest.writeFile path text) disk last outcome ↔
      Ends (writePieces path [text]) disk last outcome := by
  refine ends_orElse_still fun mid e => ?_
  dsimp only
  split
  · exact ends_log_bind.mpr ⟨rfl, rfl⟩
  · exact ⟨rfl, rfl⟩

theorem Manifest.writeFile_writes (tree : disk.IsTree) (hreal : disk.IsReal place) {text : Text}
    (h : Ends (Manifest.writeFile (.ofPlace place) text) disk last (.ok ())) :
    checkText (Path.ofPlace place).text = .ok () ∧
      ∃ bytes, Utf8.encode text = .ok bytes ∧ Writes disk place bytes last :=
  writePieces_writes tree hreal (Manifest.ends_writeFile.mp h)

namespace Integration

variable {verbose : Bool}

-- So does writing a generated file, which may be logged.
theorem ends_writeGenerated {file : GeneratedFile} {outcome : Except RunError Unit} :
    Ends (writeGenerated verbose file) disk last outcome ↔
      Ends (writePieces (Path.ofText file.path) [finalText file]) disk last outcome := by
  rw [← Manifest.ends_writeFile]
  refine ends_bind_still fun mid => ?_
  cases verbose <;> exact ⟨rfl, rfl⟩

theorem writeGenerated_writes (tree : disk.IsTree) (hreal : disk.IsReal place) {file : GeneratedFile}
    (hplace : Path.ofText file.path = .ofPlace place)
    (h : Ends (writeGenerated verbose file) disk last (.ok ())) :
    ∃ bytes, Utf8.encode (finalText file) = .ok bytes ∧ Writes disk place bytes last :=
  (writePieces_writes tree hreal (hplace ▸ ends_writeGenerated.mp h)).2

-- A disk with generated files at their places, and with the files of another disk elsewhere.
structure Overwrites (disk : Disk) (files : List GeneratedFile) (last : Disk) : Prop where
  tree : last.IsTree
  links : SameLinks disk last
  encoded : ∀ file ∈ files, ∃ content, Utf8.encode (finalText file) = .ok content
  file_iff : ∀ place content, last.entry? place = some (.file content) ↔
    (∃ file ∈ files, Path.ofText file.path = .ofPlace place ∧
      Utf8.encode (finalText file) = .ok content) ∨
    (disk.entry? place = some (.file content) ∧
      ∀ file ∈ files, Path.ofText file.path ≠ .ofPlace place)

-- File by file: each place is written once, so that no file is lost to a later one.
theorem forEach_overwrites {files : List GeneratedFile} (tree : disk.IsTree)
    (hfiles : ∀ file ∈ files, ∃ place, Path.ofText file.path = .ofPlace place ∧ disk.IsReal place)
    (nodup : (files.map fun file => Path.ofText file.path).Nodup)
    (h : Ends (forEach (writeGenerated verbose) files) disk last (.ok ())) :
    Overwrites disk files last := by
  induction files generalizing disk with
  | nil =>
    obtain ⟨rfl, _⟩ := ends_done.mp h
    exact ⟨tree, .refl disk, by simp, by simp⟩
  | cons file rest ih =>
    obtain ⟨mid, _, hfirst, hrest⟩ := ends_bind_ok.mp h
    obtain ⟨hnew, hnodup⟩ := List.nodup_cons.mp nodup
    obtain ⟨place, hplace, hreal⟩ := hfiles file (List.mem_cons_self ..)
    obtain ⟨bytes, hbytes, hwrites⟩ := writeGenerated_writes tree hreal hplace hfirst
    have hlater : ∀ other ∈ rest, ∃ place,
        Path.ofText other.path = .ofPlace place ∧ mid.IsReal place := by
      intro other hother
      obtain ⟨otherPlace, hpath, hotherReal⟩ := hfiles other (List.mem_cons_of_mem file hother)
      exact ⟨otherPlace, hpath, hwrites.links.isReal hotherReal⟩
    have hall := ih hwrites.tree hlater hnodup hrest
    refine ⟨hall.tree, hwrites.links.trans hall.links, ?_, fun other content => ?_⟩
    · simpa using ⟨⟨bytes, hbytes⟩, hall.encoded⟩
    · rw [hall.file_iff, hwrites.file_iff]
      by_cases hother : other = place
      · rw [hother]
        have hnone : ∀ later ∈ rest, Path.ofText later.path ≠ .ofPlace place := by
          intro later hmem heq
          exact hnew (List.mem_map.mpr ⟨later, hmem, heq.trans hplace.symm⟩)
        have hno : ¬ ∃ later ∈ rest, Path.ofText later.path = .ofPlace place ∧
            Utf8.encode (finalText later) = .ok content :=
          fun ⟨later, hmem, heq, _⟩ => hnone later hmem heq
        simpa [hplace, hbytes, hno] using fun _ => hnone
      · have hne : Path.ofText file.path ≠ .ofPlace other := by
          rw [hplace]
          exact fun heq => hother (congrArg Path.names heq).symm
        simp [hother, hne]

end Integration

end HookGen
