import HookGen.Proofs.Generation.Paths
import HookGen.Proofs.Integration.Reading
import HookGen.Proofs.Integration.Writing
import HookGen.Proofs.Manifest.Update

/-!
The end of a run: stale files are removed and the generated ones, which all lie below the output
directory, are taken down in the manifest.
-/

namespace HookGen.Integration

open Disk Run Manifest

variable {disk last : Disk} {base : Place} {now : Text} {schema : Schema} {config : Config}
  {root : Path} {old : List Text} {files : List GeneratedFile} {request : Request} {result : Result}

-- A disk without the files of the previous generation that are not generated any more.
structure Cleaned (disk : Disk) (old : List Text) (files : List GeneratedFile) (last : Disk) : Prop where
  tree : last.IsTree
  links : SameLinks disk last
  file_iff : ∀ place content, last.entry? place = some (.file content) ↔
    disk.entry? place = some (.file content) ∧ ¬ ((∃ file ∈ old, Path.ofText file = .ofPlace place) ∧
      ∀ file ∈ files, Path.ofText file.path ≠ .ofPlace place)

-- Taking down what is generated.
def recordFiles (now : Text) (schema : Schema) (files : List GeneratedFile) (config : Config)
    (root : Path) (output : Path) : Run Unit := do
  let manifest ← Manifest.create now schema config.supabasePath (files.map (·.path)) output
  let path ← Manifest.path config root
  Manifest.writeFile path (Json.print Manifest.style manifest ++ "\n")

-- Cleaning up after the generation of which the manifest is found, unless there is nothing in it.
def cleaning (found : Option Json) (files : List Text) (output : Path) : Run Unit :=
  match found with
  | some previous =>
    if isBlank previous then done () else cleanUp previous files output >>= fun _ => done ()
  | none => done ()

-- Bringing the manifest up to date: the previous one is read, stale files are removed, and the new one is
-- written.
theorem ends_updateManifest {outcome : Except RunError Unit}
    (hbase : disk.resolve (root.child config.output) = .ok base) :
    Ends (updateManifest now schema files config root) disk last outcome ↔
      Ends (Manifest.load config root >>= fun found =>
        cleaning found (files.map (·.path)) (.ofPlace base) >>= fun _ =>
          recordFiles now schema files config root (.ofPlace base)) disk last outcome := by
  have houtput : Ends (config.outputPath root) disk disk (.ok (.ofPlace base)) := ends_resolve_ok hbase
  unfold updateManifest
  rw [ends_bind_of_ok houtput]
  refine ends_bind_congr fun mid found => ?_
  cases found with
  | none => rfl
  | some previous =>
    cases hblank : isBlank previous with
    | true => simp only [cleaning, hblank, if_true, Bool.not_true, Bool.false_eq_true, if_false]; rfl
    | false =>
      simp only [cleaning, hblank, Bool.not_false, if_true, Bool.false_eq_true, if_false, bind_assoc]
      refine ends_bind_congr fun next removed => ?_
      split
      · exact ends_log_bind
      · rfl

-- The first part removes stale files.
theorem updateManifest_cases (tree : disk.IsTree) (hclear : disk.IsClear base)
    (hbase : disk.resolve (root.child config.output) = .ok base) (hold : Remembers base disk old)
    (hfiles : ∀ file ∈ files, IsModule base file.path)
    (h : Ends (updateManifest now schema files config root) disk last (.ok ())) :
    ∃ mid, Cleaned disk old files mid ∧
      Ends (recordFiles now schema files config root (.ofPlace base)) mid last (.ok ()) := by
  obtain ⟨mid, found, hload, hrest⟩ := ends_bind_ok.mp ((ends_updateManifest hbase).mp h)
  obtain ⟨rfl, hfound⟩ := load_of_remembers tree hclear hbase hold hload
  obtain ⟨next, _, hclean, hrecord⟩ := ends_bind_ok.mp hrest
  refine ⟨next, ?_, hrecord⟩
  rcases hfound with ⟨rfl, rfl⟩ | ⟨fields, rfl, hne, hentries⟩
  · obtain ⟨rfl, _⟩ := ends_done.mp hclean
    exact ⟨tree, .refl _, by simp⟩
  · have hblank : isBlank (.obj fields) = false := by
      simp [isBlank, Json.fields, hne]
    simp only [cleaning, hblank, Bool.false_eq_true, if_false] at hclean
    obtain ⟨_, removed, hremoved, hdone⟩ := ends_bind_ok.mp hclean
    obtain ⟨rfl, _⟩ := ends_done.mp hdone
    have hnew : ∀ file ∈ files.map (·.path), IsModule base file := by simpa using hfiles
    obtain ⟨htree, hlinks, hfile⟩ :=
      cleanUp_file_iff tree hclear hentries (remembers_isModule hold) hnew hremoved
    refine ⟨htree, hlinks, fun place content => ?_⟩
    rw [hfile]
    simp

-- The second part writes the new manifest.
theorem ends_recordFiles {output : Path} (hbase : disk.resolve (root.child config.output) = .ok base) :
    Ends (recordFiles now schema files config root output) disk last (.ok ()) ↔ ∃ names,
      List.Forall₂ (Calls disk output) (files.map (·.path)) names ∧
        Ends (Manifest.writeFile (.ofPlace (placeIn base)) (fileText now schema config.supabasePath names))
          disk last (.ok ()) := by
  rw [recordFiles]
  constructor
  · intro h
    obtain ⟨mid, manifest, hcreate, hwrite⟩ := ends_bind_ok.mp h
    obtain ⟨names, hnames, rfl⟩ := ends_bind_pure_ok.mp hcreate
    obtain ⟨rfl, hcalls⟩ := ends_entriesOf.mp hnames
    exact ⟨names, hcalls, (ends_bind_of_ok (path_ends hbase)).mp hwrite⟩
  · rintro ⟨names, hcalls, hwrite⟩
    have hcreate : Ends (Manifest.create now schema config.supabasePath (files.map (·.path)) output)
        disk disk (.ok (listing now schema config.supabasePath names)) :=
      ends_bind_pure_ok.mpr ⟨names, ends_entriesOf.mpr ⟨rfl, hcalls⟩, rfl⟩
    exact (ends_bind_of_ok hcreate).mpr ((ends_bind_of_ok (path_ends hbase)).mpr hwrite)

theorem recordFiles_ends (tree : disk.IsTree) (hclear : disk.IsClear base)
    (hbase : disk.resolve (root.child config.output) = .ok base)
    (hfiles : ∀ file ∈ files, IsModule base file.path)
    (h : Ends (recordFiles now schema files config root (.ofPlace base)) disk last (.ok ())) :
    ∃ bytes, Utf8.encode (textOf now schema config.supabasePath base (files.map (·.path))) = .ok bytes ∧
      Lists base (files.map (·.path)) bytes ∧ Writes disk (placeIn base) bytes last := by
  have hreal : ∀ file ∈ files.map (·.path), ∃ names,
      FileAt base names file ∧ disk.IsReal (base ++ names) := by
    intro file hfile
    obtain ⟨generated, hgenerated, rfl⟩ := List.mem_map.mp hfile
    have hat := (hfiles generated hgenerated).fileAt
    exact ⟨_, hat, hat.isReal hclear⟩
  obtain ⟨names, hcalls, hwrite⟩ := (ends_recordFiles hbase).mp h
  obtain ⟨rfl, hchecked⟩ := entryNames_of_calls hreal hcalls
  obtain ⟨hmanifest, bytes, hbytes, hwrites⟩ := writeFile_writes tree (isReal_placeIn hclear) hwrite
  refine ⟨bytes, hbytes, ⟨?_, hchecked, hmanifest, _, _, _, hbytes⟩, hwrites⟩
  simpa using hfiles

-- The place of a file that is generated into a directory without links.
theorem path_of_at (hclear : disk.IsClear base) {names : List Text} {file : GeneratedFile}
    (h : Generation.At (.ofPlace base) names file) :
    Path.ofText file.path = .ofPlace (base ++ names) := by
  have hnames : ∀ name ∈ base ++ names, IsName name := by
    intro name hname
    rcases List.mem_append.mp hname with hbase | hrest
    · exact hclear.real.names name hbase
    · exact h.isName name hrest
  rw [h.path]
  exact (congrArg Path.ofText (Path.text_root _)).trans (Path.ofText_slash_join hnames)

theorem isModule_of_placed (hclear : disk.IsClear base) {file : GeneratedFile}
    (h : Generation.Placed (.ofPlace base) file) : IsModule base file.path := by
  obtain ⟨names, hat⟩ := h
  exact ⟨names, ⟨path_of_at hclear hat, hat.isName, hat.ne_nil⟩, hat.other⟩

-- None of them is the manifest.
theorem ne_placeIn {file : GeneratedFile} (h : IsModule base file.path) :
    Path.ofText file.path ≠ .ofPlace (placeIn base) := by
  obtain ⟨names, hat, hlast⟩ := h
  rw [hat.path]
  intro heq
  obtain rfl : names = [fileName] := List.append_cancel_left (congrArg Path.names heq)
  exact hlast rfl

theorem text_of_placed (hclear : disk.IsClear base) {file : GeneratedFile}
    (h : Generation.Placed (.ofPlace base) file) : (Path.ofText file.path).text = file.path := by
  obtain ⟨names, hat⟩ := h
  rw [path_of_at hclear hat, hat.path]
  rfl

-- Different paths of generated files are paths of different places.
theorem nodup_places (hclear : disk.IsClear base) (nodup : (files.map (·.path)).Nodup)
    (h : ∀ file ∈ files, Generation.Placed (.ofPlace base) file) :
    (files.map fun file => Path.ofText file.path).Nodup := by
  have hmap : (files.map fun file => Path.ofText file.path) = (files.map (·.path)).map Path.ofText := by
    rw [List.map_map]
    rfl
  rw [hmap]
  refine nodup.map_on ?_
  intro path hpath other hother heq
  obtain ⟨file, hfile, rfl⟩ := List.mem_map.mp hpath
  obtain ⟨otherFile, hotherFile, rfl⟩ := List.mem_map.mp hother
  rw [← text_of_placed hclear (h file hfile), heq, text_of_placed hclear (h otherFile hotherFile)]

theorem generate_of_files (hbase : disk.resolve (root.child config.output) = .ok base)
    (h : Ends (Integration.files schema config root) disk last (.ok files)) :
    (Generation.generate schema config.supabasePath (.ofPlace base)).outcome = .ok files := by
  have houtput : Ends (config.outputPath root) disk disk (.ok (.ofPlace base)) := ends_resolve_ok hbase
  unfold Integration.files at h
  obtain ⟨_, hgenerated⟩ := ends_ofLogged.mp ((ends_bind_of_ok houtput).mp h)
  cases hresult : (Generation.generate schema config.supabasePath (.ofPlace base)).outcome with
  | error e => simp [hresult] at hgenerated
  | ok generated =>
    simp only [hresult, mapError_ok, Except.ok.injEq] at hgenerated
    rw [hgenerated]

-- What a run reads has an output directory and paths below it.
theorem output_of_reading (h : Ends (reading request) disk disk (.ok (root, config, result))) :
    ∃ base, disk.resolve (root.child config.output) = .ok base ∧
      (Generation.generate result.schema config.supabasePath (.ofPlace base)).outcome = .ok result.files := by
  obtain ⟨_, _, _, hfiles⟩ := reading_ends h
  obtain ⟨output, houtput, _⟩ := (readOnly_resolve (root.child config.output)).bind_ok.mp hfiles
  obtain ⟨_, base, hbase, _⟩ := resolve_of_ends houtput
  exact ⟨base, hbase, generate_of_files hbase hfiles⟩

-- What is generated into a directory, as a run tells.
theorem files_placed (hbase : disk.resolve (root.child config.output) = .ok base)
    (htables : ∀ table ∈ schema.tables, IsName table.name)
    (hroutines : ∀ routine ∈ schema.publicRoutines, IsName routine.name)
    (h : Ends (Integration.files schema config root) disk last (.ok files)) :
    (files.map (·.path)).Nodup ∧ ∀ file ∈ files, Generation.Placed (.ofPlace base) file :=
  Generation.generate_placed htables hroutines (generate_of_files hbase h)

end HookGen.Integration
