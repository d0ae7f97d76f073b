import HookGen.Proofs.Integration.Beside
import HookGen.Proofs.Integration.Failing
import HookGen.Proofs.Integration.Rounds
import HookGen.Proofs.Manifest.Passing

/-!
Runs that find a manifest file of any content. Where a run without it succeeds, so does one with it if
nothing in it makes loading it or cleaning up fail, and both leave the same manifest.
-/

namespace HookGen.Integration

open Disk Run Manifest

variable {bare written without disk mid last : Disk} {base : Place} {now : Text} {request : Request} {root : Path}
  {config : Config} {schema : Schema} {result : Result} {files : List GeneratedFile} {bytes : Bytes}

-- Nothing that a manifest says makes a run fail: it is read, and if there is anything in it, it has a list
-- of which the entries pass.
structure Harmless (disk : Disk) (base : Place) (files : List Text) (bytes : Bytes) : Prop where
  loads : ∃ found, loaded bytes = .ok found
  passes : ∀ previous, loaded bytes = .ok (some previous) → isBlank previous = false →
    ∃ names, entries previous = .ok names ∧ ∀ current, Ends (resolveAll files) disk disk (.ok current) →
      Passes disk base current (Text.sortDistinct names)

-- A manifest that is an object and lists some files.
def Describes (disk : Disk) (base : Place) (files : List Text) (content : Bytes) : Prop :=
  ∃ names t fields, List.Forall₂ (Calls disk (.ofPlace base)) files names ∧ Utf8.decode content = .ok t ∧
    Json.read (normalizeLines t) = .ok (.obj fields) ∧
    entries (.obj fields) = .ok ((Text.sort names).map Json.rejoin)

-- A disk with a manifest file that can be read and written.
structure HasManifest (disk : Disk) (base : Place) (bytes : Bytes) : Prop where
  tree : disk.IsTree
  free : disk.LoopFree
  file : disk.entry? (placeIn base) = some (.file bytes)
  fits : ∀ part ∈ placeIn base, isTooLong part = false
  checked : checkText (Path.ofPlace (placeIn base)).text = .ok ()

namespace HasManifest

theorem real (h : HasManifest disk base bytes) : disk.IsReal (placeIn base) :=
  h.tree.isReal (by simp [h.file]) (by simp [linkAt?, h.file])

theorem realBase (h : HasManifest disk base bytes) : disk.IsReal base :=
  h.real.of_prefix (List.prefix_append ..)

theorem directory (h : HasManifest disk base bytes) : disk.entry? base = some .directory :=
  h.tree.parent base fileName (Option.isSome_of_eq_some h.file)

theorem checkNames (h : HasManifest disk base bytes) : Disk.checkNames [] (placeIn base) = .ok () :=
  checkNames_of_checkText h.real.names h.checked

theorem resolve (h : HasManifest disk base bytes) : disk.resolve (.ofPlace base) = .ok base := by
  have hchecked := checkNames_concat (fun part hpart => (h.realBase.names part hpart).ne_points) h.checkNames
  rw [resolve_ofPlace h.realBase, hchecked]
  rfl

theorem writable (h : HasManifest disk base bytes) : Writable disk base fileName where
  real := h.real
  directory := h.directory
  free := by
    have hfile := h.file
    rw [placeIn] at hfile
    simp [hfile]
  fits := h.fits
  checked := h.checkNames

theorem load (h : HasManifest disk base bytes) (hbase : disk.resolve (root.child config.output) = .ok base) :
    Ends (Manifest.load config root) disk disk (loaded bytes) := by
  have hfind : disk.find (.ofPlace (placeIn base)) = .ok (placeIn base, .file bytes) := by
    have hlocate := locate_of_directory h.tree h.real h.directory h.fits
    have hfile := h.file
    unfold placeIn at hfile ⊢
    simp [find, hlocate, hfile, bind, Except.bind, pure, Except.pure]
  exact load_of_find hbase hfind h.checked

-- Cleaning up after it keeps it.
theorem cleaning (h : HasManifest disk base bytes) {found : Option Json} {paths : List Text}
    (hclean : Ends (cleaning found paths (.ofPlace base)) disk last (.ok ())) :
    HasManifest last base bytes ∧ SameLinks disk last := by
  unfold Integration.cleaning at hclean
  split at hclean
  · split at hclean
    · obtain ⟨rfl, _⟩ := ends_done.mp hclean
      exact ⟨h, .refl disk⟩
    · obtain ⟨_, removed, hremoved, hdone⟩ := ends_bind_ok.mp hclean
      obtain ⟨rfl, _⟩ := ends_done.mp hdone
      obtain ⟨htree, hlinks, hfile⟩ :=
        cleanUp_spares h.tree h.realBase (fun _ _ _ _ => h.free.loopless _) h.file hremoved
      exact ⟨⟨htree, h.free.congr hlinks, hfile, h.fits, h.checked⟩, hlinks⟩
  · obtain ⟨rfl, _⟩ := ends_done.mp hclean
    exact ⟨h, .refl disk⟩

-- The manifest is read, and cleaning up after it ends, exactly if it is harmless.
theorem harmless_iff (h : HasManifest disk base bytes) {paths names : List Text}
    (hcalls : List.Forall₂ (Calls disk (.ofPlace base)) paths names) :
    Harmless disk base paths bytes ↔ ∃ found, loaded bytes = .ok found ∧
      ∃ last, Ends (Integration.cleaning found paths (.ofPlace base)) disk last (.ok ()) := by
  obtain ⟨current, hcurrent⟩ := resolveAll_of_calls hcalls
  constructor
  · rintro ⟨⟨found, hfound⟩, hpasses⟩
    refine ⟨found, hfound, ?_⟩
    unfold Integration.cleaning
    split
    · rename_i previous
      cases hblank : isBlank previous with
      | true => exact ⟨disk, rfl, rfl⟩
      | false =>
        obtain ⟨listed, hlisted, hall⟩ := hpasses previous hfound hblank
        obtain ⟨removed, last, hremoved⟩ :=
          (cleanUp_ends_iff h.resolve hcurrent).mpr ⟨listed, hlisted, hall current hcurrent⟩
        exact ⟨last, (ends_bind_of_ok hremoved).mpr ⟨rfl, rfl⟩⟩
    · exact ⟨disk, rfl, rfl⟩
  · rintro ⟨found, hfound, last, hclean⟩
    refine ⟨⟨found, hfound⟩, fun previous hprevious hblank => ?_⟩
    obtain rfl := Except.ok.inj (hprevious.symm.trans hfound)
    simp only [Integration.cleaning, hblank, Bool.false_eq_true, if_false] at hclean
    obtain ⟨next, removed, hremoved, _⟩ := ends_bind_ok.mp hclean
    obtain ⟨listed, hlisted, hall⟩ := (cleanUp_ends_iff h.resolve hcurrent).mp ⟨removed, next, hremoved⟩
    refine ⟨listed, hlisted, fun current' hcurrent' => ?_⟩
    obtain rfl := Except.ok.inj (hcurrent.unique hcurrent').2
    exact hall

-- Bringing it up to date succeeds exactly if it is harmless, and leaves the new manifest.
theorem updates (h : HasManifest disk base bytes)
    (hbase : disk.resolve (root.child config.output) = .ok base)
    {names : List Text} {content : Bytes}
    (hcalls : List.Forall₂ (Calls disk (.ofPlace base)) (files.map (·.path)) names)
    (hencode : Utf8.encode (fileText now schema config.supabasePath names) = .ok content) :
    (Harmless disk base (files.map (·.path)) bytes → ∃ last,
      Ends (updateManifest now schema files config root) disk last (.ok ()) ∧
        last.entry? (placeIn base) = some (.file content) ∧ SameLinks disk last) ∧
    ((∃ last, Ends (updateManifest now schema files config root) disk last (.ok ())) →
      Harmless disk base (files.map (·.path)) bytes) := by
  have hload := h.load hbase
  constructor
  · intro hharmless
    obtain ⟨found, hfound, next, hclean⟩ := (h.harmless_iff hcalls).mp hharmless
    obtain ⟨hnext, hlinks⟩ := h.cleaning hclean
    have hbaseNext : next.resolve (root.child config.output) = .ok base := resolve_congr hlinks h.realBase hbase
    have hcallsNext : List.Forall₂ (Calls next (.ofPlace base)) (files.map (·.path)) names :=
      hcalls.imp fun file name hname =>
        hname.congr h.free h.tree (isRead_ofPlace h.realBase) hlinks
    obtain ⟨last, hwrite, hentry⟩ := writeFile_of_writable hnext.tree hnext.writable hencode
    obtain ⟨_, _, _, hwrites⟩ := Manifest.writeFile_writes hnext.tree hnext.real hwrite
    refine ⟨last, (ends_updateManifest hbase).mpr ?_, by rw [placeIn, hentry, if_pos rfl],
      hlinks.trans hwrites.links⟩
    rw [hfound] at hload
    exact (ends_bind_of_ok hload).mpr ((ends_bind_of_ok hclean).mpr
      ((ends_recordFiles hbaseNext).mpr ⟨names, hcallsNext, hwrite⟩))
  · rintro ⟨last, hends⟩
    obtain ⟨_, found, hfound, hrest⟩ := ends_bind_ok.mp ((ends_updateManifest hbase).mp hends)
    obtain ⟨rfl, hsame⟩ := hload.unique hfound
    obtain ⟨next, _, hclean, _⟩ := ends_bind_ok.mp hrest
    exact (h.harmless_iff hcalls).mpr ⟨found, hsame, next, hclean⟩

end HasManifest

-- A successful run where there is no manifest, and the disk once the generated files are written. Its
-- configuration is not read from the place of the manifest, and none of its generated files leads there. Nor
-- does it make a directory there, which a run that writes a manifest cannot do anyway.
structure FirstRun (now : Text) (request : Request) (bare written last : Disk) (root : Path) (config : Config)
    (base : Place) (result : Result) : Prop where
  ends : Ends (integrate now request) bare last (.ok result)
  reading : Ends (reading request) bare bare (.ok (root, config, result))
  output : bare.resolve (root.child config.output) = .ok base
  writes : Ends (forEach (writeGenerated request.verbose) result.files) bare written (.ok ())
  apart : request.configPath = none → bare.locate true (root.child Config.fileName) ≠ .ok (placeIn base)
  others : ∀ file ∈ result.files, ¬ LeadsTo written (placeIn base) file
  place : config.manifest = false → written.entry? (placeIn base) ≠ some .directory

-- A manifest that is written first.
structure Recorded (now : Text) (schema : Schema) (clientPath : Text) (disk : Disk) (base : Place)
    (files : List Text) (names : List Text) (content : Bytes) : Prop where
  calls : List.Forall₂ (Calls disk (.ofPlace base)) files names
  encoded : Utf8.encode (fileText now schema clientPath names) = .ok content
  checked : checkText (Path.ofPlace (placeIn base)).text = .ok ()
  fits : ∀ part ∈ placeIn base, isTooLong part = false

-- Where there is no manifest file, bringing the manifest up to date writes one.
theorem updateManifest_of_no_file (tree : disk.IsTree) (hreal : disk.IsReal (placeIn base))
    (hbase : disk.resolve (root.child config.output) = .ok base)
    (hnone : ∀ bytes, disk.entry? (placeIn base) ≠ some (.file bytes))
    (h : Ends (updateManifest now schema files config root) disk last (.ok ())) :
    disk.entry? (placeIn base) ≠ some .directory ∧ ∃ names content,
      Recorded now schema config.supabasePath disk base (files.map (·.path)) names content ∧
        last.entry? (placeIn base) = some (.file content) := by
  obtain ⟨_, found, hload, hrest⟩ := ends_bind_ok.mp ((ends_updateManifest hbase).mp h)
  obtain ⟨rfl, rfl⟩ := load_of_no_file hbase hreal hnone hload
  obtain ⟨_, _, hclean, hrecord⟩ := ends_bind_ok.mp hrest
  obtain ⟨rfl, _⟩ := ends_done.mp hclean
  obtain ⟨names, hcalls, hwrite⟩ := (ends_recordFiles hbase).mp hrecord
  obtain ⟨hchecked, content, hcontent, hwrites⟩ := Manifest.writeFile_writes tree hreal hwrite
  obtain ⟨hfits, hold⟩ := writePieces_finds tree hreal (Manifest.ends_writeFile.mp hwrite)
  exact ⟨hold, names, content, ⟨hcalls, hcontent, hchecked, hfits⟩, hwrites.file⟩

namespace FirstRun

theorem opens (tree : bare.IsTree) (h : FirstRun now request bare written last root config base result) :
    Opens bare result.files written := by
  obtain ⟨_, _, hgenerated⟩ := output_of_reading h.reading
  exact (forEach_opens tree (names_of_generated hgenerated) h.writes).1

-- A first run writes its manifest, if it does so, where its generated files have left nothing.
theorem records (tree : bare.IsTree) (hreal : bare.IsReal (placeIn base))
    (hnone : bare.entry? (placeIn base) = none) (hmanifest : config.manifest = true)
    (h : FirstRun now request bare written last root config base result) :
    written.entry? (placeIn base) ≠ some .directory ∧ ∃ names content,
      Recorded now result.schema config.supabasePath written base (result.files.map (·.path)) names content ∧
        last.entry? (placeIn base) = some (.file content) := by
  have hopens := h.opens tree
  have hlinks := hopens.more.links
  have hbase := resolve_congr hlinks (hreal.of_prefix (List.prefix_append ..)) h.output
  have hnoFile : ∀ bytes, written.entry? (placeIn base) ≠ some (.file bytes) := by
    intro bytes
    rcases hopens.kept (placeIn base) h.others with hsame | ⟨_, hmade⟩
    · simp [hsame, hnone]
    · simp [hmade]
  obtain ⟨hupdate, _⟩ := (ends_integrate_of_written h.reading h.writes hmanifest).mp h.ends
  exact updateManifest_of_no_file hopens.tree (hlinks.isReal hreal) hbase hnoFile hupdate

-- Beside a manifest, it reads the same and writes the same files, and the manifest stays as it is.
theorem carries (tree : disk.IsTree) (hfile : disk.entry? (placeIn base) = some (.file bytes))
    (hplace : written.entry? (placeIn base) ≠ some .directory)
    (h : FirstRun now request (disk.erase (placeIn base)) written last root config base result) :
    Ends (Integration.reading request) disk disk (.ok (root, config, result)) ∧
      ∃ mid, Ends (forEach (writeGenerated request.verbose) result.files) disk mid (.ok ()) ∧
        SameLinks disk mid ∧ Beside written mid (placeIn base) ∧
          mid.entry? (placeIn base) = some (.file bytes) := by
  have hbeside := beside_erase tree hfile
  have hnames : ∀ file ∈ result.files, (Path.ofText file.path).names ≠ [] := by
    obtain ⟨_, _, hgenerated⟩ := output_of_reading h.reading
    exact names_of_generated hgenerated
  obtain ⟨mid, hmid, hnext⟩ := hbeside.forEach hnames h.writes hplace h.others
  obtain ⟨hopens, _⟩ := forEach_opens tree hnames hmid
  refine ⟨hbeside.carries_reading h.reading h.apart, mid, hmid, hopens.more.links, hnext, ?_⟩
  have hothers : ∀ file ∈ result.files, ¬ LeadsTo mid (placeIn base) file := by
    intro file hmem hleads
    rcases hnext.locate_cases (Path.ofText file.path) with heq | ⟨_, hnowhere⟩
    · exact h.others file hmem (heq.symm.trans hleads)
    · cases hnowhere.symm.trans hleads
  rcases hopens.kept (placeIn base) hothers with hsame | ⟨hfree, _⟩
  · rw [hsame, hfile]
  · simp [hfile] at hfree

-- It then finds the manifest there, where the run without it has nothing, and has the same to record.
theorem meets (tree : disk.IsTree) (free : disk.LoopFree)
    (hfile : disk.entry? (placeIn base) = some (.file bytes)) (hmanifest : config.manifest = true)
    (h : FirstRun now request (disk.erase (placeIn base)) written last root config base result) :
    ∃ mid names content, Ends (Integration.reading request) disk disk (.ok (root, config, result)) ∧
      Ends (forEach (writeGenerated request.verbose) result.files) disk mid (.ok ()) ∧
      mid.resolve (root.child config.output) = .ok base ∧ HasManifest mid base bytes ∧
      Recorded now result.schema config.supabasePath mid base (result.files.map (·.path)) names content ∧
      last.entry? (placeIn base) = some (.file content) := by
  have hbeside := beside_erase tree hfile
  have hreal : (disk.erase (placeIn base)).IsReal (placeIn base) :=
    hbeside.links.symm.isReal (tree.isReal (by simp [hfile]) (by simp [linkAt?, hfile]))
  obtain ⟨hplace, names, content, hrecorded, hcontent⟩ :=
    h.records hbeside.bareTree hreal hbeside.free hmanifest
  obtain ⟨hreading, mid, hmid, hlinks, hnext, hmidFile⟩ := h.carries tree hfile hplace
  have hbase := resolve_congr (hbeside.links.trans hlinks) (hreal.of_prefix (List.prefix_append ..)) h.output
  have hcalls : List.Forall₂ (Calls mid (.ofPlace base)) (result.files.map (·.path)) names := by
    refine hrecorded.calls.imp fun file name hname => ?_
    unfold Calls at hname ⊢
    simpa only [hnext.resolve_eq] using hname
  exact ⟨mid, names, content, hreading, hmid, hbase,
    ⟨hnext.tree, free.congr hlinks, hmidFile, hrecorded.fits, hrecorded.checked⟩,
    ⟨hcalls, hrecorded.encoded, hrecorded.checked, hrecorded.fits⟩, hcontent⟩

end FirstRun

-- Where a run without a manifest succeeds, so does one beside a manifest file of any content exactly if
-- this is harmless once the generated files are written. It generates the same files, and its manifest is
-- the one that the run without it leaves, an object that lists these files.
theorem succeeds_iff_harmless (tree : disk.IsTree) (free : disk.LoopFree)
    (hfile : disk.entry? (placeIn base) = some (.file bytes))
    (h : FirstRun now request (disk.erase (placeIn base)) written without root config base result) :
    ∃ mid, Ends (forEach (writeGenerated request.verbose) result.files) disk mid (.ok ()) ∧
      ((∃ last, Ends (integrate now request) disk last (.ok result)) ↔
        (config.manifest = true → Harmless mid base (result.files.map (·.path)) bytes)) ∧
      ∀ last found, Ends (integrate now request) disk last (.ok found) → found = result ∧
        (config.manifest = true → last.entry? (placeIn base) = without.entry? (placeIn base) ∧
          ∃ content, last.entry? (placeIn base) = some (.file content) ∧
            Describes last base (result.files.map (·.path)) content) := by
  cases hmanifest : config.manifest with
  | false =>
    obtain ⟨hreading, mid, hmid, _⟩ := h.carries tree hfile (h.place hmanifest)
    have hends : Ends (integrate now request) disk mid (.ok result) := by
      refine (ends_integrate_of_reading hreading).mpr ((ends_bind_of_ok hmid).mpr ?_)
      simp only [hmanifest, Bool.false_eq_true, if_false]
      exact ⟨rfl, rfl⟩
    refine ⟨mid, hmid, by simpa using ⟨mid, hends⟩, fun last found hfound => ?_⟩
    simpa using (Except.ok.inj (hends.unique hfound).2).symm
  | true =>
    obtain ⟨mid, names, content, hreading, hmid, hbase, hprevious, hrecorded, hcontent⟩ :=
      h.meets tree free hfile hmanifest
    obtain ⟨hsucceeds, hharmless⟩ := hprevious.updates hbase hrecorded.calls hrecorded.encoded
    have hends {last : Disk} {found : Result} := @ends_integrate_of_written disk last now request result
      root config mid found hreading hmid hmanifest
    refine ⟨mid, hmid, ⟨?_, ?_⟩, fun last found hfound => ?_⟩
    · rintro ⟨last, hfound⟩ _
      exact hharmless ⟨last, (hends.mp hfound).1⟩
    · intro hall
      obtain ⟨last, hupdate, _⟩ := hsucceeds (hall rfl)
      exact ⟨last, hends.mpr ⟨hupdate, rfl⟩⟩
    · obtain ⟨hupdate, rfl⟩ := hends.mp hfound
      obtain ⟨_, hupdated, hentry, hlinks⟩ := hsucceeds (hharmless ⟨last, hupdate⟩)
      obtain ⟨rfl, _⟩ := hupdate.unique hupdated
      obtain ⟨t, fields, hdecode, hread, _, hentries⟩ := read_fileText hrecorded.encoded
      have hcalls := hrecorded.calls.imp fun file name hname =>
        hname.congr hprevious.free hprevious.tree (isRead_ofPlace hprevious.realBase) hlinks
      exact ⟨rfl, fun _ => ⟨hentry.trans hcontent.symm, content, hentry, names, t, fields, hcalls, hdecode,
        hread, hentries⟩⟩

-- The disk of before, with a manifest file.
def recordedDisk (bytes : Bytes) : Disk := sampleDisk.put (placeIn samplePlace) (.file bytes)

theorem recordedDisk_file (bytes : Bytes) :
    Disk.entry? (recordedDisk bytes) (placeIn samplePlace) = some (.file bytes) := by
  rw [recordedDisk, entry_put (by simp [placeIn]), if_pos rfl]

theorem erase_recordedDisk (bytes : Bytes) : (recordedDisk bytes).erase (placeIn samplePlace) = sampleDisk := by
  rfl

theorem recordedDisk_isTree (bytes : Bytes) : (recordedDisk bytes).IsTree :=
  sampleDisk_holdsProject.tree.put isName_fileName (by decide +kernel) (by simp) (by decide +kernel)

theorem recordedDisk_loopFree (bytes : Bytes) : (recordedDisk bytes).LoopFree := by
  refine loopFree_of_real fun entry hentry target htarget => ?_
  have hfile : ∀ entry ∈ sampleDisk.entries, ∀ target, entry.2 ≠ .link target := by simp [sampleDisk]
  rcases List.mem_cons.mp hentry with rfl | hmem
  · simp at htarget
  · exact absurd htarget (hfile entry (List.mem_of_mem_filter hmem) target)

theorem sampleFiles_written : ∃ written last, FirstRun "now" Request.default sampleDisk written last
    (.ofPlace []) Config.default samplePlace ⟨sampleSchema, sampleFiles⟩ := by
  have hroot := sampleDisk_holdsProject.projectRoot_ends
  have hconfig := sampleDisk_holdsProject.config_ends
  obtain ⟨last, hends, _⟩ : ∃ last, Ends (integrate "now" Request.default) sampleDisk last
      (.ok ⟨sampleSchema, sampleFiles⟩) ∧ _ :=
    integrate_succeeds hroot hconfig sampleSchema_ends sampleFiles_ends sampleDisk_holdsProject.output
      sampleFiles_prepared
  obtain ⟨root, config, written, hreading, hwrite, _⟩ := integrate_cases hends
  obtain ⟨hroot', hconfig', _⟩ := reading_ends hreading
  cases (hroot.unique hroot').2
  cases (hconfig.unique hconfig').2
  obtain ⟨hopens, _⟩ := forEach_opens sampleDisk_holdsProject.tree (names_of_generated
    (generate_of_files sampleDisk_holdsProject.output sampleFiles_ends)) hwrite
  refine ⟨written, last, hends, hreading, sampleDisk_holdsProject.output, hwrite, ?_, fun file hfile => ?_,
    by simp [Config.default]⟩
  · decide +kernel
  · exact not_leadsTo_placeIn (sampleDisk_holdsProject.clear.congr hopens.more.links)
      (sampleFiles_prepared.isModule file hfile)

-- A manifest with an object in place of the list, which names a file outside of the output directory.
def oddManifest : Bytes :=
  (Utf8.encode "\x7b\"generatedFiles\": \x7b\"../notes.md\": 5\x7d\x7d").toOption.getD []

theorem oddManifest_harmless (hlinks : SameLinks (recordedDisk oddManifest) disk) (paths : List Text) :
    Harmless disk samplePlace paths oddManifest := by
  have hlisted : (loaded oddManifest).toOption.map (·.map fun previous => (entries previous).toOption) =
      some (some (some [Text.ofString "../notes.md"])) := by decide +kernel
  have hplace : disk.resolve (Path.child (.ofPlace samplePlace) "../notes.md") = .ok ["lib", "notes.md"] :=
    resolve_congr hlinks (by decide +kernel) (by decide +kernel)
  have hbelow : ¬ IsBelow samplePlace ["lib", "notes.md"] := fun h => absurd h.1 (by decide +kernel)
  cases hfound : loaded oddManifest with
  | error e => simp [hfound, Except.toOption] at hlisted
  | ok found =>
    refine ⟨⟨found, hfound⟩, fun previous hprevious _ => ?_⟩
    obtain rfl := Except.ok.inj (hfound.symm.trans hprevious)
    cases hentries : entries previous with
    | error e => simp [hfound, hentries, Except.toOption] at hlisted
    | ok names =>
      obtain rfl : names = [Text.ofString "../notes.md"] := by
        simpa [hfound, hentries, Except.toOption] using hlisted
      refine ⟨_, rfl, fun current _ => passes_of_outside fun entry hentry => ?_⟩
      obtain rfl := List.mem_singleton.mp (Text.mem_sortDistinct.mp hentry)
      exact ⟨_, hplace, hbelow⟩

theorem succeeds_iff_harmless_odd : ∃ mid last,
    Ends (forEach (writeGenerated false) sampleFiles) (recordedDisk oddManifest) mid (.ok ()) ∧
    Harmless mid samplePlace (sampleFiles.map (·.path)) oddManifest ∧
    Ends (integrate "now" Request.default) (recordedDisk oddManifest) last
      (.ok ⟨sampleSchema, sampleFiles⟩) := by
  obtain ⟨written, without, hfirst⟩ := sampleFiles_written
  obtain ⟨mid, hmid, hiff, _⟩ := succeeds_iff_harmless (recordedDisk_isTree oddManifest)
    (recordedDisk_loopFree oddManifest) (recordedDisk_file oddManifest) hfirst
  obtain ⟨hopens, _⟩ := forEach_opens (recordedDisk_isTree oddManifest)
    (names_of_generated (generate_of_files sampleDisk_holdsProject.output sampleFiles_ends)) hmid
  have hharmless := oddManifest_harmless hopens.more.links (sampleFiles.map (·.path))
  obtain ⟨last, hends⟩ := hiff.mpr fun _ => hharmless
  exact ⟨mid, last, hmid, hharmless, hends⟩

-- A manifest file that is no text makes a run fail that succeeds without it.
theorem fails_undecodable :
    (∃ last, Ends (integrate "now" Request.default) ((recordedDisk [0xff]).erase (placeIn samplePlace)) last
      (.ok ⟨sampleSchema, sampleFiles⟩)) ∧
    Disk.entry? (recordedDisk [0xff]) (placeIn samplePlace) = some (.file [0xff]) ∧
    ∃ last e, Ends (integrate "now" Request.default) (recordedDisk [0xff]) last (.error (.unreadable e)) := by
  obtain ⟨written, without, hfirst⟩ := sampleFiles_written
  refine ⟨⟨without, hfirst.ends⟩, recordedDisk_file _, ?_⟩
  obtain ⟨mid, _, _, hreading, hmid, hbase, hprevious, _⟩ := hfirst.meets (recordedDisk_isTree [0xff])
    (recordedDisk_loopFree [0xff]) (recordedDisk_file [0xff]) rfl
  have hnone : (Utf8.decode [0xff]).toOption = none := by decide +kernel
  obtain ⟨e, hdecode⟩ : ∃ e, Utf8.decode [0xff] = .error e := by
    cases hdecode : Utf8.decode [0xff] with
    | error e => exact ⟨e, rfl⟩
    | ok t => simp [hdecode, Except.toOption] at hnone
  have hload := hprevious.load hbase
  rw [loaded, hdecode] at hload
  have hupdate : Ends (updateManifest "now" sampleSchema sampleFiles Config.default (.ofPlace [])) mid mid
      (.error (.unreadable e)) :=
    (ends_updateManifest hbase).mpr ((ends_bind_of_error hload).mpr ⟨rfl, rfl⟩)
  exact ⟨mid, e, (ends_integrate_of_reading hreading).mpr ((ends_bind_of_ok hmid).mpr
    ((ends_bind_of_error hupdate).mpr ⟨rfl, rfl⟩))⟩

end HookGen.Integration
