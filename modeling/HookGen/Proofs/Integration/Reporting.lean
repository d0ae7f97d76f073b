import HookGen.Proofs.Integration.Failing
import HookGen.Proofs.Integration.Progress

/-!
What a run tells that fails while it writes, and what its files hold then. Only what the disk refuses is
told; a text that has no form in bytes leaves an empty file without a word.
-/

namespace HookGen

open Disk Run

-- The disk has refused a path.
def RunError.IsRefused (e : RunError) : Prop := ∃ fault path, e = .disk (.refused fault path)

-- A message of an error that names a path.
def Reported (path : Path) (records : List LogRecord) : Prop :=
  ∃ record ∈ records, record.level = .error ∧ path.text <:+: record.text

theorem not_reported_nil (path : Path) : ¬ Reported path [] := by
  rintro ⟨_, hmem, _⟩
  cases hmem

-- A failure is reported if the disk has refused something.
theorem Manifest.reported_writeFile_iff {disk last : Disk} {path : Path} {text : Text} {e : RunError}
    (h : Ends (writePieces path [text]) disk last (.error e)) :
    Reported path (Manifest.writeFile path text disk).2.notes ↔ e.IsRefused := by
  rw [Manifest.writeFile, notes_orElse_of_error h, silent_writePieces, List.nil_append]
  dsimp only
  split
  · rename_i fault refused
    have hlog {record : LogRecord} : Ends (log record) last last (.ok ()) := ⟨rfl, rfl⟩
    rw [Run.logError, notes_bind_of_ok hlog]
    refine iff_of_true ⟨_, List.mem_append_left _ (List.mem_singleton.mpr rfl), rfl, ?_⟩
      ⟨fault, refused, rfl⟩
    exact ⟨"Failed to write ", _, (List.append_assoc ..).symm⟩
  · rename_i hother
    exact iff_of_false (not_reported_nil path) fun ⟨fault, refused, heq⟩ => hother fault refused heq

namespace Integration

variable {disk mid last : Disk} {request : Request} {root : Path} {config : Config} {result : Result}
  {files opened before : List GeneratedFile} {file : GeneratedFile} {e : RunError} {now : Text}

-- Each file that was there at a generated path holds what it held, or all of a generated text.
def Whole (files : List GeneratedFile) (disk last : Disk) : Prop :=
  ∀ file ∈ files, ∀ place old, LeadsTo disk place file → disk.entry? place = some (.file old) →
    last.entry? place = some (.file old) ∨ ∃ other ∈ files, LeadsTo last place other ∧
      ∃ bytes, Utf8.encode (finalText other) = .ok bytes ∧ last.entry? place = some (.file bytes)

theorem Opens.whole (h : Opens disk opened last) (hopened : opened ⊆ files)
    (hencoded : ∀ file ∈ opened, ∃ bytes, Utf8.encode (finalText file) = .ok bytes) :
    Whole files disk last := by
  intro file _ place old _ hold
  have hentry := h.entry place (by simp [hold])
  cases hleft : leftAt last place opened with
  | none => exact .inl (by simpa [hleft, hold] using hentry)
  | some left =>
    obtain ⟨other, hother, hleads, rfl⟩ := exists_of_leftAt hleft
    obtain ⟨bytes, hbytes⟩ := hencoded other hother
    have hwritten : leftBy other = bytes := by simp [leftBy, bytesOf, hbytes, Except.toOption]
    exact .inr ⟨other, hopened hother, hleads, bytes, hbytes, by simpa [hleft, hwritten] using hentry⟩

-- A file whose text has no form in bytes loses what it held.
theorem Opens.emptied {cause : Utf8.EncodeError} (h : Opens disk (before ++ [file]) last)
    (hencode : Utf8.encode (finalText file) = .error cause) {place : Place} {old : Bytes}
    (hleads : LeadsTo disk place file) (hold : disk.entry? place = some (.file old)) :
    last.entry? place = some (.file []) := by
  have hlast : LeadsTo last place file := h.more.locate_eq hleads
  have hleft : leftAt last place (before ++ [file]) = some [] := by
    simp [leftAt, hlast, leftBy, bytesOf, hencode, Except.toOption]
  simpa [hleft] using h.entry place (by simp [hold])

-- The log of a run ends with that of the file at which it stops.
theorem Stops.notes_suffix (h : Stops request.verbose result.files e disk last before file mid)
    (hreading : Ends (reading request) disk disk (.ok (root, config, result))) :
    (Manifest.writeFile (Path.ofText file.path) (finalText file) mid).2.notes <:+
      (integrate now request disk).2.notes := by
  obtain ⟨hroot, hconfig, hschema, hfiles⟩ := reading_ends hreading
  obtain ⟨after, hsplit⟩ := h.split
  have hwrite : Ends (Manifest.writeFile (Path.ofText file.path) (finalText file)) mid last (.error e) :=
    Manifest.ends_writeFile.mpr (ends_writeGenerated.mp h.fails)
  have hgenerated : (Manifest.writeFile (Path.ofText file.path) (finalText file) mid).2.notes <:+
      (forEach (writeGenerated request.verbose) result.files disk).2.notes := by
    rw [hsplit, ← notes_bind_of_error hwrite]
    exact notes_suffix_forEach h.written h.fails
  have hforEach : Ends (forEach (writeGenerated request.verbose) result.files) disk last (.error e) := by
    rw [hsplit, ends_forEach_append h.written]
    exact (ends_bind_of_error h.fails).mpr ⟨rfl, rfl⟩
  have hrest : (Manifest.writeFile (Path.ofText file.path) (finalText file) mid).2.notes <:+
      ((do
        let schema ← schema config root
        let files ← files schema config root
        forEach (writeGenerated request.verbose) files
        if config.manifest then updateManifest now schema files config root
        return ⟨schema, files⟩ : Run Result) disk).2.notes := by
    refine notes_suffix_bind hschema (notes_suffix_bind hfiles ?_)
    rwa [notes_bind_of_error hforEach]
  unfold integrate
  refine notes_suffix_bind hroot (notes_suffix_bind hconfig ?_)
  dsimp only
  split
  · exact notes_suffix_bind (show Ends (logConfig config root) disk disk (.ok ()) from ⟨rfl, rfl⟩) hrest
  · exact hrest

-- A failure at writing generated files is reported, with all files whole, exactly if the disk has refused
-- the path. Any other failure is not reported, and a text that has no form in bytes empties its file.
theorem failure_reported_iff (tree : disk.IsTree)
    (hreading : Ends (reading request) disk disk (.ok (root, config, result)))
    (h : Ends (forEach (writeGenerated request.verbose) result.files) disk last (.error e)) :
    Ends (integrate now request) disk last (.error e) ∧
    ∃ before file mid, Stops request.verbose result.files e disk last before file mid ∧
      (Manifest.writeFile (Path.ofText file.path) (finalText file) mid).2.notes <:+
        (integrate now request disk).2.notes ∧
      (Reported (Path.ofText file.path)
          (Manifest.writeFile (Path.ofText file.path) (finalText file) mid).2.notes ∧
        Whole result.files disk last ↔ e.IsRefused) ∧
      ∀ cause, e = .unwritable cause → ∀ place old, LeadsTo disk place file →
        disk.entry? place = some (.file old) → last.entry? place = some (.file []) := by
  obtain ⟨base, hbase, hgenerated⟩ := output_of_reading hreading
  obtain ⟨before, file, mid, hstops⟩ := exists_stops tree (names_of_generated hgenerated) h
  refine ⟨integrate_of_forEach_error hreading h, before, file, mid, hstops, hstops.notes_suffix hreading, ?_, ?_⟩
  · rw [Manifest.reported_writeFile_iff (ends_writeGenerated.mp hstops.fails), and_iff_left_iff_imp]
    rintro ⟨fault, path, rfl⟩
    obtain ⟨after, hsplit⟩ := hstops.split
    have hopens := (hstops.opens.resolve_right fun ⟨⟨_, hother, _⟩, _⟩ => by cases hother).2
    exact hopens.whole (by simp [hsplit]) hstops.encoded
  · rintro cause rfl place old hleads hold
    obtain ⟨⟨_, _, hencode⟩, hopens⟩ := hstops.opens.resolve_left fun ⟨⟨_, hother⟩, _⟩ => by cases hother
    exact hopens.emptied hencode hleads hold

-- The disk refuses the first file.
theorem blockedDisk_refuses : ∃ found, Ends (reading Request.default) blockedDisk blockedDisk (.ok found) ∧
    (match (forEach (writeGenerated false) found.2.2.files blockedDisk).2.outcome with
      | .error (.disk (.refused _ _)) => true
      | _ => false) = true :=
  ⟨blockedReading, (readOnly_reading _).ends_get _, by decide +kernel⟩

theorem failure_reported_blocked : ∃ (result : Result) (last : Disk) (e : RunError) (path : Path),
    Ends (forEach (writeGenerated false) result.files) blockedDisk last (.error e) ∧
    Reported path (integrate "now" Request.default blockedDisk).2.notes ∧
    Whole result.files blockedDisk last := by
  obtain ⟨⟨root, config, result⟩, hreading, hrefused⟩ := blockedDisk_refuses
  cases hends : forEach (writeGenerated false) result.files blockedDisk with
  | mk last told =>
    dsimp only at hrefused
    rw [hends] at hrefused
    split at hrefused
    · rename_i fault refused houtcome
      have hwrite : Ends (forEach (writeGenerated false) result.files) blockedDisk last
          (.error (.disk (.refused fault refused))) :=
        ⟨by rw [hends], by rw [hends]; exact houtcome⟩
      obtain ⟨_, _, file, mid, _, hnotes, hreported, _⟩ :=
        @failure_reported_iff _ _ Request.default _ _ _ _ "now" blockedDisk_isTree hreading hwrite
      obtain ⟨⟨record, hrecord, hnames⟩, hwhole⟩ := hreported.mpr ⟨fault, refused, rfl⟩
      exact ⟨result, last, _, _, hwrite, ⟨record, hnotes.subset hrecord, hnames⟩, hwhole⟩
    · cases hrefused

-- The value of an enum has no form in bytes, and the module of the enums is there from before.
def surrogateDisk : Disk where
  entries := [
    (["lib"], .directory), (["lib", "database"], .directory), (["lib", "database", "storage"], .directory),
    (["lib", "database", "enums.ts"], .file [0x6f, 0x6c, 0x64]),
    (["lib", "database.types.ts"], .file ((Utf8.encode
      "export type Database = \x7b public: \x7b Enums: \x7b e: \"\\ud800\" \x7d \x7d \x7d;").toOption.getD []))]
  current := []

def surrogateReading : Path × Config × Result :=
  (reading Request.default surrogateDisk).2.outcome.toOption.get (by decide +kernel)

theorem surrogateDisk_isTree : surrogateDisk.IsTree :=
  .of_entries (by decide +kernel) (by decide +kernel) (by decide +kernel) (by decide +kernel)

-- The module of the enums of a schema.
def enumsFile (schema : Schema) : GeneratedFile :=
  Generation.file (Generation.enumsPath (.ofPlace ["lib", "database"]))
    (Types.enumsModule schema.enums schema.name)

theorem surrogateDisk_reads : ∃ found, Ends (reading Request.default) surrogateDisk surrogateDisk (.ok found) ∧
    found.2.1.supabasePath = Config.default.supabasePath ∧
    found.2.2.schema.tables.length = 0 ∧ found.2.2.schema.publicRoutines.length = 0 ∧
    found.2.2.schema.hasEnums = true ∧
    surrogateDisk.resolve (found.1.child found.2.1.output) = .ok ["lib", "database"] ∧
    ((bareFiles found.2.2.schema Config.default.supabasePath (.ofPlace ["lib", "database"])).map
      (·.path)).Nodup ∧
    (Utf8.encode (finalText (enumsFile found.2.2.schema))).toOption = none :=
  ⟨surrogateReading, (readOnly_reading _).ends_get _, by decide +kernel⟩

theorem surrogateDisk_ready : ∀ file ∈
    Generation.storageFiles Config.default.supabasePath (.ofPlace ["lib", "database"]),
    ∃ above name, Ready surrogateDisk file above name := by
  have hplaces : ∀ file ∈
      Generation.storageFiles Config.default.supabasePath (.ofPlace ["lib", "database"]),
      ∃ name ∈ [Text.ofString "types.ts", Text.ofString "hooks.ts", Text.ofString "index.ts"],
        Path.ofText file.path = .ofPlace ((["lib", "database", "storage"] : Place) ++ [name]) ∧
          Writable surrogateDisk ["lib", "database", "storage"] name := by
    decide +kernel
  intro file hfile
  obtain ⟨name, _, hpath, hwritable⟩ := hplaces file hfile
  exact ⟨_, name, hpath, hwritable,
    Utf8.encode_of_isScalar (finalText_isScalar (storageFiles_isScalar file hfile))⟩

-- The module of the enums ends up empty, and no message names it.
theorem enums_emptied_surrogate : ∃ (result : Result) (last mid : Disk) (cause : Utf8.EncodeError),
    Ends (generateOnly Request.default) surrogateDisk surrogateDisk (.ok result) ∧
    Ends (forEach (writeGenerated false) result.files) surrogateDisk last (.error (.unwritable cause)) ∧
    enumsFile result.schema ∈ result.files ∧
    Ends (Manifest.writeFile (Path.ofText (enumsFile result.schema).path) (finalText (enumsFile result.schema)))
      mid last (.error (.unwritable cause)) ∧
    ¬ Reported (Path.ofText (enumsFile result.schema).path) (Manifest.writeFile
      (Path.ofText (enumsFile result.schema).path) (finalText (enumsFile result.schema)) mid).2.notes ∧
    LeadsTo surrogateDisk ["lib", "database", "enums.ts"] (enumsFile result.schema) ∧
    surrogateDisk.entry? ["lib", "database", "enums.ts"] = some (.file [0x6f, 0x6c, 0x64]) ∧
    last.entry? ["lib", "database", "enums.ts"] = some (.file []) ∧
    Utf8.encode (finalText (enumsFile result.schema)) = .error cause := by
  obtain ⟨⟨root, config, result⟩, hreading, hclient, htables, hroutines, henums, houtput, hnodup, hnone⟩ :=
    surrogateDisk_reads
  dsimp only at hclient htables hroutines henums houtput hnodup hnone
  obtain ⟨base, hbase, hgenerated⟩ := output_of_reading hreading
  obtain rfl := Except.ok.inj (hbase.symm.trans houtput)
  rw [hclient, generate_bare (List.length_eq_zero_iff.mp htables) (List.length_eq_zero_iff.mp hroutines)
    hnodup, bareFiles, henums, if_pos rfl, Except.ok.injEq] at hgenerated
  obtain ⟨cause, hcause⟩ : ∃ cause, Utf8.encode (finalText (enumsFile result.schema)) = .error cause := by
    cases hencode : Utf8.encode (finalText (enumsFile result.schema)) with
    | error cause => exact ⟨cause, rfl⟩
    | ok bytes => simp [hencode, Except.toOption] at hnone
  -- the modules of the storage are written, and then that of the enums is opened
  obtain ⟨mid, hstorage, hmidTree, _, hkept, _⟩ :=
    forEach_succeeds false surrogateDisk_isTree surrogateDisk_ready
  have hwritable : Writable surrogateDisk ["lib", "database"] "enums.ts" := by decide +kernel
  obtain ⟨last, hpieces, hentry⟩ := writePieces_of_writable hmidTree (hkept _ _ hwritable)
    (finalText (enumsFile result.schema))
  have hpath : Path.ofText (enumsFile result.schema).path =
      .ofPlace ((["lib", "database"] : Place) ++ [Text.ofString "enums.ts"]) :=
    show Path.ofText (Generation.enumsPath (.ofPlace ["lib", "database"])).text = _ by decide +kernel
  rw [← hpath, hcause] at hpieces
  have hlast : Ends (Manifest.writeFile (Path.ofText (enumsFile result.schema).path)
      (finalText (enumsFile result.schema))) mid last (.error (.unwritable cause)) :=
    Manifest.ends_writeFile.mpr hpieces
  have hfiles : Ends (forEach (writeGenerated false) result.files) surrogateDisk last
      (.error (.unwritable cause)) := by
    rw [← hgenerated, List.append_assoc, ends_forEach_append hstorage]
    exact (ends_bind_of_error (ends_writeGenerated.mpr hpieces)).mpr ⟨rfl, rfl⟩
  refine ⟨result, last, mid, cause, generateOnly_of_reading hreading, hfiles, ?_, hlast, ?_, ?_,
    by decide +kernel, ?_, hcause⟩
  · simp [← hgenerated, enumsFile]
  · rw [Manifest.reported_writeFile_iff hpieces]
    rintro ⟨_, _, herror⟩
    cases herror
  · rw [LeadsTo, hpath]
    exact locate_of_directory surrogateDisk_isTree hwritable.real hwritable.directory hwritable.fits
  · rw [hentry]
    simp [bytesOf, hcause, Except.toOption]

end Integration

end HookGen
