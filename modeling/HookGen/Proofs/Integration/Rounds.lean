import HookGen.Proofs.Generation.Assignments
import HookGen.Proofs.Generation.Encodable
import HookGen.Proofs.Integration.Progress

/-!
Successful runs, one after the other: what is left below the output directory is what the last one
generated, its manifest, and what no run has generated.
-/

namespace HookGen.Integration

open Disk Run Manifest

variable {base : Place} {old : List Text}

-- One run, between the disk that it finds and the disk that it leaves.
structure Round where
  before : Disk
  after : Disk
  now : Text
  request : Request
  root : Path
  config : Config
  result : Result

namespace Round

-- The run is a successful one with a manifest, and its output directory is at a place without links on
-- the way to it and below it. The names of tables and public functions can stand in paths.
structure Succeeds (round : Round) (base : Place) : Prop where
  tree : round.before.IsTree
  ends : Ends (integrate round.now round.request) round.before round.after (.ok round.result)
  root : Ends (projectRoot round.request.projectRoot) round.before round.before (.ok round.root)
  config : Ends (Integration.config round.request round.root) round.before round.before
    (.ok round.config)
  manifest : round.config.manifest = true
  output : round.before.resolve (round.root.child round.config.output) = .ok base
  clear : round.before.IsClear base
  tables : ∀ table ∈ round.result.schema.tables, IsName table.name
  routines : ∀ routine ∈ round.result.schema.publicRoutines, IsName routine.name

-- The run generates a file at a place, with some content.
def Makes (round : Round) (place : Place) (content : Bytes) : Prop :=
  ∃ file ∈ round.result.files, Path.ofText file.path = .ofPlace place ∧
    Utf8.encode (finalText file) = .ok content

-- The run generates a file at a place.
def Covers (round : Round) (place : Place) : Prop :=
  ∃ file ∈ round.result.files, Path.ofText file.path = .ofPlace place

theorem Makes.covers {round : Round} {place : Place} {content : Bytes} (h : round.Makes place content) :
    round.Covers place := by
  obtain ⟨file, hfile, hplace, _⟩ := h
  exact ⟨file, hfile, hplace⟩

-- The paths of the files that the run generates.
def paths (round : Round) : List Text := round.result.files.map (·.path)

-- The manifest of the run.
def manifestText (round : Round) (base : Place) : Text :=
  textOf round.now round.result.schema round.config.supabasePath base round.paths

variable {round : Round}

-- What one run leaves, where the previous generation was one of the files `old`.
theorem Succeeds.leaves (h : round.Succeeds base) (hold : Remembers base round.before old) :
    (∀ file ∈ round.result.files, IsModule base file.path ∧
      ∃ content, Utf8.encode (finalText file) = .ok content) ∧
    Remembers base round.after round.paths ∧
    ∃ bytes, Utf8.encode (round.manifestText base) = .ok bytes ∧
      ∀ place content, round.after.entry? place = some (.file content) ↔
        if place = placeIn base then bytes = content
        else round.Makes place content ∨ (round.before.entry? place = some (.file content) ∧
          ¬ round.Covers place ∧ ¬ ∃ file ∈ old, Path.ofText file = .ofPlace place) := by
  obtain ⟨root, config, mid, hreading, hwrite, hupdate⟩ := integrate_cases h.ends
  obtain ⟨hroot, hconfig, _, hfiles⟩ := reading_ends hreading
  obtain rfl := Except.ok.inj (hroot.unique h.root).2
  obtain rfl := Except.ok.inj (hconfig.unique h.config).2
  obtain ⟨hnodup, hplaced⟩ := files_placed h.output h.tables h.routines hfiles
  have hmodule : ∀ file ∈ round.result.files, IsModule base file.path :=
    fun file hfile => isModule_of_placed h.clear (hplaced file hfile)
  have hreal : ∀ file ∈ round.result.files, ∃ place,
      Path.ofText file.path = .ofPlace place ∧ round.before.IsReal place :=
    fun file hfile => ⟨_, (hmodule file hfile).fileAt.path, (hmodule file hfile).fileAt.isReal h.clear⟩
  have hwritten := forEach_overwrites h.tree hreal (nodup_places h.clear hnodup hplaced) hwrite
  -- no generated file is the manifest, so that the previous one is still there
  have hmanifest (content : Bytes) : mid.entry? (placeIn base) = some (.file content) ↔
      round.before.entry? (placeIn base) = some (.file content) := by
    rw [hwritten.file_iff]
    constructor
    · rintro (⟨file, hfile, heq, _⟩ | ⟨hthere, _⟩)
      · exact absurd heq (ne_placeIn (hmodule file hfile))
      · exact hthere
    · exact fun hthere => .inr ⟨hthere, fun file hfile => ne_placeIn (hmodule file hfile)⟩
  have hremembers : Remembers base mid old := by
    simpa only [Remembers, ne_eq, hmanifest] using hold
  have hclear := h.clear.congr hwritten.links
  have hbase := resolve_congr hwritten.links h.clear.real h.output
  obtain ⟨next, hcleaned, hrecord⟩ := updateManifest_cases hwritten.tree hclear hbase hremembers hmodule
    (hupdate h.manifest)
  obtain ⟨bytes, hbytes, hlists, hwrites⟩ := recordFiles_ends hcleaned.tree
    (hclear.congr hcleaned.links) (resolve_congr hcleaned.links hclear.real hbase) hmodule hrecord
  refine ⟨fun file hfile => ⟨hmodule file hfile, hwritten.encoded file hfile⟩,
    .inr ⟨bytes, hwrites.file, hlists⟩, bytes, hbytes, fun place content => ?_⟩
  rw [hwrites.file_iff]
  split
  · rfl
  · rw [hcleaned.file_iff, hwritten.file_iff]
    have hcovers : (∀ file ∈ round.result.files, Path.ofText file.path ≠ .ofPlace place) ↔
        ¬ round.Covers place := by
      simp [Covers]
    rw [hcovers]
    change (round.Makes place content ∨ _) ∧ _ ↔ _
    by_cases hcovered : round.Covers place
    · simp [hcovered]
    · simp [hcovered, mt Makes.covers hcovered]

end Round

-- Two disks with the same things at a place and below it.
def Agree (base : Place) (disk other : Disk) : Prop :=
  ∀ names, disk.entry? (base ++ names) = other.entry? (base ++ names)

-- Successful runs into one output directory, the last one first. Between them anything else may change.
inductive Runs (base : Place) (start : Disk) : List Round → Disk → Prop
  | nothing : Runs base start [] start
  | next {past : List Round} {last : Disk} {round : Round} (before : Runs base start past last)
      (untouched : Agree base round.before last) (succeeds : round.Succeeds base) :
      Runs base start (round :: past) round.after

-- The paths of the files that the last run generated.
def latest : List Round → List Text
  | [] => []
  | round :: _ => round.paths

variable {start last : Disk} {past : List Round} {round : Round}

theorem Agree.remembers (h : Agree base last start) (hold : Remembers base start old) :
    Remembers base last old := by
  have hmanifest : last.entry? (placeIn base) = start.entry? (placeIn base) := h [fileName]
  simpa only [Remembers, hmanifest] using hold

theorem covers_iff {place : Place} : round.Covers place ↔
    ∃ file ∈ round.paths, Path.ofText file = .ofPlace place := by
  simp [Round.Covers, Round.paths]

-- Runs keep the manifest in step with what they generate.
theorem Runs.remembers (h : Runs base start past last)
    (free : ∀ bytes, start.entry? (placeIn base) ≠ some (.file bytes)) :
    Remembers base last (latest past) := by
  induction h with
  | nothing => exact .inl ⟨rfl, free⟩
  | next _ untouched succeeds ih => exact (succeeds.leaves (untouched.remembers ih)).2.1

-- Runs leave no file but what the last one generated and what none has generated.
theorem Runs.file_iff (h : Runs base start past last)
    (free : ∀ bytes, start.entry? (placeIn base) ≠ some (.file bytes)) {names : List Text}
    (hnames : names ≠ [fileName]) (content : Bytes) :
    last.entry? (base ++ names) = some (.file content) ↔
      (∃ round ∈ past.head?, round.Makes (base ++ names) content) ∨
        (start.entry? (base ++ names) = some (.file content) ∧
          ∀ round ∈ past, ¬ round.Covers (base ++ names)) := by
  induction h with
  | nothing => simp
  | @next past last round before untouched succeeds ih =>
    obtain ⟨_, _, bytes, _, hfiles⟩ := succeeds.leaves (untouched.remembers (before.remembers free))
    have hplace : base ++ names ≠ placeIn base := fun heq => hnames (List.append_cancel_left heq)
    rw [hfiles, if_neg hplace, untouched, ih]
    have hlatest : (∃ file ∈ latest past, Path.ofText file = .ofPlace (base ++ names)) ↔
        ∃ earlier ∈ past.head?, earlier.Covers (base ++ names) := by
      cases past with
      | nil => simp [latest]
      | cons earlier _ => simp [latest, covers_iff]
    rw [hlatest]
    constructor
    · rintro (hmakes | ⟨⟨earlier, hhead, hmakes⟩ | ⟨hstart, hpast⟩, hnew, hold⟩)
      · exact .inl ⟨round, rfl, hmakes⟩
      · exact absurd ⟨earlier, hhead, hmakes.covers⟩ hold
      · exact .inr ⟨hstart, List.forall_mem_cons.mpr ⟨hnew, hpast⟩⟩
    · rintro (⟨_, hhead, hmakes⟩ | ⟨hstart, hall⟩)
      · obtain rfl := Option.some.inj hhead
        exact .inl hmakes
      · obtain ⟨hnew, hpast⟩ := List.forall_mem_cons.mp hall
        refine .inr ⟨.inr ⟨hstart, hpast⟩, hnew, ?_⟩
        rintro ⟨earlier, hhead, hcovers⟩
        exact hpast earlier (List.mem_of_mem_head? hhead) hcovers

-- After any number of runs, the files below the output directory are those that the last one generated,
-- its manifest, and those that were there at the start and that no run has generated.
theorem Runs.leaves_last_generation (h : Runs base start (round :: past) last)
    (free : ∀ bytes, start.entry? (placeIn base) ≠ some (.file bytes)) :
    (∀ file ∈ round.result.files, ∃ names content, names ≠ [] ∧
      Path.ofText file.path = .ofPlace (base ++ names) ∧ Utf8.encode (finalText file) = .ok content) ∧
    ∃ bytes, Utf8.encode (round.manifestText base) = .ok bytes ∧
      ∀ names content, last.entry? (base ++ names) = some (.file content) ↔
        round.Makes (base ++ names) content ∨ (names = [fileName] ∧ bytes = content) ∨
          (names ≠ [fileName] ∧ start.entry? (base ++ names) = some (.file content) ∧
            ∀ earlier ∈ round :: past, ¬ earlier.Covers (base ++ names)) := by
  have hfile := fun names hnames => @Runs.file_iff _ _ _ _ h free names hnames
  cases h with
  | next before untouched succeeds =>
    obtain ⟨hmodule, _, bytes, hbytes, hleft⟩ :=
      succeeds.leaves (untouched.remembers (before.remembers free))
    refine ⟨fun file hmem => ?_, bytes, hbytes, fun names content => ?_⟩
    · obtain ⟨⟨names, hat, _⟩, content, hcontent⟩ := hmodule file hmem
      exact ⟨names, content, hat.ne_nil, hat.path, hcontent⟩
    · by_cases hnames : names = [fileName]
      · rw [hnames]
        have hnot : ¬ round.Makes (placeIn base) content := by
          rintro ⟨file, hmem, hpath, _⟩
          exact ne_placeIn (hmodule file hmem).1 hpath
        change round.after.entry? (placeIn base) = _ ↔ round.Makes (placeIn base) content ∨ _
        rw [hleft, if_pos rfl]
        simp [hnot]
      · rw [hfile names hnames]
        simp [hnames]

section Sample

variable {disk : Disk} {old : List Text} {schema : Schema} {files : List GeneratedFile}

def samplePlace : Place := ["lib", "database"]

-- A disk that holds a project without a configuration at its root, and no links in the output directory.
structure HoldsProject (disk : Disk) : Prop where
  tree : disk.IsTree
  clear : disk.IsClear samplePlace
  root : disk.resolve (Path.ofText ".") = .ok []
  unconfigured : disk.pathExists (Path.child (.ofPlace []) Config.fileName) = .ok false
  output : disk.resolve (Path.child (.ofPlace []) Config.default.output) = .ok samplePlace

theorem HoldsProject.projectRoot_ends (h : HoldsProject disk) :
    Ends (projectRoot none) disk disk (.ok (.ofPlace [])) := ends_resolve_ok h.root

theorem HoldsProject.config_ends (h : HoldsProject disk) :
    Ends (config Request.default (.ofPlace [])) disk disk (.ok Config.default) := by
  have hload : Ends (Config.load (.ofPlace []) none) disk disk (.ok Config.default) :=
    (ends_bind_of_ok (ends_query_ok h.unconfigured)).mpr (ends_log_bind.mpr ⟨rfl, rfl⟩)
  exact (ends_bind_of_ok hload).mpr ⟨rfl, rfl⟩

-- A schema of which nothing but the modules of the storage and an index are generated.
structure Bare (schema : Schema) : Prop where
  tables : schema.tables = []
  routines : schema.publicRoutines = []
  enums : schema.hasEnums = false

theorem bare_iff : Bare schema ↔
    schema.tables.length = 0 ∧ schema.publicRoutines.length = 0 ∧ schema.hasEnums = false := by
  simp only [List.length_eq_zero_iff]
  exact ⟨fun ⟨htables, hroutines, henums⟩ => ⟨htables, hroutines, henums⟩,
    fun ⟨htables, hroutines, henums⟩ => ⟨htables, hroutines, henums⟩⟩

namespace Bare

theorem files_eq (h : Bare schema)
    (houtput : disk.resolve (Path.child (.ofPlace []) Config.default.output) = .ok samplePlace)
    (hfiles : Ends (Integration.files schema Config.default (.ofPlace [])) disk disk (.ok files)) :
    files = bareFiles schema Config.default.supabasePath (.ofPlace samplePlace) := by
  have hnodup : ((bareFiles schema Config.default.supabasePath (.ofPlace samplePlace)).map (·.path)).Nodup := by
    simp only [bareFiles, h.enums, Bool.false_eq_true, if_false, List.append_nil, List.map_append, List.map_cons,
      List.map_nil, Generation.file]
    decide +kernel
  have hgenerated := generate_of_files houtput hfiles
  rw [generate_bare h.tables h.routines hnodup] at hgenerated
  exact (Except.ok.inj hgenerated).symm

theorem isScalar_index (h : Bare schema) : Utf8.IsScalar (MainIndex.module schema false false) := by
  simp only [MainIndex.module, h.tables, h.enums, Bool.false_eq_true, if_false, List.map_nil]
  decide +kernel

theorem places (h : Bare schema) {file : GeneratedFile}
    (hfile : file ∈ bareFiles schema Config.default.supabasePath (.ofPlace samplePlace)) :
    Utf8.IsScalar file.content ∧ ∃ place ∈ [samplePlace, samplePlace ++ [Text.ofString "storage"]],
      ∃ name ∈ [Text.ofString "types.ts", Text.ofString "hooks.ts", Text.ofString "index.ts"],
        Path.ofText file.path = .ofPlace (place ++ [name]) := by
  have hplaces : ∀ file ∈ Generation.storageFiles Config.default.supabasePath (.ofPlace samplePlace),
      ∃ place ∈ [samplePlace, samplePlace ++ [Text.ofString "storage"]],
        ∃ name ∈ [Text.ofString "types.ts", Text.ofString "hooks.ts", Text.ofString "index.ts"],
          Path.ofText file.path = .ofPlace (place ++ [name]) := by
    decide +kernel
  have hindex : Path.ofText ((Path.ofPlace samplePlace).child (Text.ofString "index.ts")).text =
      .ofPlace (samplePlace ++ [Text.ofString "index.ts"]) := by decide +kernel
  simp only [bareFiles, h.enums, Bool.false_eq_true, if_false, List.append_nil, List.mem_append,
    List.mem_singleton] at hfile
  rcases hfile with hstorage | rfl
  · exact ⟨storageFiles_isScalar file hstorage, hplaces file hstorage⟩
  · exact ⟨h.isScalar_index, samplePlace, by simp, _, by simp, hindex⟩

theorem prepared (h : Bare schema) (hdisk : HoldsProject disk)
    (hfiles : Ends (Integration.files schema Config.default (.ofPlace [])) disk disk (.ok files))
    (hwritable : ∀ place ∈ [samplePlace, samplePlace ++ [Text.ofString "storage"]],
      ∀ name ∈ [Text.ofString "types.ts", Text.ofString "hooks.ts", Text.ofString "index.ts"], Writable disk place name)
    (hmanifest : Writable disk samplePlace fileName) (hold : Remembers samplePlace disk old)
    (hfits : ∀ file ∈ old, ∀ part ∈ samplePlace ++ wayTo samplePlace file, isTooLong part = false) :
    Prepared disk samplePlace old files := by
  obtain ⟨_, hplaced⟩ := files_placed hdisk.output (by simp [h.tables]) (by simp [h.routines]) hfiles
  refine ⟨hdisk.tree, hdisk.clear, fun file hfile => ?_,
    fun file hfile => isModule_of_placed hdisk.clear (hplaced file hfile), hmanifest, hold, hfits⟩
  obtain ⟨hscalar, place, hplace, name, hname, hpath⟩ := h.places (h.files_eq hdisk.output hfiles ▸ hfile)
  exact ⟨place, name, hpath, hwritable place hplace name hname, Utf8.encode_of_isScalar (finalText_isScalar hscalar)⟩

end Bare

-- A disk with a declaration file, and with a file of somebody else in the output directory.
def sampleDisk : Disk where
  entries := [
    (["lib"], .directory), (["lib", "database"], .directory),
    (["lib", "database", "storage"], .directory), (["lib", "database", "notes.md"], .file []),
    (["lib", "database.types.ts"],
      .file ((Utf8.encode "export type Database = \x7b public: \x7b\x7d \x7d").toOption.getD []))]
  current := []

theorem sampleDisk_holdsProject : HoldsProject sampleDisk where
  tree := .of_entries (by decide +kernel) (by decide +kernel) (by decide +kernel) (by decide +kernel)
  clear := ⟨by decide +kernel, fun other _ => linkAt?_eq_none_of_entries (by simp [sampleDisk]) other⟩
  root := by decide +kernel
  unconfigured := by decide +kernel
  output := by decide +kernel

def sampleSchema : Schema :=
  (Integration.schema Config.default (.ofPlace []) sampleDisk).2.outcome.toOption.get (by decide +kernel)

def sampleFiles : List GeneratedFile :=
  (Integration.files sampleSchema Config.default (.ofPlace []) sampleDisk).2.outcome.toOption.get (by decide +kernel)

theorem sampleSchema_bare : Bare sampleSchema := bare_iff.mpr (by decide +kernel)

theorem sampleSchema_ends :
    Ends (Integration.schema Config.default (.ofPlace [])) sampleDisk sampleDisk (.ok sampleSchema) :=
  (readOnly_schema _ _).ends_get _

theorem sampleFiles_ends :
    Ends (Integration.files sampleSchema Config.default (.ofPlace [])) sampleDisk sampleDisk (.ok sampleFiles) :=
  (readOnly_files _ _ _).ends_get _

theorem sampleDisk_free : sampleDisk.entry? (placeIn samplePlace) = none := by decide +kernel

theorem sampleFiles_prepared : Prepared sampleDisk samplePlace [] sampleFiles :=
  sampleSchema_bare.prepared sampleDisk_holdsProject sampleFiles_ends (by decide +kernel) (by decide +kernel)
    (.inl ⟨rfl, by simp [sampleDisk_free]⟩) (by simp)

-- The same disk with a directory for a table, and with a declaration file that declares this table.
def tableDisk : Disk :=
  (sampleDisk.put ["lib", "database", "a"] .directory).put ["lib", "database.types.ts"] (.file
    ((Utf8.encode "type Database = \x7b public: \x7b Tables: \x7b a: \x7b\x7d \x7d \x7d \x7d").toOption.getD []))

theorem tableDisk_holdsProject : HoldsProject tableDisk where
  tree := .of_entries (by decide +kernel) (by decide +kernel) (by decide +kernel) (by decide +kernel)
  clear := ⟨by decide +kernel, fun other _ => linkAt?_eq_none_of_entries (by simp [tableDisk, sampleDisk, put]) other⟩
  root := by decide +kernel
  unconfigured := by decide +kernel
  output := by decide +kernel

theorem tableDisk_free : tableDisk.entry? (placeIn samplePlace) = none := by decide +kernel

-- The places of the files for this table.
def tablePlaces : List Place := [
  ["lib", "database", "a", "types.ts"], ["lib", "database", "a", "hooks.ts"], ["lib", "database", "a", "index.ts"],
  ["lib", "database", "storage", "types.ts"], ["lib", "database", "storage", "hooks.ts"],
  ["lib", "database", "storage", "index.ts"], ["lib", "database", "index.ts"]]

theorem tablePlaces_writable {place : Place} (h : place ∈ placeIn samplePlace :: tablePlaces) :
    ∃ above name, place = above ++ [name] ∧ Writable tableDisk above name := by
  have hwritable : ∀ place ∈ placeIn samplePlace :: tablePlaces, ∃ above ∈ place.inits, ∃ name ∈ place,
      place = above ++ [name] ∧ Writable tableDisk above name := by decide +kernel
  obtain ⟨above, _, name, _, hplace⟩ := hwritable place h
  exact ⟨above, name, hplace⟩

def tableSchema : Schema :=
  (Integration.schema Config.default (.ofPlace []) tableDisk).2.outcome.toOption.get (by decide +kernel)

def tableFiles : List GeneratedFile :=
  (Integration.files tableSchema Config.default (.ofPlace []) tableDisk).2.outcome.toOption.get (by decide +kernel)

theorem tableFiles_ends :
    Ends (Integration.files tableSchema Config.default (.ofPlace [])) tableDisk tableDisk (.ok tableFiles) :=
  (readOnly_files _ _ _).ends_get _

theorem tableSchema_names : tableSchema.tables.map (·.name) = [Text.ofString "a"] ∧
    tableSchema.publicRoutines.map (·.name) = [] := by decide +kernel

theorem tableSchema_isName : (∀ table ∈ tableSchema.tables, IsName table.name) ∧
    ∀ routine ∈ tableSchema.publicRoutines, IsName routine.name := by
  obtain ⟨htables, hroutines⟩ := tableSchema_names
  refine ⟨List.forall_mem_map.mp ?_, List.forall_mem_map.mp ?_⟩
  · rw [htables]
    decide
  · rw [hroutines]
    nofun

def tableHooks : Path := ((Path.ofPlace samplePlace).child "a").child "hooks.ts"

-- Where the files are, and that the shorter ones have no surrogates.
theorem tableFiles_checked : tableFiles.map (fun file => Path.ofText file.path) = tablePlaces.map .ofPlace ∧
    ∀ file ∈ tableFiles, file.path = tableHooks.text ∨ file.path ∈ (Generation.storageFiles
      Config.default.supabasePath (.ofPlace samplePlace)).map (·.path) ∨ Utf8.IsScalar file.content := by decide +kernel

theorem tableFiles_placed : (tableFiles.map (·.path)).Nodup ∧
    ∀ file ∈ tableFiles, Generation.Placed (.ofPlace samplePlace) file :=
  files_placed tableDisk_holdsProject.output tableSchema_isName.1 tableSchema_isName.2 tableFiles_ends

theorem tableFiles_assigned : ∃ tables routines,
    Generation.Assigned tableSchema Config.default.supabasePath (.ofPlace samplePlace) tables routines ∧
      tableFiles = tables.flatten ++ routines.flatten ++
        Generation.commonFiles tableSchema Config.default.supabasePath (.ofPlace samplePlace) := by
  obtain ⟨assigned, hassigned, hmerged⟩ :=
    Generation.exists_assigned (generate_of_files tableDisk_holdsProject.output tableFiles_ends)
  have hnodup : (assigned.map (·.path)).Nodup := by
    rw [Generation.map_path_assignments hassigned]
    decide +kernel
  rw [Generation.foldl_put_of_nodup assigned [] hnodup, List.nil_append] at hmerged
  exact hmerged ▸ Generation.assignments_eq_ok hassigned

theorem exists_tableHooks : ∃ file ∈ tableFiles, file.path = tableHooks.text ∧ Utf8.IsScalar file.content := by
  obtain ⟨tables, routines, hassigned, hfiles⟩ := tableFiles_assigned
  obtain ⟨table, htables, hname⟩ := List.map_eq_singleton_iff.mp tableSchema_names.1
  obtain ⟨files, _, htable, -, rfl⟩ := List.forall₂_cons_left_iff.mp (htables ▸ hassigned.tables)
  cases htable with
  | @intro _ hooks _ hmodule =>
    refine ⟨_, hfiles ▸ List.mem_append_left _ (List.mem_append_left _ (List.mem_flatten_of_mem List.mem_cons_self
      (List.mem_append_left _ (List.mem_append_left _ (List.mem_cons_of_mem _ List.mem_cons_self))))), ?_, ?_⟩
    · rw [Generation.file, hname]
      rfl
    · refine TableHooks.isScalar_module (by simp [hname]) ?_ (by decide +kernel) hmodule
      rw [Table.typeName, hname]
      decide +kernel

theorem tableFiles_isScalar {file : GeneratedFile} (h : file ∈ tableFiles) : Utf8.IsScalar file.content := by
  have hunique {other : GeneratedFile} (hother : other ∈ tableFiles) (hpath : other.path = file.path) : other = file :=
    List.inj_on_of_nodup_map tableFiles_placed.1 hother h hpath
  obtain hpath | hpath | hscalar := tableFiles_checked.2 file h
  · obtain ⟨hooks, hhooks, hplaced, hscalar⟩ := exists_tableHooks
    exact hunique hhooks (hplaced.trans hpath.symm) ▸ hscalar
  · obtain ⟨stored, hstored, hpath⟩ := List.mem_map.mp hpath
    obtain ⟨tables, routines, -, hfiles⟩ := tableFiles_assigned
    have hmem : stored ∈ tableFiles := by simp [hfiles, Generation.commonFiles, hstored]
    exact hunique hmem hpath ▸ storageFiles_isScalar stored hstored
  · exact hscalar

theorem exists_tablePlace {file : GeneratedFile} (h : file ∈ tableFiles) :
    ∃ place ∈ tablePlaces, Path.ofText file.path = .ofPlace place := by
  have hmem : Path.ofText file.path ∈ tablePlaces.map .ofPlace := by
    rw [← tableFiles_checked.1]
    exact List.mem_map_of_mem h
  obtain ⟨place, hplace, hpath⟩ := List.mem_map.mp hmem
  exact ⟨place, hplace, hpath.symm⟩

theorem exists_tableFile {place : Place} (h : place ∈ tablePlaces) :
    ∃ file ∈ tableFiles, Path.ofText file.path = .ofPlace place := by
  have hmem : Path.ofPlace place ∈ tableFiles.map fun file => Path.ofText file.path := by
    rw [tableFiles_checked.1]
    exact List.mem_map_of_mem h
  exact List.mem_map.mp hmem

theorem tableFiles_prepared : Prepared tableDisk samplePlace [] tableFiles := by
  obtain ⟨above, name, hplace, hmanifest⟩ := tablePlaces_writable (List.mem_cons_self (a := placeIn samplePlace))
  obtain ⟨rfl, hname⟩ := @List.append_inj' _ samplePlace [fileName] above [name] hplace rfl
  obtain rfl := List.singleton_injective hname
  refine ⟨tableDisk_holdsProject.tree, tableDisk_holdsProject.clear, fun file hfile => ?_,
    fun file hfile => isModule_of_placed tableDisk_holdsProject.clear (tableFiles_placed.2 file hfile), hmanifest,
    .inl ⟨rfl, by simp [tableDisk_free]⟩, by simp⟩
  obtain ⟨place, hmem, hpath⟩ := exists_tablePlace hfile
  obtain ⟨above, name, rfl, hfree⟩ := tablePlaces_writable (List.mem_cons_of_mem _ hmem)
  exact ⟨above, name, hpath, hfree, Utf8.encode_of_isScalar (finalText_isScalar (tableFiles_isScalar hfile))⟩

-- The disk with a declaration file without the table, and over it what the first run has written.
def bareDisk : Disk :=
  tableDisk.put ["lib", "database.types.ts"]
    (.file ((Utf8.encode "type Database = \x7b public: \x7b\x7d \x7d").toOption.getD []))

def laterContent (place : Place) : Bytes :=
  match Disk.entry? (integrate "now" Request.default tableDisk).1 place with
  | some (.file content) => content
  | _ => []

def laterDisk : Disk :=
  { bareDisk with entries :=
      ((placeIn samplePlace :: tablePlaces).map fun place => (place, .file (laterContent place))) ++ bareDisk.entries }

def laterSchema : Schema :=
  (Integration.schema Config.default (.ofPlace []) laterDisk).2.outcome.toOption.get (by decide +kernel)

def laterFiles : List GeneratedFile :=
  (Integration.files laterSchema Config.default (.ofPlace []) laterDisk).2.outcome.toOption.get (by decide +kernel)

theorem entry_laterDisk (other : Place) : laterDisk.entry? other =
    if other ∈ placeIn samplePlace :: tablePlaces then some (.file (laterContent other)) else
      bareDisk.entry? other := by
  have hplaces : [] ∉ placeIn samplePlace :: tablePlaces := by decide
  by_cases hnil : other = []
  · rw [hnil, if_neg hplaces]
    rfl
  · simp only [entry_eq_lookup hnil, laterDisk]
    generalize placeIn samplePlace :: tablePlaces = places
    induction places with
    | nil => rfl
    | cons place rest ih =>
      simp only [List.map_cons, List.cons_append, List.lookup_cons, List.mem_cons]
      by_cases hother : other = place
      · simp [hother]
      · simp [hother, ih, beq_false_of_ne hother]

theorem laterDisk_holdsProject : HoldsProject laterDisk where
  tree := .of_entries (by decide +kernel) (by decide +kernel) (by decide +kernel) (by decide +kernel)
  clear := by
    have hkept : ∀ entry ∈ bareDisk.entries, ∀ target, entry.2 ≠ .link target := by
      simp [bareDisk, tableDisk, sampleDisk, put]
    refine ⟨by decide +kernel, fun other _ => linkAt?_eq_none_of_entries (fun entry hentry => ?_) other⟩
    rcases List.mem_append.mp hentry with hwritten | hbare
    · obtain ⟨place, -, rfl⟩ := List.mem_map.mp hwritten
      simp
    · exact hkept entry hbare
  root := by decide +kernel
  unconfigured := by decide +kernel
  output := by decide +kernel

theorem laterSchema_bare : Bare laterSchema := bare_iff.mpr (by decide +kernel)

theorem laterFiles_ends :
    Ends (Integration.files laterSchema Config.default (.ofPlace [])) laterDisk laterDisk (.ok laterFiles) :=
  (readOnly_files _ _ _).ends_get _

-- Only the modules of the storage and the index are generated then.
theorem laterFiles_elsewhere {place : Place}
    (h : ∀ above ∈ [samplePlace, samplePlace ++ [Text.ofString "storage"]],
      ∀ name ∈ [Text.ofString "types.ts", Text.ofString "hooks.ts", Text.ofString "index.ts"],
        above ++ [name] ≠ place) :
    ∀ file ∈ laterFiles, Path.ofText file.path ≠ .ofPlace place := by
  intro file hfile hpath
  obtain ⟨_, above, habove, name, hname, hplaced⟩ :=
    laterSchema_bare.places (laterSchema_bare.files_eq laterDisk_holdsProject.output laterFiles_ends ▸ hfile)
  exact h above habove name hname (congrArg Path.names (hplaced.symm.trans hpath))

def tableRound (written : Disk) : Round :=
  ⟨tableDisk, written, "now", Request.default, .ofPlace [], Config.default, ⟨tableSchema, tableFiles⟩⟩

def laterRound (last : Disk) : Round :=
  ⟨laterDisk, last, "now", Request.default, .ofPlace [], Config.default, ⟨laterSchema, laterFiles⟩⟩

theorem tableRound_succeeds : ∃ written, (tableRound written).Succeeds samplePlace ∧
    Remembers samplePlace written (tableFiles.map (·.path)) ∧ Agree samplePlace laterDisk written := by
  have hroot := tableDisk_holdsProject.projectRoot_ends
  have hconfig := tableDisk_holdsProject.config_ends
  have hfree : ∀ bytes, tableDisk.entry? (placeIn samplePlace) ≠ some (.file bytes) := by simp [tableDisk_free]
  obtain ⟨written, hends, hothers⟩ := @integrate_succeeds _ _ _ _ _ _ "now" Request.default [] hroot hconfig
    ((readOnly_schema _ _).ends_get _) tableFiles_ends tableDisk_holdsProject.output tableFiles_prepared
  have hsucceeds : (tableRound written).Succeeds samplePlace :=
    ⟨tableDisk_holdsProject.tree, hends, hroot, hconfig, rfl, tableDisk_holdsProject.output,
      tableDisk_holdsProject.clear, tableSchema_isName.1, tableSchema_isName.2⟩
  obtain ⟨hmodules, hremembers, bytes, _, hleft⟩ := hsucceeds.leaves (.inl ⟨rfl, hfree⟩)
  refine ⟨written, hsucceeds, hremembers, fun names => ?_⟩
  have hwritten : (integrate "now" Request.default tableDisk).1 = written := hends.1
  rw [entry_laterDisk]
  by_cases hmem : samplePlace ++ names ∈ placeIn samplePlace :: tablePlaces
  · obtain ⟨content, hcontent⟩ : ∃ content, written.entry? (samplePlace ++ names) = some (.file content) := by
      rcases List.mem_cons.mp hmem with hmanifest | hmem
      · exact ⟨bytes, (hleft _ _).mpr (by rw [if_pos hmanifest])⟩
      · obtain ⟨file, hfile, hpath⟩ := exists_tableFile hmem
        obtain ⟨hmodule, content, hcontent⟩ := hmodules file hfile
        refine ⟨content, (hleft _ _).mpr ?_⟩
        rw [if_neg fun heq => ne_placeIn hmodule (hpath.trans (congrArg Path.ofPlace heq))]
        exact .inl ⟨file, hfile, hpath, hcontent⟩
    rw [if_pos hmem, laterContent, hwritten, hcontent]
  · obtain ⟨hnot, hplaces⟩ := not_or.mp (mt List.mem_cons.mpr hmem)
    have hnew : ∀ file ∈ tableFiles, Path.ofText file.path ≠ .ofPlace (samplePlace ++ names) := by
      intro file hfile hpath
      obtain ⟨place, hplace, hplaced⟩ := exists_tablePlace hfile
      obtain rfl : place = samplePlace ++ names := congrArg Path.names (hplaced.symm.trans hpath)
      exact hplaces hplace
    have hsource : samplePlace ++ names ≠ [Text.ofString "lib", Text.ofString "database.types.ts"] :=
      fun heq => absurd (List.cons.inj (List.cons.inj heq).2).1 (by decide)
    rw [if_neg hmem, hothers rfl _ hnot hnew, bareDisk, entry_put (by simp), if_neg hsource]

-- A table that is declared no more takes its files with it. The file of somebody else stays, beside the manifest.
theorem Runs.leaves_last_generation_sample : ∃ first second last, Runs samplePlace tableDisk [second, first] last ∧
    (∀ bytes, tableDisk.entry? (placeIn samplePlace) ≠ some (.file bytes)) ∧
    first.result.schema.tables.map (·.name) = [Text.ofString "a"] ∧ second.result.schema.tables = [] ∧
    (∃ content, second.before.entry? (samplePlace ++ [Text.ofString "a", Text.ofString "types.ts"]) =
      some (.file content)) ∧
    (∀ content, last.entry? (samplePlace ++ [Text.ofString "a", Text.ofString "types.ts"]) ≠ some (.file content)) ∧
    last.entry? (samplePlace ++ [Text.ofString "notes.md"]) = some (.file []) ∧
    ∃ bytes, last.entry? (samplePlace ++ [fileName]) = some (.file bytes) := by
  obtain ⟨written, hfirst, hremembers, hagree⟩ := tableRound_succeeds
  have hroot := laterDisk_holdsProject.projectRoot_ends
  have hconfig := laterDisk_holdsProject.config_ends
  have hfits : ∀ path ∈ tableFiles.map (·.path), ∀ part ∈ samplePlace ++ wayTo samplePlace path,
      isTooLong part = false := by
    have hplaces : ∀ place ∈ tablePlaces, ∀ part ∈ samplePlace ++ place.drop 2, isTooLong part = false := by
      decide +kernel
    intro path hpath
    obtain ⟨file, hfile, rfl⟩ := List.mem_map.mp hpath
    obtain ⟨place, hplace, hplaced⟩ := exists_tablePlace hfile
    rw [wayTo, hplaced]
    exact hplaces place hplace
  have hprepared : Prepared laterDisk samplePlace (tableFiles.map (·.path)) laterFiles :=
    laterSchema_bare.prepared laterDisk_holdsProject laterFiles_ends (by decide +kernel) (by decide +kernel)
      (hagree.remembers hremembers) hfits
  obtain ⟨last, hsecond, _⟩ := @integrate_succeeds _ _ _ _ _ _ "now" Request.default _ hroot hconfig
    ((readOnly_schema _ _).ends_get _) laterFiles_ends laterDisk_holdsProject.output hprepared
  have hruns : Runs samplePlace tableDisk [laterRound last, tableRound written] last :=
    .next (.next .nothing (fun _ => rfl) hfirst) hagree ⟨laterDisk_holdsProject.tree, hsecond, hroot, hconfig, rfl,
      laterDisk_holdsProject.output, laterDisk_holdsProject.clear, by simp [laterRound, laterSchema_bare.tables],
      by simp [laterRound, laterSchema_bare.routines]⟩
  have hfree : ∀ bytes, tableDisk.entry? (placeIn samplePlace) ≠ some (.file bytes) := by simp [tableDisk_free]
  obtain ⟨_, bytes, _, hfiles⟩ := Runs.leaves_last_generation hruns hfree
  refine ⟨_, _, last, hruns, hfree, tableSchema_names.1, laterSchema_bare.tables, ?_, fun content hstale => ?_,
    (hfiles ["notes.md"] []).mpr (.inr (.inr ⟨by decide, by decide +kernel, ?_⟩)),
    bytes, (hfiles [fileName] bytes).mpr (.inr (.inl ⟨rfl, rfl⟩))⟩
  · exact ⟨_, (entry_laterDisk _).trans (if_pos (by decide))⟩
  · rcases (hfiles ["a", "types.ts"] content).mp hstale with ⟨file, hfile, hpath, _⟩ | ⟨hname, _⟩ | ⟨_, hthere, _⟩
    · exact laterFiles_elsewhere (by decide) file hfile hpath
    · exact absurd hname (by decide)
    · have hnone : tableDisk.entry? (samplePlace ++ [Text.ofString "a", Text.ofString "types.ts"]) = none := by
        decide +kernel
      simp [hnone] at hthere
  · simp only [List.mem_cons, List.not_mem_nil, or_false, forall_eq_or_imp, forall_eq]
    constructor <;> rintro ⟨file, hfile, hpath⟩
    · exact laterFiles_elsewhere (by decide) file hfile hpath
    · obtain ⟨place, hplace, hplaced⟩ := exists_tablePlace hfile
      have hother : ∀ place ∈ tablePlaces, place ≠ samplePlace ++ [Text.ofString "notes.md"] := by decide
      exact hother place hplace (congrArg Path.names (hplaced.symm.trans hpath))

end Sample

end HookGen.Integration
