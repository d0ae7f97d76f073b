import HookGen.Proofs.Disk.Moving
import HookGen.Proofs.Generation.Relocation
import HookGen.Proofs.Integration.Updating
import HookGen.Proofs.Json.Encodable
import HookGen.Proofs.Manifest.Moving

/-!
Runs in a project at two places: generating for a project that has been moved is the same as moving it with
what is generated, but for the time and the declaration file that the manifest tells.
-/

namespace HookGen.Integration

open Disk Run Manifest

variable {base base' : Place} {start start' disk disk' : Disk} {names input output : List Text} {config : Config}
  {root root' : Path} {file file' : GeneratedFile} {files files' : List GeneratedFile}

section Reading

theorem tandem_configRead (hbelow : staysBelow 0 names) : Tandem base base' start start' Eq
    (Config.read (.ofPlace (base ++ names))) (Config.read (.ofPlace (base' ++ names))) := by
  refine tandem_bind (tandem_readText hbelow) ?_
  rintro t _ rfl
  cases Json.read t with
  | error e =>
    cases e with
    | tooManyDigits count => exact tandem_fail rfl
    | fault => exact tandem_fail rfl
  | ok value =>
    cases value with
    | obj fields =>
      refine tandem_bind (R := Eq) (tandem_ofExcept ?_) ?_
      · cases (Settings.ofJson (.obj fields)).check with
        | ok config => exact .ok rfl
        | error e => exact .error rfl
      · rintro config _ rfl
        exact tandem_bind (tandem_log _ _) fun _ _ _ => tandem_pure rfl
    | _ => exact tandem_fail rfl

theorem tandem_configLoad {path : Option Text} (hpath : ∀ t ∈ path, Inward 0 t) :
    Tandem base base' start start' Eq (Config.load (.ofPlace base) path) (Config.load (.ofPlace base') path) := by
  cases path with
  | none =>
    have hname : Inward 0 Config.fileName := by decide
    rw [Config.load, Config.load, hname.child, hname.child]
    refine tandem_bind (tandem_pathExists hname.below) ?_
    rintro there _ rfl
    split
    · exact tandem_configRead hname.below
    · exact tandem_bind (tandem_log _ _) fun _ _ _ => tandem_pure rfl
  | some t =>
    have ht : Inward 0 t := hpath t rfl
    rw [Config.load, Config.load, ht.child, ht.child]
    refine tandem_bind (tandem_pathExists ht.below) ?_
    rintro there _ rfl
    split
    · exact tandem_configRead ht.below
    · exact tandem_fail rfl

theorem tandem_config {request request' : Request} (hoverrides : request'.overrides = request.overrides)
    (hconfig : request'.configPath = request.configPath) (hpath : ∀ t ∈ request.configPath, Inward 0 t) :
    Tandem base base' start start' Eq (Integration.config request (.ofPlace base))
      (Integration.config request' (.ofPlace base')) := by
  rw [Integration.config, Integration.config, hoverrides, hconfig]
  refine tandem_bind (tandem_configLoad hpath) ?_
  rintro config _ rfl
  exact tandem_pure rfl

theorem parse_outcome (path t : Text) :
    (DeclarationFile.parse path t).outcome = .ok ⟨path, (Source.parseDeclarations t).getD []⟩ := by
  rw [DeclarationFile.parse]
  split <;> rfl

theorem tandem_readDeclarations (hnames : ∀ name ∈ names, IsName name) :
    Tandem base base' start start' (fun file file' => file'.declarations = file.declarations)
      (readDeclarations (.ofPlace (base ++ names))) (readDeclarations (.ofPlace (base' ++ names))) := by
  have hbelow := staysBelow_of_isName hnames 0
  refine tandem_bind (tandem_isFile hbelow) ?_
  rintro there _ rfl
  split
  · refine tandem_bind (tandem_read hbelow) ?_
    rintro bytes _ rfl
    refine tandem_ofLogged ?_
    rw [parse_outcome, parse_outcome]
    exact .ok rfl
  · exact tandem_fail rfl

-- The declarations are the same, and so is the schema that they declare.
theorem tandem_schema (hinput : ∀ name ∈ input, IsName name)
    (h : start.resolve (root.child config.input) = .ok (base ++ input))
    (h' : start'.resolve (root'.child config.input) = .ok (base' ++ input)) :
    Tandem base base' start start' (fun schema schema' => ∃ source, schema' = schema.withSource source)
      (Integration.schema config root) (Integration.schema config root') := by
  refine tandem_bind (tandem_resolve hinput h h') ?_
  rintro _ _ ⟨rfl, rfl⟩
  refine tandem_bind (tandem_readDeclarations hinput) ?_
  rintro ⟨path, declarations⟩ ⟨path', declarations'⟩ hsame
  obtain rfl : declarations' = declarations := hsame
  refine tandem_ofLogged ?_
  have hmoved := Introspection.introspect_moved path path' declarations' config.schema "Database"
  exact (Concur.of_toOption hmoved fun _ _ => rfl).mono fun _ _ h => ⟨some path', h⟩

-- The same file, below the output directories of both.
def Copied (base base' : Place) (output : List Text) (file file' : GeneratedFile) : Prop :=
  ∃ here, Generation.Placed .here here ∧ file = here.below (.ofPlace (base ++ output)) ∧
    file' = here.below (.ofPlace (base' ++ output))

theorem tandem_files {schema : Schema} (hproper : Generation.ProperNames schema) (source : Option Text)
    (hbase : ∀ name ∈ base, IsName name) (hbase' : ∀ name ∈ base', IsName name) (houtput : ∀ name ∈ output, IsName name)
    (h : start.resolve (root.child config.output) = .ok (base ++ output))
    (h' : start'.resolve (root'.child config.output) = .ok (base' ++ output)) :
    Tandem base base' start start' (List.Forall₂ (Copied base base' output)) (Integration.files schema config root)
      (Integration.files (schema.withSource source) config root') := by
  refine tandem_bind (tandem_resolve houtput h h') ?_
  rintro _ _ ⟨rfl, rfl⟩
  refine tandem_ofLogged ?_
  have hread (base : Place) (hbase : ∀ name ∈ base, IsName name) : (Path.ofPlace (base ++ output)).IsRead :=
    Path.isRead_of_isName (List.forall_mem_append.mpr ⟨hbase, houtput⟩)
  have hplaced {here : List GeneratedFile}
      (hhere : (Generation.generate schema config.supabasePath .here).outcome = .ok here) :
      ∀ file ∈ here, Generation.Placed .here file :=
    (Generation.generate_placed hproper.tables hproper.routines hhere).2
  rw [Generation.generate_withSource, Generation.generate_below hproper (hread base hbase),
    Generation.generate_below hproper (hread base' hbase')]
  generalize Generation.generate schema config.supabasePath .here = generated at hplaced ⊢
  obtain ⟨notes, outcome⟩ := generated
  cases outcome with
  | error e => exact .error rfl
  | ok here =>
    rw [Traced.map_ok, Traced.map_ok]
    refine .ok ?_
    rw [List.forall₂_map_left_iff, List.forall₂_map_right_iff, List.forall₂_same]
    exact fun file hfile => ⟨file, hplaced rfl file hfile, rfl, rfl⟩

theorem Copied.paired (h : Copied base base' output file file') (hbase : ∀ name ∈ base, IsName name)
    (hbase' : ∀ name ∈ base', IsName name) (houtput : ∀ name ∈ output, IsName name) :
    ∃ names, (∀ name ∈ names, IsName name) ∧ names ≠ [] ∧ Path.ofText file.path = .ofPlace (base ++ names) ∧
      Path.ofText file'.path = .ofPlace (base' ++ names) ∧ finalText file' = finalText file := by
  obtain ⟨here, ⟨names, hat⟩, rfl, rfl⟩ := h
  have hpath (base : Place) (hbase : ∀ name ∈ base, IsName name) :
      Path.ofText (here.below (.ofPlace (base ++ output))).path = .ofPlace (base ++ (output ++ names)) := by
    have hnames : ∀ name ∈ base ++ output ++ names, IsName name :=
      List.forall_mem_append.mpr ⟨List.forall_mem_append.mpr ⟨hbase, houtput⟩, hat.isName⟩
    rw [Generation.path_below hat, ← List.append_assoc]
    exact Path.ofText_text (Path.isRead_of_isName hnames)
  have hne : output ++ names ≠ [] := by simp [hat.ne_nil]
  refine ⟨output ++ names, List.forall_mem_append.mpr ⟨houtput, hat.isName⟩, hne,
    hpath base hbase, hpath base' hbase', ?_⟩
  rw [finalText, finalText, hpath base hbase, hpath base' hbase', Path.ending, Path.ending,
    @name_append base' _ hne, @name_append base _ hne]
  rfl

end Reading

section Writing

theorem tandem_writeGenerated (verbose verbose' : Bool) (hbase : ∀ name ∈ base, IsName name)
    (hbase' : ∀ name ∈ base', IsName name) (houtput : ∀ name ∈ output, IsName name)
    (h : Copied base base' output file file') :
    Tandem base base' start start' Eq (writeGenerated verbose file) (writeGenerated verbose' file') := by
  obtain ⟨names, hnames, hne, hpath, hpath', hfinal⟩ := h.paired hbase hbase' houtput
  rw [writeGenerated, writeGenerated, hpath, hpath', hfinal]
  refine tandem_bind (tandem_writeFile hnames hne _) fun _ _ _ =>
    @tandem_of_ends Unit Unit _ _ _ _ Eq _ _ () () rfl fun _ _ _ => ⟨?_, ?_⟩
  · cases verbose <;> exact ⟨rfl, rfl⟩
  · cases verbose' <;> exact ⟨rfl, rfl⟩

theorem tandem_cleaning (houtput : ∀ name ∈ output, IsName name) {found : Option Json} {paths paths' : List Text}
    (hfound : ∀ previous listed, found = some previous → entries previous = .ok listed →
      ∀ entry ∈ listed, Inward output.length entry)
    (h : List.Forall₂ (fun path path' => Paired base base' (.ofText path) (.ofText path')) paths paths') :
    Tandem base base' start start' Eq (cleaning found paths (.ofPlace (base ++ output)))
      (cleaning found paths' (.ofPlace (base' ++ output))) := by
  cases found with
  | none => exact tandem_pure rfl
  | some previous =>
    rw [cleaning, cleaning]
    split
    · exact tandem_pure rfl
    · exact tandem_bind (tandem_cleanUp houtput (fun listed => hfound previous listed rfl) h) fun _ _ _ =>
        tandem_pure rfl

-- Manifests that differ in when they were made and in the file that the schema was found in.
def SameListing (now now' : Text) (bytes bytes' : Bytes) : Prop := ∃ schema source clientPath names,
  Utf8.encode (fileText now schema clientPath names) = .ok bytes ∧
    Utf8.encode (fileText now' (schema.withSource source) clientPath names) = .ok bytes'

theorem concur_fileText (now now' : Text) (schema : Schema) (source : Option Text) (clientPath : Text)
    (names : List Text) : Concur (fun _ _ => True) (SameListing now now')
      (Utf8.encode (fileText now schema clientPath names))
      (Utf8.encode (fileText now' (schema.withSource source) clientPath names)) := by
  obtain ⟨bytes, hbytes⟩ := encode_fileText now schema clientPath names
  obtain ⟨bytes', hbytes'⟩ := encode_fileText now' (schema.withSource source) clientPath names
  rw [hbytes, hbytes']
  exact .ok ⟨schema, source, clientPath, names, hbytes, hbytes'⟩

-- The new manifests differ in when and from what they were made.
theorem together_recordFiles (now now' : Text) (schema : Schema) (source : Option Text)
    (houtput : ∀ name ∈ output, IsName name)
    (h : start.resolve (root.child config.output) = .ok (base ++ output))
    (h' : start'.resolve (root'.child config.output) = .ok (base' ++ output))
    (hfiles : List.Forall₂ (fun path path' => Paired base base' (.ofText path) (.ofText path'))
      (files.map (·.path)) (files'.map (·.path)))
    (habreast : Abreast base base' start start' disk disk') :
    Together (Parted base base' start start' (output ++ [fileName]) (SameListing now now')) Eq
      (recordFiles now schema files config root (.ofPlace (base ++ output)))
      (recordFiles now' (schema.withSource source) files' config root' (.ofPlace (base' ++ output))) disk disk' := by
  have hentries : Tandem base base' start start' (fun manifest manifest' => ∃ names,
      manifest = listing now schema config.supabasePath names ∧
        manifest' = listing now' (schema.withSource source) config.supabasePath names)
      (Manifest.create now schema config.supabasePath (files.map (·.path)) (.ofPlace (base ++ output)))
      (Manifest.create now' (schema.withSource source) config.supabasePath (files'.map (·.path))
        (.ofPlace (base' ++ output))) := by
    refine tandem_bind (tandem_entriesOf houtput hfiles) ?_
    rintro names _ rfl
    exact tandem_pure ⟨names, rfl, rfl⟩
  refine (hentries disk disk' habreast).bind (fun _ _ h => h.parted) ?_
  rintro _ _ mid mid' - - ⟨names, rfl, rfl⟩ hmid
  refine (tandem_path houtput h h' mid mid' hmid).bind (fun _ _ h => h.parted) ?_
  rintro _ _ next next' - - ⟨rfl, rfl⟩ hnext
  have hnames : ∀ name ∈ output ++ [fileName], IsName name :=
    List.forall_mem_append.mpr ⟨houtput, by simp [isName_fileName]⟩
  exact (together_writePieces hnames (by simp) hnext (concur_fileText now now' schema source _ names)).congr
    (fun _ _ => ends_writeFile) fun _ _ => ends_writeFile

theorem together_updateManifest (now now' : Text) (schema : Schema) (source : Option Text)
    (houtput : ∀ name ∈ output, IsName name) (htwins : Twins base base' disk disk')
    (h : disk.resolve (root.child config.output) = .ok (base ++ output))
    (h' : disk'.resolve (root'.child config.output) = .ok (base' ++ output))
    (hfiles : List.Forall₂ (fun path path' => Paired base base' (.ofText path) (.ofText path'))
      (files.map (·.path)) (files'.map (·.path)))
    (hmanifest : ∀ bytes, disk.entry? (placeIn (base ++ output)) = some (.file bytes) → Stays output.length bytes) :
    Together (Parted base base' disk disk' (output ++ [fileName]) (SameListing now now')) Eq
      (updateManifest now schema files config root)
      (updateManifest now' (schema.withSource source) files' config root') disk disk' := by
  refine Together.congr ?_ (fun _ _ => ends_updateManifest h) fun _ _ => ends_updateManifest h'
  refine (tandem_load houtput h h' disk disk' htwins.abreast).bind (fun _ _ h => h.parted) ?_
  rintro found _ mid mid' hends - rfl hmid
  have hfound : ∀ previous listed, found = some previous → entries previous = .ok listed →
      ∀ entry ∈ listed, Inward output.length entry := by
    rintro previous listed rfl hlisted
    have hreal : disk.IsReal (placeIn (base ++ output)) := by
      rw [placeIn, List.append_assoc]
      exact htwins.first.isReal (List.forall_mem_append.mpr ⟨houtput, by simp [isName_fileName]⟩)
    obtain ⟨bytes, hfile, hloaded⟩ := loaded_of_load h hreal hends
    exact hmanifest bytes hfile previous listed hloaded hlisted
  refine (tandem_cleaning houtput hfound hfiles mid mid' hmid).bind (fun _ _ h => h.parted) ?_
  rintro _ _ next next' - - - hnext
  exact together_recordFiles now now' schema source houtput h h' hfiles hnext

end Writing

section Running

-- What a configuration names is below the place of its project on both disks, and by the same names. What the
-- manifest there lists is as well.
structure KeepsWithin (base base' : Place) (disk disk' : Disk) (config : Config) (input output : List Text) : Prop where
  source : disk.resolve (Path.child (.ofPlace base) config.input) = .ok (base ++ input)
  source' : disk'.resolve (Path.child (.ofPlace base') config.input) = .ok (base' ++ input)
  target : disk.resolve (Path.child (.ofPlace base) config.output) = .ok (base ++ output)
  target' : disk'.resolve (Path.child (.ofPlace base') config.output) = .ok (base' ++ output)
  stays : ∀ bytes, disk.entry? (placeIn (base ++ output)) = some (.file bytes) → Stays output.length bytes

-- A project at two places, and requests for it that differ in the way to it only.
structure Movable (base base' : Place) (disk disk' : Disk) (request request' : Request) : Prop
    extends Twins base base' disk disk' where
  root : disk.resolve (Path.ofText (request.projectRoot.getD ".")) = .ok base
  root' : disk'.resolve (Path.ofText (request'.projectRoot.getD ".")) = .ok base'
  overrides : request'.overrides = request.overrides
  configPath : request'.configPath = request.configPath
  inward : ∀ path ∈ request.configPath, Inward 0 path
  within : ∀ config, Ends (Integration.config request (.ofPlace base)) disk disk (.ok config) →
    ∃ input output, KeepsWithin base base' disk disk' config input output
  proper : ∀ schema, Ends (introspectOnly request) disk disk (.ok schema) → Generation.ProperNames schema

variable {request request' : Request} {now now' : Text} {last last' : Disk} {outcome outcome' : Except RunError Result}

-- What the two runs find and generate.
inductive FoundBoth (base base' : Place) (disk disk' : Disk) : Path × Config × Result → Path × Config × Result → Prop
  | both {config : Config} {input output : List Text} {schema : Schema} {source : Option Text}
      {files files' : List GeneratedFile} (within : KeepsWithin base base' disk disk' config input output)
      (placed : List.Forall₂ (Copied base base' output) files files') :
      FoundBoth base base' disk disk' (.ofPlace base, config, ⟨schema, files⟩)
        (.ofPlace base', config, ⟨schema.withSource source, files'⟩)

theorem isName_below {t : Text} (h : disk.Hosts base)
    (hresolve : disk.resolve (Path.child (.ofPlace base) t) = .ok (base ++ names)) : ∀ name ∈ names, IsName name :=
  fun name hname => isName_of_resolve h.tree ((isRead_ofPlace h.clear.real).child t) hresolve name
    (List.mem_append_right base hname)

theorem Movable.properNames {schema : Schema} (h : Movable base base' disk disk' request request')
    (hconfig : Ends (Integration.config request (.ofPlace base)) disk disk (.ok config))
    (hschema : Ends (Integration.schema config (.ofPlace base)) disk disk (.ok schema)) :
    Generation.ProperNames schema :=
  h.proper schema (ends_bind_ok.mpr ⟨disk, _, ends_resolve_ok h.root,
    ends_bind_ok.mpr ⟨disk, config, hconfig, hschema⟩⟩)

theorem together_reading (h : Movable base base' disk disk' request request') :
    Together (Abreast base base' disk disk') (FoundBoth base base' disk disk') (reading request) (reading request')
      disk disk' := by
  have hroot : Tandem base base' disk disk' (fun found found' => found = .ofPlace base ∧ found' = .ofPlace base')
      (projectRoot request.projectRoot) (projectRoot request'.projectRoot) := by
    have hresolve := @tandem_resolve base base' disk disk' [] _ _ (by simp) ((List.append_nil base).symm ▸ h.root)
      ((List.append_nil base').symm ▸ h.root')
    rwa [List.append_nil, List.append_nil] at hresolve
  refine (hroot disk disk' h.abreast).bind (fun _ _ h => h) ?_
  rintro _ _ mid mid' hrun - ⟨rfl, rfl⟩ hmid
  obtain rfl := (readOnly_projectRoot _).last_eq hrun
  refine (tandem_config h.overrides h.configPath h.inward mid mid' hmid).bind (fun _ _ h => h) ?_
  rintro config _ next next' hconfig - rfl hnext
  obtain rfl := (readOnly_config _ _).last_eq hconfig
  obtain ⟨input, output, hwithin⟩ := h.within config hconfig
  refine (tandem_schema (isName_below h.first hwithin.source) hwithin.source hwithin.source' next next' hnext).bind
    (fun _ _ h => h) ?_
  rintro schema _ next next' hschema - ⟨source, rfl⟩ hnext
  obtain rfl := (readOnly_schema _ _).last_eq hschema
  refine (tandem_files (h.properNames hconfig hschema) source h.first.clear.real.names h.second.clear.real.names
    (isName_below h.first hwithin.target) hwithin.target hwithin.target' next next' hnext).bind (fun _ _ h => h) ?_
  rintro files files' _ _ - - hfiles hlast
  exact ⟨.ok (.both hwithin hfiles), hlast⟩

theorem Copied.paths (hbase : ∀ name ∈ base, IsName name) (hbase' : ∀ name ∈ base', IsName name)
    (houtput : ∀ name ∈ output, IsName name) (h : List.Forall₂ (Copied base base' output) files files') :
    List.Forall₂ (fun path path' => Paired base base' (.ofText path) (.ofText path'))
      (files.map (·.path)) (files'.map (·.path)) := by
  rw [List.forall₂_map_left_iff, List.forall₂_map_right_iff]
  refine h.imp fun file file' hfile => ?_
  obtain ⟨names, hnames, -, hpath, hpath', -⟩ := hfile.paired hbase hbase' houtput
  exact ⟨names, hnames, hpath, hpath'⟩

-- The manifest is not written by writing generated files.
theorem manifest_of_written {schema : Schema} {mid : Disk} {verbose : Bool} {bytes : Bytes} (htree : disk.IsTree)
    (hclear : disk.IsClear base) (hbase : disk.resolve (root.child config.output) = .ok base)
    (hproper : Generation.ProperNames schema)
    (hfiles : Ends (Integration.files schema config root) disk disk (.ok files))
    (hwrite : Ends (forEach (writeGenerated verbose) files) disk mid (.ok ())) :
    mid.entry? (placeIn base) = some (.file bytes) ↔ disk.entry? (placeIn base) = some (.file bytes) := by
  obtain ⟨hnodup, hplaced⟩ := files_placed hbase hproper.tables hproper.routines hfiles
  have hmodule : ∀ file ∈ files, IsModule base file.path :=
    fun file hfile => isModule_of_placed hclear (hplaced file hfile)
  have hplaces : ∀ file ∈ files, ∃ place, Path.ofText file.path = .ofPlace place ∧ disk.IsReal place := by
    intro file hfile
    have hat := (hmodule file hfile).fileAt
    exact ⟨_, hat.path, hat.isReal hclear⟩
  rw [(forEach_overwrites htree hplaces (nodup_places hclear hnodup hplaced) hwrite).file_iff]
  constructor
  · rintro (⟨file, hfile, hpath, -⟩ | ⟨hentry, -⟩)
    · exact absurd hpath (ne_placeIn (hmodule file hfile))
    · exact hentry
  · exact fun hentry => .inr ⟨hentry, fun file hfile => ne_placeIn (hmodule file hfile)⟩

-- What two runs can leave: the same below both places, but for manifests.
def Apart (base base' : Place) (disk disk' : Disk) (now now' : Text) (last last' : Disk) : Prop :=
  ∃ manifest, manifest.getLast? = some fileName ∧
    Parted base base' disk disk' manifest (SameListing now now') last last'

theorem Abreast.apart (h : Abreast base base' disk disk' last last') :
    Apart base base' disk disk' now now' last last' :=
  ⟨[fileName], rfl, h.parted⟩

theorem together_writing (h : Movable base base' disk disk' request request')
    {found found' : Path × Config × Result} (hreading : Ends (reading request) disk disk (.ok found))
    (hfound : FoundBoth base base' disk disk' found found') :
    Together (Apart base base' disk disk' now now') (fun _ _ => True)
      (writing now request found.1 found.2.1 found.2.2) (writing now' request' found'.1 found'.2.1 found'.2.2)
      disk disk' := by
  cases hfound with
  | @both config input output schema source files files' hwithin hplaced =>
    have hbase := h.first.clear.real.names
    have hbase' := h.second.clear.real.names
    have houtput := isName_below h.first hwithin.target
    have hwrite : Tandem base base' disk disk' Eq (forEach (writeGenerated request.verbose) files)
        (forEach (writeGenerated request'.verbose) files') :=
      tandem_forEach hplaced fun _ _ => tandem_writeGenerated _ _ hbase hbase' houtput
    refine (hwrite disk disk' h.abreast).bind (fun _ _ h => Abreast.apart h) ?_
    rintro _ _ mid mid' hwritten - - hmid
    have hupdate : Together (Apart base base' disk disk' now now') Eq
        (updateManifest now schema files config (.ofPlace base))
        (updateManifest now' (schema.withSource source) files' config (.ofPlace base')) mid mid' := by
      have hclear : disk.IsClear (base ++ output) :=
        ⟨h.first.isReal houtput, fun other hother => h.first.clear.below other ((List.prefix_append ..).trans hother)⟩
      obtain ⟨-, hconfig, hschema, hgenerated⟩ := reading_ends hreading
      have hstays : ∀ bytes, mid.entry? (placeIn (base ++ output)) = some (.file bytes) → Stays output.length bytes :=
        fun bytes hbytes => hwithin.stays bytes ((manifest_of_written h.first.tree hclear hwithin.target
          (h.properNames hconfig hschema) hgenerated hwritten).mp hbytes)
      obtain ⟨hagree, hlast⟩ := together_updateManifest now now' schema source houtput hmid.toTwins
        (resolve_congr hmid.confined.links (h.first.isReal houtput) hwithin.target)
        (resolve_congr hmid.confined'.links (h.second.isReal houtput) hwithin.target')
        (Copied.paths hbase hbase' houtput hplaced) hstays
      exact ⟨hagree, output ++ [fileName], by simp, hmid.trans_parted hlast⟩
    dsimp only
    split
    · exact hupdate.bind (fun _ _ h => h) fun _ _ _ _ _ _ _ hlast => ⟨.ok trivial, hlast⟩
    · exact ⟨.ok trivial, Abreast.apart hmid⟩

theorem together_integrate (h : Movable base base' disk disk' request request') :
    Together (Apart base base' disk disk' now now') (fun _ _ => True) (integrate now request)
      (integrate now' request') disk disk' := by
  refine Together.congr ?_ (fun _ _ => ends_integrate) fun _ _ => ends_integrate
  refine (together_reading h).bind (fun _ _ h => Abreast.apart h) ?_
  rintro found found' mid mid' hreading hreading' hfound -
  obtain rfl := (readOnly_reading _).last_eq hreading
  obtain rfl := (readOnly_reading _).last_eq hreading'
  exact together_writing h hreading hfound

-- Generating for a project and moving what this makes is moving the project and generating for it there, up
-- to the time and the declaration file that the manifest tells. Neither of the runs touches the other place.
theorem integrate_moved (h : Movable base base' disk disk' request request')
    (hends : Ends (integrate now request) disk last outcome)
    (hends' : Ends (integrate now' request') disk' last' outcome') :
    Concur RunError.Same (fun _ _ => True) outcome outcome' ∧
      Apart base base' disk disk' now now' last last' ∧
      (¬ base <+: base' → ¬ base' <+: base → ∀ names, last.entry? (base' ++ names) = disk.entry? (base' ++ names) ∧
        last'.entry? (base ++ names) = disk'.entry? (base ++ names)) := by
  obtain ⟨hagree, hapart⟩ := @together_integrate base base' disk disk' request request' now now' h
  obtain ⟨rfl, rfl⟩ := hends
  obtain ⟨rfl, rfl⟩ := hends'
  refine ⟨hagree, hapart, fun hnot hnot' names => ?_⟩
  obtain ⟨_, _, hparted⟩ := hapart
  have haside {base base' : Place} (hnot : ¬ base <+: base') (hnot' : ¬ base' <+: base) : ¬ base <+: base' ++ names :=
    fun hstarts => (List.prefix_or_prefix_of_prefix hstarts (List.prefix_append ..)).elim hnot hnot'
  exact ⟨hparted.confined.outside _ (haside hnot hnot'), hparted.confined'.outside _ (haside hnot' hnot)⟩

def projectManifest : Bytes := (Utf8.encode "\x7b\"generatedFiles\": [\"old.ts\"]\x7d").toOption.getD []

-- A project with a stale file that its manifest lists.
def projectDisk : Disk where
  entries := [
    (["work"], .directory), (["work", "app"], .directory), (["work", "app", "lib"], .directory),
    (["work", "app", "lib", "database"], .directory), (["work", "app", "lib", "database", "old.ts"], .file []),
    (["work", "app", "lib", "database", ".manifest.json"], .file projectManifest),
    (["work", "app", "lib", "database.types.ts"], .file ((Utf8.encode "export type Database = \x7b public: \x7b
      Tables: \x7b notes: \x7b Row: \x7b id: number \x7d \x7d \x7d \x7d \x7d").toOption.getD []))]
  current := []

def projectRequest (root : Text) : Request := { Request.default with projectRoot := some root }

theorem projectDisk_hosts : projectDisk.Hosts ["work", "app"] where
  tree := .of_entries (by decide +kernel) (by decide +kernel) (by decide +kernel) (by decide +kernel)
  clear := ⟨by decide +kernel, fun other _ => linkAt?_eq_none_of_entries (by simp [projectDisk]) other⟩
  there := rfl
  fits := by decide +kernel
  checked := by decide +kernel

theorem projectDisk_vacant : projectDisk.Vacant ["work", "app"] ["archive"] :=
  .of_entries (by decide +kernel) (by decide +kernel) (by decide +kernel) (by decide +kernel) (by decide +kernel)
    (by decide +kernel) (by decide +kernel)

theorem projectDisk_movable : Movable ["work", "app"] ["archive"] projectDisk
    (projectDisk.moved ["work", "app"] ["archive"]) (projectRequest "/work/app") (projectRequest "/archive") where
  toTwins := projectDisk_vacant.twins_moved projectDisk_hosts
  root := by decide +kernel
  root' := by decide +kernel
  overrides := rfl
  configPath := rfl
  inward := by simp [projectRequest, Request.default]
  within config hconfig := by
    have hdefault : (Integration.config (projectRequest "/work/app") (.ofPlace ["work", "app"])
        projectDisk).2.outcome.toOption = some Config.default := by decide +kernel
    rw [hconfig.2] at hdefault
    obtain rfl := Option.some.inj hdefault
    refine ⟨["lib", "database.types.ts"], ["lib", "database"], by decide +kernel, by decide +kernel,
      by decide +kernel, by decide +kernel, fun bytes hbytes => ?_⟩
    obtain rfl : projectManifest = bytes := by simpa using Option.some.inj hbytes
    decide +kernel
  proper schema hschema := by
    have hnames : ∀ schema ∈ (introspectOnly (projectRequest "/work/app") projectDisk).2.outcome.toOption,
        (∀ table ∈ schema.tables, IsName table.name) ∧ ∀ routine ∈ schema.publicRoutines, IsName routine.name := by
      decide +kernel
    rw [hschema.2] at hnames
    exact ⟨(hnames schema rfl).1, (hnames schema rfl).2⟩

-- There is a stale file at either place, and other paths lead there.
theorem integrate_moved_project : ∃ outcome outcome' last last',
    Ends (integrate "now" (projectRequest "/work/app")) projectDisk last outcome ∧
      Ends (integrate "later" (projectRequest "/archive")) (projectDisk.moved ["work", "app"] ["archive"]) last'
        outcome' ∧
      Concur RunError.Same (fun _ _ => True) outcome outcome' ∧
      Apart ["work", "app"] ["archive"] projectDisk (projectDisk.moved ["work", "app"] ["archive"]) "now" "later"
        last last' := by
  have hmoved := integrate_moved projectDisk_movable (Ends.self (integrate "now" _) _)
    (Ends.self (integrate "later" _) _)
  exact ⟨_, _, _, _, Ends.self .., Ends.self .., hmoved.1, hmoved.2.1⟩

end Running

end HookGen.Integration
