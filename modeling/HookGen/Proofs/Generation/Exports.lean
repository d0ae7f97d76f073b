import HookGen.Proofs.Generation.Links

/-!
What generated modules export, and that the links among them are closed: what they lead to is there and
exports something.
-/

namespace HookGen

open Code Render Traced

variable {schema : Schema} {clientPath : Text} {output : Path} {files : List GeneratedFile}

namespace Generation

-- A file exports a name that another declares: that is the same file, or one that the modules it hands on export
-- the name from. The default is never handed on.
inductive ExportsFrom (schema : Schema) (clientPath : Text) (output : Path) (files : List GeneratedFile)
    (origin : GeneratedFile) : GeneratedFile → Text → Prop
  | declared {module : Module} {name : Text} (holds : Holds schema clientPath output origin module)
    (exported : name ∈ module.outline.exports) : ExportsFrom schema clientPath output files origin origin name
  | passed {file target : GeneratedFile} {module : Module} {source name : Text}
    (holds : Holds schema clientPath output file module) (link : .all source ∈ module.outline.links)
    (leads : target? files file source = some target) (ne_default : name ≠ "default")
    (exports : ExportsFrom schema clientPath output files origin target name) :
    ExportsFrom schema clientPath output files origin file name

def Exports (schema : Schema) (clientPath : Text) (output : Path) (files : List GeneratedFile) (file : GeneratedFile)
    (name : Text) : Prop :=
  ∃ origin, ExportsFrom schema clientPath output files origin file name

variable {module : Module} {file : GeneratedFile}

theorem Exports.declared {name : Text} (hholds : Holds schema clientPath output file module)
    (h : name ∈ module.outline.exports) : Exports schema clientPath output files file name :=
  ⟨file, .declared hholds h⟩

theorem Exports.passed {target : GeneratedFile} {source name : Text}
    (hholds : Holds schema clientPath output file module)
    (hlink : .all source ∈ module.outline.links) (hleads : target? files file source = some target)
    (hdefault : name ≠ "default") (h : Exports schema clientPath output files target name) :
    Exports schema clientPath output files file name :=
  h.imp fun _ hexports => .passed hholds hlink hleads hdefault hexports

theorem append_ne_default {name ending : Text} (h : ending ≠ []) (hlast : ending.getLast h ≠ .char 't') :
    name ++ ending ≠ "default" := by
  intro heq
  have hdefault : (Text.ofString "default").getLast? = some (.char 't') := by decide
  rw [← heq, List.getLast?_append_of_ne_nil _ h, List.getLast?_eq_getLast_of_ne_nil h] at hdefault
  exact hlast (Option.some.inj hdefault)

-- A module in a directory that is no index declares something.
theorem IsModule.exists_export (h : IsModule schema clientPath output module) (hname : module.name ≠ "index")
    (hdirectory : module.directory ≠ []) : ∃ name ∈ module.outline.exports, name ≠ "default" := by
  cases h with
  | @tableTypes table => exact ⟨_, List.mem_cons_self .., append_ne_default (by decide) (by decide)⟩
  | @tableHooks table => exact ⟨_, List.mem_cons_self .., append_ne_default (by decide) (by decide)⟩
  | @relations table => exact ⟨Text.ofString "Relationships", by simp [relationNames], by decide⟩
  | @routineTypes routine => exact ⟨_, List.mem_cons_self .., append_ne_default (by decide) (by decide)⟩
  | @routineHooks routine =>
    exact ⟨"use" ++ routine.typeName ++ "Mutation", by simp [routineHookNames, RoutineHooks.Names.ofRoutine],
      append_ne_default (by decide) (by decide)⟩
  | storageTypes => exact ⟨_, List.mem_cons_self .., by decide⟩
  | storageHooks => exact ⟨_, List.mem_cons_self .., by decide⟩
  | tableIndex | routineIndex | functionsIndex | storageIndex => exact absurd rfl hname
  | baseTypes | enums | main => exact absurd rfl hdirectory

-- So does a shared module, but for that of no enums.
theorem IsModule.exists_sharedExport (h : IsModule schema clientPath output module) (hname : module.name ≠ "index")
    (hdirectory : module.directory = []) :
    (∃ name, name ∈ module.outline.exports) ∨ (module.name = "enums" ∧ schema.enums = []) := by
  cases h with
  | baseTypes hused =>
    obtain ⟨name, hname⟩ := List.exists_mem_of_ne_nil _ hused
    obtain ⟨types, htypes, hnote⟩ := List.mem_flatMap.mp (mem_baseTypes.mp hname)
    have hdeclared : schema.isBaseType name := declared_of_mem_notes htypes hnote
    have hmem : name ∈ Types.baseTypeNames schema := by
      simpa [Types.baseTypeNames, Schema.isBaseType] using hdeclared
    exact .inl ⟨_, List.mem_map_of_mem (Types.mem_requiredBaseTypes_iff.mpr ⟨hmem, .used hname⟩)⟩
  | enums =>
    by_cases hnone : schema.enums = []
    · exact .inr ⟨rfl, hnone⟩
    · obtain ⟨enumeration, hmem⟩ := List.exists_mem_of_ne_nil _ hnone
      exact .inl ⟨_, List.mem_map_of_mem hmem⟩
  | main => exact absurd rfl hname
  | _ => cases hdirectory

-- An index of types that lie beside it.
structure OverTypes (schema : Schema) (clientPath : Text) (output : Path) (module : Module) : Prop where
  link : .all "./types" ∈ module.outline.links
  types : ∃ outline, IsModule schema clientPath output ⟨module.directory, "types", outline⟩

-- Every index is one of types, that of all functions, or the main one.
theorem IsModule.index_cases (h : IsModule schema clientPath output module) (hname : module.name = "index") :
    OverTypes schema clientPath output module ∨ module.directory = [Text.ofString "functions"] ∧
      schema.publicRoutines ≠ [] ∧
      module.outline =
        indexOutline (schema.publicRoutines.map fun routine => Text.ofString "./" ++ routine.name) ∨
      module.directory = [] ∧ module.outline = indexOutline (mainSources schema output) := by
  cases h with
  | tableIndex htable => exact .inl ⟨by simp [indexOutline, tableIndexSources], _, .tableTypes htable⟩
  | routineIndex hroutine => exact .inl ⟨by simp [indexOutline], _, .routineTypes hroutine⟩
  | storageIndex => exact .inl ⟨by simp [indexOutline], _, .storageTypes⟩
  | functionsIndex hsome => exact .inr (.inl ⟨rfl, hsome, rfl⟩)
  | main => exact .inr (.inr ⟨rfl, rfl⟩)
  | _ =>
    dsimp only at hname
    exact absurd hname (by decide)

-- Hooks talk to the client.
theorem IsModule.clientLink_mem (h : IsModule schema clientPath output module) (hname : module.name = "hooks") :
    clientLink clientPath ∈ module.outline.links := by
  cases h with
  | @tableHooks table =>
    dsimp only [hookLinks]
    split <;> simp
  | routineHooks => simp [routineHookLinks]
  | storageHooks => simp [storageHookLinks]
  | _ =>
    dsimp only at hname
    exact absurd hname (by decide)

-- The relations of a table take the types of the rows from the modules of the tables.
theorem IsModule.links_of_relations (h : IsModule schema clientPath output module) (hname : module.name = "relations") :
    ∃ table ∈ schema.tables, module.directory = [table.name] ∧
      module.outline.links = relationLinks table.name (distinctRelationships table) := by
  cases h with
  | relations htable => exact ⟨_, htable, rfl, rfl⟩
  | _ =>
    dsimp only at hname
    exact absurd hname (by decide)

-- A directory of its own is that of a table, of storage or of all functions.
theorem IsModule.directory_cases (h : IsModule schema clientPath output module) {name : Text}
    (hdirectory : module.directory = [name]) :
    (∃ table ∈ schema.tables, table.name = name) ∨ name ∈ ["functions", "storage"].map Text.ofString := by
  cases h with
  | tableTypes htable | tableHooks htable | relations htable | tableIndex htable =>
    exact .inl ⟨_, htable, (List.cons.inj hdirectory).1⟩
  | functionsIndex | storageTypes | storageHooks | storageIndex =>
    rw [← (List.cons.inj hdirectory).1]
    exact .inr (by decide)
  | _ => cases hdirectory

theorem IsModule.outline_of_main (h : IsModule schema clientPath output module) (hdirectory : module.directory = [])
    (hname : module.name = "index") : module.outline = indexOutline (mainSources schema output) := by
  rcases h.index_cases hname with hover | ⟨hother, -⟩ | ⟨-, houtline⟩
  · obtain ⟨outline, htypes⟩ := hover.types
    exact absurd hdirectory (htypes.directory_ne_nil rfl)
  · rw [hdirectory] at hother
    cases hother
  · exact houtline

section Indexes

variable (houtput : output.IsRead) (hnames : PlainNames schema) (hstored : Stored schema clientPath output files)
include houtput hnames hstored

theorem OverTypes.exists_export (hholds : Holds schema clientPath output file module)
    (h : OverTypes schema clientPath output module) :
    ∃ name : Text, name ≠ "default" ∧ Exports schema clientPath output files file name := by
  obtain ⟨outline, htypes⟩ := h.types
  have hdirectory := (List.forall_mem_append.mp (hholds.isModule.isName hnames)).1
  obtain ⟨target, htarget, -, held, hheld, hplace⟩ := target_of_file houtput hnames hstored hholds htypes
    (leads_beside hdirectory (show IsName "types" by decide))
  have hsome : module.directory ≠ [] := htypes.directory_ne_nil rfl
  dsimp only at hplace
  obtain ⟨name, hmem, hdefault⟩ :=
    hheld.isModule.exists_export (by rw [hplace.2]; decide) (by rwa [hplace.1])
  exact ⟨name, hdefault, .passed hholds h.link htarget hdefault (.declared hheld hmem)⟩

-- The index of all functions exports something if one of these is not called like it.
theorem functionsIndex_exports (hholds : Holds schema clientPath output file module)
    (hdirectory : module.directory = [Text.ofString "functions"]) {routine : Routine}
    (hroutine : routine ∈ schema.publicRoutines)
    (hlink : .all ("./" ++ routine.name) ∈ module.outline.links) (hname : routine.name ≠ "index") :
    ∃ name : Text, name ≠ "default" ∧ Exports schema clientPath output files file name := by
  have hparts := (List.forall_mem_append.mp (hholds.isModule.isName hnames)).1
  obtain ⟨outline, hindex⟩ : ∃ outline,
      IsModule schema clientPath output ⟨module.directory ++ [routine.name], "index", outline⟩ := by
    rw [hdirectory]
    exact ⟨_, .routineIndex hroutine⟩
  obtain ⟨target, htarget, held, hheld, hplace⟩ := target_of_index houtput hnames hstored hholds hindex
    (leads_beside hparts (hnames.routines routine hroutine).isName)
  have hexport : ∃ name : Text, name ≠ "default" ∧ Exports schema clientPath output files target name := by
    rcases hplace with ⟨hheldDirectory, hheldName⟩ | ⟨hheldDirectory, hheldName⟩
    · obtain ⟨name, hmem, hdefault⟩ := hheld.isModule.exists_export (by rwa [hheldName])
        (by rw [hheldDirectory, hdirectory]; simp)
      exact ⟨name, hdefault, .declared hheld hmem⟩
    · rcases hheld.isModule.index_cases hheldName with hover | ⟨hother, -⟩ | ⟨hother, -⟩
      · exact hover.exists_export houtput hnames hstored hheld
      · rw [hheldDirectory, hdirectory] at hother
        exact absurd (congrArg List.length hother) (by simp)
      · rw [hheldDirectory, hdirectory] at hother
        cases hother
  obtain ⟨name, hdefault, hexports⟩ := hexport
  exact ⟨name, hdefault, .passed hholds hlink htarget hdefault hexports⟩

theorem main_exports (hholds : Holds schema clientPath output file module) (hdirectory : module.directory = [])
    (hlink : .all "./storage" ∈ module.outline.links) :
    ∃ name : Text, name ≠ "default" ∧ Exports schema clientPath output files file name := by
  have hparts := (List.forall_mem_append.mp (hholds.isModule.isName hnames)).1
  obtain ⟨outline, hindex⟩ : ∃ outline,
      IsModule schema clientPath output ⟨module.directory ++ [Text.ofString "storage"], "index", outline⟩ := by
    rw [hdirectory]
    exact ⟨_, .storageIndex⟩
  obtain ⟨target, htarget, held, hheld, hplace⟩ := target_of_index houtput hnames hstored hholds hindex
    (leads_beside hparts isName_storage)
  have hover : OverTypes schema clientPath output held := by
    rcases hplace with ⟨hheldDirectory, hheldName⟩ | ⟨hheldDirectory, hheldName⟩
    · exact absurd (hheldName ▸ hheld.isModule.name_mem) (by decide)
    · rw [hdirectory, List.nil_append] at hheldDirectory
      rcases hheld.isModule.index_cases hheldName with hover | ⟨hother, -⟩ | ⟨hother, -⟩
      · exact hover
      · exact absurd (hheldDirectory.symm.trans hother) (by decide)
      · exact absurd (hheldDirectory.symm.trans hother) (by decide)
  obtain ⟨name, hdefault, hexports⟩ := hover.exists_export houtput hnames hstored hheld
  exact ⟨name, hdefault, .passed hholds hlink htarget hdefault hexports⟩

-- Every module exports something, but for that of no enums and the index of a single function that is called
-- like it.
theorem exists_export (hholds : Holds schema clientPath output file module) :
    (∃ name, Exports schema clientPath output files file name) ∨
      (file.path = (enumsPath output).text ∧ schema.enums = []) ∨
      (file.path = ((functionsPath output).child "index.ts").text ∧
        ∀ routine ∈ schema.publicRoutines, routine.name = "index") := by
  by_cases hname : module.name = "index"
  · rcases hholds.isModule.index_cases hname with hover | ⟨hdirectory, hsome, houtline⟩ | ⟨hdirectory, houtline⟩
    · obtain ⟨name, -, hexports⟩ := hover.exists_export houtput hnames hstored hholds
      exact .inl ⟨name, hexports⟩
    · by_cases hindex : ∀ routine ∈ schema.publicRoutines, routine.name = "index"
      · refine .inr (.inr ⟨?_, hindex⟩)
        rw [hholds.path, ← path_functionsIndex output module.outline, ← hdirectory, ← hname]
      · push Not at hindex
        obtain ⟨routine, hroutine, hne⟩ := hindex
        have hlink : .all ("./" ++ routine.name) ∈ module.outline.links := by
          rw [houtline]
          exact List.mem_map_of_mem (List.mem_map_of_mem hroutine)
        obtain ⟨name, -, hexports⟩ :=
          functionsIndex_exports houtput hnames hstored hholds hdirectory hroutine hlink hne
        exact .inl ⟨name, hexports⟩
    · have hlink : .all "./storage" ∈ module.outline.links := by
        rw [houtline]
        exact List.mem_map_of_mem (by simp [mainSources])
      obtain ⟨name, -, hexports⟩ := main_exports houtput hnames hstored hholds hdirectory hlink
      exact .inl ⟨name, hexports⟩
  · by_cases hdirectory : module.directory = []
    · rcases hholds.isModule.exists_sharedExport hname hdirectory with ⟨name, hmem⟩ | ⟨henums, hnone⟩
      · exact .inl ⟨name, .declared hholds hmem⟩
      · refine .inr (.inl ⟨?_, hnone⟩)
        rw [hholds.path, ← path_enums output module.outline, ← hdirectory, ← henums]
    · obtain ⟨name, hmem, -⟩ := hholds.isModule.exists_export hname hdirectory
      exact .inl ⟨name, .declared hholds hmem⟩

-- The index of functions that are all called like it hands on nothing but itself.
theorem not_exports_functionsIndex (hindex : ∀ routine ∈ schema.publicRoutines, routine.name = "index")
    (htables : ∀ table ∈ schema.tables, table.name ≠ "functions")
    (hpath : file.path = ((functionsPath output).child "index.ts").text) {name : Text} :
    ¬ Exports schema clientPath output files file name := by
  have hmodule {file : GeneratedFile} {module : Module} (hholds : Holds schema clientPath output file module)
      (hpath : file.path = ((functionsPath output).child "index.ts").text) :
      module = ⟨["functions"], "index",
        indexOutline (schema.publicRoutines.map fun routine => Text.ofString "./" ++ routine.name)⟩ := by
    rw [← path_functionsIndex output ⟨[], []⟩] at hpath
    obtain ⟨hdirectory, hname⟩ := hholds.place_eq hnames (by decide) hpath
    have hisModule := hholds.isModule
    cases hisModule with
    | functionsIndex => rfl
    | tableIndex htable => exact absurd (List.cons.inj hdirectory).1 (htables _ htable)
    | routineIndex => exact absurd (congrArg List.length hdirectory) (by simp)
    | storageIndex =>
      dsimp only at hdirectory
      exact absurd hdirectory (by decide)
    | main => cases hdirectory
    | _ =>
      dsimp only at hname
      exact absurd hname (by decide)
  rintro ⟨origin, hexports⟩
  induction hexports with
  | declared hholds hmem =>
    rw [hmodule hholds hpath] at hmem
    cases hmem
  | @passed file target module source name hholds hlink hleads _ _ ih =>
    obtain rfl := hmodule hholds hpath
    obtain ⟨routine, hroutine, rfl⟩ : ∃ routine ∈ schema.publicRoutines, "./" ++ routine.name = source := by
      simpa [indexOutline] using hlink
    rw [hindex routine hroutine] at hleads
    obtain ⟨reached, hreached, hplace, -⟩ := target_of_file houtput hnames hstored hholds hholds.isModule
      (leads_beside (by simpa using isName_functions) (show IsName "index" by decide))
    refine ih ?_
    rw [Option.some.inj (hleads.symm.trans hreached), hplace, path_functionsIndex]

end Indexes

theorem not_exports_enums (hnames : PlainNames schema) (hnone : schema.enums = []) {file : GeneratedFile}
    (hpath : file.path = (enumsPath output).text) {name : Text} :
    ¬ Exports schema clientPath output files file name := by
  have hmodule {module : Module} (hholds : Holds schema clientPath output file module) :
      module = ⟨[], "enums", [], []⟩ := by
    rw [← path_enums output ⟨[], []⟩] at hpath
    obtain ⟨hdirectory, hname⟩ := hholds.place_eq hnames (by decide) hpath
    have hisModule := hholds.isModule
    cases hisModule with
    | enums => rw [hnone, List.map_nil]
    | baseTypes | main =>
      dsimp only at hname
      exact absurd hname (by decide)
    | _ => cases hdirectory
  rintro ⟨origin, hexports⟩
  cases hexports with
  | declared hholds hmem =>
    rw [hmodule hholds] at hmem
    cases hmem
  | passed hholds hlink =>
    rw [hmodule hholds] at hlink
    cases hlink

-- A link leads to a file that exports something, but for the module of no enums and for the index of a single
-- function that is called like it.
def Met (schema : Schema) (clientPath : Text) (output : Path) (files : List GeneratedFile) (file : GeneratedFile)
    (link : Link) : Prop :=
  ∃ target ∈ files, target? files file link.source = some target ∧
    ((∃ name, Exports schema clientPath output files target name) ∨
      (target.path = (enumsPath output).text ∧ schema.enums = []) ∨
      (target.path = ((functionsPath output).child "index.ts").text ∧
        ∀ routine ∈ schema.publicRoutines, routine.name = "index"))

-- Every file but the lists of relationships is a module. Each of its links that begins with a point is met, but
-- for that to the client and for those to relations that are no tables.
theorem links_met {path source schemaName rootName out : Text} {declared : DeclarationFile}
    (hparse : (DeclarationFile.parse path source).outcome = .ok declared)
    (hschema : (Introspection.introspect declared schemaName rootName).outcome = .ok schema)
    (hnames : PlainNames schema) (hfiles : (generate schema clientPath (.ofText out)).outcome = .ok files) :
    ∀ file ∈ files, Text.ofString ".ts" <:+ file.path →
      ∃ module, Holds schema clientPath (.ofText out) file module ∧
        ∀ link ∈ module.outline.links, link.source.head? = some (.char '.') →
          link = clientLink clientPath ∨ TakesUntabled schema link ∨
            Met schema clientPath (.ofText out) files file link := by
  have houtput := Path.isRead_ofText out
  have hstored := stored_of_generate hnames (fromSource_of_introspect hparse hschema) hfiles
  intro file hfile hts
  rcases hstored.held file hfile with hlist | ⟨module, hholds⟩
  · exact absurd hts (IsList.not_ts hlist)
  · refine ⟨module, hholds, fun link hlink hpoint => ?_⟩
    rcases arrives_of_link houtput hnames (Introspection.introspect_describes hschema).enums hholds.isModule hlink
      hpoint with hclient | huntabled | harrives
    · exact .inl hclient
    · exact .inr (.inl huntabled)
    · obtain ⟨target, htarget, held, hheld⟩ := exists_target houtput hnames hstored hholds harrives
      exact .inr (.inr ⟨target, mem_of_target? htarget, htarget, exists_export houtput hnames hstored hheld⟩)

section Sample

-- A table with a foreign key to a view, a function that is called like an index, and no enums where these are
-- declared.
def bareSource : Text :=
  "type Database = \x7b public: \x7b Tables: \x7b t: \x7b Relationships: [\x7b " ++
  "foreignKeyName: 't_v_fkey', columns: [], isOneToOne: false, referencedRelation: 'v', referencedColumns: [] \x7d] " ++
  "\x7d \x7d, Views: \x7bv: \x7b\x7d\x7d, Functions: \x7bindex: \x7bArgs: \x7b\x7d\x7d\x7d, Enums: \x7b\x7d \x7d \x7d"

def viewLink : Link := .named true [Text.ofString "VRow"] "../v/types"

set_option maxRecDepth 8000 in
theorem bare_generated : (Generated.of? bareSource "./client" "out" fun schema _ =>
    schema.tables.map (·.name) = [Text.ofString "t"] ∧
    schema.publicRoutines.map (·.name) = [Text.ofString "index"] ∧ schema.enums.map (·.name) = [] ∧
    schema.hasEnums ∧ (∀ table ∈ schema.tables, table.hasRelationships ∧
      relationLinks table.name (distinctRelationships table) = [viewLink])).isSome := by
  have hsource : bareSource = Text.ofChars _ ++ Text.ofChars _ ++ Text.ofChars _ :=
    congrArg₂ (· ++ ·) (congrArg₂ (· ++ ·) (Text.ofString_ofList _) (Text.ofString_ofList _)) (Text.ofString_ofList _)
  rw [hsource]
  decide +kernel

def bare := (Generated.of? bareSource "./client" "out" _).get bare_generated

theorem bare_plainNames : PlainNames bare.schema := by
  obtain ⟨htables, hroutines, -⟩ := bare.meets
  constructor
  · intro table htable
    have hname : table.name ∈ [Text.ofString "t"] := htables ▸ List.mem_map_of_mem htable
    rw [List.mem_singleton.mp hname]
    decide
  · intro routine hroutine
    have hname : routine.name ∈ [Text.ofString "index"] := hroutines ▸ List.mem_map_of_mem hroutine
    rw [List.mem_singleton.mp hname]
    decide

theorem links_met_bare :
    (DeclarationFile.parse "database.ts" bareSource).outcome = .ok ⟨"database.ts", bare.declarations⟩ ∧
    (Introspection.introspect ⟨"database.ts", bare.declarations⟩ "public" "Database").outcome =
      .ok bare.schema ∧
    PlainNames bare.schema ∧ (generate bare.schema "./client" (.ofText "out")).outcome = .ok bare.files ∧
    ∀ file ∈ bare.files, Text.ofString ".ts" <:+ file.path →
      ∃ module, Holds bare.schema "./client" (.ofText "out") file module ∧
        ∀ link ∈ module.outline.links, link.source.head? = some (.char '.') →
          link = clientLink "./client" ∨ TakesUntabled bare.schema link ∨
            Met bare.schema "./client" (.ofText "out") bare.files file link :=
  ⟨bare.parsed, bare.introspected, bare_plainNames, bare.generated,
    links_met bare.parsed bare.introspected bare_plainNames bare.generated⟩

-- What the main index hands on comes to nothing in two places, and the client and the rows of the view are imported
-- from modules that are none of those generated.
theorem bare_links_unmet :
    Source.parseDeclarations bareSource = some bare.declarations ∧
    (Introspection.introspect ⟨"database.ts", bare.declarations⟩ "public" "Database").outcome =
      .ok bare.schema ∧
    bare.schema.tables.map (·.name) = [Text.ofString "t"] ∧
    bare.schema.publicRoutines.map (·.name) = [Text.ofString "index"] ∧
    (generate bare.schema "./client" (.ofText "out")).outcome = .ok bare.files ∧
    (∃ file ∈ bare.files, ∃ module, Holds bare.schema "./client" (.ofText "out") file module ∧
      ∀ source ∈ ["./enums", "./functions"].map Text.ofString, .all source ∈ module.outline.links ∧
        ∃ target ∈ bare.files, target? bare.files file source = some target ∧
          ∀ name, ¬ Exports bare.schema "./client" (.ofText "out") bare.files target name) ∧
    (∃ file ∈ bare.files, ∃ module, Holds bare.schema "./client" (.ofText "out") file module ∧
      clientLink "./client" ∈ module.outline.links ∧ target? bare.files file "./client" = none) ∧
    (∃ file ∈ bare.files, ∃ module, Holds bare.schema "./client" (.ofText "out") file module ∧
      viewLink ∈ module.outline.links ∧ TakesUntabled bare.schema viewLink ∧
        target? bare.files file "../v/types" = none) := by
  obtain ⟨htables, hroutines, henums, hasEnums, hlinks⟩ := bare.meets
  have houtput := Path.isRead_ofText "out"
  have hnames := bare_plainNames
  have hstored : Stored bare.schema "./client" (.ofText "out") bare.files :=
    stored_of_generate hnames (fromSource_of_introspect bare.parsed bare.introspected) bare.generated
  have htable : ∀ table ∈ bare.schema.tables, table.name = "t" := fun table hmem =>
    List.mem_singleton.mp (htables ▸ List.mem_map_of_mem hmem)
  have hroutine : ∀ routine ∈ bare.schema.publicRoutines, routine.name = "index" := fun routine hmem =>
    List.mem_singleton.mp (hroutines ▸ List.mem_map_of_mem hmem)
  have hsome : bare.schema.publicRoutines ≠ [] := fun hnone => by simp [hnone] at hroutines
  refine ⟨bare.read, bare.introspected, htables, hroutines, bare.generated, ?_, ?_, ?_⟩
  · obtain ⟨file, hfile, ⟨directory, name, outline⟩, hheld, hdirectory, hname⟩ := hstored.exists_file hnames .main
    have houtline := hheld.isModule.outline_of_main hdirectory hname
    dsimp only at hdirectory hname houtline
    subst hdirectory hname houtline
    refine ⟨file, hfile, _, hheld, List.forall_mem_cons.mpr ⟨⟨?_, ?_⟩, List.forall_mem_singleton.mpr ⟨?_, ?_⟩⟩⟩
    · simp [indexOutline, mainSources, hasEnums]
    · obtain ⟨target, htarget, hpath, -⟩ := target_of_file houtput hnames hstored hheld (.enums hasEnums)
        (@leads_beside _ ⟨[], _, _⟩ (by simp) "enums" (by decide))
      rw [path_enums] at hpath
      exact ⟨target, mem_of_target? htarget, htarget, fun name =>
        not_exports_enums hnames (List.map_eq_nil_iff.mp henums) hpath⟩
    · simp [indexOutline, mainSources, hsome]
    · obtain ⟨target, htarget, reached, hreached, hplace⟩ := target_of_index houtput hnames hstored hheld
        (.functionsIndex hsome) (@leads_beside _ ⟨[], _, _⟩ (by simp) "functions" isName_functions)
      have hpath : target.path = ((functionsPath (.ofText "out")).child "index.ts").text := by
        rcases hplace with ⟨hdirectory, hname⟩ | ⟨hdirectory, hname⟩
        · exact absurd (hname ▸ hreached.isModule.name_mem) (by decide)
        · rw [hreached.path, ← path_functionsIndex _ reached.outline, ← hname]
          exact congrArg (fun directory => (Module.path ⟨directory, _, _⟩ _).text) hdirectory
      exact ⟨target, mem_of_target? htarget, htarget, fun name => not_exports_functionsIndex houtput hnames hstored
        hroutine (fun table hmem => by rw [htable table hmem]; decide) hpath⟩
  · obtain ⟨file, hfile, held, hheld, hdirectory, hname⟩ := hstored.exists_file hnames .storageHooks
    have hparts := (List.forall_mem_append.mp (hheld.isModule.isName hnames)).1
    have hclient : IsName "client" := by decide
    have hsource : Text.ofString "./client" = "./" ++ Text.ofString "client" := by decide
    refine ⟨file, hfile, held, hheld, hheld.isModule.clientLink_mem hname, ?_⟩
    refine (congrArg (target? bare.files file) hsource).trans (target?_eq_none houtput hnames hstored hheld
      (leads_beside hparts hclient)
      (List.forall_mem_append.mpr ⟨hparts, List.forall_mem_singleton.mpr hclient⟩) ?_ ?_)
    · intro module hmodule _ hname
      exact absurd (hname ▸ hmodule.name_mem) (by decide)
    · intro module hmodule hbelow _
      rw [hdirectory] at hbelow
      exact absurd (hmodule.eq_functions hbelow) (by decide)
  · obtain ⟨table, hmem⟩ : ∃ table, table ∈ bare.schema.tables :=
      List.exists_mem_of_ne_nil _ fun hnone => by simp [hnone] at htables
    obtain ⟨file, hfile, ⟨directory, name, outline⟩, hheld, hdirectory, hname⟩ :=
      hstored.exists_file hnames (.relations hmem (hlinks table hmem).1)
    obtain ⟨other, hother, hplace, houtline⟩ := hheld.isModule.links_of_relations hname
    dsimp only at hplace houtline
    subst hplace
    have hview : IsName "v" := by decide
    have hnoView : ∀ table ∈ bare.schema.tables, table.name ≠ "v" := fun table hmem => by
      rw [htable table hmem]
      decide
    refine ⟨file, hfile, _, hheld, ?_, ⟨"v", hnoView, by decide +kernel⟩, ?_⟩
    · rw [houtline, (hlinks other hother).2]
      exact List.mem_singleton_self _
    · have hleads := @leads_across (.ofText "out") _ "v" (hnames.tables other hother).isName hview name outline
      refine target?_eq_none houtput hnames hstored hheld hleads (by decide) ?_ ?_
      · intro module hmodule hdirectory _
        rcases hmodule.directory_cases hdirectory with ⟨table, hmem, hname⟩ | hname
        · exact hnoView table hmem hname
        · exact absurd hname (by decide)
      · intro module hmodule hbelow _
        exact absurd (hmodule.eq_functions hbelow) (by decide)

end Sample

end Generation

end HookGen
