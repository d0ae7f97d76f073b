import HookGen.Proofs.Generation.Exports
import Mathlib.Data.List.Flatten

/-!
When indexes hand on the same name twice. Where every source leads to the module that it was written for, this
comes down to the names that the tables, the functions and the shared modules declare.
-/

namespace HookGen.Generation

open Code Traced

variable {schema : Schema} {clientPath : Text} {output : Path} {files : List GeneratedFile}

-- No table or function is called like a module that would be found in the place of its index.
structure Unshadowed (schema : Schema) (output : Path) : Prop where
  plain : PlainNames schema
  distinct : DistinctNames schema
  unreserved : Unreserved schema
  index : ∀ table ∈ schema.tables, table.name ≠ "index"
  baseTypes : ∀ table ∈ schema.tables, table.name = "base-types" → usedBaseTypes schema output = []
  enums : ∀ table ∈ schema.tables, table.name = "enums" → schema.hasEnums = false
  routines : ∀ routine ∈ schema.publicRoutines, routine.name ≠ "index"

-- Of the files that a file hands on, no two export a common name. The default is never handed on.
def ClashFree (schema : Schema) (clientPath : Text) (output : Path) (files : List GeneratedFile)
    (file : GeneratedFile) : Prop :=
  ∀ module, Holds schema clientPath output file module → ∀ source source' target target' (name : Text),
    .all source ∈ module.outline.links → .all source' ∈ module.outline.links →
    target? files file source = some target → target? files file source' = some target' → target ≠ target' →
    name ≠ "default" → Exports schema clientPath output files target name →
    ¬ Exports schema clientPath output files target' name

section Places

theorem sublist_places : ((modules schema clientPath output).map Module.place).Sublist (places schema output) := by
  have htable (table : Table) : ((tableModules schema clientPath output table).map Module.place).Sublist
      ((tableNames table).map fun name => [table.name, name]) := by
    rw [tableModules, tableNames]
    split
    · exact .cons_cons _ (.cons_cons _ (.cons_cons _ (.cons _ (.refl _))))
    · exact .refl _
  have hroutine (routine : Routine) : ((routineModules schema clientPath output routine).map Module.place).Sublist
      (moduleNames.map fun name => [Text.ofString "functions", routine.name, name]) := .refl _
  have hcommon : ((functionsModules schema ++ storageModules clientPath ++ baseTypesModules schema output ++
      enumsModules schema ++ [(⟨[], "index", indexOutline (mainSources schema output)⟩ : Module)]).map
        Module.place) = commonPlaces schema output := by
    rw [functionsModules, baseTypesModules, enumsModules, commonPlaces]
    split <;> split <;> split <;> rfl
  rw [modules, places, ← hcommon]
  simp only [List.map_append, List.append_assoc, List.map_flatMap]
  exact .append (.flatMap_right _ fun table _ => htable table)
    (.append (.flatMap_right _ fun routine _ => hroutine routine) (.refl _))

-- So a module is told by its place.
theorem Unshadowed.module_eq (h : Unshadowed schema output) {first second : Module}
    (hfirst : IsModule schema clientPath output first) (hsecond : IsModule schema clientPath output second)
    (hdirectory : first.directory = second.directory) (hname : first.name = second.name) : first = second := by
  have hnodup : ((modules schema clientPath output).map Module.place).Nodup :=
    sublist_places.nodup (nodup_places h.distinct h.unreserved)
  refine List.inj_on_of_nodup_map hnodup (mem_modules.mpr hfirst) (mem_modules.mpr hsecond) ?_
  rw [Module.place, Module.place, hdirectory, hname]

-- Files of a generation in which every source leads to the module that it was written for.
structure Settled (schema : Schema) (clientPath : Text) (output : Path) (files : List GeneratedFile) : Prop where
  isRead : output.IsRead
  unshadowed : Unshadowed schema output
  stored : Stored schema clientPath output files
  nodup : (files.map (·.path)).Nodup

namespace Settled

variable {file other : GeneratedFile} {module : Module} (h : Settled schema clientPath output files)
include h

theorem holds_unique {held : Module} (hholds : Holds schema clientPath output file module)
    (hheld : Holds schema clientPath output file held) : held = module := by
  have hplace := hheld.place_eq h.unshadowed.plain (hholds.isModule.isName h.unshadowed.plain) hholds.path
  exact h.unshadowed.module_eq hheld.isModule hholds.isModule hplace.1 hplace.2

theorem file_unique (hfile : file ∈ files) (hother : other ∈ files)
    (hholds : Holds schema clientPath output file module) (hheld : Holds schema clientPath output other module) :
    file = other :=
  List.inj_on_of_nodup_map h.nodup hfile hother (hholds.path.trans hheld.path.symm)

theorem exists_file (hmodule : IsModule schema clientPath output module) :
    ∃ file ∈ files, Holds schema clientPath output file module := by
  obtain ⟨file, hfile, held, hheld, hplace⟩ := h.stored.exists_file h.unshadowed.plain hmodule
  obtain rfl := h.unshadowed.module_eq hheld.isModule hmodule hplace.1 hplace.2
  exact ⟨file, hfile, hheld⟩

theorem target_file (hholds : Holds schema clientPath output file module) {reached : Module}
    (hreached : IsModule schema clientPath output reached) (hdirectory : reached.directory = module.directory) :
    ∃ target, target? files file ("./" ++ reached.name) = some target ∧
      Holds schema clientPath output target reached := by
  have hisName := hreached.isName h.unshadowed.plain
  rw [List.forall_mem_append, List.forall_mem_singleton, hdirectory] at hisName
  obtain ⟨target, htarget, -, held, hheld, hplace⟩ := target_of_file h.isRead h.unshadowed.plain h.stored hholds
    hreached (hdirectory ▸ leads_beside hisName.1 hisName.2)
  obtain rfl := h.unshadowed.module_eq hheld.isModule hreached hplace.1 hplace.2
  exact ⟨target, htarget, hheld⟩

theorem target_index (hholds : Holds schema clientPath output file module) {name : Text} {outline : Outline}
    (hindex : IsModule schema clientPath output ⟨module.directory ++ [name], "index", outline⟩)
    (hfree : ∀ other, IsModule schema clientPath output other → other.directory = module.directory →
      other.name ≠ name) :
    ∃ target, target? files file ("./" ++ name) = some target ∧
      Holds schema clientPath output target ⟨module.directory ++ [name], "index", outline⟩ := by
  have hisName := (List.forall_mem_append.mp (hindex.isName h.unshadowed.plain)).1
  rw [List.forall_mem_append, List.forall_mem_singleton] at hisName
  obtain ⟨target, htarget, held, hheld, hplace⟩ := target_of_index h.isRead h.unshadowed.plain h.stored hholds
    hindex (leads_beside hisName.1 hisName.2)
  rcases hplace with ⟨hdirectory, hname⟩ | ⟨hdirectory, hname⟩
  · exact absurd hname (hfree held hheld.isModule hdirectory)
  · obtain rfl := h.unshadowed.module_eq hheld.isModule hindex hdirectory hname
    exact ⟨target, htarget, hheld⟩

end Settled

end Places

section Parts

-- What an index hands on under one source: a module, and the names that come from it.
structure Part where
  source : Text
  module : Module
  names : List Text

-- A module that declares its names.
def Part.leaf (module : Module) : Part :=
  ⟨"./" ++ module.name, module, module.outline.exports.filter (· != "default")⟩

-- An index of other parts.
def Part.index (directory : List Text) (name : Text) (parts : List Part) : Part :=
  ⟨"./" ++ name, ⟨directory ++ [name], "index", indexOutline (parts.map (·.source))⟩, parts.flatMap (·.names)⟩

-- What is handed on under different sources has no common names.
def Apart (parts : List Part) : Prop :=
  ∀ part ∈ parts, ∀ other ∈ parts, part.source ≠ other.source → part.names.Disjoint other.names

-- How an index beside a module, or beside the directory of another index, calls it.
def Module.source (module : Module) : Text :=
  "./" ++ if module.name = "index" then module.directory.getLast?.getD [] else module.name

-- A part is where its source leads.
structure Part.IsMet (schema : Schema) (clientPath : Text) (output : Path) (files : List GeneratedFile)
    (file : GeneratedFile) (part : Part) (target : GeneratedFile) : Prop where
  source : part.source = part.module.source
  leads : target? files file part.source = some target
  holds : Holds schema clientPath output target part.module
  mem_names : ∀ name, name ∈ part.names ↔ name ≠ "default" ∧ Exports schema clientPath output files target name

-- Only indexes hand on what others export.
theorem IsModule.all_notMem {module : Module} (h : IsModule schema clientPath output module)
    (hname : module.name ≠ "index") (source : Text) : .all source ∉ module.outline.links := by
  cases h with
  | tableTypes | routineTypes => simp [typesOutline]
  | @tableHooks table =>
    dsimp only [hookLinks]
    split <;> simp [queryLink, clientLink]
  | @relations table =>
    dsimp only [relationLinks]
    split <;> simp
  | routineHooks => simp [routineHookLinks, queryLink, clientLink]
  | storageHooks => simp [storageHookLinks, clientLink]
  | storageTypes | baseTypes | enums => exact List.not_mem_nil
  | tableIndex | routineIndex | functionsIndex | storageIndex | main => exact absurd rfl hname

theorem IsModule.exports_eq_nil {module : Module} (h : IsModule schema clientPath output module) {source : Text}
    (hlink : .all source ∈ module.outline.links) : module.outline.exports = [] := by
  have hname : module.name = "index" := by_contra fun hname => h.all_notMem hname source hlink
  cases h with
  | tableIndex | routineIndex | functionsIndex | storageIndex | main => rfl
  | _ =>
    dsimp only at hname
    exact absurd hname (by decide)

variable {file : GeneratedFile} (h : Settled schema clientPath output files)
include h

-- A file of declarations exports these.
theorem Settled.exportsFrom_iff {module : Module} (hholds : Holds schema clientPath output file module)
    (hleaf : ∀ source, .all source ∉ module.outline.links) {origin : GeneratedFile} {name : Text} :
    ExportsFrom schema clientPath output files origin file name ↔
      origin = file ∧ name ∈ module.outline.exports := by
  constructor
  · rintro (⟨hheld, hmem⟩ | ⟨hheld, hlink, -⟩)
    · exact ⟨rfl, h.holds_unique hholds hheld ▸ hmem⟩
    · exact absurd (h.holds_unique hholds hheld ▸ hlink) (hleaf _)
  · rintro ⟨rfl, hmem⟩
    exact .declared hholds hmem

theorem Settled.met_leaf {module reached : Module} (hholds : Holds schema clientPath output file module)
    (hreached : IsModule schema clientPath output reached) (hdirectory : reached.directory = module.directory)
    (hname : reached.name ≠ "index") :
    ∃ target, (Part.leaf reached).IsMet schema clientPath output files file target := by
  obtain ⟨target, htarget, hheld⟩ := h.target_file hholds hreached hdirectory
  refine ⟨target, by rw [Module.source, Part.leaf, if_neg hname], htarget, hheld, fun name => ?_⟩
  rw [Part.leaf, List.mem_filter, bne_iff_ne, and_comm]
  refine and_congr_right fun _ => ⟨.declared hheld, ?_⟩
  rintro ⟨origin, hexports⟩
  exact ((h.exportsFrom_iff hheld (hreached.all_notMem hname)).mp hexports).2

-- A file that is an index of some parts.
structure Indexes (schema : Schema) (clientPath : Text) (output : Path) (files : List GeneratedFile)
    (file : GeneratedFile) (directory : List Text) (parts : List Part) : Prop where
  holds : Holds schema clientPath output file ⟨directory, "index", indexOutline (parts.map (·.source))⟩
  met : ∀ part ∈ parts, ∃ target, part.IsMet schema clientPath output files file target

variable {directory : List Text} {parts : List Part}

theorem Indexes.exportsFrom_iff (hindex : Indexes schema clientPath output files file directory parts)
    {origin : GeneratedFile} {name : Text} :
    ExportsFrom schema clientPath output files origin file name ↔ name ≠ "default" ∧
      ∃ part ∈ parts, ∃ target, part.IsMet schema clientPath output files file target ∧
        ExportsFrom schema clientPath output files origin target name := by
  constructor
  · rintro (⟨hheld, hmem⟩ | ⟨hheld, hlink, hleads, hdefault, hexports⟩)
    · rw [h.holds_unique hindex.holds hheld] at hmem
      cases hmem
    · rw [h.holds_unique hindex.holds hheld] at hlink
      obtain ⟨source, hsource, heq⟩ := List.mem_map.mp hlink
      obtain ⟨part, hpart, rfl⟩ := List.mem_map.mp hsource
      obtain ⟨target, hmet⟩ := hindex.met part hpart
      obtain rfl := Link.all.inj heq
      obtain rfl := Option.some.inj (hmet.leads.symm.trans hleads)
      exact ⟨hdefault, part, hpart, _, hmet, hexports⟩
  · rintro ⟨hdefault, part, hpart, target, hmet, hexports⟩
    exact .passed hindex.holds (List.mem_map_of_mem (List.mem_map_of_mem hpart)) hmet.leads hdefault hexports

theorem Indexes.mem_names (hindex : Indexes schema clientPath output files file directory parts) (name : Text) :
    name ∈ parts.flatMap (·.names) ↔ name ≠ "default" ∧ Exports schema clientPath output files file name := by
  rw [List.mem_flatMap]
  constructor
  · rintro ⟨part, hpart, hname⟩
    obtain ⟨target, hmet⟩ := hindex.met part hpart
    obtain ⟨hdefault, origin, hexports⟩ := (hmet.mem_names name).mp hname
    exact ⟨hdefault, origin, (hindex.exportsFrom_iff h).mpr ⟨hdefault, part, hpart, target, hmet, hexports⟩⟩
  · rintro ⟨hdefault, origin, hexports⟩
    obtain ⟨-, part, hpart, target, hmet, hfrom⟩ := (hindex.exportsFrom_iff h).mp hexports
    exact ⟨part, hpart, (hmet.mem_names name).mpr ⟨hdefault, origin, hfrom⟩⟩

-- An index has no clashes exactly when its parts have no common names.
theorem Indexes.clashFree_iff (hindex : Indexes schema clientPath output files file directory parts) :
    ClashFree schema clientPath output files file ↔ Apart parts := by
  have hlink {part : Part} (hpart : part ∈ parts) : Link.all part.source ∈
      (Module.mk directory "index" (indexOutline (parts.map (·.source)))).outline.links :=
    List.mem_map_of_mem (List.mem_map_of_mem hpart)
  constructor
  · intro hfree part hpart other hother hne name hname hname'
    obtain ⟨target, hmet⟩ := hindex.met part hpart
    obtain ⟨target', hmet'⟩ := hindex.met other hother
    obtain ⟨hdefault, hexports⟩ := (hmet.mem_names name).mp hname
    refine hfree _ hindex.holds _ _ target target' name (hlink hpart) (hlink hother) hmet.leads hmet'.leads ?_
      hdefault hexports ((hmet'.mem_names name).mp hname').2
    rintro rfl
    refine hne ?_
    rw [hmet.source, hmet'.source, h.holds_unique hmet.holds hmet'.holds]
  · intro hapart module hheld source source' target target' name hsource hsource' hleads hleads' hne hdefault
      hexports hexports'
    rw [h.holds_unique hindex.holds hheld] at hsource hsource'
    obtain ⟨_, hmem, heq⟩ := List.mem_map.mp hsource
    obtain ⟨part, hpart, rfl⟩ := List.mem_map.mp hmem
    obtain ⟨_, hmem', heq'⟩ := List.mem_map.mp hsource'
    obtain ⟨other, hother, rfl⟩ := List.mem_map.mp hmem'
    obtain rfl := Link.all.inj heq
    obtain rfl := Link.all.inj heq'
    obtain ⟨found, hmet⟩ := hindex.met part hpart
    obtain ⟨found', hmet'⟩ := hindex.met other hother
    obtain rfl := Option.some.inj (hmet.leads.symm.trans hleads)
    obtain rfl := Option.some.inj (hmet'.leads.symm.trans hleads')
    refine hapart part hpart other hother ?_ ((hmet.mem_names name).mpr ⟨hdefault, hexports⟩)
      ((hmet'.mem_names name).mpr ⟨hdefault, hexports'⟩)
    intro hsame
    rw [hsame] at hleads
    exact hne (Option.some.inj (hleads.symm.trans hleads'))

-- What a part exports, its index does.
theorem Indexes.hands_on (hindex : Indexes schema clientPath output files file directory parts) (part : Part)
    (hpart : part ∈ parts) {target origin : GeneratedFile} (htarget : target ∈ files)
    (hholds : Holds schema clientPath output target part.module) {name : Text} (hdefault : name ≠ "default")
    (hexports : ExportsFrom schema clientPath output files origin target name) :
    ExportsFrom schema clientPath output files origin file name := by
  obtain ⟨found, hmet⟩ := hindex.met part hpart
  obtain rfl := h.file_unique htarget (mem_of_target? hmet.leads) hholds hmet.holds
  exact (hindex.exportsFrom_iff h).mpr ⟨hdefault, part, hpart, target, hmet, hexports⟩

-- An index below another is one of its parts.
theorem Settled.met_index {module : Module} (hholds : Holds schema clientPath output file module) {name : Text}
    (hindex : IsModule schema clientPath output
      ⟨module.directory ++ [name], "index", indexOutline (parts.map (·.source))⟩)
    (hfree : ∀ other, IsModule schema clientPath output other → other.directory = module.directory →
      other.name ≠ name)
    (hparts : ∀ target, Holds schema clientPath output target
        ⟨module.directory ++ [name], "index", indexOutline (parts.map (·.source))⟩ →
      ∀ part ∈ parts, ∃ found, part.IsMet schema clientPath output files target found) :
    ∃ target, (Part.index module.directory name parts).IsMet schema clientPath output files file target := by
  obtain ⟨target, htarget, hheld⟩ := h.target_index hholds hindex hfree
  have hindexes : Indexes schema clientPath output files target (module.directory ++ [name]) parts :=
    ⟨hheld, hparts target hheld⟩
  refine ⟨target, ?_, htarget, hheld, hindexes.mem_names h⟩
  rw [Module.source, Part.index, if_pos rfl, List.getLast?_concat]
  rfl

end Parts

section Levels

def tableParts (schema : Schema) (clientPath : Text) (output : Path) (table : Table) : List Part :=
  [.leaf ⟨[table.name], "types", typesOutline (.ofTable schema output table) output⟩,
    .leaf ⟨[table.name], "hooks", hookLinks (.ofTable table) clientPath, hookNames (.ofTable table) (hasId table)⟩] ++
  if table.hasRelationships then
    [.leaf ⟨[table.name], "relations", relationLinks table.name (distinctRelationships table), relationNames table⟩]
  else []

def routineParts (schema : Schema) (clientPath : Text) (output : Path) (routine : Routine) : List Part :=
  [.leaf ⟨["functions", routine.name], "types", typesOutline (.ofRoutine schema output routine) output⟩,
    .leaf ⟨["functions", routine.name], "hooks", routineHookLinks (.ofRoutine routine) clientPath,
      routineHookNames (.ofRoutine routine)⟩]

def functionsParts (schema : Schema) (clientPath : Text) (output : Path) : List Part :=
  schema.publicRoutines.map fun routine =>
    .index ["functions"] routine.name (routineParts schema clientPath output routine)

def storageParts (clientPath : Text) : List Part :=
  [.leaf ⟨["storage"], "types", [], storageTypeNames⟩,
    .leaf ⟨["storage"], "hooks", storageHookLinks clientPath, storageHookNames⟩]

def mainParts (schema : Schema) (clientPath : Text) (output : Path) : List Part :=
  (baseTypesModules schema output).map .leaf ++ (enumsModules schema).map .leaf ++
    [.index [] "storage" (storageParts clientPath)] ++
    schema.tables.map (fun table => .index [] table.name (tableParts schema clientPath output table)) ++
    if schema.publicRoutines.isEmpty then []
    else [.index [] "functions" (functionsParts schema clientPath output)]

-- The names that meet in one index differ: in that of each table, of each function, of all functions and in the
-- main one.
structure NamesApart (schema : Schema) (clientPath : Text) (output : Path) : Prop where
  tables : ∀ table ∈ schema.tables, Apart (tableParts schema clientPath output table)
  routines : ∀ routine ∈ schema.publicRoutines, Apart (routineParts schema clientPath output routine)
  functions : Apart (functionsParts schema clientPath output)
  main : Apart (mainParts schema clientPath output)

theorem tableParts_sources (schema : Schema) (clientPath : Text) (output : Path) (table : Table) :
    (tableParts schema clientPath output table).map (·.source) = tableIndexSources table := by
  rw [tableParts, tableIndexSources]
  split <;> rfl

theorem functionsParts_sources (schema : Schema) (clientPath : Text) (output : Path) :
    (functionsParts schema clientPath output).map (·.source) =
      schema.publicRoutines.map fun routine => Text.ofString "./" ++ routine.name := by
  rw [functionsParts, List.map_map]
  rfl

theorem mainParts_sources (schema : Schema) (clientPath : Text) (output : Path) :
    (mainParts schema clientPath output).map (·.source) = mainSources schema output := by
  have hbase : ((baseTypesModules schema output).map Part.leaf).map (·.source) =
      if (usedBaseTypes schema output).isEmpty then [] else [Text.ofString "./base-types"] := by
    rw [baseTypesModules]
    split <;> rfl
  have henums : ((enumsModules schema).map Part.leaf).map (·.source) =
      if schema.hasEnums then [Text.ofString "./enums"] else [] := by
    rw [enumsModules]
    split <;> rfl
  simp only [mainParts, mainSources, List.map_append, hbase, henums, List.map_map]
  congr 1
  split <;> rfl

theorem apart_storageParts (clientPath : Text) : Apart (storageParts clientPath) := by
  have hdisjoint : (storageTypeNames.filter (· != Text.ofString "default")).Disjoint
      (storageHookNames.filter (· != Text.ofString "default")) := by
    rw [List.disjoint_left]
    decide
  intro part hpart other hother hne
  simp only [storageParts, List.mem_cons, List.not_mem_nil, or_false] at hpart hother
  rcases hpart with rfl | rfl <;> rcases hother with rfl | rfl
  · exact absurd rfl hne
  · exact hdisjoint
  · exact List.disjoint_symm hdisjoint
  · exact absurd rfl hne

-- No shared module takes the place of an index below the main one.
theorem free_root {name : Text} (hindex : name ≠ "index")
    (hbase : name = "base-types" → usedBaseTypes schema output = [])
    (henums : name = "enums" → schema.hasEnums = false) {other : Module}
    (hother : IsModule schema clientPath output other) (hdirectory : other.directory = []) : other.name ≠ name := by
  rintro rfl
  cases hother with
  | baseTypes hused => exact hused (hbase rfl)
  | enums hsome =>
    rw [henums rfl] at hsome
    cases hsome
  | main => exact hindex rfl
  | _ => cases hdirectory

-- No module of a table takes the place of an index of a function.
theorem Unshadowed.free_functions (h : Unshadowed schema output) {routine : Routine}
    (hroutine : routine ∈ schema.publicRoutines) {other : Module} (hother : IsModule schema clientPath output other)
    (hdirectory : other.directory = [Text.ofString "functions"]) : other.name ≠ routine.name := by
  have htable {table : Table} (htable : table ∈ schema.tables) : table.name ≠ "functions" := fun hname =>
    List.ne_nil_of_mem hroutine (h.unreserved.functions table htable hname)
  cases hother with
  | tableTypes mem | tableHooks mem | relations mem | tableIndex mem =>
    exact absurd (List.cons.inj hdirectory).1 (htable mem)
  | functionsIndex => exact fun hname => h.routines routine hroutine hname.symm
  | storageTypes | storageHooks | storageIndex =>
    dsimp only at hdirectory
    exact absurd hdirectory (by decide)
  | routineTypes | routineHooks | routineIndex => exact absurd (congrArg List.length hdirectory) (by simp)
  | baseTypes | enums | main => cases hdirectory

variable {file : GeneratedFile} (h : Settled schema clientPath output files)
include h

theorem Settled.tableIndex {table : Table} (htable : table ∈ schema.tables)
    (hholds : Holds schema clientPath output file ⟨[table.name], "index", indexOutline (tableIndexSources table)⟩) :
    Indexes schema clientPath output files file [table.name] (tableParts schema clientPath output table) := by
  refine ⟨(tableParts_sources ..).symm ▸ hholds, fun part hpart => ?_⟩
  rcases List.mem_append.mp hpart with hpart | hpart
  · simp only [List.mem_cons, List.not_mem_nil, or_false] at hpart
    rcases hpart with rfl | rfl
    · exact h.met_leaf hholds (.tableTypes htable) rfl (by dsimp only; decide)
    · exact h.met_leaf hholds (.tableHooks htable) rfl (by dsimp only; decide)
  · split at hpart
    · rename_i hsome
      rw [List.mem_singleton.mp hpart]
      exact h.met_leaf hholds (.relations htable hsome) rfl (by dsimp only; decide)
    · cases hpart

theorem Settled.routineIndex {routine : Routine} (hroutine : routine ∈ schema.publicRoutines)
    (hholds : Holds schema clientPath output file ⟨["functions", routine.name], "index",
      indexOutline (["./types", "./hooks"].map Text.ofString)⟩) :
    Indexes schema clientPath output files file ["functions", routine.name]
      (routineParts schema clientPath output routine) := by
  refine ⟨hholds, List.forall_mem_cons.mpr ⟨?_, List.forall_mem_singleton.mpr ?_⟩⟩
  · exact h.met_leaf hholds (.routineTypes hroutine) rfl (by dsimp only; decide)
  · exact h.met_leaf hholds (.routineHooks hroutine) rfl (by dsimp only; decide)

theorem Settled.storageIndex (hholds : Holds schema clientPath output file ⟨["storage"], "index",
      indexOutline (["./types", "./hooks"].map Text.ofString)⟩) :
    Indexes schema clientPath output files file ["storage"] (storageParts clientPath) := by
  refine ⟨hholds, List.forall_mem_cons.mpr ⟨?_, List.forall_mem_singleton.mpr ?_⟩⟩
  · exact h.met_leaf hholds .storageTypes rfl (by dsimp only; decide)
  · exact h.met_leaf hholds .storageHooks rfl (by dsimp only; decide)

theorem Settled.functionsIndex (hholds : Holds schema clientPath output file ⟨["functions"], "index",
      indexOutline (schema.publicRoutines.map fun routine => Text.ofString "./" ++ routine.name)⟩) :
    Indexes schema clientPath output files file ["functions"] (functionsParts schema clientPath output) := by
  refine ⟨(functionsParts_sources ..).symm ▸ hholds, fun part hpart => ?_⟩
  obtain ⟨routine, hroutine, rfl⟩ := List.mem_map.mp hpart
  exact h.met_index hholds (.routineIndex hroutine)
    (fun other hother hdirectory => h.unshadowed.free_functions hroutine hother hdirectory)
    fun target hheld => (h.routineIndex hroutine hheld).met

theorem Settled.mainIndex (hholds : Holds schema clientPath output file ⟨[], "index",
      indexOutline (mainSources schema output)⟩) :
    Indexes schema clientPath output files file [] (mainParts schema clientPath output) := by
  refine ⟨(mainParts_sources ..).symm ▸ hholds, fun part hpart => ?_⟩
  simp only [mainParts, List.mem_append, List.mem_singleton, List.mem_map] at hpart
  rcases hpart with (((⟨module, hmem, rfl⟩ | ⟨module, hmem, rfl⟩) | rfl) | ⟨table, htable, rfl⟩) | hpart
  · rw [baseTypesModules] at hmem
    split at hmem
    · cases hmem
    · rename_i hused
      rw [List.mem_singleton.mp hmem]
      exact h.met_leaf hholds (.baseTypes (by simpa using hused)) rfl (by dsimp only; decide)
  · rw [enumsModules] at hmem
    split at hmem
    · rename_i hsome
      rw [List.mem_singleton.mp hmem]
      exact h.met_leaf hholds (.enums hsome) rfl (by dsimp only; decide)
    · cases hmem
  · exact h.met_index hholds .storageIndex (fun other => free_root (by decide) (fun heq => absurd heq (by decide))
      fun heq => absurd heq (by decide))
      fun target hheld => (h.storageIndex hheld).met
  · refine h.met_index hholds ?_ (fun other => free_root (h.unshadowed.index table htable)
      (h.unshadowed.baseTypes table htable) (h.unshadowed.enums table htable))
      fun target hheld => (h.tableIndex htable (tableParts_sources schema .. ▸ hheld)).met
    rw [tableParts_sources]
    exact .tableIndex htable
  · split at hpart
    · cases hpart
    · rename_i hsome
      rw [List.mem_singleton.mp hpart]
      refine h.met_index hholds ?_ (fun other => free_root (by decide) (fun heq => absurd heq (by decide))
      fun heq => absurd heq (by decide))
        fun target hheld => (h.functionsIndex (functionsParts_sources schema .. ▸ hheld)).met
      rw [functionsParts_sources]
      exact .functionsIndex (by simpa using hsome)

-- Where nothing clashes, each name that a file exports has one origin.
theorem Settled.origin_unique (hfree : ∀ file ∈ files, ClashFree schema clientPath output files file)
    (hfile : file ∈ files) {name : Text} {origin origin' : GeneratedFile}
    (hexports : ExportsFrom schema clientPath output files origin file name)
    (hexports' : ExportsFrom schema clientPath output files origin' file name) : origin = origin' := by
  induction hexports with
  | declared hholds hmem =>
    rcases hexports' with _ | ⟨hheld, hlink, -⟩
    · rfl
    · rw [h.holds_unique hholds hheld] at hlink
      rw [hholds.isModule.exports_eq_nil hlink] at hmem
      cases hmem
  | @passed file target module source name hholds hlink hleads hdefault hpassed ih =>
    rcases hexports' with ⟨hheld, hmem⟩ | @⟨_, target', _, source', _, hheld, hlink', hleads', -, hpassed'⟩
    · rw [h.holds_unique hholds hheld, hholds.isModule.exports_eq_nil hlink] at hmem
      cases hmem
    · rw [h.holds_unique hholds hheld] at hlink'
      by_cases hsame : target = target'
      · subst hsame
        exact ih (mem_of_target? hleads) hpassed'
      · exact absurd ⟨origin', hpassed'⟩ (hfree file hfile module hholds source source' target target' name hlink
          hlink' hleads hleads' hsame hdefault ⟨origin, hpassed⟩)

-- Nothing clashes exactly when the names that meet in one index differ.
theorem Settled.clashFree_iff : (∀ file ∈ files, ClashFree schema clientPath output files file) ↔
    NamesApart schema clientPath output := by
  constructor
  · intro hfree
    constructor
    · intro table htable
      obtain ⟨file, hfile, hholds⟩ := h.exists_file (.tableIndex htable)
      exact ((h.tableIndex htable hholds).clashFree_iff h).mp (hfree file hfile)
    · intro routine hroutine
      obtain ⟨file, hfile, hholds⟩ := h.exists_file (.routineIndex hroutine)
      exact ((h.routineIndex hroutine hholds).clashFree_iff h).mp (hfree file hfile)
    · by_cases hnone : schema.publicRoutines = []
      · rw [functionsParts, hnone]
        exact fun part hpart => absurd hpart List.not_mem_nil
      · obtain ⟨file, hfile, hholds⟩ := h.exists_file (.functionsIndex hnone)
        exact ((h.functionsIndex hholds).clashFree_iff h).mp (hfree file hfile)
    · obtain ⟨file, hfile, hholds⟩ := h.exists_file .main
      exact ((h.mainIndex hholds).clashFree_iff h).mp (hfree file hfile)
  · intro hnames file _ module hheld
    refine (?_ : ClashFree schema clientPath output files file) module hheld
    have hmodule := hheld.isModule
    cases hmodule with
    | tableIndex htable =>
      exact ((h.tableIndex htable hheld).clashFree_iff h).mpr (hnames.tables _ htable)
    | routineIndex hroutine =>
      exact ((h.routineIndex hroutine hheld).clashFree_iff h).mpr (hnames.routines _ hroutine)
    | functionsIndex =>
      exact ((h.functionsIndex hheld).clashFree_iff h).mpr hnames.functions
    | storageIndex => exact ((h.storageIndex hheld).clashFree_iff h).mpr (apart_storageParts clientPath)
    | main =>
      exact ((h.mainIndex hheld).clashFree_iff h).mpr hnames.main
    | _ =>
      intro other hother source source' target target' name hlink
      rw [h.holds_unique hheld hother] at hlink
      exact absurd hlink (hheld.isModule.all_notMem (by dsimp only; decide) source)

-- The main index exports what any module declares.
theorem Settled.main_exports {main : GeneratedFile}
    (hindex : Indexes schema clientPath output files main [] (mainParts schema clientPath output))
    (hfile : file ∈ files) {module : Module} (hholds : Holds schema clientPath output file module) {name : Text}
    (hname : name ∈ module.outline.exports) (hdefault : name ≠ "default") :
    ExportsFrom schema clientPath output files file main name := by
  have hdeclared : ExportsFrom schema clientPath output files file file name := .declared hholds hname
  have htables {table : Table} (htable : table ∈ schema.tables)
      (hpart : .leaf module ∈ tableParts schema clientPath output table) :
      ExportsFrom schema clientPath output files file main name := by
    obtain ⟨index, hmem, hheld⟩ := h.exists_file (.tableIndex htable)
    have hbelow := h.tableIndex htable hheld
    have hpassed := hbelow.hands_on h _ hpart hfile hholds hdefault hdeclared
    refine hindex.hands_on h (.index [] table.name (tableParts schema clientPath output table)) ?_ hmem
      hbelow.holds hdefault hpassed
    simp only [mainParts, List.mem_append, List.mem_map]
    exact .inl (.inr ⟨table, htable, rfl⟩)
  have hroutines {routine : Routine} (hroutine : routine ∈ schema.publicRoutines)
      (hpart : .leaf module ∈ routineParts schema clientPath output routine) :
      ExportsFrom schema clientPath output files file main name := by
    have hsome : schema.publicRoutines ≠ [] := List.ne_nil_of_mem hroutine
    obtain ⟨index, hmem, hheld⟩ := h.exists_file (.routineIndex hroutine)
    obtain ⟨above, habove, hall⟩ := h.exists_file (.functionsIndex hsome)
    have hbelow := h.functionsIndex hall
    have hpassed := (h.routineIndex hroutine hheld).hands_on h _ hpart hfile hholds hdefault hdeclared
    have hpassed' := hbelow.hands_on h
      (.index ["functions"] routine.name (routineParts schema clientPath output routine))
      (List.mem_map_of_mem hroutine) hmem hheld hdefault hpassed
    refine hindex.hands_on h (.index [] "functions" (functionsParts schema clientPath output)) ?_ habove
      hbelow.holds hdefault hpassed'
    simp [mainParts, hsome]
  have hstorage (hpart : .leaf module ∈ storageParts clientPath) :
      ExportsFrom schema clientPath output files file main name := by
    obtain ⟨index, hmem, hheld⟩ := h.exists_file .storageIndex
    have hpassed := (h.storageIndex hheld).hands_on h _ hpart hfile hholds hdefault hdeclared
    refine hindex.hands_on h (.index [] "storage" (storageParts clientPath)) ?_ hmem hheld hdefault hpassed
    simp [mainParts]
  have hshared (hpart : .leaf module ∈ mainParts schema clientPath output) :
      ExportsFrom schema clientPath output files file main name :=
    hindex.hands_on h _ hpart hfile hholds hdefault hdeclared
  have hmodule := hholds.isModule
  cases hmodule with
  | tableTypes htable => exact htables htable (by simp [tableParts])
  | tableHooks htable => exact htables htable (by simp [tableParts])
  | relations htable hsome => exact htables htable (by simp [tableParts, hsome])
  | routineTypes hroutine => exact hroutines hroutine (by simp [routineParts])
  | routineHooks hroutine => exact hroutines hroutine (by simp [routineParts])
  | storageTypes => exact hstorage (by simp [storageParts])
  | storageHooks => exact hstorage (by simp [storageParts])
  | baseTypes hused => exact hshared (by simp [mainParts, baseTypesModules, hused])
  | enums hsome => exact hshared (by simp [mainParts, enumsModules, hsome])
  | tableIndex | routineIndex | functionsIndex | storageIndex | main => cases hname

omit h in
-- Two tables with relationships always clash: both declare an interface under the same name.
theorem not_apart_of_relationships {table other : Table} (htable : table ∈ schema.tables)
    (hother : other ∈ schema.tables) (hne : table.name ≠ other.name) (hsome : table.hasRelationships)
    (hsome' : other.hasRelationships) : ¬ Apart (mainParts schema clientPath output) := by
  have hnames {table : Table} (hsome : table.hasRelationships) :
      Text.ofString "Relationships" ∈ (tableParts schema clientPath output table).flatMap (·.names) := by
    refine List.mem_flatMap.mpr ⟨.leaf ⟨[table.name], "relations",
      relationLinks table.name (distinctRelationships table), relationNames table⟩, by simp [tableParts, hsome], ?_⟩
    exact List.mem_filter.mpr ⟨by simp [relationNames], by decide⟩
  have hpart {table : Table} (htable : table ∈ schema.tables) :
      .index [] table.name (tableParts schema clientPath output table) ∈ mainParts schema clientPath output := by
    simp only [mainParts, List.mem_append, List.mem_map]
    exact .inl (.inr ⟨table, htable, rfl⟩)
  intro hapart
  exact hapart _ (hpart htable) _ (hpart hother) (fun heq => hne (List.append_cancel_left heq)) (hnames hsome)
    (hnames hsome')

end Levels

-- Files of a schema in which no name takes the place of an index are such files.
theorem settled_of_generate {path source schemaName rootName out : Text} {declared : DeclarationFile}
    (hparse : (DeclarationFile.parse path source).outcome = .ok declared)
    (hschema : (Introspection.introspect declared schemaName rootName).outcome = .ok schema)
    (hunshadowed : Unshadowed schema (.ofText out))
    (hfiles : (generate schema clientPath (.ofText out)).outcome = .ok files) :
    Settled schema clientPath (.ofText out) files :=
  ⟨Path.isRead_ofText out, hunshadowed,
    stored_of_generate hunshadowed.plain (fromSource_of_introspect hparse hschema) hfiles,
    (generate_placed hunshadowed.plain.proper.tables hunshadowed.plain.proper.routines hfiles).1⟩

-- Where every source leads to the module that it was written for, indexes hand on no name twice exactly when the
-- names that meet in one index differ. Then the main index exports all names that are declared, each from where it
-- is declared.
theorem clashFree_iff_namesApart {path source schemaName rootName out : Text} {declared : DeclarationFile}
    (hparse : (DeclarationFile.parse path source).outcome = .ok declared)
    (hschema : (Introspection.introspect declared schemaName rootName).outcome = .ok schema)
    (hunshadowed : Unshadowed schema (.ofText out))
    (hfiles : (generate schema clientPath (.ofText out)).outcome = .ok files) :
    ((∀ file ∈ files, ClashFree schema clientPath (.ofText out) files file) ↔
      NamesApart schema clientPath (.ofText out)) ∧
    (NamesApart schema clientPath (.ofText out) →
      ∃ main ∈ files, main.path = ((Path.ofText out).child "index.ts").text ∧
        ∀ file ∈ files, ∀ module, Holds schema clientPath (.ofText out) file module →
          ∀ name ∈ module.outline.exports, name ≠ "default" → ∀ origin,
            ExportsFrom schema clientPath (.ofText out) files origin main name ↔ origin = file) := by
  have hsettled := settled_of_generate hparse hschema hunshadowed hfiles
  refine ⟨hsettled.clashFree_iff, fun hapart => ?_⟩
  obtain ⟨main, hmain, hholds⟩ := hsettled.exists_file .main
  refine ⟨main, hmain, ?_, fun file hfile module hheld name hname hdefault origin => ⟨fun hexports => ?_, ?_⟩⟩
  · rw [hholds.path, Path.child_of_isName _ isModuleName_index.isName]
    rfl
  · exact hsettled.origin_unique (hsettled.clashFree_iff.mpr hapart) hmain hexports
      (hsettled.main_exports (hsettled.mainIndex hholds) hfile hheld hname hdefault)
  · rintro rfl
    exact hsettled.main_exports (hsettled.mainIndex hholds) hfile hheld hname hdefault

section Sample

-- Two tables that refer to each other.
def relatedSource : Text :=
  "type Database=\x7bpublic:\x7bTables:\x7ba:\x7bRelationships:[\x7bforeignKeyName:'a_b_fkey',columns:[]," ++
  "isOneToOne:false,referencedRelation:'b',referencedColumns:[]\x7d]\x7d,b:\x7bRelationships:[\x7bforeignKeyName:'b_a_fkey'," ++
  "columns:[],isOneToOne:false,referencedRelation:'a',referencedColumns:[]\x7d]\x7d\x7d\x7d\x7d"

set_option maxRecDepth 4000 in
theorem related_generated : (Generated.of? relatedSource "@/lib/client" "out" fun schema _ =>
    schema.tables.map (fun table => (table.name, table.hasRelationships)) =
      [(Text.ofString "a", true), (Text.ofString "b", true)] ∧ schema.publicRoutines.isEmpty).isSome := by
  -- the literal is turned into its characters without going through its bytes
  have hsource : relatedSource = Text.ofChars _ ++ Text.ofChars _ ++ Text.ofChars _ :=
    congrArg₂ (· ++ ·) (congrArg₂ (· ++ ·) (Text.ofString_ofList _) (Text.ofString_ofList _)) (Text.ofString_ofList _)
  rw [hsource]
  decide +kernel

def related := (Generated.of? relatedSource "@/lib/client" "out" _).get related_generated

theorem related_names : related.schema.tables.map (·.name) = ["a", "b"].map Text.ofString ∧
    related.schema.publicRoutines = [] := by
  obtain ⟨htables, hroutines⟩ := related.meets
  have hnames := congrArg (List.map Prod.fst) htables
  rw [List.map_map] at hnames
  exact ⟨hnames, List.isEmpty_iff.mp hroutines⟩

theorem related_unshadowed : Unshadowed related.schema (.ofText "out") := by
  obtain ⟨htables, hroutines⟩ := related_names
  have htable (p : Text → Prop) (ha : p "a") (hb : p "b") : ∀ table ∈ related.schema.tables, p table.name := by
    intro table hmem
    have hname : table.name ∈ ["a", "b"].map Text.ofString := htables ▸ List.mem_map_of_mem hmem
    rcases List.mem_pair.mp hname with h | h
    · exact h ▸ ha
    · exact h ▸ hb
  have hroutine (p : Routine → Prop) : ∀ routine ∈ related.schema.publicRoutines, p routine := by
    simp [hroutines]
  have hplain := htable IsPlain (by decide) (by decide)
  have hfree {name : Text} (ha : Text.ofString "a" ≠ name) (hb : Text.ofString "b" ≠ name) {q : Prop} :
      ∀ table ∈ related.schema.tables, table.name = name → q := fun table hmem hname =>
    absurd hname (htable (· ≠ name) ha hb table hmem)
  exact {
    plain := ⟨hplain, hroutine _⟩
    distinct := ⟨⟨fun table hmem => (hplain table hmem).isName, hroutine _⟩, by rw [htables]; decide,
      by simp [hroutines]⟩
    unreserved := ⟨hfree (by decide) (by decide), hfree (by decide) (by decide)⟩
    index := hfree (by decide) (by decide)
    baseTypes := hfree (by decide) (by decide)
    enums := hfree (by decide) (by decide)
    routines := hroutine _ }

theorem clashFree_iff_namesApart_related :
    (DeclarationFile.parse "database.ts" relatedSource).outcome = .ok ⟨"database.ts", related.declarations⟩ ∧
    (Introspection.introspect ⟨"database.ts", related.declarations⟩ "public" "Database").outcome =
      .ok related.schema ∧
    Unshadowed related.schema (.ofText "out") ∧
    (generate related.schema "@/lib/client" (.ofText "out")).outcome = .ok related.files ∧
    ((∀ file ∈ related.files, ClashFree related.schema "@/lib/client" (.ofText "out") related.files file) ↔
      NamesApart related.schema "@/lib/client" (.ofText "out")) :=
  ⟨related.parsed, related.introspected, related_unshadowed, related.generated,
    (clashFree_iff_namesApart related.parsed related.introspected related_unshadowed related.generated).1⟩

-- The main index hands on the interface of their relationships from both of them.
theorem related_clash :
    Source.parseDeclarations relatedSource = some related.declarations ∧
    (Introspection.introspect ⟨"database.ts", related.declarations⟩ "public" "Database").outcome =
      .ok related.schema ∧
    related.schema.tables.map (fun table => (table.name, table.hasRelationships)) =
      [(Text.ofString "a", true), (Text.ofString "b", true)] ∧
    related.schema.publicRoutines = [] ∧
    (generate related.schema "@/lib/client" (.ofText "out")).outcome = .ok related.files ∧
    ∃ main ∈ related.files, main.path = "out/index.ts" ∧
      ¬ ClashFree related.schema "@/lib/client" (.ofText "out") related.files main := by
  obtain ⟨htables, hroutines⟩ := related.meets
  obtain ⟨first, rest, hcons, hfirst, hrest⟩ := List.map_eq_cons_iff.mp htables
  obtain ⟨second, rfl, hsecond⟩ := List.map_eq_singleton_iff.mp hrest
  obtain ⟨hfirst, hfirstSome⟩ := Prod.mk.inj hfirst
  obtain ⟨hsecond, hsecondSome⟩ := Prod.mk.inj hsecond
  have hsettled := settled_of_generate related.parsed related.introspected related_unshadowed related.generated
  obtain ⟨main, hmain, hholds⟩ := hsettled.exists_file .main
  refine ⟨related.read, related.introspected, htables, List.isEmpty_iff.mp hroutines, related.generated, main,
    hmain, hholds.path, fun hfree => ?_⟩
  have hne : first.name ≠ second.name := by
    rw [hfirst, hsecond]
    decide
  exact not_apart_of_relationships (by simp [hcons]) (by simp [hcons]) hne hfirstSome hsecondSome
    (((hsettled.mainIndex hholds).clashFree_iff hsettled).mp hfree)

end Sample

end HookGen.Generation
