import HookGen.Proofs.Generation.Assignments
import HookGen.Proofs.Generation.Imports

/-!
When generated files keep out of each other's way. The directories of tables lie beside those of storage
and of functions, so two names of tables are not free.
-/

namespace HookGen

open Traced

variable {schema : Schema} {clientPath : Text} {output : Path}

-- What two joined lists begin with alike can be left out of both.
theorem Text.join_append_cancel {separator : Text} (front : List Text) {names others : List Text}
    (hne : names ≠ []) (hne' : others ≠ [])
    (h : Text.join separator (front ++ names) = Text.join separator (front ++ others)) :
    Text.join separator names = Text.join separator others := by
  induction front with
  | nil => exact h
  | cons first rest ih =>
    obtain ⟨second, more, heq⟩ := List.exists_cons_of_ne_nil (show rest ++ names ≠ [] by simp [hne])
    obtain ⟨second', more', heq'⟩ := List.exists_cons_of_ne_nil (show rest ++ others ≠ [] by simp [hne'])
    rw [List.cons_append, List.cons_append, heq, heq', Text.join_cons_cons, Text.join_cons_cons, ← heq,
      ← heq'] at h
    exact ih (List.append_cancel_left h)

-- The names behind a path can be told from its text.
theorem Path.text_append_inj {path : Path} {names others : List Text}
    (hnames : names ≠ [] ∧ ∀ name ∈ names, IsName name) (hothers : others ≠ [] ∧ ∀ name ∈ others, IsName name)
    (h : text ⟨path.anchor, path.names ++ names⟩ = text ⟨path.anchor, path.names ++ others⟩) :
    names = others := by
  rw [text, text, if_neg (by simp [hnames.1]), if_neg (by simp [hothers.1])] at h
  have hjoin := Text.join_append_cancel path.names hnames.1 hothers.1 (List.append_cancel_left h)
  rw [← @Text.splitOn_join (.char '/') _ hnames.1 fun name hname => (hnames.2 name hname).no_slash,
    ← @Text.splitOn_join (.char '/') _ hothers.1 fun name hname => (hothers.2 name hname).no_slash]
  exact congrArg (Text.splitOn (.char '/')) hjoin

namespace Generation

-- The names of tables and functions can stand in paths, and no two are the same.
structure DistinctNames (schema : Schema) : Prop extends ProperNames schema where
  distinctTables : (schema.tables.map (·.name)).Nodup
  distinctRoutines : (schema.publicRoutines.map (·.name)).Nodup

-- No table has the name of a directory that is generated anyway.
structure Unreserved (schema : Schema) : Prop where
  storage : ∀ table ∈ schema.tables, table.name ≠ "storage"
  functions : ∀ table ∈ schema.tables, table.name = "functions" → schema.publicRoutines = []

-- The files that there is one of, by the names on the way to them.
def commonPlaces (schema : Schema) (output : Path) : List (List Text) :=
  (if schema.publicRoutines.isEmpty then [] else [["functions", "index.ts"].map Text.ofString]) ++
    moduleNames.map (fun name => [Text.ofString "storage", name]) ++
    (if (usedBaseTypes schema output).isEmpty then [] else [[Text.ofString "base-types.ts"]]) ++
    (if schema.hasEnums then [[Text.ofString "enums.ts"]] else []) ++ [[Text.ofString "index.ts"]]

-- All files, by the names on the way from the output directory.
def places (schema : Schema) (output : Path) : List (List Text) :=
  (schema.tables.flatMap fun table => (tableNames table).map fun name => [table.name, name]) ++
    (schema.publicRoutines.flatMap fun routine =>
      moduleNames.map fun name => [Text.ofString "functions", routine.name, name]) ++
    commonPlaces schema output

theorem isName_of_mem_tableNames {table : Table} {name : Text} (h : name ∈ tableNames table) :
    IsName name := by
  rw [tableNames] at h
  split at h
  · revert name
    decide
  · revert name
    decide

theorem isName_of_mem_moduleNames : ∀ name ∈ moduleNames, IsName name := by decide

theorem isName_of_mem_commonPlaces {names : List Text} (h : names ∈ commonPlaces schema output) :
    names ≠ [] ∧ ∀ name ∈ names, IsName name := by
  revert names
  rw [commonPlaces]
  split <;> split <;> split <;> decide

theorem isName_of_mem_places (hnames : ProperNames schema) {names : List Text}
    (h : names ∈ places schema output) : names ≠ [] ∧ ∀ name ∈ names, IsName name := by
  simp only [places, List.mem_append, List.mem_flatMap, List.mem_map] at h
  rcases h with (⟨table, htable, name, hname, rfl⟩ | ⟨routine, hroutine, name, hname, rfl⟩) | hcommon
  · simp [hnames.tables table htable, isName_of_mem_tableNames hname]
  · simp [hnames.routines routine hroutine, isName_of_mem_moduleNames name hname, isName_functions]
  · exact isName_of_mem_commonPlaces hcommon

theorem paths_eq (hnames : ProperNames schema) :
    paths schema output = (places schema output).map fun names => ⟨output.anchor, output.names ++ names⟩ := by
  have hchild {directory : Path} {names : List Text} (hall : ∀ name ∈ names, IsName name) :
      names.map directory.child = names.map fun name => ⟨directory.anchor, directory.names ++ [name]⟩ :=
    List.map_congr_left fun name hname => Path.child_of_isName directory (hall name hname)
  simp only [paths, places, commonPlaces, List.map_append, List.map_flatMap, List.map_map, List.append_assoc]
  congr 1
  · refine List.flatMap_congr fun table htable => ?_
    rw [Path.child_of_isName output (hnames.tables table htable),
      hchild fun name hname => isName_of_mem_tableNames hname]
    simp [Function.comp_def]
  · congr 1
    · refine List.flatMap_congr fun routine hroutine => ?_
      rw [functionsPath, Path.child_of_isName output isName_functions,
        Path.child_of_isName _ (hnames.routines routine hroutine),
        hchild isName_of_mem_moduleNames]
      simp [Function.comp_def]
    · rw [functionsPath, Path.child_of_isName output isName_functions,
        Path.child_of_isName output isName_storage, hchild isName_of_mem_moduleNames, baseTypesPath, enumsPath,
        Path.child_of_isName output isModuleName_baseTypes.isName,
        Path.child_of_isName output isModuleName_enums.isName,
        Path.child_of_isName output isModuleName_index.isName,
        Path.child_of_isName _ isModuleName_index.isName]
      split <;> split <;> split <;> simp [Function.comp_def]

theorem nodup_paths_iff (hnames : ProperNames schema) :
    ((paths schema output).map Path.text).Nodup ↔ (places schema output).Nodup := by
  rw [paths_eq hnames, List.map_map]
  refine ⟨List.Nodup.of_map _, List.Nodup.map_on fun names hmem others hothers heq => ?_⟩
  exact Path.text_append_inj (isName_of_mem_places hnames hmem) (isName_of_mem_places hnames hothers) heq

theorem nodup_tableNames (table : Table) : (tableNames table).Nodup := by
  rw [tableNames]
  split <;> decide

theorem nodup_commonPlaces : (commonPlaces schema output).Nodup := by
  rw [commonPlaces]
  split <;> split <;> split <;> decide

theorem mem_commonPlaces {place : List Text} (h : place ∈ commonPlaces schema output) :
    (place = ["functions", "index.ts"].map Text.ofString ∧ schema.publicRoutines ≠ []) ∨
      (∃ name ∈ moduleNames, place = [Text.ofString "storage", name]) ∨ place.length = 1 := by
  simp only [commonPlaces, List.mem_append, List.mem_map] at h
  rcases h with (((h | ⟨name, hname, rfl⟩) | h) | h) | h
  · split at h
    · cases h
    · rename_i hsome
      exact .inl ⟨List.mem_singleton.mp h, fun hnone => hsome (by rw [hnone]; rfl)⟩
  · exact .inr (.inl ⟨name, hname, rfl⟩)
  · split at h
    · cases h
    · exact .inr (.inr (congrArg List.length (List.mem_singleton.mp h)))
  · split at h
    · exact .inr (.inr (congrArg List.length (List.mem_singleton.mp h)))
    · cases h
  · exact .inr (.inr (congrArg List.length (List.mem_singleton.mp h)))

-- Things with different names have their own places.
theorem nodup_flatMap_name {α : Type} {items : List α} {nameOf : α → Text} {placesOf : α → List (List Text)}
    (hitems : (items.map nameOf).Nodup) (hplaces : ∀ item, (placesOf item).Nodup)
    (hname : ∀ item other place, place ∈ placesOf item → place ∈ placesOf other → nameOf item = nameOf other) :
    (items.flatMap placesOf).Nodup := by
  rw [List.nodup_flatMap]
  refine ⟨fun item _ => hplaces item, (List.pairwise_map.mp hitems).imp ?_⟩
  intro item other hne place hplace hother
  exact hne (hname item other place hplace hother)

theorem nodup_places (hnames : DistinctNames schema) (hfree : Unreserved schema) :
    (places schema output).Nodup := by
  have htables : (schema.tables.flatMap fun table =>
      (tableNames table).map fun name => [table.name, name]).Nodup := by
    refine nodup_flatMap_name hnames.distinctTables (fun table => ?_) fun table other place h h' => ?_
    · exact (nodup_tableNames table).map fun name other heq => by simpa using heq
    · obtain ⟨name, -, rfl⟩ := List.mem_map.mp h
      obtain ⟨name', -, heq⟩ := List.mem_map.mp h'
      exact (List.cons.inj heq).1.symm
  have hroutines : (schema.publicRoutines.flatMap fun routine =>
      moduleNames.map fun name => [Text.ofString "functions", routine.name, name]).Nodup := by
    refine nodup_flatMap_name hnames.distinctRoutines (fun routine => ?_) fun routine other place h h' => ?_
    · exact (show moduleNames.Nodup by decide).map fun name other heq => by simpa using heq
    · obtain ⟨name, -, rfl⟩ := List.mem_map.mp h
      obtain ⟨name', -, heq⟩ := List.mem_map.mp h'
      exact (List.cons.inj (List.cons.inj heq).2).1.symm
  rw [places, List.nodup_append, List.nodup_append]
  refine ⟨⟨htables, hroutines, ?_⟩, nodup_commonPlaces, ?_⟩
  · rintro place hplace _ hother rfl
    obtain ⟨table, -, hplace⟩ := List.mem_flatMap.mp hplace
    obtain ⟨routine, -, hother⟩ := List.mem_flatMap.mp hother
    obtain ⟨name, -, rfl⟩ := List.mem_map.mp hplace
    obtain ⟨name', -, heq⟩ := List.mem_map.mp hother
    exact absurd (congrArg List.length heq) (by simp)
  · rintro place hplace _ hcommon rfl
    rcases List.mem_append.mp hplace with hplace | hplace
    · obtain ⟨table, htable, hplace⟩ := List.mem_flatMap.mp hplace
      obtain ⟨name, -, rfl⟩ := List.mem_map.mp hplace
      rcases mem_commonPlaces hcommon with ⟨heq, hsome⟩ | ⟨name', -, heq⟩ | hlength
      · exact hsome (hfree.functions table htable (List.cons.inj heq).1)
      · exact hfree.storage table htable (List.cons.inj heq).1
      · cases hlength
    · obtain ⟨routine, -, hplace⟩ := List.mem_flatMap.mp hplace
      obtain ⟨name, -, rfl⟩ := List.mem_map.mp hplace
      rcases mem_commonPlaces hcommon with ⟨heq, -⟩ | ⟨name', -, heq⟩ | hlength
      · exact absurd (congrArg List.length heq) (by simp)
      · exact absurd (congrArg List.length heq) (by simp)
      · cases hlength

theorem unreserved_of_nodup (h : (places schema output).Nodup) : Unreserved schema := by
  rw [places, List.nodup_append] at h
  have htaken {table : Table} (htable : table ∈ schema.tables) :
      [table.name, Text.ofString "index.ts"] ∉ commonPlaces schema output := by
    intro hcommon
    refine h.2.2 _ (List.mem_append_left _ (List.mem_flatMap.mpr ⟨table, htable, ?_⟩)) _ hcommon rfl
    refine List.mem_map_of_mem (f := fun name => [table.name, name]) ?_
    rw [tableNames]
    split <;> decide
  constructor
  · intro table htable hname
    refine htaken htable ?_
    rw [hname]
    simp [commonPlaces, moduleNames]
  · intro table htable hname
    by_contra hsome
    refine htaken htable ?_
    rw [hname]
    simp [commonPlaces, hsome]

-- No file is written over another one exactly when no table has a reserved name. Otherwise a file that was
-- generated is lost.
theorem assignments_distinct_iff (hnames : DistinctNames schema) {files : List GeneratedFile}
    (hfiles : (generate schema clientPath output).outcome = .ok files) :
    ∃ assigned, (assignments schema clientPath output).outcome = .ok assigned ∧
      ((assigned.map (·.path)).Nodup ↔ Unreserved schema) ∧ (files = assigned ↔ Unreserved schema) := by
  obtain ⟨assigned, hassigned, rfl⟩ := exists_assigned hfiles
  have hdistinct : (assigned.map (·.path)).Nodup ↔ Unreserved schema := by
    rw [map_path_assignments hassigned, nodup_paths_iff hnames.toProperNames]
    exact ⟨unreserved_of_nodup, nodup_places hnames⟩
  refine ⟨assigned, hassigned, hdistinct, fun heq => ?_, fun hfree => ?_⟩
  · rw [← hdistinct, ← heq]
    exact (foldl_put assigned [] (by simp)).1
  · exact foldl_put_of_nodup assigned [] (hdistinct.mpr hfree)

section Sample

-- A source with what it leads to. Evaluating all of it at once, with the test, keeps what is parsed shared.
structure Generated (source clientPath out : Text) (p : Schema → List GeneratedFile → Prop) where
  declarations : List Source.Declaration
  schema : Schema
  files : List GeneratedFile
  read : Source.parseDeclarations source = some declarations
  introspected : (Introspection.introspect ⟨"database.ts", declarations⟩ "public" "Database").outcome = .ok schema
  generated : (generate schema clientPath (.ofText out)).outcome = .ok files
  meets : p schema files

def Generated.of? (source clientPath out : Text) (p : Schema → List GeneratedFile → Prop)
    [∀ schema files, Decidable (p schema files)] : Option (Generated source clientPath out p) :=
  match hread : Source.parseDeclarations source with
  | none => none
  | some declarations =>
    match hschema : (Introspection.introspect ⟨"database.ts", declarations⟩ "public" "Database").outcome with
    | .error _ => none
    | .ok schema =>
      match hfiles : (generate schema clientPath (.ofText out)).outcome with
      | .error _ => none
      | .ok files =>
        if h : p schema files then some ⟨declarations, schema, files, hread, hschema, hfiles, h⟩ else none

theorem Generated.parsed {source clientPath out : Text} {p : Schema → List GeneratedFile → Prop}
    (run : Generated source clientPath out p) :
    (DeclarationFile.parse "database.ts" source).outcome = .ok ⟨"database.ts", run.declarations⟩ := by
  rw [DeclarationFile.outcome_parse, run.read]
  rfl

-- Two tables and a function: each has a directory with files that are called alike.
def booksSource : Text :=
  "type Database = \x7b public: \x7b Tables: \x7b book: \x7b\x7d; shelf: \x7b\x7d \x7d, " ++
  "Functions: \x7b sort: \x7b Args: \x7b\x7d \x7d \x7d \x7d \x7d"

theorem books_generated : (Generated.of? booksSource "@/lib/client" "out" fun schema _ =>
    schema.tables.map (·.name) = ["book", "shelf"].map Text.ofString ∧
    schema.publicRoutines.map (·.name) = [Text.ofString "sort"]).isSome := by
  have hsource : booksSource = Text.ofChars _ ++ Text.ofChars _ :=
    congrArg₂ (· ++ ·) (Text.ofString_ofList _) (Text.ofString_ofList _)
  rw [hsource]
  decide +kernel

def books := (Generated.of? booksSource "@/lib/client" "out" _).get books_generated

theorem books_distinctNames : DistinctNames books.schema := by
  obtain ⟨htables, hroutines⟩ := books.meets
  refine ⟨⟨List.forall_mem_map.mp ?_, List.forall_mem_map.mp ?_⟩, ?_, ?_⟩
  · rw [htables]
    decide
  · rw [hroutines]
    decide
  · rw [htables]
    decide
  · rw [hroutines]
    decide

theorem books_unreserved : Unreserved books.schema := by
  have hnames : ∀ name : Text, name ∈ books.schema.tables.map Table.name → name ≠ "storage" ∧ name ≠ "functions" := by
    rw [books.meets.1]
    decide
  rw [List.forall_mem_map] at hnames
  exact ⟨fun table htable => (hnames table htable).1, fun table htable hname => absurd hname (hnames table htable).2⟩

theorem assignments_distinct_iff_books :
    books.schema.tables.map (·.name) = ["book", "shelf"].map Text.ofString ∧
    books.schema.publicRoutines.map (·.name) = [Text.ofString "sort"] ∧ DistinctNames books.schema ∧
    (generate books.schema "@/lib/client" (.ofText "out")).outcome = .ok books.files ∧
    ∃ assigned, (assignments books.schema "@/lib/client" (.ofText "out")).outcome = .ok assigned ∧
      (assigned.map (·.path)).Nodup ∧ books.files = assigned := by
  obtain ⟨htables, hroutines⟩ := books.meets
  obtain ⟨assigned, hassigned, hdistinct, hsame⟩ := assignments_distinct_iff books_distinctNames books.generated
  exact ⟨htables, hroutines, books_distinctNames, books.generated, assigned, hassigned, hdistinct.mpr books_unreserved,
    hsame.mpr books_unreserved⟩

-- A table that is called like the directory of storage.
def storageTableSource : Text :=
  "type Database = \x7b public: \x7b Tables: \x7b storage: \x7b\x7d \x7d \x7d \x7d"

theorem storageTable_generated : (Generated.of? storageTableSource "@/lib/client" "out" fun schema files =>
    schema.tables.map (·.name) = [Text.ofString "storage"] ∧ schema.publicRoutines.isEmpty ∧
    (paths schema (.ofText "out")).map (·.text) = ["out/storage/types.ts", "out/storage/hooks.ts",
      "out/storage/index.ts", "out/storage/types.ts", "out/storage/hooks.ts", "out/storage/index.ts",
      "out/index.ts"].map Text.ofString ∧
    files.map (·.path) = ["out/storage/types.ts", "out/storage/hooks.ts", "out/storage/index.ts",
      "out/index.ts"].map Text.ofString).isSome := by
  decide +kernel

def storageTable := (Generated.of? storageTableSource "@/lib/client" "out" _).get storageTable_generated

-- The files of this table are lost: those of storage are written over them.
theorem storageTable_overwritten :
    Source.parseDeclarations storageTableSource = some storageTable.declarations ∧
    (Introspection.introspect ⟨"database.ts", storageTable.declarations⟩ "public" "Database").outcome =
      .ok storageTable.schema ∧
    storageTable.schema.tables.map (·.name) = [Text.ofString "storage"] ∧
    storageTable.schema.publicRoutines = [] ∧
    (generate storageTable.schema "@/lib/client" (.ofText "out")).outcome = .ok storageTable.files ∧
    storageTable.files.map (·.path) = ["out/storage/types.ts", "out/storage/hooks.ts", "out/storage/index.ts",
      "out/index.ts"].map Text.ofString ∧
    ∃ assigned, (assignments storageTable.schema "@/lib/client" (.ofText "out")).outcome = .ok assigned ∧
      assigned.map (·.path) = ["out/storage/types.ts", "out/storage/hooks.ts", "out/storage/index.ts",
        "out/storage/types.ts", "out/storage/hooks.ts", "out/storage/index.ts", "out/index.ts"].map
          Text.ofString := by
  obtain ⟨htables, hroutines, hpaths, hfiles⟩ := storageTable.meets
  obtain ⟨assigned, hassigned, -⟩ := exists_assigned storageTable.generated
  exact ⟨storageTable.read, storageTable.introspected, htables, List.isEmpty_iff.mp hroutines,
    storageTable.generated, hfiles, assigned, hassigned, (map_path_assignments hassigned).trans hpaths⟩

end Sample

end Generation

end HookGen
