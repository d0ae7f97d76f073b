import HookGen.Proofs.Generation.Paths

/-!
What generated modules of types hold: each is made of what rendering the declarations of one table or
function gives, and the shared modules are made for the notes of all of them together.
-/

namespace HookGen

open Render Traced

variable {schema : Schema} {clientPath : Text} {output : Path} {α : Type}

theorem Render.withNotes_eq (x : Rendering α) :
    withNotes x = ⟨x.notes, x.outcome.map fun a => (a, x.notes)⟩ := by
  obtain ⟨notes, outcome⟩ := x
  cases outcome <;> simp [withNotes, andThen, Except.map]

namespace Generation

-- A module of types: its path, the comment at its top, the names of the types that it declares, and the
-- declarations that rendering some shapes gives.
structure TypesModule where
  path : Path
  comment : Text
  names : List Text
  shapes : List Shape
  declarations : Rendering (List Text)

namespace TypesModule

def ofTable (schema : Schema) (output : Path) (table : Table) : TypesModule where
  path := (output.child table.name).child "types.ts"
  comment := "Auto-generated type definitions for table: " ++ table.name
  names := [table.typeName ++ "Row", table.typeName ++ "Insert", table.typeName ++ "Update",
    table.typeName ++ "FilterParams"]
  shapes := [table.row, table.insert, table.update]
  declarations := Types.tableDeclarations schema table

def ofRoutine (schema : Schema) (output : Path) (routine : Routine) : TypesModule where
  path := ((functionsPath output).child routine.name).child "types.ts"
  comment := "Auto-generated type definitions for RPC function: " ++ routine.name
  names := [routine.typeName ++ "Args", routine.typeName ++ "Returns"]
  shapes := [Types.merge (routine.signatures.map (·.args)), Types.merge (routine.signatures.map (·.returns))]
  declarations := Types.routineDeclarations schema routine

-- What a module holds, given the texts of its declarations.
def content (module : TypesModule) (output : Path) (texts : List Text) : Text :=
  Code.assemble module.comment
    (imports (sharedImports output module.path) module.declarations.notes) texts

-- A module as it is rendered.
def rendering (module : TypesModule) (output : Path) : Rendering Text :=
  ⟨module.declarations.notes, module.declarations.outcome.map (module.content output)⟩

end TypesModule

-- The modules of types that are made for a schema.
def typesModules (schema : Schema) (output : Path) : List TypesModule :=
  schema.tables.map (TypesModule.ofTable schema output) ++
    schema.publicRoutines.map (TypesModule.ofRoutine schema output)

-- The declarations of a module are made of the texts of its shapes, which are rendered one after the other:
-- each text is what one of the names is declared as.
theorem declarations_eq {module : TypesModule} (hmodule : module ∈ typesModules schema output) :
    ∃ assemble : List Text → List Text,
      module.declarations = assemble <$> module.shapes.mapM (render schema 0) ∧
      ∀ texts, texts.length = module.shapes.length → ∀ t ∈ texts,
        ∃ name ∈ module.names, Types.declare name t ∈ assemble texts := by
  rcases List.mem_append.mp hmodule with hmem | hmem
  · obtain ⟨table, -, rfl⟩ := List.mem_map.mp hmem
    refine ⟨fun texts => (TypesModule.ofTable schema output table).names.zipWith Types.declare texts ++
      [Types.filterParams table], ?_, fun texts hlength t ht => ?_⟩
    · simp [TypesModule.ofTable, Types.tableDeclarations, -pure_eq]
    · obtain ⟨row, insert, update, rfl⟩ := List.length_eq_three.mp hlength
      simp only [List.mem_cons, List.not_mem_nil, or_false] at ht
      rcases ht with rfl | rfl | rfl
      · exact ⟨table.typeName ++ "Row", by simp [TypesModule.ofTable], by simp [TypesModule.ofTable]⟩
      · exact ⟨table.typeName ++ "Insert", by simp [TypesModule.ofTable], by simp [TypesModule.ofTable]⟩
      · exact ⟨table.typeName ++ "Update", by simp [TypesModule.ofTable], by simp [TypesModule.ofTable]⟩
  · obtain ⟨routine, -, rfl⟩ := List.mem_map.mp hmem
    refine ⟨fun texts => (TypesModule.ofRoutine schema output routine).names.zipWith Types.declare texts,
      ?_, fun texts hlength t ht => ?_⟩
    · simp [TypesModule.ofRoutine, Types.routineDeclarations, -pure_eq]
    · obtain ⟨args, returns, rfl⟩ := List.length_eq_two.mp hlength
      simp only [List.mem_cons, List.not_mem_nil, or_false] at ht
      rcases ht with rfl | rfl
      · exact ⟨routine.typeName ++ "Args", by simp [TypesModule.ofRoutine], by simp [TypesModule.ofRoutine]⟩
      · exact ⟨routine.typeName ++ "Returns", by simp [TypesModule.ofRoutine], by simp [TypesModule.ofRoutine]⟩

-- All that a module takes note of comes from rendering its shapes.
theorem exists_shape_of_mem_notes {module : TypesModule} (hmodule : module ∈ typesModules schema output)
    {n : Note} (h : n ∈ module.declarations.notes) :
    ∃ shape ∈ module.shapes, n ∈ (render schema 0 shape).notes := by
  obtain ⟨assemble, heq, -⟩ := declarations_eq hmodule
  rw [heq, notes_map] at h
  exact exists_mem_of_mem_notes_mapM h

-- A module that is declared has rendered all its shapes.
theorem rendered_of_mem_shapes {module : TypesModule} (hmodule : module ∈ typesModules schema output)
    {texts : List Text} (htexts : module.declarations.outcome = .ok texts) {shape : Shape}
    (hshape : shape ∈ module.shapes) :
    (render schema 0 shape).Stage module.declarations ∧ ∃ t, (render schema 0 shape).outcome = .ok t ∧
      ∃ name ∈ module.names, Types.declare name t ∈ texts := by
  obtain ⟨assemble, heq, hdeclared⟩ := declarations_eq hmodule
  rw [heq, map_eq_pure_bind] at htexts ⊢
  obtain ⟨results, hresults, hall⟩ := outcome_bind_eq_ok.mp htexts
  obtain ⟨hstage, t, hmem, ht⟩ := stage_mapM hresults hshape
  refine ⟨hstage.trans (stage_first htexts), t, ht, ?_⟩
  rw [← show assemble results = texts from Except.ok.inj hall]
  exact hdeclared results (length_of_mapM hresults) t hmem

-- The base types that some of these modules refer to.
def usedBaseTypes (schema : Schema) (output : Path) : List Text :=
  ((typesModules schema output).flatMap (·.declarations.notes)).filterMap Note.baseType?

theorem tableModule_eq (schema : Schema) (output : Path) (table : Table) :
    Types.tableModule schema
      (sharedImports output ((output.child table.name).child "types.ts")) table =
      (TypesModule.ofTable schema output table).rendering output := by
  rw [Types.tableModule, withNotes_eq, TypesModule.rendering, TypesModule.ofTable]
  cases (Types.tableDeclarations schema table).outcome <;> simp [Except.map, TypesModule.content]

theorem routineModule_eq (schema : Schema) (output : Path) (routine : Routine) :
    Types.routineModule schema
      (sharedImports output (((functionsPath output).child routine.name).child "types.ts")) routine =
      (TypesModule.ofRoutine schema output routine).rendering output := by
  rw [Types.routineModule, withNotes_eq, TypesModule.rendering, TypesModule.ofRoutine]
  cases (Types.routineDeclarations schema routine).outcome <;> simp [Except.map, TypesModule.content]

theorem rendered_eq_ok {module : TypesModule} {result : Text × List Note}
    (h : (rendered (module.rendering output)).outcome = .ok result) :
    result.2 = module.declarations.notes ∧
      ∃ texts, module.declarations.outcome = .ok texts ∧ result.1 = module.content output texts := by
  rw [rendered, withNotes_eq, TypesModule.rendering] at h
  cases hdeclared : module.declarations.outcome with
  | error e => simp [hdeclared, retell, Except.map] at h
  | ok texts =>
    have hresult : (module.content output texts, module.declarations.notes) = result := by
      simpa [hdeclared, retell, Except.map] using h
    exact hresult ▸ ⟨rfl, texts, rfl, rfl⟩

section Endings

-- The last name in the text of a path.
def LastName (path name : Text) : Prop := path = name ∨ (.char '/' :: name) <:+ path

theorem LastName.suffix {path name : Text} (h : LastName path name) : name <:+ path := by
  rcases h with rfl | hsuffix
  · exact List.suffix_refl _
  · exact (List.suffix_cons ..).trans hsuffix

theorem LastName.suffix_of_suffix {path name other : Text} (h : LastName path name) (hother : IsName other)
    (hpath : other <:+ path) : other <:+ name := by
  rcases h with rfl | hsuffix
  · exact hpath
  · rcases List.suffix_or_suffix_of_suffix hpath hsuffix with hshort | hlong
    · rcases List.suffix_cons_iff.mp hshort with rfl | hname
      · exact absurd (List.mem_cons_self ..) hother.no_slash
      · exact hname
    · exact absurd (hlong.mem (List.mem_cons_self ..)) hother.no_slash

theorem LastName.eq {path name other : Text} (h : LastName path name) (hother : LastName path other)
    (hname : IsName name) (hothername : IsName other) : name = other :=
  (hother.suffix_of_suffix hname h.suffix).eq_of_length_le
    (h.suffix_of_suffix hothername hother.suffix).length_le

theorem lastName_child (directory : Path) {name : Text} (h : IsName name) :
    LastName (directory.child name).text name := by
  have hjoin : ∀ names : List Text, LastName (Text.join "/" (names ++ [name])) name := by
    intro names
    induction names with
    | nil => exact .inl (Text.join_singleton ..)
    | cons first rest ih =>
      obtain ⟨second, others, heq⟩ := List.exists_cons_of_ne_nil (show rest ++ [name] ≠ [] by simp)
      rw [heq] at ih
      rw [List.cons_append, heq, Text.join_cons_cons, List.append_assoc]
      refine .inr (.trans ?_ (List.suffix_append ..))
      rcases ih with hone | hmore
      · rw [hone]
        exact List.suffix_refl _
      · exact hmore.trans (List.suffix_append ..)
  rw [Path.child_of_isName directory h, Path.text, if_neg (by simp)]
  rcases hjoin directory.names with hone | hmore
  · rw [hone]
    cases directory.anchor with
    | relative => exact .inl rfl
    | root => exact .inr (List.suffix_refl _)
    | doubleRoot => exact .inr (List.suffix_cons ..)
  · exact .inr (hmore.trans (List.suffix_append ..))

-- It is read as a name of the path.
theorem LastName.mem_names {path name : Text} (h : LastName path name) (hname : IsName name) :
    name ∈ (Path.ofText path).names := by
  refine List.mem_filter.mpr ⟨?_, by simp [hname.ne_nil, hname.ne_point]⟩
  have hpiece := Text.splitOn_of_notMem hname.no_slash
  rcases h with rfl | ⟨front, rfl⟩
  · rw [hpiece, List.mem_singleton]
  · rw [Text.splitOn_append_cons, hpiece]
    exact List.mem_append_right _ (List.mem_singleton.mpr rfl)

theorem IsInside.names_ne_nil {file : GeneratedFile} (h : IsInside schema output file) :
    (Path.ofText file.path).names ≠ [] := by
  obtain ⟨directory, name, hin⟩ := h
  rw [hin.path]
  exact List.ne_nil_of_mem
    ((lastName_child directory hin.isModuleName.isName).mem_names hin.isModuleName.isName)

theorem child_text_ne {directory other : Path} {name last : Text} (h : IsName name) (hlast : IsName last)
    (hne : name ≠ last) : (directory.child name).text ≠ (other.child last).text :=
  fun heq => hne ((lastName_child directory h).eq (heq ▸ lastName_child other hlast) h hlast)

-- What names of modules of types end with.
def IsTypesPath (path : Text) : Prop := ("/types.ts" : Text) <:+ path

theorem not_isTypesPath {directory : Path} {name : Text} (h : IsName name) (hne : name ≠ "types.ts") :
    ¬ IsTypesPath (directory.child name).text :=
  fun hpath => hne ((lastName_child directory h).eq (.inr hpath) h isModuleName_types.isName)

-- The names of modules that neither declare types nor are shared by such modules.
def otherNames : List Text := ["hooks.ts", "relations.ts", "relationships.json", "index.ts"]

theorem isName_of_mem_otherNames : ∀ name ∈ otherNames, IsName name := by decide

-- The path of such a module.
def IsOtherPath (path : Text) : Prop :=
  ∃ directory : Path, ∃ name ∈ otherNames, path = (directory.child name).text

theorem IsOtherPath.ne {path : Text} (h : IsOtherPath path) {directory : Path} {name : Text}
    (hname : IsName name) (hother : name ∉ otherNames) : path ≠ (directory.child name).text := by
  obtain ⟨_, last, hlast, rfl⟩ := h
  exact child_text_ne (isName_of_mem_otherNames last hlast) hname fun heq => hother (heq ▸ hlast)

theorem IsOtherPath.not_isTypesPath {path : Text} (h : IsOtherPath path) : ¬ IsTypesPath path := by
  obtain ⟨directory, name, hname, rfl⟩ := h
  refine Generation.not_isTypesPath (isName_of_mem_otherNames name hname) ?_
  rintro rfl
  exact absurd hname (by decide)

theorem isOtherPath_hooks (directory : Path) : IsOtherPath (directory.child "hooks.ts").text :=
  ⟨directory, _, by decide, rfl⟩

theorem isOtherPath_index (directory : Path) : IsOtherPath (directory.child "index.ts").text :=
  ⟨directory, _, by decide, rfl⟩

end Endings

theorem notes_of_collect {filesOf : α → Generated (List GeneratedFile × List Note)} {items : List α}
    {notesOf : α → List Note} (hitems : ∀ item found, (filesOf item).outcome = .ok found →
      found.2 = notesOf item)
    {result : List GeneratedFile × List Note} (h : (collect filesOf items).outcome = .ok result) :
    result.2 = items.flatMap notesOf := by
  induction items generalizing result with
  | nil =>
    simp only [collect, pure_eq, Except.ok.injEq] at h
    simp [← h]
  | cons item rest ih =>
    simp only [collect, outcome_bind_eq_ok] at h
    obtain ⟨first, hfirst, others, hothers, h⟩ := h
    simp only [pure_eq, Except.ok.injEq] at h
    rw [← h, List.flatMap_cons, ← hitems item first hfirst, ← ih hothers]

-- What one table or function adds: its module of types, and modules of other names.
structure Adds (module : TypesModule) (output : Path) (found : List GeneratedFile × List Note) : Prop where
  notes : found.2 = module.declarations.notes
  types : ∃ texts, module.declarations.outcome = .ok texts ∧
    ∀ file ∈ found.1, file = Generation.file module.path (module.content output texts) ∨
      IsOtherPath file.path

theorem tableFiles_adds {table : Table} {found : List GeneratedFile × List Note}
    (h : (tableFiles schema clientPath output table).outcome = .ok found) :
    Adds (.ofTable schema output table) output found := by
  rw [tableFiles, outcome_bind_eq_ok] at h
  obtain ⟨types, htypes, h⟩ := h
  rw [outcome_bind_eq_ok] at h
  obtain ⟨hooks, _, h⟩ := h
  rw [tableModule_eq] at htypes
  obtain ⟨hnotes, texts, htexts, heq⟩ := rendered_eq_ok htypes
  have hfiles : ∃ relations, (∀ file ∈ relations, IsOtherPath file.path) ∧ found =
      ([file ((output.child table.name).child "types.ts") types.1,
        file ((output.child table.name).child "hooks.ts") hooks] ++ relations ++
        [file ((output.child table.name).child "index.ts") (TableHooks.indexModule table)],
        types.2) := by
    split at h
    · obtain ⟨relations, _, h⟩ := outcome_bind_eq_ok.mp h
      refine ⟨_, ?_, (Except.ok.inj h).symm⟩
      simp only [List.mem_cons, List.not_mem_nil, or_false]
      rintro file (rfl | rfl)
      · exact ⟨_, _, by decide, rfl⟩
      · exact ⟨_, _, by decide, rfl⟩
    · exact ⟨[], by simp, (Except.ok.inj h).symm⟩
  obtain ⟨relations, hrelations, rfl⟩ := hfiles
  refine ⟨hnotes, texts, htexts, ?_⟩
  simp only [List.mem_append, List.mem_cons, List.not_mem_nil, or_false]
  rintro file (((rfl | rfl) | hfile) | rfl)
  · exact .inl (by rw [heq]; rfl)
  · exact .inr (isOtherPath_hooks _)
  · exact .inr (hrelations file hfile)
  · exact .inr (isOtherPath_index _)

theorem routineFiles_adds {routine : Routine} {found : List GeneratedFile × List Note}
    (h : (routineFiles schema clientPath output routine).outcome = .ok found) :
    Adds (.ofRoutine schema output routine) output found := by
  rw [routineFiles, outcome_bind_eq_ok] at h
  obtain ⟨types, htypes, h⟩ := h
  rw [routineModule_eq] at htypes
  obtain ⟨hnotes, texts, htexts, heq⟩ := rendered_eq_ok htypes
  obtain rfl := Except.ok.inj h
  refine ⟨hnotes, texts, htexts, ?_⟩
  simp only [List.mem_cons, List.not_mem_nil, or_false]
  rintro file (rfl | rfl | rfl)
  · exact .inl (by rw [heq]; rfl)
  · exact .inr (isOtherPath_hooks _)
  · exact .inr (isOtherPath_index _)

-- The file with the declarations of the base types in use, if there are any.
def baseTypesFiles (schema : Schema) (output : Path) : List GeneratedFile :=
  let used := usedBaseTypes schema output
  if used.isEmpty then [] else [file (baseTypesPath output) (Types.baseTypesModule schema used)]

def enumsFiles (schema : Schema) (output : Path) : List GeneratedFile :=
  if schema.hasEnums then [file (enumsPath output) (Types.enumsModule schema.enums schema.name)] else []

def mainFile (schema : Schema) (output : Path) : GeneratedFile :=
  file (output.child "index.ts")
    (MainIndex.module schema (!(usedBaseTypes schema output).isEmpty) (!schema.publicRoutines.isEmpty))

-- The files that are modules of types.
inductive IsTypesFile (schema : Schema) (output : Path) : GeneratedFile → Prop
  | rendered {module : TypesModule} {texts : List Text} (hmodule : module ∈ typesModules schema output)
    (htexts : module.declarations.outcome = .ok texts) :
    IsTypesFile schema output (file module.path (module.content output texts))
  | storage : IsTypesFile schema output
    (file ((output.child "storage").child "types.ts") Storage.typesModule)

-- A file that is generated before the shared ones: a module of types, or one of another name.
def IsModuleFile (schema : Schema) (output : Path) (file : GeneratedFile) : Prop :=
  IsTypesFile schema output file ∨ IsOtherPath file.path

theorem isModuleFile_of_collect {filesOf : α → Generated (List GeneratedFile × List Note)}
    {items : List α} {moduleOf : α → TypesModule}
    (hitems : ∀ item found, (filesOf item).outcome = .ok found → Adds (moduleOf item) output found)
    (hmodules : ∀ item ∈ items, moduleOf item ∈ typesModules schema output)
    {result : List GeneratedFile × List Note} (h : (collect filesOf items).outcome = .ok result)
    {file : GeneratedFile} (hfile : file ∈ result.1) : IsModuleFile schema output file := by
  obtain ⟨item, hitem, found, hfound, hmem⟩ := mem_of_collect h hfile
  obtain ⟨texts, htexts, hfiles⟩ := (hitems item found hfound).types
  rcases hfiles file hmem with rfl | hother
  · exact .inl (.rendered (hmodules item hitem) htexts)
  · exact .inr hother

theorem isModuleFile_of_storage {file : GeneratedFile} (hfile : file ∈ storageFiles clientPath output) :
    IsModuleFile schema output file := by
  simp only [storageFiles, Storage.modules, List.map_cons, List.map_nil, List.mem_cons,
    List.not_mem_nil, or_false] at hfile
  rcases hfile with rfl | rfl | rfl
  · exact .inl .storage
  · exact .inr (isOtherPath_hooks _)
  · exact .inr (isOtherPath_index _)

-- All files in the order of their generation: behind the modules come the shared ones and an index.
theorem assignments_cases {files : List GeneratedFile}
    (h : (assignments schema clientPath output).outcome = .ok files) :
    ∃ modules, (∀ file ∈ modules, IsModuleFile schema output file) ∧
      files = modules ++ baseTypesFiles schema output ++ enumsFiles schema output ++
        [mainFile schema output] := by
  rw [assignments, outcome_bind_eq_ok] at h
  obtain ⟨tables, htables, h⟩ := h
  rw [outcome_bind_eq_ok] at h
  obtain ⟨functions, hfunctions, h⟩ := h
  have hused : (tables.2 ++ functions.2).filterMap Note.baseType? = usedBaseTypes schema output := by
    rw [notes_of_collect (fun _ _ hfound => (tableFiles_adds hfound).notes) htables,
      notes_of_collect (fun _ _ hfound => (routineFiles_adds hfound).notes) hfunctions,
      usedBaseTypes, typesModules, List.flatMap_append, List.flatMap_map, List.flatMap_map]
  have hmodules (index : List GeneratedFile) (hindex : ∀ file ∈ index, IsOtherPath file.path) :
      ∀ file ∈ tables.1 ++ functions.1 ++ index ++ storageFiles clientPath output,
        IsModuleFile schema output file := by
    simp only [List.mem_append]
    rintro file (((hfile | hfile) | hfile) | hfile)
    · exact isModuleFile_of_collect (fun _ _ => tableFiles_adds)
        (fun table hmem => List.mem_append_left _ (List.mem_map_of_mem hmem)) htables hfile
    · exact isModuleFile_of_collect (fun _ _ => routineFiles_adds)
        (fun routine hmem => List.mem_append_right _ (List.mem_map_of_mem hmem)) hfunctions hfile
    · exact .inr (hindex file hfile)
    · exact isModuleFile_of_storage hfile
  dsimp only at h
  rw [hused] at h
  split at h
  · exact ⟨_, hmodules [] (by simp), (Except.ok.inj h).symm⟩
  · obtain ⟨index, _, h⟩ := outcome_bind_eq_ok.mp h
    refine ⟨_, hmodules [file ((functionsPath output).child "index.ts") index] ?_, (Except.ok.inj h).symm⟩
    simp only [List.mem_singleton, forall_eq]
    exact isOtherPath_index _

theorem mem_put_self (file : GeneratedFile) (files : List GeneratedFile) : file ∈ put file files := by
  induction files with
  | nil => exact List.mem_singleton_self file
  | cons other rest ih =>
    rw [put]
    split
    · exact List.mem_cons_self ..
    · exact List.mem_cons_of_mem other ih

theorem mem_put_of_ne {file other : GeneratedFile} {files : List GeneratedFile} (h : other ∈ files)
    (hne : other.path ≠ file.path) : other ∈ put file files := by
  induction files with
  | nil => cases h
  | cons first rest ih =>
    rw [put]
    rcases List.mem_cons.mp h with rfl | hrest
    · rw [if_neg hne]
      exact List.mem_cons_self ..
    · split
      · exact List.mem_cons_of_mem file hrest
      · exact List.mem_cons_of_mem first (ih hrest)

theorem mem_foldl_put {file : GeneratedFile} {files merged : List GeneratedFile} (h : file ∈ merged)
    (hne : ∀ other ∈ files, file.path ≠ other.path) :
    file ∈ files.foldl (fun files file => put file files) merged := by
  induction files generalizing merged with
  | nil => exact h
  | cons first rest ih =>
    obtain ⟨hfirst, hrest⟩ := List.forall_mem_cons.mp hne
    exact ih (mem_put_of_ne h hfirst) hrest

-- Of the files with one path the last one is kept.
theorem mem_foldl_put_of_last {file : GeneratedFile} {before after : List GeneratedFile}
    (hne : ∀ other ∈ after, file.path ≠ other.path) :
    file ∈ (before ++ file :: after).foldl (fun files file => put file files) [] := by
  rw [List.foldl_append, List.foldl_cons]
  exact mem_foldl_put (mem_put_self ..) hne

theorem eq_of_mem_baseTypesFiles {file : GeneratedFile} (h : file ∈ baseTypesFiles schema output) :
    baseTypesFiles schema output = [file] ∧ file.path = (baseTypesPath output).text := by
  dsimp only [baseTypesFiles] at h ⊢
  split at h
  · cases h
  · rename_i hused
    obtain rfl := List.mem_singleton.mp h
    exact ⟨if_neg hused, rfl⟩

theorem eq_of_mem_enumsFiles {file : GeneratedFile} (h : file ∈ enumsFiles schema output) :
    enumsFiles schema output = [file] ∧ file.path = (enumsPath output).text := by
  rw [enumsFiles] at h ⊢
  split at h
  · rename_i henums
    obtain rfl := List.mem_singleton.mp h
    exact ⟨if_pos henums, rfl⟩
  · cases h

-- What a generation for a schema gives as far as types go.
structure TypesGenerated (schema : Schema) (output : Path) (files : List GeneratedFile) : Prop where
  cases : ∀ file ∈ files, IsModuleFile schema output file ∨ file ∈ baseTypesFiles schema output ∨
    file ∈ enumsFiles schema output
  baseTypes : ∀ file ∈ baseTypesFiles schema output, file ∈ files
  enums : ∀ file ∈ enumsFiles schema output, file ∈ files

theorem generate_types {files : List GeneratedFile}
    (h : (generate schema clientPath output).outcome = .ok files) :
    TypesGenerated schema output files := by
  simp only [generate, outcome_bind_eq_ok] at h
  obtain ⟨assigned, hassigned, _, _, h⟩ := h
  simp only [pure_eq, Except.ok.injEq] at h
  obtain ⟨modules, hmodules, rfl⟩ := assignments_cases hassigned
  subst h
  have hmain : IsOtherPath (mainFile schema output).path := isOtherPath_index output
  constructor
  · intro file hfile
    have hassignment := ((foldl_put _ [] (by simp)).2 file hfile).resolve_right (by simp)
    simp only [List.mem_append, List.mem_singleton] at hassignment
    rcases hassignment with ((hmem | hmem) | hmem) | rfl
    · exact .inl (hmodules file hmem)
    · exact .inr (.inl hmem)
    · exact .inr (.inr hmem)
    · exact .inl (.inr hmain)
  · intro file hfile
    obtain ⟨heq, hpath⟩ := eq_of_mem_baseTypesFiles hfile
    rw [heq, List.append_assoc, List.append_assoc, List.singleton_append]
    refine mem_foldl_put_of_last fun other hother => ?_
    rw [hpath]
    rcases List.mem_append.mp hother with hmem | hmem
    · rw [(eq_of_mem_enumsFiles hmem).2]
      exact child_text_ne isModuleName_baseTypes.isName isModuleName_enums.isName (by decide)
    · rw [List.mem_singleton.mp hmem]
      exact (hmain.ne isModuleName_baseTypes.isName (by decide)).symm
  · intro file hfile
    obtain ⟨heq, hpath⟩ := eq_of_mem_enumsFiles hfile
    rw [heq, List.append_assoc]
    refine mem_foldl_put_of_last fun other hother => ?_
    rw [hpath, List.mem_singleton.mp hother]
    exact (hmain.ne isModuleName_enums.isName (by decide)).symm

theorem TypesGenerated.isTypesFile {files : List GeneratedFile} (h : TypesGenerated schema output files)
    {file : GeneratedFile} (hfile : file ∈ files) (hpath : IsTypesPath file.path) :
    IsTypesFile schema output file := by
  rcases h.cases file hfile with (htypes | hother) | hmem | hmem
  · exact htypes
  · exact absurd hpath hother.not_isTypesPath
  · rw [(eq_of_mem_baseTypesFiles hmem).2] at hpath
    exact absurd hpath (not_isTypesPath isModuleName_baseTypes.isName (by decide))
  · rw [(eq_of_mem_enumsFiles hmem).2] at hpath
    exact absurd hpath (not_isTypesPath isModuleName_enums.isName (by decide))

theorem IsTypesFile.exists_directory {file : GeneratedFile} (h : IsTypesFile schema output file) :
    ∃ directory : Path, file.path = (directory.child "types.ts").text := by
  cases h with
  | storage => exact ⟨_, rfl⟩
  | rendered hmodule htexts =>
    rcases List.mem_append.mp hmodule with hmem | hmem <;>
      obtain ⟨_, -, rfl⟩ := List.mem_map.mp hmem <;> exact ⟨_, rfl⟩

-- No other file is generated where the declarations of base types go.
theorem TypesGenerated.mem_baseTypesFiles {files : List GeneratedFile}
    (h : TypesGenerated schema output files) {file : GeneratedFile} (hfile : file ∈ files)
    (hpath : file.path = (baseTypesPath output).text) : file ∈ baseTypesFiles schema output := by
  rcases h.cases file hfile with (htypes | hother) | hmem | hmem
  · obtain ⟨directory, htypesPath⟩ := htypes.exists_directory
    exact absurd (htypesPath.symm.trans hpath)
      (child_text_ne isModuleName_types.isName isModuleName_baseTypes.isName (by decide))
  · exact absurd hpath (hother.ne isModuleName_baseTypes.isName (by decide))
  · exact hmem
  · exact absurd ((eq_of_mem_enumsFiles hmem).2.symm.trans hpath)
      (child_text_ne isModuleName_enums.isName isModuleName_baseTypes.isName (by decide))

end Generation

end HookGen
