import HookGen.Proofs.Generation.Contents
import Mathlib.Data.List.Forall2

/-!
All files of a generation, one after the other: what each table and each function is given, and then the
modules that there is one of. Their paths depend on nothing but the schema.
-/

namespace HookGen

open Render Traced

variable {schema : Schema} {clientPath : Text} {output : Path} {α : Type}

-- The value of a computation that cannot fail.
def Traced.value {ν : Type} (x : Traced ν Empty α) : α :=
  match x.outcome with
  | .ok a => a
  | .error e => e.elim

@[simp] theorem Traced.outcome_eq {ν : Type} (x : Traced ν Empty α) : x.outcome = .ok x.value := by
  unfold value
  cases x.outcome with
  | ok a => rfl
  | error e => exact e.elim

namespace Generation

theorem logged_eq_ok {x : Logged Empty α} {a : α} : (logged x).outcome = .ok a ↔ x.value = a := by
  simp [logged, retell]

-- The files of a table: its types, its hooks and its relations if it has any, under an index.
inductive TableFiles (schema : Schema) (clientPath : Text) (output : Path) (table : Table) :
    List GeneratedFile → Prop
  | intro {texts : List Text} {hooks : Text}
    (types : (TypesModule.ofTable schema output table).declarations.outcome = .ok texts)
    (module : TableHooks.module table clientPath = .ok hooks) :
    TableFiles schema clientPath output table
      ([file ((output.child table.name).child "types.ts")
          ((TypesModule.ofTable schema output table).content output texts),
        file ((output.child table.name).child "hooks.ts") hooks] ++
      (if table.hasRelationships then
        [file ((output.child table.name).child "relations.ts") (Relations.module table).value,
          file ((output.child table.name).child "relationships.json") (Relations.jsonModule table)]
      else []) ++
      [file ((output.child table.name).child "index.ts") (TableHooks.indexModule table)])

-- The files of a function: its types and its hooks, under an index.
inductive RoutineFiles (schema : Schema) (clientPath : Text) (output : Path) (routine : Routine) :
    List GeneratedFile → Prop
  | intro {texts : List Text}
    (types : (TypesModule.ofRoutine schema output routine).declarations.outcome = .ok texts) :
    RoutineFiles schema clientPath output routine [
      file (((functionsPath output).child routine.name).child "types.ts")
        ((TypesModule.ofRoutine schema output routine).content output texts),
      file (((functionsPath output).child routine.name).child "hooks.ts")
        (RoutineHooks.module routine clientPath),
      file (((functionsPath output).child routine.name).child "index.ts")
        (RoutineHooks.indexModule routine)]

theorem tableFiles_eq_ok {table : Table} {found : List GeneratedFile × List Note}
    (h : (tableFiles schema clientPath output table).outcome = .ok found) :
    TableFiles schema clientPath output table found.1 := by
  rw [tableFiles, outcome_bind_eq_ok] at h
  obtain ⟨types, htypes, h⟩ := h
  rw [outcome_bind_eq_ok] at h
  obtain ⟨hooks, hhooks, h⟩ := h
  rw [tableModule_eq] at htypes
  obtain ⟨-, texts, htexts, htypes⟩ := rendered_eq_ok htypes
  have hmodule : TableHooks.module table clientPath = .ok hooks := by
    cases hmodule : TableHooks.module table clientPath with
    | error e => simp [hmodule] at hhooks
    | ok text => simpa [hmodule] using hhooks
  have hfound : found.1 =
      [file ((output.child table.name).child "types.ts") types.1,
        file ((output.child table.name).child "hooks.ts") hooks] ++
      (if table.hasRelationships then
        [file ((output.child table.name).child "relations.ts") (Relations.module table).value,
          file ((output.child table.name).child "relationships.json") (Relations.jsonModule table)]
      else []) ++
      [file ((output.child table.name).child "index.ts") (TableHooks.indexModule table)] := by
    by_cases hrelationships : table.hasRelationships
    · rw [if_pos hrelationships] at h ⊢
      obtain ⟨relations, hrelations, h⟩ := outcome_bind_eq_ok.mp h
      obtain rfl := logged_eq_ok.mp hrelations
      exact congrArg Prod.fst (Except.ok.inj h).symm
    · rw [if_neg hrelationships] at h ⊢
      exact congrArg Prod.fst (Except.ok.inj h).symm
  rw [hfound, htypes]
  exact .intro htexts hmodule

theorem routineFiles_eq_ok {routine : Routine} {found : List GeneratedFile × List Note}
    (h : (routineFiles schema clientPath output routine).outcome = .ok found) :
    RoutineFiles schema clientPath output routine found.1 := by
  rw [routineFiles, outcome_bind_eq_ok] at h
  obtain ⟨types, htypes, h⟩ := h
  rw [routineModule_eq] at htypes
  obtain ⟨-, texts, htexts, htypes⟩ := rendered_eq_ok htypes
  obtain rfl := Except.ok.inj h
  dsimp only
  rw [htypes]
  exact .intro htexts

theorem collect_eq_ok {filesOf : α → Generated (List GeneratedFile × List Note)} {items : List α}
    {result : List GeneratedFile × List Note} (h : (collect filesOf items).outcome = .ok result) :
    ∃ parts, List.Forall₂ (fun item part => ∃ found, (filesOf item).outcome = .ok found ∧ found.1 = part)
      items parts ∧ result.1 = parts.flatten := by
  induction items generalizing result with
  | nil =>
    obtain rfl := Except.ok.inj h
    exact ⟨[], .nil, rfl⟩
  | cons item rest ih =>
    obtain ⟨first, hfirst, h⟩ := outcome_bind_eq_ok.mp h
    obtain ⟨others, hothers, h⟩ := outcome_bind_eq_ok.mp h
    obtain rfl := Except.ok.inj h
    obtain ⟨parts, hparts, heq⟩ := ih hothers
    exact ⟨first.1 :: parts, .cons ⟨first, hfirst, rfl⟩ hparts, by rw [List.flatten_cons, ← heq]⟩

-- The index of all functions, if there are any.
def functionsFiles (schema : Schema) (output : Path) : List GeneratedFile :=
  if schema.publicRoutines.isEmpty then []
  else [file ((functionsPath output).child "index.ts") (RoutineHooks.functionsIndex schema.routines).value]

-- The files that there is one of: those of functions as a whole and of storage, the shared ones and an index.
def commonFiles (schema : Schema) (clientPath : Text) (output : Path) : List GeneratedFile :=
  functionsFiles schema output ++ storageFiles clientPath output ++ baseTypesFiles schema output ++
    enumsFiles schema output ++ [mainFile schema output]

-- All files in the order of their generation.
structure Assigned (schema : Schema) (clientPath : Text) (output : Path)
    (tables routines : List (List GeneratedFile)) : Prop where
  tables : List.Forall₂ (TableFiles schema clientPath output) schema.tables tables
  routines : List.Forall₂ (RoutineFiles schema clientPath output) schema.publicRoutines routines

theorem assignments_eq_ok {files : List GeneratedFile}
    (h : (assignments schema clientPath output).outcome = .ok files) :
    ∃ tables routines, Assigned schema clientPath output tables routines ∧
      files = tables.flatten ++ routines.flatten ++ commonFiles schema clientPath output := by
  rw [assignments, outcome_bind_eq_ok] at h
  obtain ⟨tables, htables, h⟩ := h
  rw [outcome_bind_eq_ok] at h
  obtain ⟨functions, hfunctions, h⟩ := h
  have hused : (tables.2 ++ functions.2).filterMap Note.baseType? = usedBaseTypes schema output := by
    rw [notes_of_collect (fun _ _ hfound => (tableFiles_adds hfound).notes) htables,
      notes_of_collect (fun _ _ hfound => (routineFiles_adds hfound).notes) hfunctions,
      usedBaseTypes, typesModules, List.flatMap_append, List.flatMap_map, List.flatMap_map]
  obtain ⟨tableParts, htableParts, htableFiles⟩ := collect_eq_ok htables
  obtain ⟨routineParts, hroutineParts, hroutineFiles⟩ := collect_eq_ok hfunctions
  refine ⟨tableParts, routineParts, ⟨htableParts.imp ?_, hroutineParts.imp ?_⟩, ?_⟩
  · rintro table _ ⟨found, hfound, rfl⟩
    exact tableFiles_eq_ok hfound
  · rintro routine _ ⟨found, hfound, rfl⟩
    exact routineFiles_eq_ok hfound
  · rw [← htableFiles, ← hroutineFiles, commonFiles, functionsFiles]
    dsimp only at h
    rw [hused] at h
    by_cases hempty : schema.publicRoutines.isEmpty
    · rw [if_pos hempty] at h ⊢
      rw [← Except.ok.inj h]
      simp [baseTypesFiles, enumsFiles, mainFile]
    · rw [if_neg hempty] at h ⊢
      obtain ⟨index, hindex, h⟩ := outcome_bind_eq_ok.mp h
      obtain rfl := logged_eq_ok.mp hindex
      rw [← Except.ok.inj h]
      simp [baseTypesFiles, enumsFiles, mainFile]

-- A generation merges these files.
theorem exists_assigned {files : List GeneratedFile}
    (h : (generate schema clientPath output).outcome = .ok files) :
    ∃ assigned, (assignments schema clientPath output).outcome = .ok assigned ∧
      files = assigned.foldl (fun files file => put file files) [] := by
  simp only [generate, outcome_bind_eq_ok] at h
  obtain ⟨assigned, hassigned, _, _, h⟩ := h
  exact ⟨assigned, hassigned, (Except.ok.inj h).symm⟩

section Places

-- The names of the files in the directory of a table, and of a function or of storage.
def tableNames (table : Table) : List Text :=
  let relations : List Text :=
    if table.hasRelationships then ["relations.ts", "relationships.json", "index.ts"] else ["index.ts"]
  Text.ofString "types.ts" :: Text.ofString "hooks.ts" :: relations

def moduleNames : List Text := ["types.ts", "hooks.ts", "index.ts"]

-- The paths of all files in the order of their generation.
def paths (schema : Schema) (output : Path) : List Path :=
  (schema.tables.flatMap fun table => (tableNames table).map (output.child table.name).child) ++
    (schema.publicRoutines.flatMap fun routine =>
      moduleNames.map ((functionsPath output).child routine.name).child) ++
    (if schema.publicRoutines.isEmpty then [] else [(functionsPath output).child "index.ts"]) ++
    moduleNames.map (output.child "storage").child ++
    (if (usedBaseTypes schema output).isEmpty then [] else [baseTypesPath output]) ++
    (if schema.hasEnums then [enumsPath output] else []) ++ [output.child "index.ts"]

theorem map_path_flatten {filesOf : α → List GeneratedFile → Prop} {pathsOf : α → List Path}
    (hpaths : ∀ item part, filesOf item part → part.map (·.path) = (pathsOf item).map Path.text)
    {items : List α} {parts : List (List GeneratedFile)} (h : List.Forall₂ filesOf items parts) :
    parts.flatten.map (·.path) = (items.flatMap pathsOf).map Path.text := by
  induction h with
  | nil => rfl
  | cons hfirst _ ih =>
    rw [List.flatten_cons, List.map_append, List.flatMap_cons, List.map_append, hpaths _ _ hfirst, ih]

theorem TableFiles.map_path {table : Table} {files : List GeneratedFile}
    (h : TableFiles schema clientPath output table files) :
    files.map (·.path) = ((tableNames table).map (output.child table.name).child).map Path.text := by
  cases h
  rw [tableNames]
  split <;> rfl

theorem RoutineFiles.map_path {routine : Routine} {files : List GeneratedFile}
    (h : RoutineFiles schema clientPath output routine files) :
    files.map (·.path) =
      (moduleNames.map ((functionsPath output).child routine.name).child).map Path.text := by
  cases h
  rfl

theorem map_path_assignments {files : List GeneratedFile}
    (h : (assignments schema clientPath output).outcome = .ok files) :
    files.map (·.path) = (paths schema output).map Path.text := by
  obtain ⟨tables, routines, hassigned, rfl⟩ := assignments_eq_ok h
  have htables := map_path_flatten
    (fun table files (h : TableFiles schema clientPath output table files) => h.map_path) hassigned.tables
  have hroutines := map_path_flatten
    (fun routine files (h : RoutineFiles schema clientPath output routine files) => h.map_path)
    hassigned.routines
  have hcommon : (commonFiles schema clientPath output).map (·.path) =
      ((if schema.publicRoutines.isEmpty then [] else [(functionsPath output).child "index.ts"]) ++
        moduleNames.map (output.child "storage").child ++
        (if (usedBaseTypes schema output).isEmpty then [] else [baseTypesPath output]) ++
        (if schema.hasEnums then [enumsPath output] else []) ++ [output.child "index.ts"]).map Path.text := by
    simp only [commonFiles, functionsFiles, baseTypesFiles, enumsFiles, List.map_append]
    congr 1
    congr 1
    · congr 1
      · congr 1
        split <;> rfl
      · split <;> rfl
    · split <;> rfl
  rw [List.map_append, List.map_append, htables, hroutines, hcommon, paths]
  simp only [List.map_append, List.append_assoc]

theorem mem_map_path_put {file : GeneratedFile} {files : List GeneratedFile} {path : Text} :
    path ∈ (put file files).map (·.path) ↔ path = file.path ∨ path ∈ files.map (·.path) := by
  rw [map_path_put]
  split
  · rename_i hmem
    exact ⟨.inr, fun h => h.elim (fun heq => heq ▸ hmem) id⟩
  · rw [List.mem_append, List.mem_singleton, or_comm]

-- Merging files keeps their paths.
theorem mem_map_path_foldl_put {files merged : List GeneratedFile} {path : Text} :
    path ∈ (files.foldl (fun files file => put file files) merged).map (·.path) ↔
      path ∈ files.map (·.path) ∨ path ∈ merged.map (·.path) := by
  induction files generalizing merged with
  | nil => simp
  | cons first rest ih =>
    rw [List.foldl_cons, ih, mem_map_path_put, List.map_cons, List.mem_cons, or_left_comm, or_assoc]

theorem mem_map_path_generate {files : List GeneratedFile}
    (h : (generate schema clientPath output).outcome = .ok files) {path : Text} :
    path ∈ files.map (·.path) ↔ path ∈ (paths schema output).map Path.text := by
  obtain ⟨assigned, hassigned, rfl⟩ := exists_assigned h
  rw [mem_map_path_foldl_put, map_path_assignments hassigned, List.map_nil]
  simp only [List.not_mem_nil, or_false]

end Places

end Generation

end HookGen
