import HookGen.Generation
import HookGen.Manifest
import HookGen.Proofs.Path
import HookGen.Proofs.Traced
import Mathlib.Data.List.Nodup

/-!
The paths of generated files: each is used once, and where tables and functions have names that can
stand in a path, all of them lie below the output directory.
-/

namespace HookGen.Generation

open Traced

variable {schema : Schema} {clientPath : Text} {output : Path}

theorem map_path_put (file : GeneratedFile) (files : List GeneratedFile) :
    (put file files).map (·.path) =
      if file.path ∈ files.map (·.path) then files.map (·.path)
      else files.map (·.path) ++ [file.path] := by
  induction files with
  | nil => simp [put]
  | cons other rest ih =>
    rw [put]
    by_cases hsame : other.path = file.path
    · rw [if_pos hsame, List.map_cons, List.map_cons, hsame, if_pos (List.mem_cons_self ..)]
    · have hmem : file.path ∈ (other :: rest).map (·.path) ↔ file.path ∈ rest.map (·.path) := by
        simp [Ne.symm hsame]
      rw [if_neg hsame, List.map_cons, ih]
      by_cases hrest : file.path ∈ rest.map (·.path)
      · rw [if_pos hrest, if_pos (hmem.mpr hrest), List.map_cons]
      · rw [if_neg hrest, if_neg (mt hmem.mp hrest), List.map_cons, List.cons_append]

theorem mem_put {file other : GeneratedFile} {files : List GeneratedFile}
    (h : other ∈ put file files) : other = file ∨ other ∈ files := by
  induction files with
  | nil =>
    rw [put, List.mem_singleton] at h
    exact .inl h
  | cons first rest ih =>
    rw [put] at h
    split at h
    · rcases List.mem_cons.mp h with rfl | hrest
      · exact .inl rfl
      · exact .inr (List.mem_cons_of_mem first hrest)
    · rcases List.mem_cons.mp h with rfl | hrest
      · exact .inr (List.mem_cons_self ..)
      · exact (ih hrest).imp_right (List.mem_cons_of_mem first)

theorem nodup_put {file : GeneratedFile} {files : List GeneratedFile}
    (h : (files.map (·.path)).Nodup) : ((put file files).map (·.path)).Nodup := by
  rw [map_path_put]
  split
  · exact h
  · rename_i hnew
    rw [List.nodup_append]
    refine ⟨h, List.nodup_singleton _, ?_⟩
    intro path hpath other hother
    rw [List.mem_singleton.mp hother]
    exact fun heq => hnew (heq ▸ hpath)

-- Merging files with one path: what comes out was put in, and each path comes once.
theorem foldl_put (files merged : List GeneratedFile) (h : (merged.map (·.path)).Nodup) :
    ((files.foldl (fun files file => put file files) merged).map (·.path)).Nodup ∧
      ∀ file ∈ files.foldl (fun files file => put file files) merged,
        file ∈ files ∨ file ∈ merged := by
  induction files generalizing merged with
  | nil => exact ⟨h, fun file hfile => .inr hfile⟩
  | cons first rest ih =>
    obtain ⟨hnodup, hmem⟩ := ih (put first merged) (nodup_put h)
    refine ⟨hnodup, fun file hfile => ?_⟩
    rcases hmem file hfile with hrest | hput
    · exact .inl (List.mem_cons_of_mem first hrest)
    · rcases mem_put hput with rfl | hmerged
      · exact .inl (List.mem_cons_self ..)
      · exact .inr hmerged

theorem put_of_notMem {file : GeneratedFile} {files : List GeneratedFile}
    (h : file.path ∉ files.map (·.path)) : put file files = files ++ [file] := by
  induction files with
  | nil => rfl
  | cons other rest ih =>
    simp only [List.map_cons, List.mem_cons, not_or] at h
    rw [put, if_neg (Ne.symm h.1), ih h.2, List.cons_append]

-- Files with different paths stay in their order.
theorem foldl_put_of_nodup (files merged : List GeneratedFile)
    (h : ((merged ++ files).map (·.path)).Nodup) :
    files.foldl (fun files file => put file files) merged = merged ++ files := by
  induction files generalizing merged with
  | nil => rw [List.foldl_nil, List.append_nil]
  | cons first rest ih =>
    have hnew : first.path ∉ merged.map (·.path) := by
      rw [List.map_append, List.nodup_append] at h
      exact fun hmem => h.2.2 _ hmem _ (List.mem_cons_self ..) rfl
    rw [List.append_cons] at h
    rw [List.foldl_cons, put_of_notMem hnew, ih _ h, List.append_assoc, List.singleton_append]

-- A file below a directory, by the names on the way to it. It is no manifest.
structure At (output : Path) (names : List Text) (file : GeneratedFile) : Prop where
  path : file.path = Path.text ⟨output.anchor, output.names ++ names⟩
  isName : ∀ name ∈ names, IsName name
  ne_nil : names ≠ []
  other : names.getLast? ≠ some Manifest.fileName

-- What the last names of generated files have in common.
structure IsModuleName (name : Text) : Prop where
  isName : IsName name
  other : name ≠ Manifest.fileName

theorem at_file {directories : List Text} (hdirectories : ∀ name ∈ directories, IsName name)
    {name : Text} (hname : IsModuleName name) (content : Text) :
    At output (directories ++ [name])
      (file (Path.child ⟨output.anchor, output.names ++ directories⟩ name) content) where
  path := by
    rw [file, Path.child_of_isName _ hname.isName, List.append_assoc]
  isName := by
    intro part hpart
    rcases List.mem_append.mp hpart with h | h
    · exact hdirectories part h
    · rw [List.mem_singleton.mp h]
      exact hname.isName
  ne_nil := by simp
  other := by simpa using hname.other

-- A file that lies somewhere below a directory.
def Placed (output : Path) (file : GeneratedFile) : Prop := ∃ names, At output names file

theorem isModuleName_types : IsModuleName "types.ts" := ⟨by decide, by decide⟩

theorem isModuleName_hooks : IsModuleName "hooks.ts" := ⟨by decide, by decide⟩

theorem isModuleName_index : IsModuleName "index.ts" := ⟨by decide, by decide⟩

theorem isModuleName_relations : IsModuleName "relations.ts" := ⟨by decide, by decide⟩

theorem isModuleName_relationships : IsModuleName "relationships.json" := ⟨by decide, by decide⟩

theorem isModuleName_baseTypes : IsModuleName "base-types.ts" := ⟨by decide, by decide⟩

theorem isModuleName_enums : IsModuleName "enums.ts" := ⟨by decide, by decide⟩

theorem isName_functions : IsName "functions" := by decide

theorem isName_storage : IsName "storage" := by decide

-- The directories that modules are generated into.
inductive IsDirectory (schema : Schema) (output : Path) : Path → Prop
  | output : IsDirectory schema output output
  | storage : IsDirectory schema output (output.child "storage")
  | functions : IsDirectory schema output (functionsPath output)
  | table {table : Table} (mem : table ∈ schema.tables) :
      IsDirectory schema output (output.child table.name)
  | routine {routine : Routine} (mem : routine ∈ schema.publicRoutines) :
      IsDirectory schema output ((functionsPath output).child routine.name)

-- A module in one of these directories.
structure Inside (schema : Schema) (output : Path) (file : GeneratedFile) (directory : Path) (name : Text) :
    Prop where
  isDirectory : IsDirectory schema output directory
  isModuleName : IsModuleName name
  path : file.path = (directory.child name).text

def IsInside (schema : Schema) (output : Path) (file : GeneratedFile) : Prop :=
  ∃ directory name, Inside schema output file directory name

theorem IsDirectory.file {directory : Path} (h : IsDirectory schema output directory) {name : Text}
    (hname : IsModuleName name) (content : Text) :
    IsInside schema output (file (directory.child name) content) :=
  ⟨directory, name, h, hname, rfl⟩

theorem tableFiles_inside {table : Table} (htable : table ∈ schema.tables)
    {result : List GeneratedFile × List Render.Note}
    (h : (tableFiles schema clientPath output table).outcome = .ok result) :
    ∀ file ∈ result.1, IsInside schema output file := by
  rw [tableFiles, outcome_bind_eq_ok] at h
  obtain ⟨types, _, h⟩ := h
  rw [outcome_bind_eq_ok] at h
  obtain ⟨hooks, _, h⟩ := h
  have hinside {name : Text} (hname : IsModuleName name) (content : Text) :
      IsInside schema output (file ((output.child table.name).child name) content) :=
    (IsDirectory.table htable).file hname content
  have hrelations : ∃ relations, (∀ file ∈ relations, IsInside schema output file) ∧ result.1 =
      [file ((output.child table.name).child "types.ts") types.1,
        file ((output.child table.name).child "hooks.ts") hooks] ++ relations ++
        [file ((output.child table.name).child "index.ts") (TableHooks.indexModule table)] := by
    split at h
    · obtain ⟨relations, _, h⟩ := outcome_bind_eq_ok.mp h
      refine ⟨_, ?_, congrArg Prod.fst (Except.ok.inj h).symm⟩
      simp only [List.mem_cons, List.not_mem_nil, or_false]
      rintro file (rfl | rfl)
      · exact hinside isModuleName_relations _
      · exact hinside isModuleName_relationships _
    · exact ⟨[], by simp, congrArg Prod.fst (Except.ok.inj h).symm⟩
  obtain ⟨relations, hall, heq⟩ := hrelations
  simp only [heq, List.mem_append, List.mem_cons, List.not_mem_nil, or_false]
  rintro file (((rfl | rfl) | hfile) | rfl)
  · exact hinside isModuleName_types _
  · exact hinside isModuleName_hooks _
  · exact hall file hfile
  · exact hinside isModuleName_index _

theorem routineFiles_inside {routine : Routine} (hroutine : routine ∈ schema.publicRoutines)
    {result : List GeneratedFile × List Render.Note}
    (h : (routineFiles schema clientPath output routine).outcome = .ok result) :
    ∀ file ∈ result.1, IsInside schema output file := by
  simp only [routineFiles, outcome_bind_eq_ok] at h
  obtain ⟨types, _, h⟩ := h
  simp only [pure_eq, Except.ok.injEq] at h
  simp only [← h, List.mem_cons, List.not_mem_nil, or_false]
  rintro file (rfl | rfl | rfl)
  · exact (IsDirectory.routine hroutine).file isModuleName_types _
  · exact (IsDirectory.routine hroutine).file isModuleName_hooks _
  · exact (IsDirectory.routine hroutine).file isModuleName_index _

theorem mem_of_collect {α : Type} {filesOf : α → Generated (List GeneratedFile × List Render.Note)} {items : List α}
    {result : List GeneratedFile × List Render.Note} (h : (collect filesOf items).outcome = .ok result)
    {file : GeneratedFile} (hfile : file ∈ result.1) :
    ∃ item ∈ items, ∃ found, (filesOf item).outcome = .ok found ∧ file ∈ found.1 := by
  induction items generalizing result with
  | nil =>
    simp only [collect, pure_eq, Except.ok.injEq] at h
    simp [← h] at hfile
  | cons item rest ih =>
    simp only [collect, outcome_bind_eq_ok] at h
    obtain ⟨first, hfirst, others, hothers, h⟩ := h
    simp only [pure_eq, Except.ok.injEq] at h
    rw [← h, List.mem_append] at hfile
    rcases hfile with hfile | hfile
    · exact ⟨item, List.mem_cons_self .., first, hfirst, hfile⟩
    · obtain ⟨other, hother, found, hfound⟩ := ih hothers hfile
      exact ⟨other, List.mem_cons_of_mem item hother, found, hfound⟩

theorem storageFiles_inside : ∀ file ∈ storageFiles clientPath output, IsInside schema output file := by
  simp only [storageFiles, Storage.modules, List.map_cons, List.map_nil, List.mem_cons,
    List.not_mem_nil, or_false]
  rintro file (rfl | rfl | rfl)
  · exact IsDirectory.storage.file isModuleName_types _
  · exact IsDirectory.storage.file isModuleName_hooks _
  · exact IsDirectory.storage.file isModuleName_index _

theorem assignments_inside {files : List GeneratedFile}
    (h : (assignments schema clientPath output).outcome = .ok files) :
    ∀ file ∈ files, IsInside schema output file := by
  rw [assignments, outcome_bind_eq_ok] at h
  obtain ⟨tables, hcollected, h⟩ := h
  rw [outcome_bind_eq_ok] at h
  obtain ⟨functions, hfunctions, h⟩ := h
  have hfirst : ∀ file ∈ tables.1, IsInside schema output file := by
    intro file hfile
    obtain ⟨table, htable, found, hfound, hmem⟩ := mem_of_collect hcollected hfile
    exact tableFiles_inside htable hfound file hmem
  have hsecond : ∀ file ∈ functions.1, IsInside schema output file := by
    intro file hfile
    obtain ⟨routine, hroutine, found, hfound, hmem⟩ := mem_of_collect hfunctions hfile
    exact routineFiles_inside hroutine hfound file hmem
  -- behind the modules of tables and functions comes one of all functions, if there are any
  have hindex : ∃ index baseTypes enums : List GeneratedFile, ∃ main,
      (∀ file ∈ index, IsInside schema output file) ∧ (∀ file ∈ baseTypes, IsInside schema output file) ∧
      (∀ file ∈ enums, IsInside schema output file) ∧ IsInside schema output main ∧
      files = tables.1 ++ functions.1 ++ index ++ storageFiles clientPath output ++ baseTypes ++
        enums ++ [main] := by
    have hbase (used : List Text) : ∀ module ∈ (if used.isEmpty then []
        else [file (baseTypesPath output) (Types.baseTypesModule schema used)]),
        IsInside schema output module := by
      split
      · simp
      · simpa [baseTypesPath] using IsDirectory.output.file isModuleName_baseTypes _
    have henums : ∀ module ∈ (if schema.hasEnums then
        [file (enumsPath output) (Types.enumsModule schema.enums schema.name)] else []),
        IsInside schema output module := by
      split
      · simpa [enumsPath] using IsDirectory.output.file isModuleName_enums _
      · simp
    dsimp only at h
    split at h
    · exact ⟨[], _, _, _, by simp, hbase _, henums, IsDirectory.output.file isModuleName_index _,
        (Except.ok.inj h).symm⟩
    · obtain ⟨index, _, h⟩ := outcome_bind_eq_ok.mp h
      refine ⟨[file ((functionsPath output).child "index.ts") index], _, _, _, ?_, hbase _, henums,
        IsDirectory.output.file isModuleName_index _, (Except.ok.inj h).symm⟩
      simpa using IsDirectory.functions.file isModuleName_index index
  obtain ⟨index, baseTypes, enums, main, hthird, hbase, henums, hmain, heq⟩ := hindex
  rw [heq]
  simp only [List.mem_append, List.mem_singleton]
  rintro file ((((((hf | hf) | hf) | hf) | hf) | hf) | rfl)
  · exact hfirst file hf
  · exact hsecond file hf
  · exact hthird file hf
  · exact storageFiles_inside file hf
  · exact hbase file hf
  · exact henums file hf
  · exact hmain

theorem generate_eq_ok {files : List GeneratedFile}
    (h : (generate schema clientPath output).outcome = .ok files) :
    (files.map (·.path)).Nodup ∧ ∀ file ∈ files, IsInside schema output file := by
  simp only [generate, outcome_bind_eq_ok] at h
  obtain ⟨assigned, hassigned, _, _, h⟩ := h
  simp only [pure_eq, Except.ok.injEq] at h
  obtain ⟨hnodup, hmem⟩ := foldl_put assigned [] (by simp)
  rw [← h]
  refine ⟨hnodup, fun file hfile => ?_⟩
  rcases hmem file hfile with hassignment | hnone
  · exact assignments_inside hassigned file hassignment
  · simp at hnone

-- Under names that can stand in a path, the directories lie below the output directory.
theorem Inside.placed (htables : ∀ table ∈ schema.tables, IsName table.name)
    (hroutines : ∀ routine ∈ schema.publicRoutines, IsName routine.name) {file : GeneratedFile}
    {directory : Path} {name : Text} (h : Inside schema output file directory name) :
    Placed output file := by
  have hat (directories : List Text) (hnames : ∀ part ∈ directories, IsName part)
      (heq : directory = ⟨output.anchor, output.names ++ directories⟩) : Placed output file := by
    obtain ⟨path, content⟩ := file
    have hpath : path = (directory.child name).text := h.path
    rw [hpath, heq]
    exact ⟨_, at_file hnames h.isModuleName content⟩
  have hfunctions : functionsPath output = ⟨output.anchor, output.names ++ [Text.ofString "functions"]⟩ :=
    Path.child_of_isName output isName_functions
  cases h.isDirectory with
  | output => exact hat [] (by simp) (by simp)
  | storage =>
    exact hat ["storage"] (by simpa using isName_storage) (Path.child_of_isName output isName_storage)
  | functions => exact hat ["functions"] (by simpa using isName_functions) hfunctions
  | @table table mem =>
    exact hat [table.name] (by simpa using htables table mem)
      (Path.child_of_isName output (htables table mem))
  | @routine routine mem =>
    refine hat ["functions", routine.name] (by simpa using ⟨isName_functions, hroutines routine mem⟩) ?_
    rw [hfunctions, Path.child_of_isName _ (hroutines routine mem), List.append_assoc]
    rfl

-- All files of a generation lie below the output directory, at different places.
theorem generate_placed (htables : ∀ table ∈ schema.tables, IsName table.name)
    (hroutines : ∀ routine ∈ schema.publicRoutines, IsName routine.name)
    {files : List GeneratedFile} (h : (generate schema clientPath output).outcome = .ok files) :
    (files.map (·.path)).Nodup ∧ ∀ file ∈ files, Placed output file := by
  obtain ⟨hnodup, hinside⟩ := generate_eq_ok h
  refine ⟨hnodup, fun file hfile => ?_⟩
  obtain ⟨_, _, hin⟩ := hinside file hfile
  exact hin.placed htables hroutines

end HookGen.Generation
