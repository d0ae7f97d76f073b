import HookGen.Proofs.Disk.Walk
import HookGen.Proofs.Generation.Assignments
import HookGen.Proofs.Generation.Imports
import HookGen.Proofs.Integration.Reading

/-!
Where generated files lie. The directories of tables and functions are named by the schema alone, so the
files stay below the output directory exactly when none of these names leads out of it.
-/

namespace HookGen

open Traced Run

variable {schema : Schema} {clientPath : Text} {output : Path}

namespace Generation

-- The directories of tables and functions.
inductive IsNamed (schema : Schema) (output : Path) : Path → Prop
  | table {table : Table} (mem : table ∈ schema.tables) :
      IsNamed schema output (output.child table.name)
  | routine {routine : Routine} (mem : routine ∈ schema.publicRoutines) :
      IsNamed schema output ((functionsPath output).child routine.name)

-- None of them is outside of the output directory.
def Contained (schema : Schema) (output : Path) : Prop :=
  ∀ directory, IsNamed schema output directory → output.isWithin directory.normal

-- Each of them holds a module of types.
theorem IsNamed.types_mem {directory : Path} (h : IsNamed schema output directory) :
    directory.child "types.ts" ∈ paths schema output := by
  simp only [paths, List.mem_append, List.mem_flatMap]
  cases h with
  | @table table mem =>
    exact .inl (.inl (.inl (.inl (.inl (.inl ⟨table, mem, List.mem_map_of_mem (by simp [tableNames])⟩)))))
  | @routine routine mem =>
    exact .inl (.inl (.inl (.inl (.inl (.inr ⟨routine, mem, List.mem_map_of_mem (by simp [moduleNames])⟩)))))

-- A name behind a path makes it a place below a directory exactly when the path does not lead out of it.
theorem isBelow_child {directory : Path} {name : Text} (hname : IsName name) :
    Manifest.isBelow output (directory.child name).normal ↔ output.isWithin directory.normal := by
  rw [Manifest.isBelow, Path.normal_child hname, Bool.and_eq_true, Path.isWithin_iff, Path.isWithin_iff,
    Path.normal, bne_iff_ne]
  constructor
  · rintro ⟨⟨hanchor, hprefix⟩, hne⟩
    refine ⟨hanchor, (List.prefix_concat_iff.mp hprefix).resolve_left fun heq => hne ?_⟩
    rw [← hanchor, ← heq]
  · rintro ⟨hanchor, hprefix⟩
    refine ⟨⟨hanchor, hprefix.trans (List.prefix_append ..)⟩, fun heq => ?_⟩
    have hlength := hprefix.length_le
    simp only [← heq, List.length_append, List.length_singleton] at hlength
    omega

-- The directories that do not depend on the schema are never outside.
theorem IsDirectory.isWithin (hnames : ∀ name ∈ output.names, IsName name) (hcontained : Contained schema output)
    {directory : Path} (h : IsDirectory schema output directory) : output.isWithin directory.normal := by
  have houtput : output.normal = output := congrArg (Path.mk output.anchor) (Path.normalNames_of_isName hnames)
  have hfixed {name : Text} (hname : IsName name) : output.isWithin (output.child name).normal := by
    have hbelow := (@isBelow_child output output _ hname).mpr
      (by rw [houtput]; exact Path.isWithin_iff.mpr ⟨rfl, List.prefix_refl _⟩)
    exact (Bool.and_eq_true_iff.mp hbelow).1
  cases h with
  | output =>
    rw [houtput]
    exact Path.isWithin_iff.mpr ⟨rfl, List.prefix_refl _⟩
  | storage => exact hfixed isName_storage
  | functions => exact hfixed isName_functions
  | table mem => exact hcontained _ (.table mem)
  | routine mem => exact hcontained _ (.routine mem)

theorem IsDirectory.isRead (hread : output.IsRead) {directory : Path}
    (h : IsDirectory schema output directory) : directory.IsRead := by
  cases h with
  | output => exact hread
  | storage => exact hread.child _
  | functions => exact hread.child _
  | table => exact hread.child _
  | routine => exact (hread.child _).child _

theorem generated_below_iff (hnames : ∀ name ∈ output.names, IsName name) {files : List GeneratedFile}
    (h : (generate schema clientPath output).outcome = .ok files) :
    (∀ file ∈ files, Manifest.isBelow output (Path.ofText file.path).normal) ↔ Contained schema output := by
  have hread : output.IsRead := Path.isRead_of_isName hnames
  constructor
  · intro hbelow directory hnamed
    have hpath := (mem_map_path_generate h).mpr (List.mem_map_of_mem hnamed.types_mem)
    obtain ⟨file, hfile, hpath⟩ := List.mem_map.mp hpath
    have hdirectory : IsDirectory schema output directory := by
      cases hnamed with
      | table mem => exact .table mem
      | routine mem => exact .routine mem
    have hfileBelow := hbelow file hfile
    rw [hpath, Path.ofText_text ((hdirectory.isRead hread).child _)] at hfileBelow
    exact (isBelow_child isModuleName_types.isName).mp hfileBelow
  · intro hcontained file hfile
    obtain ⟨directory, name, hinside⟩ := (generate_eq_ok h).2 file hfile
    rw [hinside.path, Path.ofText_text ((hinside.isDirectory.isRead hread).child _)]
    exact (isBelow_child hinside.isModuleName.isName).mpr (hinside.isDirectory.isWithin hnames hcontained)

-- Plain names do not lead anywhere else.
theorem ProperNames.contained (hnames : ∀ name ∈ output.names, IsName name) (h : ProperNames schema) :
    Contained schema output := by
  have houtput : output.normalNames = output.names := Path.normalNames_of_isName hnames
  intro directory hnamed
  cases hnamed with
  | @table table mem =>
    rw [Path.normal_child (h.tables table mem), Path.isWithin_iff, houtput]
    exact ⟨rfl, List.prefix_append ..⟩
  | @routine routine mem =>
    rw [Path.normal_child (h.routines routine mem), Path.isWithin_iff, functionsPath,
      Path.child_of_isName output isName_functions, Path.normalNames_append isName_functions, houtput,
      List.append_assoc]
    exact ⟨rfl, List.prefix_append ..⟩

end Generation

namespace Integration

open Generation

variable {disk last : Disk} {config : Config} {root : Text} {found : List GeneratedFile}

-- Every generated file is strictly below the output directory exactly when no table or function has a
-- name that leads out of it.
theorem files_below_iff (tree : disk.IsTree)
    (hfiles : Ends (files schema config (.ofText root)) disk last (.ok found)) :
    ∃ output, Ends (config.outputPath (.ofText root)) disk disk (.ok output) ∧
      ((∀ file ∈ found, Manifest.isBelow output (Path.ofText file.path).normal) ↔ Contained schema output) := by
  obtain ⟨output, houtput, h⟩ := (readOnly_resolve _).bind_ok.mp hfiles
  refine ⟨output, houtput, ?_⟩
  obtain ⟨place, hplace, heq⟩ := (readOnly_query _).bind_ok.mp houtput
  obtain rfl := Except.ok.inj (ends_pure.mp heq).2
  have hresolve := (ends_query_eq_ok.mp hplace).2
  have hnames := Disk.isName_of_resolve tree ((Path.isRead_ofText root).child _) hresolve
  obtain ⟨-, hgenerated⟩ := ends_ofLogged.mp h
  cases houtcome : (generate schema config.supabasePath (.ofPlace place)).outcome with
  | error e => simp [houtcome] at hgenerated
  | ok files =>
    obtain rfl : files = found := by simpa [houtcome] using hgenerated
    exact generated_below_iff hnames houtcome

section Sample

-- A table whose name leads to the directory beside the output.
def besideSource : Text :=
  "type Database = \x7b public: \x7b Tables: \x7b '../other': \x7b\x7d \x7d \x7d \x7d"

def besideDeclared : DeclarationFile := ⟨"database.ts", (Source.parseDeclarations besideSource).getD []⟩

theorem besideDeclared_introspected :
    (Introspection.introspect besideDeclared "public" "Database").outcome.toOption.isSome := by
  decide +kernel

def besideSchema : Schema :=
  (Introspection.introspect besideDeclared "public" "Database").outcome.toOption.get
    besideDeclared_introspected

theorem besideSchema_generated :
    (files besideSchema .default (.ofText "/p") .empty).2.outcome.toOption.isSome := by
  decide +kernel

def besideFiles : List GeneratedFile :=
  (files besideSchema .default (.ofText "/p") .empty).2.outcome.toOption.get besideSchema_generated

theorem besideFiles_ends :
    Ends (files besideSchema .default (.ofText "/p")) .empty .empty (.ok besideFiles) :=
  ⟨(readOnly_files _ _ _) .empty, ok_get besideSchema_generated⟩

theorem empty_isTree : Disk.empty.IsTree :=
  .of_entries (by decide) (by decide) (by decide) (by decide)

theorem files_below_iff_beside :
    Disk.empty.IsTree ∧ Ends (files besideSchema .default (.ofText "/p")) .empty .empty (.ok besideFiles) ∧
    ∃ output, Ends (Config.outputPath .default (.ofText "/p")) .empty .empty (.ok output) ∧
      ((∀ file ∈ besideFiles, Manifest.isBelow output (Path.ofText file.path).normal) ↔
        Contained besideSchema output) :=
  ⟨empty_isTree, besideFiles_ends, files_below_iff empty_isTree besideFiles_ends⟩

-- The files of this table lie outside.
theorem beside_not_below :
    (DeclarationFile.parse "database.ts" besideSource).outcome = .ok besideDeclared ∧
    (Source.parseDeclarations besideSource).isSome ∧
    (Introspection.introspect besideDeclared "public" "Database").outcome = .ok besideSchema ∧
    Ends (files besideSchema .default (.ofText "/p")) .empty .empty (.ok besideFiles) ∧
    Ends (Config.outputPath .default (.ofText "/p")) .empty .empty (.ok (.ofText "/p/lib/database")) ∧
    ∃ file ∈ besideFiles, file.path = "/p/lib/database/../other/types.ts" ∧
      ¬ Manifest.isBelow (.ofText "/p/lib/database") (Path.ofText file.path).normal := by
  have hmem : Text.ofString "/p/lib/database/../other/types.ts" ∈ besideFiles.map (·.path) := by
    decide +kernel
  obtain ⟨file, hfile, hpath⟩ := List.mem_map.mp hmem
  have hresolve : Disk.empty.resolve ((Path.ofText "/p").child Config.default.output) =
      .ok (Path.ofText "/p/lib/database").names := by
    rfl
  refine ⟨DeclarationFile.outcome_parse .., by decide +kernel, ok_get besideDeclared_introspected,
    besideFiles_ends, ends_resolve_ok hresolve, file, hfile, hpath, ?_⟩
  rw [hpath]
  decide +kernel

end Sample

end Integration

end HookGen
