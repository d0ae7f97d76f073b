import HookGen.Proofs.Generation.Contents
import HookGen.Proofs.Generation.Required
import HookGen.Proofs.Render.Recorded
import HookGen.Proofs.Schema.Introspection

/-!
What modules of types import: only names that the shared modules of the same generation declare.
-/

namespace HookGen

open Render Traced

variable {schema : Schema} {clientPath : Text} {output : Path} {notes : List Note} {name : Text}

-- What a note refers to is there.
def Render.Note.Declared (schema : Schema) : Note → Prop
  | .baseType name => schema.isBaseType name
  | .enumeration name => ∃ enumeration ∈ schema.enums, enumeration.typeName = name
  | .unresolved _ => True

theorem Schema.mem_enums_of_path {path : List Text} {enumeration : Enumeration}
    (h : schema.enumOfPath? path = some enumeration) : enumeration ∈ schema.enums := by
  unfold enumOfPath? at h
  split at h
  · split at h
    · exact List.mem_of_find?_eq_some h
    · cases h
  · cases h

theorem Render.declared_of_mem_notes {shape : Shape} {indent : Int} {n : Note}
    (h : n ∈ (render schema indent shape).notes) : n.Declared schema := by
  cases n with
  | unresolved path => trivial
  | baseType name =>
    obtain ⟨part, -, hown⟩ := exists_within_of_mem_notes h nofun
    exact (baseType_mem_ownNotes.mp hown).2.2
  | enumeration name =>
    obtain ⟨part, -, hown⟩ := exists_within_of_mem_notes h nofun
    obtain ⟨label, path, enumeration, -, henum, rfl⟩ := enumeration_mem_ownNotes.mp hown
    exact ⟨enumeration, Schema.mem_enums_of_path henum, rfl⟩

namespace Generation

theorem declared_of_mem_notes {module : TypesModule} (hmodule : module ∈ typesModules schema output)
    {n : Note} (h : n ∈ module.declarations.notes) : n.Declared schema := by
  obtain ⟨shape, -, hnote⟩ := exists_shape_of_mem_notes hmodule h
  exact Render.declared_of_mem_notes hnote

-- A statement that imports types from another module.
structure TypeImport where
  names : List Text
  source : Text

namespace TypeImport

def text (statement : TypeImport) : Text :=
  "import type \x7b " ++ Text.join ", " statement.names ++ " \x7d from '" ++ statement.source ++ "';"

-- The text of several imports with the empty line behind them.
def textOf : List TypeImport → Text
  | [] => []
  | statements => Text.joinLines (statements.map text) ++ "\n\n"

-- The imports of the names that some notes mention.
def ofNotes (shared : SharedImports) (notes : List Note) : List TypeImport :=
  [⟨Text.sortDistinct (notes.filterMap Note.baseType?), shared.baseTypes⟩,
    ⟨Text.sortDistinct (notes.filterMap Note.enumeration?), shared.enums⟩].filter (!·.names.isEmpty)

end TypeImport

-- The imports of a module: what stands between the comment at its top, which has no slash that could
-- end it, and the first of its declarations, which is exported or has a comment of its own.
def Imports (content : Text) (statements : List TypeImport) : Prop :=
  ∃ comment rest, content = Code.banner comment ++ "\n\n" ++ TypeImport.textOf statements ++ rest ∧
    .char '/' ∉ comment ∧ (("export " : Text) <+: rest ∨ ("/**" : Text) <+: rest)

theorem importNames_eq (names : List Text) (source : Text) :
    Code.importNames true names source =
      if (Text.sortDistinct names).isEmpty then []
      else TypeImport.text ⟨Text.sortDistinct names, source⟩ := rfl

theorem TypeImport.text_ne_nil (statement : TypeImport) : statement.text ≠ [] := by
  simp [text, Text.ofString, Text.ofChars]

theorem imports_eq (shared : SharedImports) (notes : List Note) :
    imports shared notes = Text.joinLines ((TypeImport.ofNotes shared notes).map TypeImport.text) := by
  rw [imports, importNames_eq, importNames_eq, TypeImport.ofNotes]
  by_cases hbase : (Text.sortDistinct (notes.filterMap Note.baseType?)).isEmpty <;>
    by_cases henum : (Text.sortDistinct (notes.filterMap Note.enumeration?)).isEmpty <;>
    simp [hbase, henum, TypeImport.text_ne_nil]

theorem joinLines_ne_nil {first : Text} (rest : List Text) (h : first ≠ []) :
    Text.joinLines (first :: rest) ≠ [] := by
  cases rest with
  | nil => rwa [Text.joinLines, Text.join_singleton]
  | cons second rest => simp [Text.joinLines, Text.join_cons_cons, h]

theorem prefix_join {start separator first : Text} (h : start <+: first) (rest : List Text) :
    start <+: Text.join separator (first :: rest) := by
  cases rest with
  | nil => rwa [Text.join_singleton]
  | cons second rest =>
    rw [Text.join_cons_cons, List.append_assoc]
    exact h.trans (List.prefix_append ..)

-- The imports of a module are what it was assembled with.
theorem imports_assemble {comment first : Text} (hcomment : .char '/' ∉ comment)
    (hfirst : ("export " : Text) <+: first) (statements : List TypeImport) (others : List Text) :
    Imports (Code.assemble comment (Text.joinLines (statements.map TypeImport.text)) (first :: others))
      statements := by
  refine ⟨comment, Text.join "\n\n" (first :: others) ++ "\n", ?_, hcomment, .inl ?_⟩
  · cases statements with
    | nil =>
      have hnone : Text.joinLines [] = [] := rfl
      simp only [Code.assemble, Code.joinSections, List.map_nil, hnone, List.isEmpty_nil, if_true,
        List.nil_append, List.cons_append, Text.join_cons_cons, TypeImport.textOf, List.append_assoc]
    | cons statement rest =>
      have hsome : (Text.joinLines ((statement :: rest).map TypeImport.text)).isEmpty = false :=
        List.isEmpty_eq_false_iff.mpr (joinLines_ne_nil _ statement.text_ne_nil)
      simp only [Code.assemble, Code.joinSections, hsome, Bool.false_eq_true, if_false,
        List.nil_append, List.cons_append, Text.join_cons_cons, TypeImport.textOf, List.append_assoc]
  · exact (prefix_join hfirst others).trans (List.prefix_append ..)

theorem exported_declare (name text : Text) : ("export " : Text) <+: Types.declare name text := by
  refine ⟨"type " ++ name ++ " = " ++ text ++ ";", ?_⟩
  simp [Types.declare, Text.ofString, Text.ofChars]

-- The sections of every module of types: first a declaration that is exported.
theorem exported_of_module {module : TypesModule} (hmodule : module ∈ typesModules schema output)
    {texts : List Text} (htexts : module.declarations.outcome = .ok texts) :
    ∃ first others, texts = first :: others ∧ ("export " : Text) <+: first := by
  rcases List.mem_append.mp hmodule with hmem | hmem
  · obtain ⟨table, -, rfl⟩ := List.mem_map.mp hmem
    simp only [TypesModule.ofTable, Types.tableDeclarations, outcome_bind_eq_ok] at htexts
    obtain ⟨row, -, insert, -, update, -, htexts⟩ := htexts
    simp only [pure_eq, Except.ok.injEq] at htexts
    exact ⟨_, _, htexts.symm, exported_declare ..⟩
  · obtain ⟨routine, -, rfl⟩ := List.mem_map.mp hmem
    simp only [TypesModule.ofRoutine, Types.routineDeclarations, outcome_bind_eq_ok] at htexts
    obtain ⟨args, -, returns, -, htexts⟩ := htexts
    simp only [pure_eq, Except.ok.injEq] at htexts
    exact ⟨_, _, htexts.symm, exported_declare ..⟩

-- The names of tables and functions can stand in paths.
structure ProperNames (schema : Schema) : Prop where
  tables : ∀ table ∈ schema.tables, IsName table.name
  routines : ∀ routine ∈ schema.publicRoutines, IsName routine.name

theorem comment_of_module (hnames : ProperNames schema) {module : TypesModule}
    (hmodule : module ∈ typesModules schema output) : .char '/' ∉ module.comment := by
  rcases List.mem_append.mp hmodule with hmem | hmem
  · obtain ⟨table, htable, rfl⟩ := List.mem_map.mp hmem
    rw [TypesModule.ofTable, List.mem_append, not_or]
    exact ⟨by decide, (hnames.tables table htable).no_slash⟩
  · obtain ⟨routine, hroutine, rfl⟩ := List.mem_map.mp hmem
    rw [TypesModule.ofRoutine, List.mem_append, not_or]
    exact ⟨by decide, (hnames.routines routine hroutine).no_slash⟩

theorem imports_of_module (hnames : ProperNames schema) {module : TypesModule}
    (hmodule : module ∈ typesModules schema output) {texts : List Text}
    (htexts : module.declarations.outcome = .ok texts) :
    Imports (module.content output texts)
      (TypeImport.ofNotes (sharedImports output module.path) module.declarations.notes) := by
  obtain ⟨first, others, rfl, hfirst⟩ := exported_of_module hmodule htexts
  rw [TypesModule.content, imports_eq]
  exact imports_assemble (comment_of_module hnames hmodule) hfirst _ others

set_option maxRecDepth 20000 in
-- The literal is turned into its characters without going through its bytes.
theorem typesModule_eq : ∃ rest, Storage.typesModule =
    Code.banner "Auto-generated type definitions for storage operations" ++ "\n\n" ++ ("/**" ++ rest) := by
  refine ⟨?rest, (Text.ofString_ofList _).trans ?_⟩
  rotate_left
  · rfl

theorem imports_storage : Imports Storage.typesModule [] := by
  obtain ⟨rest, heq⟩ := typesModule_eq
  refine ⟨"Auto-generated type definitions for storage operations", "/**" ++ rest, ?_, ?_,
    .inr (List.prefix_append ..)⟩
  · rw [heq, TypeImport.textOf, List.append_nil]
  · decide

section Specifiers

-- A module of types lies one or two directories below the output.
theorem normalNames_parent (hnames : ProperNames schema) {module : TypesModule}
    (hmodule : module ∈ typesModules schema output) :
    ∃ below, module.path.parent.normalNames = output.normalNames ++ below ∧
      ((∃ name, below = [name]) ∨ ∃ name, below = [Text.ofString "functions", name]) := by
  have hparent (directory : Path) :
      (directory.child "types.ts").parent = directory := by
    rw [Path.child_of_isName _ isModuleName_types.isName, Path.parent, List.dropLast_concat]
  rcases List.mem_append.mp hmodule with hmem | hmem
  · obtain ⟨table, htable, rfl⟩ := List.mem_map.mp hmem
    have hname := hnames.tables table htable
    refine ⟨[table.name], ?_, .inl ⟨_, rfl⟩⟩
    rw [TypesModule.ofTable, hparent, Path.child_of_isName _ hname, Path.normalNames_append hname]
  · obtain ⟨routine, hroutine, rfl⟩ := List.mem_map.mp hmem
    have hname := hnames.routines routine hroutine
    refine ⟨[Text.ofString "functions", routine.name], ?_, .inr ⟨_, rfl⟩⟩
    rw [TypesModule.ofRoutine, hparent, functionsPath, Path.child_of_isName _ hname,
      Path.normalNames_append hname, Path.child_of_isName _ isName_functions,
      Path.normalNames_append isName_functions, List.append_assoc]
    rfl

-- The two shared modules are never imported from one place.
theorem specifier_ne (hnames : ProperNames schema) {module : TypesModule}
    (hmodule : module ∈ typesModules schema output) :
    (sharedImports output module.path).baseTypes ≠ (sharedImports output module.path).enums := by
  obtain ⟨below, hparent, hbelow⟩ := normalNames_parent hnames hmodule
  have hbare (name : Text) (hname : IsName name) :
      (output.child name).normalNames = output.normalNames ++ [name] := by
    rw [Path.child_of_isName output hname, Path.normalNames_append hname]
  simp only [sharedImports, Path.specifier, hparent, hbare "base-types" (by decide),
    hbare "enums" (by decide), Path.wayNames_append]
  rcases hbelow with ⟨name, rfl⟩ | ⟨name, rfl⟩
  · have hway (target : Text) : Path.wayNames [name] [target] =
        if name = target then [] else [Text.ofString "..", target] := by
      by_cases h : name = target <;> simp [Path.wayNames, Path.sharedLength, h]
    rw [hway, hway]
    by_cases hbase : name = "base-types"
    · subst hbase
      decide
    · by_cases henum : name = "enums"
      · subst henum
        decide
      · rw [if_neg hbase, if_neg henum]
        decide
  · have hway (target : Text) (h : ("functions" : Text) ≠ target) :
        Path.wayNames [Text.ofString "functions", name] [target] =
          [Text.ofString "..", Text.ofString "..", target] := by
      simp [Path.wayNames, Path.sharedLength, h]
    rw [hway _ (by decide), hway _ (by decide)]
    decide

end Specifiers

section Shared

-- A module has a section among those it was joined from.
def HasSection (content part : Text) : Prop :=
  ∃ before after, content = Code.joinSections (before ++ part :: after)

theorem hasSection_of_mem {part : Text} {sections : List Text} (h : part ∈ sections) :
    HasSection (Code.joinSections sections) part := by
  obtain ⟨before, after, rfl⟩ := List.append_of_mem h
  exact ⟨before, after, rfl⟩

-- A base type that some module refers to is declared in the module of base types.
theorem baseType_provided {module : TypesModule} (hmodule : module ∈ typesModules schema output)
    (h : .baseType name ∈ module.declarations.notes) :
    ∃ file ∈ baseTypesFiles schema output, HasSection file.content (schema.baseTypeSource name) := by
  have hused : name ∈ usedBaseTypes schema output :=
    mem_baseTypes.mpr (List.mem_flatMap.mpr ⟨module, hmodule, h⟩)
  have hsome : (usedBaseTypes schema output).isEmpty = false :=
    List.isEmpty_eq_false_iff.mpr (List.ne_nil_of_mem hused)
  have hdeclared : schema.isBaseType name := declared_of_mem_notes hmodule h
  have hname : name ∈ Types.baseTypeNames schema := by
    simpa [Types.baseTypeNames, Schema.isBaseType] using hdeclared
  have hrequired := Types.mem_requiredBaseTypes_iff.mpr ⟨hname, .used hused⟩
  refine ⟨file (baseTypesPath output) (Types.baseTypesModule schema (usedBaseTypes schema output)), ?_,
    hasSection_of_mem (List.mem_cons_of_mem _ (List.mem_map_of_mem hrequired))⟩
  simp [baseTypesFiles, hsome]

-- An enum that some module refers to is declared in the module of enums.
theorem enumeration_provided {module : TypesModule} (hmodule : module ∈ typesModules schema output)
    (henums : schema.enums ≠ [] → schema.hasEnums)
    (h : .enumeration name ∈ module.declarations.notes) :
    ∃ file ∈ enumsFiles schema output, ∃ text, HasSection file.content (Types.declare name text) := by
  obtain ⟨enumeration, hmem, rfl⟩ := declared_of_mem_notes hmodule h
  have hsome := henums (List.ne_nil_of_mem hmem)
  have hdeclaration : Types.enumDeclaration enumeration ∈ schema.enums.map Types.enumDeclaration :=
    List.mem_map_of_mem hmem
  refine ⟨file (enumsPath output) (Types.enumsModule schema.enums schema.name), ?_, _,
    hasSection_of_mem (List.mem_cons_of_mem _ hdeclaration)⟩
  simp [enumsFiles, hsome]

end Shared

-- Files hold a module that has a section of some kind for each of several names.
def Provides (files : List GeneratedFile) (path : Path) (names : List Text)
    (declares : Text → Text → Prop) : Prop :=
  ∃ file ∈ files, file.path = path.text ∧
    ∀ name ∈ names, ∃ part, declares name part ∧ HasSection file.content part

theorem provides_of_mem {files shared : List GeneratedFile} {path : Path} {names : List Text}
    {declares : Text → Text → Prop}
    (hone : ∀ file ∈ shared, shared = [file] ∧ file.path = path.text) (hfiles : ∀ file ∈ shared, file ∈ files)
    (hne : names ≠ [])
    (h : ∀ name ∈ names, ∃ file ∈ shared, ∃ part, declares name part ∧ HasSection file.content part) :
    Provides files path names declares := by
  obtain ⟨first, hfirst⟩ := List.exists_mem_of_ne_nil names hne
  obtain ⟨file, hfile, -⟩ := h first hfirst
  obtain ⟨heq, hpath⟩ := hone file hfile
  refine ⟨file, hfiles file hfile, hpath, fun name hname => ?_⟩
  obtain ⟨other, hother, hpart⟩ := h name hname
  rw [heq, List.mem_singleton] at hother
  exact hother ▸ hpart

@[simp] theorem file_content (path : Path) (content : Text) : (file path content).content = content := rfl

-- Every import of a module of types is met by the files it is generated with: an import from the base types
-- by the declarations with its names, and an import from the enums by exported types with its names.
def ImportsMet (declared : DeclarationFile) (output : Path) (files : List GeneratedFile)
    (file : GeneratedFile) : Prop :=
  ∃ (path : Path) (statements : List TypeImport),
    file.path = path.text ∧ Imports file.content statements ∧
    ∀ statement ∈ statements, statement.names ≠ [] ∧
      (statement.source = path.specifier (output.child "base-types") ∨
        statement.source = path.specifier (output.child "enums")) ∧
      (statement.source = path.specifier (output.child "base-types") →
        Provides files (baseTypesPath output) statement.names fun name part =>
          ∃ declaration ∈ declared.declarations, declaration.name = name ∧
            part = Introspection.exportedSource declaration) ∧
      (statement.source = path.specifier (output.child "enums") →
        Provides files (enumsPath output) statement.names fun name part =>
          ∃ text, part = Types.declare name text)

-- No module of types imports a name that is not declared where it imports it from.
theorem imports_met {declared : DeclarationFile} {schemaName rootName : Text} {files : List GeneratedFile}
    (hschema : (Introspection.introspect declared schemaName rootName).outcome = .ok schema)
    (hnames : ProperNames schema) (hfiles : (generate schema clientPath output).outcome = .ok files) :
    ∀ file ∈ files, IsTypesPath file.path → ImportsMet declared output files file := by
  have hdescribes := Introspection.introspect_describes hschema
  have hgenerated := generate_types hfiles
  intro file hfile hpath
  cases hgenerated.isTypesFile hfile hpath with
  | storage =>
    refine ⟨(output.child "storage").child "types.ts", [], rfl, ?_, nofun⟩
    rw [file_content]
    exact imports_storage
  | @rendered module texts hmodule htexts =>
    refine ⟨module.path, _, rfl, imports_of_module hnames hmodule htexts, ?_⟩
    have hne := specifier_ne hnames hmodule
    intro statement hstatement
    obtain ⟨hmem, hsome⟩ := List.mem_filter.mp hstatement
    have hnonempty : statement.names ≠ [] := by simpa using hsome
    refine ⟨hnonempty, ?_⟩
    rcases List.mem_cons.mp hmem with rfl | hmem
    · refine ⟨.inl rfl, fun _ => ?_, fun heq => absurd heq hne⟩
      refine provides_of_mem (fun _ => eq_of_mem_baseTypesFiles) hgenerated.baseTypes hnonempty ?_
      intro name hname
      have hnote := mem_baseTypes.mp (Text.mem_sortDistinct.mp hname)
      obtain ⟨file, hfile, hsection⟩ := baseType_provided hmodule hnote
      exact ⟨file, hfile, _, hdescribes.exists_declaration (declared_of_mem_notes hmodule hnote), hsection⟩
    · obtain rfl := List.mem_singleton.mp hmem
      refine ⟨.inr rfl, fun heq => absurd heq.symm hne, fun _ => ?_⟩
      refine provides_of_mem (fun _ => eq_of_mem_enumsFiles) hgenerated.enums hnonempty ?_
      intro name hname
      have hnote := mem_enumerations.mp (Text.mem_sortDistinct.mp hname)
      obtain ⟨file, hfile, text, hsection⟩ := enumeration_provided hmodule hdescribes.enums hnote
      exact ⟨file, hfile, _, ⟨text, rfl⟩, hsection⟩

section Sample

private def single (kind : Source.Kind) (t : Text) : List Source.Token := [⟨[], kind, t⟩]

private def field (name : Text) (type : Source.TypeExpr) : Source.Entry :=
  .property (single .word name) false false (some type)

private def quotedKey (target : Source.TypeExpr) (key : Text) : Source.TypeExpr :=
  .access target (.verbatim []) (single .string ("'" ++ key ++ "'")) []

-- A table that refers to a base type, and to an enum by way of the root type.
def accountsRoot : Source.TypeExpr :=
  .object [field "public" (.object [
    field "Tables" (.object [field "accounts" (.object [field "Row" (.object [
      field "data" (.name ⟨[], .word, "Json"⟩),
      field "state" (quotedKey (quotedKey (quotedKey (.name ⟨[], .word, "Database"⟩) "public") "Enums")
        "state")])])]),
    field "Enums" (.object [field "state" (.verbatim (single .string "'on'"))])])]

def accountsDeclared : DeclarationFile := ⟨"database.ts", [
  ⟨"Json", .verbatim (single .word "string"), "type Json = string;", false, false, false⟩,
  ⟨"Database", accountsRoot, [], false, false, true⟩]⟩

def accountsSchema : Schema :=
  (Introspection.introspect accountsDeclared "public" "Database").outcome.toOption.get
    (by decide +kernel)

def accountsFiles : List GeneratedFile :=
  (generate accountsSchema "@/lib/client" (.ofText "out")).outcome.toOption.get (by decide +kernel)

theorem ok_get {ε α : Type} {x : Except ε α} (h : x.toOption.isSome) : x = .ok (x.toOption.get h) := by
  cases x with
  | error e => cases h
  | ok a => rfl

theorem accountsSchema_names : accountsSchema.tables.map (·.name) = [Text.ofString "accounts"] ∧
    accountsSchema.publicRoutines.map (·.name) = [] := by
  decide +kernel

theorem accountsSchema_properNames : ProperNames accountsSchema := by
  have hnames := accountsSchema_names
  constructor
  · intro table htable
    have hname : table.name ∈ [Text.ofString "accounts"] := hnames.1 ▸ List.mem_map_of_mem htable
    rw [List.mem_singleton.mp hname]
    decide
  · intro routine hroutine
    have hname := List.mem_map_of_mem (f := (·.name)) hroutine
    rw [hnames.2] at hname
    cases hname

theorem accountsFiles_generated :
    (generate accountsSchema "@/lib/client" (.ofText "out")).outcome = .ok accountsFiles :=
  ok_get (by decide +kernel)

theorem imports_met_accounts :
    (Introspection.introspect accountsDeclared "public" "Database").outcome = .ok accountsSchema ∧
    ProperNames accountsSchema ∧
    (generate accountsSchema "@/lib/client" (.ofText "out")).outcome = .ok accountsFiles ∧
    ∃ file ∈ accountsFiles, file.path = "out/accounts/types.ts" ∧ IsTypesPath file.path ∧
      ImportsMet accountsDeclared (.ofText "out") accountsFiles file := by
  have hmem : Text.ofString "out/accounts/types.ts" ∈ accountsFiles.map (·.path) := by decide +kernel
  obtain ⟨file, hfile, hpath⟩ := List.mem_map.mp hmem
  have htypes : IsTypesPath file.path := by
    rw [hpath, IsTypesPath]
    decide
  have hschema := ok_get (x := (Introspection.introspect accountsDeclared "public" "Database").outcome)
    (by decide +kernel)
  exact ⟨hschema, accountsSchema_properNames, accountsFiles_generated, file, hfile, hpath, htypes,
    imports_met hschema accountsSchema_properNames accountsFiles_generated file hfile htypes⟩

end Sample

end Generation

end HookGen
