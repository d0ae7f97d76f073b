import HookGen.Proofs.Generation.Imports
import HookGen.Proofs.Text.Word

/-!
References to base types in generated files. Where a part of a type is called by the name of a base type,
the base type is imported, but texts that are kept as they stand in the source are not looked into.
-/

namespace HookGen

open Render Traced

variable {schema : Schema} {clientPath : Text} {output : Path} {refers : Text → Text → Prop} {name : Text}

-- The texts of a shape itself that are kept as they stand in the source.
def Shape.keptTexts : Shape → List Text
  | .leaf label => if label.reference.isNone then label.text.toList else []
  | .object _ _ signatures => signatures
  | _ => []

theorem Shape.keptTexts_subset (shape : Shape) : shape.keptTexts ⊆ ownTexts shape := by
  cases shape with
  | leaf label =>
    simp only [keptTexts, ownTexts]
    split
    · exact List.Subset.refl _
    · exact List.nil_subset _
  | object label members signatures => exact List.Subset.refl _
  | _ => exact List.nil_subset _

theorem Introspection.IsFound.single {root shape : Shape} (h : IsFound root shape)
    (hroot : SingleElements root) : SingleElements shape := by
  rcases h with hpart | rfl | ⟨t, rfl⟩
  · exact hroot.part hpart
  · exact (Shape.plain_ofType (.object [])).single
  · exact (Shape.plain_text True t).single

theorem Introspection.Describes.single {file : DeclarationFile} {rootName : Text}
    (h : Describes file rootName schema) : SingleElements schema.root := by
  obtain ⟨declaration, -, heq⟩ := Option.map_eq_some_iff.mp h.root
  rw [← heq]
  exact (Shape.plain_ofType declaration.value).single

theorem Types.single_merge {shapes : List Shape} (h : ∀ shape ∈ shapes, SingleElements shape) :
    SingleElements (merge shapes) := by
  unfold merge
  split
  · exact h _ (List.mem_singleton_self _)
  · rename_i hmany
    intro label args hpart
    cases hpart with
    | arg harg hrest => exact h _ harg label args hrest
    | member hmember => cases hmember

namespace Generation

-- The names that a file refers to, and those that it has because it imports or declares them.
structure FileNames where
  refersTo : Text → Prop
  has : Text → Prop

-- The file has the base types that it refers to.
def FileNames.Closed (schema : Schema) (names : FileNames) : Prop :=
  ∀ name, name ≠ [] → schema.isBaseType name → names.refersTo name → names.has name

namespace TypesModule

variable (schema) (module : TypesModule)

-- What one comes to from the types in a module.
def Reaches (part : Shape) : Prop := ∃ shape ∈ module.shapes, Within schema shape part

-- The types that a module mentions by themselves: by the name of a leaf or a generic type, or by an access to
-- an enum. The types it declares are among them, since the filters of a table are made from its rows.
def Mentions (name : Text) : Prop :=
  (∃ part, module.Reaches schema part ∧ part.RefersTo name) ∨
    (∃ label path enumeration, module.Reaches schema (.lookup label path) ∧
      schema.enumOfPath? path = some enumeration ∧ name = enumeration.typeName) ∨
    name ∈ module.names

-- A text in the module stands as it does in the source.
def Keeps (text : Text) : Prop := ∃ part, module.Reaches schema part ∧ text ∈ part.keptTexts

-- Each base type that a kept text of the module refers to is mentioned by it besides.
def MentionsKept (refers : Text → Text → Prop) : Prop :=
  ∀ text name, module.Keeps schema text → refers text name → name ≠ [] → schema.isBaseType name →
    module.Mentions schema name

-- The names in the file of a module, given what kept texts refer to.
def fileNames (refers : Text → Text → Prop) (output : Path) : FileNames where
  refersTo name := module.Mentions schema name ∨ ∃ text, module.Keeps schema text ∧ refers text name
  has name :=
    (∃ statement ∈ TypeImport.ofNotes (sharedImports output module.path) module.declarations.notes,
      name ∈ statement.names) ∨ name ∈ module.names

end TypesModule

-- The names in the file of the base types: they are declared by their sources.
def baseTypesNames (refers : Text → Text → Prop) (schema : Schema) (output : Path) : FileNames where
  refersTo name := ∃ other ∈ Types.requiredBaseTypes schema (usedBaseTypes schema output),
    refers (schema.baseTypeSource other) name
  has name := name ∈ Types.requiredBaseTypes schema (usedBaseTypes schema output)

-- The types that the module for storage declares.
def storageTypeNames : List Text :=
  ["FileObject", "UploadOptions", "ListOptions", "GetURLOptions", "MoveOptions", "Bucket"]

-- The names in this module, which is always the same.
def storageNames : FileNames where
  refersTo name := name ∈ [Text.ofString "Record", "Bucket"]
  has name := name ∈ storageTypeNames

theorem storageNames_closed_iff : storageNames.Closed schema ↔ ¬ schema.isBaseType "Record" := by
  have hmissing : Text.ofString "Record" ∉ storageTypeNames := by decide
  have hbucket : Text.ofString "Bucket" ∈ storageTypeNames := by decide
  constructor
  · intro h hrecord
    exact hmissing (h "Record" (by decide) hrecord (List.mem_cons_self ..))
  · intro hnone name _ hbase hrefers
    rcases List.mem_cons.mp hrefers with rfl | hmem
    · exact absurd hbase hnone
    · exact List.mem_singleton.mp hmem ▸ hbucket

section Modules

variable {module : TypesModule} {texts : List Text}

theorem single_of_mem_shapes {file : DeclarationFile} {rootName : Text}
    (hdescribes : Introspection.Describes file rootName schema)
    (hmodule : module ∈ typesModules schema output) {shape : Shape} (hshape : shape ∈ module.shapes) :
    SingleElements shape := by
  have hroot := hdescribes.single
  rcases List.mem_append.mp hmodule with hmem | hmem
  · obtain ⟨table, htable, rfl⟩ := List.mem_map.mp hmem
    obtain ⟨hrow, hinsert, hupdate⟩ := hdescribes.tables table htable
    simp only [TypesModule.ofTable, List.mem_cons, List.not_mem_nil, or_false] at hshape
    rcases hshape with rfl | rfl | rfl
    · exact hrow.single hroot
    · exact hinsert.single hroot
    · exact hupdate.single hroot
  · obtain ⟨routine, hroutine, rfl⟩ := List.mem_map.mp hmem
    have hsignatures := hdescribes.routines routine (List.mem_filter.mp hroutine).1
    simp only [TypesModule.ofRoutine, List.mem_cons, List.not_mem_nil, or_false] at hshape
    rcases hshape with rfl | rfl
    · refine Types.single_merge (List.forall_mem_map.mpr fun signature hsignature => ?_)
      exact (hsignatures signature hsignature).1.single hroot
    · refine Types.single_merge (List.forall_mem_map.mpr fun signature hsignature => ?_)
      exact (hsignatures signature hsignature).2.single hroot

-- A module notes the own notes of what one comes to from its shapes.
theorem mem_notes_iff {file : DeclarationFile} {rootName : Text}
    (hdescribes : Introspection.Describes file rootName schema)
    (hmodule : module ∈ typesModules schema output) (htexts : module.declarations.outcome = .ok texts)
    {n : Note} (hname : ∀ shown, n ≠ .unresolved shown) :
    n ∈ module.declarations.notes ↔ ∃ part, module.Reaches schema part ∧ n ∈ ownNotes schema part := by
  constructor
  · intro hnote
    obtain ⟨shape, hshape, hmem⟩ := exists_shape_of_mem_notes hmodule hnote
    obtain ⟨part, hwithin, hown⟩ := exists_within_of_mem_notes hmem hname
    exact ⟨part, ⟨shape, hshape, hwithin⟩, hown⟩
  · rintro ⟨part, ⟨shape, hshape, hwithin⟩, hown⟩
    obtain ⟨⟨⟨t, ht⟩, hnotes⟩, -⟩ := rendered_of_mem_shapes hmodule htexts hshape
    have hsingle := single_of_mem_shapes hdescribes hmodule hshape
    exact hnotes (ownNotes_subset_render hdescribes.single hsingle ht hwithin hown)

theorem imported_iff {shared : SharedImports} {notes : List Note} :
    (∃ statement ∈ TypeImport.ofNotes shared notes, name ∈ statement.names) ↔
      .baseType name ∈ notes ∨ .enumeration name ∈ notes := by
  have hkept {statements : List TypeImport} :
      (∃ statement ∈ statements.filter (!·.names.isEmpty), name ∈ statement.names) ↔
        ∃ statement ∈ statements, name ∈ statement.names := by
    constructor
    · rintro ⟨statement, hmem, hname⟩
      exact ⟨statement, (List.mem_filter.mp hmem).1, hname⟩
    · rintro ⟨statement, hmem, hname⟩
      refine ⟨statement, List.mem_filter.mpr ⟨hmem, ?_⟩, hname⟩
      simpa using List.ne_nil_of_mem hname
  rw [TypeImport.ofNotes, hkept]
  simp only [List.mem_cons, List.not_mem_nil, or_false, exists_eq_or_imp, exists_eq_left,
    Text.mem_sortDistinct, mem_baseTypes, mem_enumerations]

-- A base type is imported or declared exactly if the module mentions it.
theorem has_iff_mentions {file : DeclarationFile} {rootName : Text}
    (hdescribes : Introspection.Describes file rootName schema)
    (hmodule : module ∈ typesModules schema output) (htexts : module.declarations.outcome = .ok texts)
    (hne : name ≠ []) (hbase : schema.isBaseType name) :
    (module.fileNames schema refers output).has name ↔ module.Mentions schema name := by
  simp only [TypesModule.fileNames, TypesModule.Mentions, imported_iff,
    mem_notes_iff hdescribes hmodule htexts (n := .baseType name) nofun,
    mem_notes_iff hdescribes hmodule htexts (n := .enumeration name) nofun,
    baseType_mem_ownNotes, enumeration_mem_ownNotes, or_assoc]
  refine or_congr ?_ (or_congr ?_ Iff.rfl)
  · exact exists_congr fun part => and_congr_right fun _ => and_iff_left ⟨hne, hbase⟩
  · constructor
    · rintro ⟨_, hreaches, label, path, enumeration, rfl, henum⟩
      exact ⟨label, path, enumeration, hreaches, henum⟩
    · rintro ⟨label, path, enumeration, hreaches, henum⟩
      exact ⟨_, hreaches, label, path, enumeration, rfl, henum⟩

-- So all that matters is what kept texts refer to.
theorem module_closed_iff {file : DeclarationFile} {rootName : Text}
    (hdescribes : Introspection.Describes file rootName schema)
    (hmodule : module ∈ typesModules schema output) (htexts : module.declarations.outcome = .ok texts) :
    (module.fileNames schema refers output).Closed schema ↔ module.MentionsKept schema refers := by
  constructor
  · intro h text name hkept hrefers hne hbase
    exact (has_iff_mentions hdescribes hmodule htexts hne hbase).mp
      (h name hne hbase (.inr ⟨text, hkept, hrefers⟩))
  · rintro h name hne hbase (hmentions | ⟨text, hkept, hrefers⟩)
    · exact (has_iff_mentions hdescribes hmodule htexts hne hbase).mpr hmentions
    · exact (has_iff_mentions hdescribes hmodule htexts hne hbase).mpr (h text name hkept hrefers hne hbase)

-- The texts that a module keeps are written to its file.
theorem infix_of_keeps {file : DeclarationFile} {rootName : Text}
    (hdescribes : Introspection.Describes file rootName schema)
    (hmodule : module ∈ typesModules schema output) (htexts : module.declarations.outcome = .ok texts)
    {text : Text} (hkeeps : module.Keeps schema text) : text <:+: module.content output texts := by
  obtain ⟨part, ⟨shape, hshape, hwithin⟩, hkept⟩ := hkeeps
  obtain ⟨-, t, ht, name, -, hdeclared⟩ := rendered_of_mem_shapes hmodule htexts hshape
  have hsingle := single_of_mem_shapes hdescribes hmodule hshape
  have hrendered := ownTexts_infix_render hdescribes.single hsingle ht hwithin (part.keptTexts_subset hkept)
  have hdeclaration : t <:+: Types.declare name t := ⟨"export type " ++ name ++ " = ", ";", rfl⟩
  have hsections : Types.declare name t <:+: module.content output texts := by
    rw [TypesModule.content, Code.assemble, Code.joinSections]
    exact (infix_join (List.mem_append_right _ hdeclared)).trans (List.prefix_append ..).isInfix
  exact hrendered.trans (hdeclaration.trans hsections)

end Modules

-- The sources of the required base types refer to no other base type whose name no word search finds.
def RequiresUnwordy (refers : Text → Text → Prop) (schema : Schema) (output : Path) : Prop :=
  ∀ other ∈ Types.requiredBaseTypes schema (usedBaseTypes schema output), ∀ name,
    refers (schema.baseTypeSource other) name → ¬ Text.isWordy name → name ≠ [] → schema.isBaseType name →
      Types.Needed schema (usedBaseTypes schema output) name

-- Names with a word character at the start and the end are found in the sources that refer to them.
theorem baseTypes_closed_iff (hstands : ∀ text name, refers text name → Source.Stands name text) :
    (baseTypesNames refers schema output).Closed schema ↔ RequiresUnwordy refers schema output := by
  have hkey (name : Text) : name ∈ Types.baseTypeNames schema ↔ schema.isBaseType name := by
    simp [Types.baseTypeNames, Schema.isBaseType]
  constructor
  · intro h other hother name hrefers _ hne hbase
    exact (Types.mem_requiredBaseTypes_iff.mp (h name hne hbase ⟨other, hother, hrefers⟩)).2
  · rintro h name hne hbase ⟨other, hother, hrefers⟩
    refine Types.mem_requiredBaseTypes_iff.mpr ⟨(hkey name).mpr hbase, ?_⟩
    by_cases hwordy : Text.isWordy name
    · exact .mentioned (Types.mem_requiredBaseTypes_iff.mp hother).2
        ⟨(hkey name).mpr hbase, (hstands _ _ hrefers).includesWord hwordy⟩
    · exact h other hother name hrefers hwordy hne hbase

-- The generated files with types have the base types that they refer to exactly where kept texts do not
-- refer to others, and where the names of those that the base types themselves refer to are found as words.
theorem closed_iff {declared : DeclarationFile} {schemaName rootName : Text} {files : List GeneratedFile}
    (hschema : (Introspection.introspect declared schemaName rootName).outcome = .ok schema)
    (hfiles : (generate schema clientPath output).outcome = .ok files)
    (hstands : ∀ text name, refers text name → Source.Stands name text) :
    ∀ file ∈ files,
      (IsTypesPath file.path →
        (file = Generation.file ((output.child "storage").child "types.ts") Storage.typesModule ∧
          (storageNames.Closed schema ↔ ¬ schema.isBaseType "Record")) ∨
        ∃ module ∈ typesModules schema output, ∃ texts, module.declarations.outcome = .ok texts ∧
          file = Generation.file module.path (module.content output texts) ∧
          (∀ text, module.Keeps schema text → text <:+: file.content) ∧
          ((module.fileNames schema refers output).Closed schema ↔ module.MentionsKept schema refers)) ∧
      (file.path = (baseTypesPath output).text →
        file.content = Types.baseTypesModule schema (usedBaseTypes schema output) ∧
        ((baseTypesNames refers schema output).Closed schema ↔ RequiresUnwordy refers schema output)) := by
  have hdescribes := Introspection.introspect_describes hschema
  have hgenerated := generate_types hfiles
  intro file hfile
  constructor
  · intro hpath
    cases hgenerated.isTypesFile hfile hpath with
    | storage => exact .inl ⟨rfl, storageNames_closed_iff⟩
    | @rendered module texts hmodule htexts =>
      exact .inr ⟨module, hmodule, texts, htexts, rfl, fun _ => infix_of_keeps hdescribes hmodule htexts,
        module_closed_iff hdescribes hmodule htexts⟩
  · intro hpath
    refine ⟨?_, baseTypes_closed_iff hstands⟩
    have hmem := hgenerated.mem_baseTypesFiles hfile hpath
    rw [baseTypesFiles] at hmem
    split at hmem
    · cases hmem
    · rw [List.mem_singleton.mp hmem]
      rfl

section Sample

-- A table whose rows have an index signature.
def keptSource : Text := "export type Json = string;
export type Database = \x7b public: \x7b Tables: \x7b t: \x7b Row: \x7b [key: string]: Json \x7d \x7d \x7d \x7d \x7d;
"

def keptDeclared : DeclarationFile := ⟨"database.ts", (Source.parseDeclarations keptSource).getD []⟩

theorem keptDeclared_introspected :
    (Introspection.introspect keptDeclared "public" "Database").outcome.toOption.isSome := by
  -- the literal is turned into its characters without going through its bytes
  simp only [keptDeclared,
    show keptSource = Text.ofChars _ from Text.ofString_ofList _]
  decide +kernel

def keptSchema : Schema :=
  (Introspection.introspect keptDeclared "public" "Database").outcome.toOption.get
    keptDeclared_introspected

theorem keptSchema_generated :
    (generate keptSchema "@/lib/client" (.ofText "out")).outcome.toOption.isSome := by
  simp only [keptSchema, keptDeclared,
    show keptSource = Text.ofChars _ from Text.ofString_ofList _]
  decide +kernel

def keptFiles : List GeneratedFile :=
  (generate keptSchema "@/lib/client" (.ofText "out")).outcome.toOption.get keptSchema_generated

-- What the texts of this source refer to.
def KeptRefers (text name : Text) : Prop := text = "[key: string]: Json" ∧ name = "Json"

theorem stands_of_keptRefers : ∀ text name, KeptRefers text name → Source.Stands name text := by
  rintro _ _ ⟨rfl, rfl⟩
  exact ⟨"[key: string]: ", [], by decide, by decide, by decide⟩

-- The text of its module of types up to the type of the rows, in front of which there is no import.
def keptText : Text :=
  Code.banner "Auto-generated type definitions for table: t" ++ "\n\n" ++
    Types.declare "TRow" "\x7b [key: string]: Json \x7d"

theorem exists_mem_keptFiles :
    ∃ file ∈ keptFiles, file.path = "out/t/types.ts" ∧ keptText <+: file.content := by
  simp only [keptFiles, keptSchema, keptDeclared,
    show keptSource = Text.ofChars _ from Text.ofString_ofList _]
  decide +kernel

theorem closed_iff_kept :
    (Introspection.introspect keptDeclared "public" "Database").outcome = .ok keptSchema ∧
    (generate keptSchema "@/lib/client" (.ofText "out")).outcome = .ok keptFiles ∧
    (∀ text name, KeptRefers text name → Source.Stands name text) ∧
    ∃ file ∈ keptFiles, file.path = "out/t/types.ts" ∧
      ∃ module ∈ typesModules keptSchema (.ofText "out"), ∃ texts,
        module.declarations.outcome = .ok texts ∧
        file = Generation.file module.path (module.content (.ofText "out") texts) ∧
        (∀ text, module.Keeps keptSchema text → text <:+: file.content) ∧
        ((module.fileNames keptSchema KeptRefers (.ofText "out")).Closed keptSchema ↔
          module.MentionsKept keptSchema KeptRefers) := by
  have hschema := ok_get keptDeclared_introspected
  have hfiles := ok_get keptSchema_generated
  obtain ⟨file, hfile, hpath, -⟩ := exists_mem_keptFiles
  have htypes : IsTypesPath file.path := by
    rw [hpath, IsTypesPath]
    decide
  refine ⟨hschema, hfiles, stands_of_keptRefers, file, hfile, hpath, ?_⟩
  rcases (closed_iff hschema hfiles stands_of_keptRefers file hfile).1 htypes with ⟨hstorage, -⟩ | hmodule
  · have hother : file.path = "out/storage/types.ts" := congrArg GeneratedFile.path hstorage
    exact absurd (hpath.symm.trans hother) (by decide)
  · exact hmodule

theorem kept_modules : ∀ module ∈ typesModules keptSchema (.ofText "out"),
    module.declarations.notes = [] ∧ Text.ofString "Json" ∉ module.names ∧
      ∃ shape ∈ module.shapes, Text.ofString "[key: string]: Json" ∈ shape.keptTexts := by
  simp only [keptSchema, keptDeclared,
    show keptSource = Text.ofChars _ from Text.ofString_ofList _]
  decide +kernel

-- The index signature refers to a base type that the module neither imports nor declares.
theorem kept_not_closed :
    (DeclarationFile.parse "database.ts" keptSource).outcome = .ok keptDeclared ∧
    (Source.parseDeclarations keptSource).isSome ∧
    (Introspection.introspect keptDeclared "public" "Database").outcome = .ok keptSchema ∧
    (generate keptSchema "@/lib/client" (.ofText "out")).outcome = .ok keptFiles ∧
    keptSchema.isBaseType "Json" ∧
    ∃ file ∈ keptFiles, file.path = "out/t/types.ts" ∧ keptText <+: file.content ∧
      ∃ module ∈ typesModules keptSchema (.ofText "out"), ∃ texts,
        module.declarations.outcome = .ok texts ∧
        file = Generation.file module.path (module.content (.ofText "out") texts) ∧
        ¬ (module.fileNames keptSchema KeptRefers (.ofText "out")).Closed keptSchema := by
  have hjson : keptSchema.isBaseType "Json" := by decide +kernel
  obtain ⟨file, hfile, hpath, htext⟩ := exists_mem_keptFiles
  have htypes : IsTypesPath file.path := by
    rw [hpath, IsTypesPath]
    decide
  refine ⟨DeclarationFile.outcome_parse .., by decide +kernel, ok_get keptDeclared_introspected,
    ok_get keptSchema_generated, hjson, file, hfile, hpath, htext, ?_⟩
  cases (generate_types (ok_get keptSchema_generated)).isTypesFile hfile htypes with
  | storage => exact absurd hpath (by decide)
  | @rendered module texts hmodule htexts =>
    refine ⟨module, hmodule, texts, htexts, rfl, fun hclosed => ?_⟩
    obtain ⟨hnotes, hnames, shape, hshape, hkept⟩ := kept_modules module hmodule
    have hrefers : (module.fileNames keptSchema KeptRefers (.ofText "out")).refersTo "Json" :=
      .inr ⟨_, ⟨shape, ⟨shape, hshape, .part (.self _)⟩, hkept⟩, rfl, rfl⟩
    rcases hclosed "Json" (by decide) hjson hrefers with himported | hdeclared
    · simpa [hnotes] using imported_iff.mp himported
    · exact hnames hdeclared

end Sample

end Generation

end HookGen
