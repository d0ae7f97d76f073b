import HookGen.Proofs.Generation.Distinct
import HookGen.Proofs.Generation.Written
import Mathlib.Data.List.Find

/-!
Where the links of generated modules lead. A source that begins with a point is a way from the directory of
the module, and leads to the module with that name or to the index of that directory.
-/

namespace HookGen

open Code Render Traced

variable {schema : Schema} {clientPath : Text} {output : Path} {files : List GeneratedFile}

namespace Generation

-- The file that a source leads to from a file: a module if there is one, and otherwise an index.
def target? (files : List GeneratedFile) (importer : GeneratedFile) (source : Text) : Option GeneratedFile :=
  let bare := ((Path.ofText importer.path).parent.child source).normal
  let find (path : Text) := files.find? fun file => (Path.ofText file.path).normal.text == path
  find (bare.text ++ ".ts") <|> find (bare.child "index.ts").text

-- A file that holds one of the modules of a schema.
structure Holds (schema : Schema) (clientPath : Text) (output : Path) (file : GeneratedFile) (module : Module) :
    Prop extends Written output module file where
  isModule : IsModule schema clientPath output module

-- Files of a generation: each holds a module or is a list, and each module has a file at its place.
structure Stored (schema : Schema) (clientPath : Text) (output : Path) (files : List GeneratedFile) : Prop where
  placed : ∀ file ∈ files, Placed output file
  held : ∀ file ∈ files, IsList file ∨ ∃ module, Holds schema clientPath output file module
  present : ∀ module, IsModule schema clientPath output module →
    ∃ file ∈ files, file.path = (module.path output).text

theorem stored_of_generate (hnames : PlainNames schema) (hsource : FromSource schema)
    (h : (generate schema clientPath output).outcome = .ok files) :
    Stored schema clientPath output files := by
  have hplaced := (generate_placed hnames.proper.tables hnames.proper.routines h).2
  obtain ⟨assigned, hassigned, rfl⟩ := exists_assigned h
  have hcovers := covers_assignments hnames hsource hassigned
  refine ⟨hplaced, fun file hfile => ?_, fun module hmodule => ?_⟩
  · rcases (foldl_put assigned [] (by simp)).2 file hfile with hmem | hnone
    · refine (hcovers.held file hmem).imp_right ?_
      rintro ⟨module, hmodule, hwritten⟩
      exact ⟨module, hwritten, mem_modules.mp hmodule⟩
    · cases hnone
  · obtain ⟨file, hfile, hwritten⟩ := hcovers.present module (mem_modules.mpr hmodule)
    have hpath : (module.path output).text ∈ assigned.map (·.path) :=
      hwritten.path ▸ List.mem_map_of_mem hfile
    exact List.mem_map.mp (mem_map_path_foldl_put.mpr (.inl hpath))

section Places

theorem isName_ts {name : Text} (h : IsName name) : IsName (name ++ ".ts") where
  ne_nil := by simp [h.ne_nil]
  ne_point := fun heq => absurd (congrArg List.length heq) (by simp [Text.ofString, Text.ofChars])
  ne_points := fun heq => absurd (congrArg List.length heq) (by simp [Text.ofString, Text.ofChars])
  no_slash := by
    rw [List.mem_append, not_or]
    exact ⟨h.no_slash, by decide⟩

theorem IsModule.isName (hnames : PlainNames schema) {module : Module}
    (h : IsModule schema clientPath output module) : ∀ name ∈ module.directory ++ [module.name], IsName name := by
  have hfunctions := isName_functions
  cases h with
  | tableTypes mem | tableHooks mem | relations mem | tableIndex mem =>
    simpa using ⟨(hnames.tables _ mem).isName, by decide⟩
  | routineTypes mem | routineHooks mem | routineIndex mem =>
    simpa using ⟨hfunctions, (hnames.routines _ mem).isName, by decide⟩
  | _ =>
    dsimp only
    decide

theorem IsModule.isName_place (hnames : PlainNames schema) {module : Module}
    (h : IsModule schema clientPath output module) : ∀ name ∈ module.place, IsName name := by
  have hall := h.isName hnames
  rw [List.forall_mem_append, List.forall_mem_singleton] at hall
  rw [Module.place, List.forall_mem_append, List.forall_mem_singleton]
  exact ⟨hall.1, isName_ts hall.2⟩

-- The file at a place.
def fileAt? (output : Path) (files : List GeneratedFile) (place : List Text) : Option GeneratedFile :=
  files.find? fun file => file.path == Path.text ⟨output.anchor, output.names ++ place⟩

theorem fileAt?_eq_some {place : List Text} {file : GeneratedFile} (h : fileAt? output files place = some file) :
    file ∈ files ∧ file.path = Path.text ⟨output.anchor, output.names ++ place⟩ :=
  ⟨List.mem_of_find?_eq_some h, by simpa using List.find?_some h⟩

theorem isSome_fileAt? {place : List Text} {file : GeneratedFile} (hfile : file ∈ files)
    (hpath : file.path = Path.text ⟨output.anchor, output.names ++ place⟩) :
    (fileAt? output files place).isSome := by
  rw [fileAt?, List.find?_isSome]
  exact ⟨file, hfile, by simpa using hpath⟩

-- From the directory of a module, a source is a way to a name in a directory.
def Leads (output : Path) (module : Module) (source : Text) (directory : List Text) (name : Text) : Prop :=
  ((module.path output).parent.child source).normal =
    ⟨output.anchor, output.normalNames ++ (directory ++ [name])⟩

theorem text_append_ending (anchor : Anchor) (names : List Text) (name ending : Text) :
    Path.text ⟨anchor, names ++ [name]⟩ ++ ending = Path.text ⟨anchor, names ++ [name ++ ending]⟩ := by
  have hjoin : Text.join "/" (names ++ [name]) ++ ending = Text.join "/" (names ++ [name ++ ending]) := by
    induction names with
    | nil => simp [Text.join_singleton]
    | cons first rest ih =>
      obtain ⟨second, others, heq⟩ := List.exists_cons_of_ne_nil (show rest ++ [name] ≠ [] by simp)
      obtain ⟨second', others', heq'⟩ := List.exists_cons_of_ne_nil (show rest ++ [name ++ ending] ≠ [] by simp)
      rw [List.cons_append, List.cons_append, heq, heq', Text.join_cons_cons, Text.join_cons_cons, ← heq, ← heq',
        ← ih]
      simp only [List.append_assoc]
  rw [Path.text, Path.text, if_neg (by simp), if_neg (by simp), List.append_assoc, hjoin]

-- Two ways to say that a file lies at a place.
theorem normal_text_eq_iff (houtput : output.IsRead) {file : GeneratedFile} (hfile : Placed output file)
    {place : List Text} (hplace : place ≠ [] ∧ ∀ name ∈ place, IsName name) :
    (Path.ofText file.path).normal.text = Path.text ⟨output.anchor, output.normalNames ++ place⟩ ↔
      file.path = Path.text ⟨output.anchor, output.names ++ place⟩ := by
  obtain ⟨names, hat⟩ := hfile
  have hread : Path.IsRead ⟨output.anchor, output.names ++ names⟩ := by
    intro name hname
    rcases List.mem_append.mp hname with hmem | hmem
    · exact houtput name hmem
    · exact fun _ => hat.isName name hmem
  have hnormal : (Path.ofText file.path).normal = ⟨output.anchor, output.normalNames ++ names⟩ := by
    rw [hat.path, Path.ofText_text hread, Path.normal, Path.normalNames_append_names hat.isName]
  rw [hnormal, hat.path]
  constructor
  · intro heq
    rw [@Path.text_append_inj ⟨output.anchor, output.normalNames⟩ names place ⟨hat.ne_nil, hat.isName⟩ hplace heq]
  · intro heq
    rw [Path.text_append_inj ⟨hat.ne_nil, hat.isName⟩ hplace heq]

theorem target?_eq (houtput : output.IsRead) (hplaced : ∀ file ∈ files, Placed output file) {module : Module}
    (hmodule : ∀ name ∈ module.place, IsName name) {importer : GeneratedFile}
    (himporter : importer.path = (module.path output).text) {source name : Text} {directory : List Text}
    (hleads : Leads output module source directory name) (hnames : ∀ part ∈ directory ++ [name], IsName part) :
    target? files importer source = (fileAt? output files (directory ++ [name ++ ".ts"]) <|>
      fileAt? output files (directory ++ [name] ++ [Text.ofString "index.ts"])) := by
  have hread : (module.path output).IsRead := by
    intro name hname
    rcases List.mem_append.mp hname with hmem | hmem
    · exact houtput name hmem
    · exact fun _ => hmodule name hmem
  have hfind {place : List Text} (hplace : place ≠ [] ∧ ∀ name ∈ place, IsName name) :
      (files.find? fun file => (Path.ofText file.path).normal.text ==
        Path.text ⟨output.anchor, output.normalNames ++ place⟩) = fileAt? output files place := by
    rw [fileAt?]
    refine List.find?_congr fun file hfile => ?_
    rw [Bool.eq_iff_iff, beq_iff_eq, beq_iff_eq]
    exact normal_text_eq_iff houtput (hplaced file hfile) hplace
  rw [List.forall_mem_append, List.forall_mem_singleton] at hnames
  have hmodulePlace : ∀ part ∈ directory ++ [name ++ ".ts"], IsName part := by
    rw [List.forall_mem_append, List.forall_mem_singleton]
    exact ⟨hnames.1, isName_ts hnames.2⟩
  have hindexPlace : ∀ part ∈ directory ++ [name] ++ [Text.ofString "index.ts"], IsName part := by
    simp only [List.forall_mem_append, List.forall_mem_singleton]
    exact ⟨hnames, isModuleName_index.isName⟩
  rw [target?, himporter, Path.ofText_text hread, hleads]
  dsimp only
  rw [Path.child_of_isName _ isModuleName_index.isName]
  dsimp only
  rw [List.append_assoc, hfind ⟨by simp, hindexPlace⟩, ← List.append_assoc, text_append_ending, List.append_assoc,
    hfind ⟨by simp, hmodulePlace⟩]

end Places

section Ways

theorem parent_path (module : Module) (output : Path) :
    (module.path output).parent = ⟨output.anchor, output.names ++ module.directory⟩ := by
  rw [Module.path, Module.place, Path.parent, ← List.append_assoc, List.dropLast_concat]

theorem leads_of_way {module : Module} {source name : Text} {names directory : List Text}
    (hway : Path.ofText source = ⟨.relative, names⟩)
    (hnames : Path.normalNames ⟨output.anchor, output.names ++ module.directory ++ names⟩ =
      output.normalNames ++ (directory ++ [name])) : Leads output module source directory name := by
  rw [Leads, parent_path, Path.child, hway, Path.join, if_pos rfl, Path.normal]
  exact congrArg (Path.mk output.anchor) hnames

theorem leads_beside {module : Module} (hdirectory : ∀ name ∈ module.directory, IsName name) {name : Text}
    (hname : IsName name) : Leads output module ("./" ++ name) module.directory name := by
  have hway : Path.ofText ("./" ++ name) = ⟨.relative, [name]⟩ := by
    have hpoint := Path.ofText_point_slash (Path.isRead_of_isName (List.forall_mem_singleton.mpr hname))
    rwa [Path.text_relative (by simp), Text.join_singleton] at hpoint
  have hall : ∀ part ∈ module.directory ++ [name], IsName part := by
    rw [List.forall_mem_append, List.forall_mem_singleton]
    exact ⟨hdirectory, hname⟩
  refine leads_of_way hway ?_
  rw [List.append_assoc, Path.normalNames_append_names hall]

theorem leads_across {first other : Text} (hfirst : IsName first) (hother : IsName other) (name : Text)
    (outline : Outline) :
    Leads output ⟨[first], name, outline⟩ ("../" ++ other ++ "/types") [other] "types" := by
  have hdown : ∀ part ∈ [other, Text.ofString "types"], IsName part := by
    simpa using ⟨hother, by decide⟩
  have hway : Path.ofText ("../" ++ other ++ "/types") =
      ⟨.relative, Text.ofString ".." :: [other, Text.ofString "types"]⟩ := by
    have hread : Path.IsRead ⟨.relative, Text.ofString ".." :: [other, Text.ofString "types"]⟩ := by
      intro part hpart hpoints
      exact hdown part ((List.mem_cons.mp hpart).resolve_left hpoints)
    have htext := Path.ofText_text hread
    rw [Path.text_relative (by simp), Text.join_cons_cons, Text.join_cons_cons, Text.join_singleton] at htext
    rw [← htext]
    simp [Text.ofString, Text.ofChars]
  have hup := Path.normalNames_append_ups ⟨output.anchor, output.names ++ [first]⟩ 1
  rw [Path.normalNames_append hfirst, List.length_append, List.length_singleton, Nat.add_sub_cancel,
    List.take_left] at hup
  refine leads_of_way hway ?_
  rw [List.append_cons]
  exact (@Path.normalNames_append_names ⟨output.anchor, output.names ++ [first] ++ [Text.ofString ".."]⟩ _
    hdown).trans (congrArg (· ++ [other, Text.ofString "types"]) hup)

-- A module of types is led to the shared modules by the specifiers that are made for it.
theorem leads_shared (houtput : output.IsRead) (hnames : PlainNames schema) {types : TypesModule}
    (htypes : types ∈ typesModules schema output) {module : Module} (hpath : module.path output = types.path)
    {name : Text} (hname : name ∈ ["base-types", "enums"].map Text.ofString) :
    Leads output module (types.path.specifier (output.child name)) [] name := by
  obtain ⟨hisName, hfunctions⟩ : IsName name ∧ Text.ofString "functions" ≠ name := by
    revert name
    decide
  have hbare : (output.child name).normalNames = output.normalNames ++ [name] := by
    rw [Path.child_of_isName output hisName, Path.normalNames_append hisName]
  obtain ⟨below, hparent, hbelow⟩ := normalNames_parent hnames.proper htypes
  have hway : Path.wayNames below [name] ∈ [[], [Text.ofString "..", name],
      [Text.ofString "..", Text.ofString "..", name]] := by
    rcases hbelow with ⟨other, rfl⟩ | ⟨other, rfl⟩
    · by_cases h : other = name <;> simp [Path.wayNames, Path.sharedLength, h]
    · simp [Path.wayNames, Path.sharedLength, hfunctions]
  have hslash : .char '\\' ∉ Path.text ⟨.relative, Path.wayNames below [name]⟩ := by
    have hplain : ∀ name ∈ ["base-types", "enums"].map Text.ofString, ∀ way ∈ [[], [Text.ofString "..", name],
        [Text.ofString "..", Text.ofString "..", name]], .char '\\' ∉ Path.text ⟨.relative, way⟩ := by decide
    exact hplain name hname _ hway
  have hnormal := @Path.normal_specifier types.path (output.child name) (houtput.child name) (by
    rwa [hparent, hbare, Path.wayNames_append])
  have hanchor : types.path.anchor = output.anchor := by
    rw [← hpath]
    rfl
  rw [Leads, hpath, hnormal, hbare, hanchor]
  rfl

end Ways

section Arrivals

-- A source leads to a module, or to the directory of an index.
inductive Arrives (schema : Schema) (clientPath : Text) (output : Path) (module : Module) (source : Text) : Prop
  | file {reached : Module} (isModule : IsModule schema clientPath output reached)
    (leads : Leads output module source reached.directory reached.name)
  | index {directory : List Text} {name : Text} {outline : Outline}
    (isModule : IsModule schema clientPath output ⟨directory ++ [name], "index", outline⟩)
    (leads : Leads output module source directory name)

-- The type of the rows of a relation that is no table is taken from a module that there is none of.
def TakesUntabled (schema : Schema) (link : Link) : Prop :=
  ∃ relation, (∀ table ∈ schema.tables, table.name ≠ relation) ∧
    link = .named true [Relations.rowType relation] ("../" ++ relation ++ "/types")

variable {module : Module}

theorem arrives_beside (hnames : PlainNames schema) {directory : List Text}
    (hdirectory : module.directory = directory) {name : Text} {outline : Outline}
    (h : IsModule schema clientPath output ⟨directory, name, outline⟩) :
    Arrives schema clientPath output module ("./" ++ name) := by
  subst hdirectory
  have hall := h.isName hnames
  rw [List.forall_mem_append, List.forall_mem_singleton] at hall
  exact .file h (@leads_beside output module hall.1 name hall.2)

theorem arrives_below (hnames : PlainNames schema) {directory : List Text}
    (hdirectory : module.directory = directory) {name : Text} {outline : Outline}
    (h : IsModule schema clientPath output ⟨directory ++ [name], "index", outline⟩) :
    Arrives schema clientPath output module ("./" ++ name) := by
  subst hdirectory
  have hall := (List.forall_mem_append.mp (h.isName hnames)).1
  rw [List.forall_mem_append, List.forall_mem_singleton] at hall
  exact .index h (leads_beside hall.1 hall.2)

theorem arrives_of_typesLink (houtput : output.IsRead) (hnames : PlainNames schema)
    (henums : schema.enums ≠ [] → schema.hasEnums) {types : TypesModule}
    (htypes : types ∈ typesModules schema output) (hpath : module.path output = types.path) {link : Link}
    (hlink : link ∈ (typesOutline types output).links) : Arrives schema clientPath output module link.source := by
  obtain ⟨statement, hstatement, rfl⟩ := List.mem_map.mp hlink
  obtain ⟨hmem, hsome⟩ := List.mem_filter.mp hstatement
  have hleads {name : Text} (hname : name ∈ ["base-types", "enums"].map Text.ofString) :=
    leads_shared houtput hnames htypes hpath hname
  have hnonempty : statement.names ≠ [] := by simpa using hsome
  obtain ⟨name, hname⟩ := List.exists_mem_of_ne_nil _ hnonempty
  rcases List.mem_cons.mp hmem with rfl | hmem
  · have hnote := mem_baseTypes.mp (Text.mem_sortDistinct.mp hname)
    have hused : name ∈ usedBaseTypes schema output :=
      mem_baseTypes.mpr (List.mem_flatMap.mpr ⟨types, htypes, hnote⟩)
    exact .file (.baseTypes (List.ne_nil_of_mem hused)) (hleads (by decide))
  · obtain rfl := List.mem_singleton.mp hmem
    have hnote := mem_enumerations.mp (Text.mem_sortDistinct.mp hname)
    obtain ⟨enumeration, henumeration, -⟩ := declared_of_mem_notes htypes hnote
    exact .file (.enums (henums (List.ne_nil_of_mem henumeration))) (hleads (by decide))

theorem path_tableTypes {table : Table} (hname : IsName table.name) (outline : Outline) :
    Module.path ⟨[table.name], "types", outline⟩ output = (TypesModule.ofTable schema output table).path := by
  rw [TypesModule.ofTable, Path.child_of_isName output hname, Path.child_of_isName _ isModuleName_types.isName,
    Module.path, Module.place, List.append_assoc]
  rfl

theorem path_routineTypes {routine : Routine} (hname : IsName routine.name) (outline : Outline) :
    Module.path ⟨["functions", routine.name], "types", outline⟩ output =
      (TypesModule.ofRoutine schema output routine).path := by
  rw [TypesModule.ofRoutine, functionsPath, Path.child_of_isName output isName_functions,
    Path.child_of_isName _ hname, Path.child_of_isName _ isModuleName_types.isName, Module.path, Module.place,
    List.append_assoc, List.append_assoc]
  rfl

theorem queryLink_head : queryLink.source.head? ≠ some (.char '.') := by decide

theorem path_functionsIndex (output : Path) (outline : Outline) :
    Module.path ⟨["functions"], "index", outline⟩ output = (functionsPath output).child "index.ts" := by
  rw [functionsPath, Path.child_of_isName output isName_functions, Path.child_of_isName _ isModuleName_index.isName,
    Module.path, Module.place, List.append_assoc]
  rfl

theorem path_enums (output : Path) (outline : Outline) :
    Module.path ⟨[], "enums", outline⟩ output = enumsPath output := by
  rw [enumsPath, Path.child_of_isName output isModuleName_enums.isName, Module.path, Module.place]
  rfl

theorem arrives_of_hookLink (hnames : PlainNames schema) {table : Table} (htable : table ∈ schema.tables)
    (hdirectory : module.directory = [table.name]) {link : Link} (hlink : link ∈ hookLinks (.ofTable table) clientPath)
    (hpoint : link.source.head? = some (.char '.')) :
    link = clientLink clientPath ∨ Arrives schema clientPath output module link.source := by
  have htypes : Arrives schema clientPath output module (Text.ofString "./" ++ "types") :=
    arrives_beside hnames hdirectory (.tableTypes htable)
  have hrelations (hsome : table.hasRelationships) :
      Arrives schema clientPath output module (Text.ofString "./" ++ "relations") :=
    arrives_beside hnames hdirectory (.relations htable hsome)
  rw [hookLinks] at hlink
  split at hlink
  · rename_i hsome
    simp only [List.mem_append, List.mem_cons, List.not_mem_nil, or_false] at hlink
    rcases hlink with (rfl | rfl | rfl) | rfl | rfl
    · exact absurd hpoint queryLink_head
    · exact .inl rfl
    · exact .inr htypes
    · exact .inr (hrelations hsome)
    · exact .inr (hrelations hsome)
  · simp only [List.mem_cons, List.not_mem_nil, or_false] at hlink
    rcases hlink with rfl | rfl | rfl
    · exact absurd hpoint queryLink_head
    · exact .inl rfl
    · exact .inr htypes

theorem arrives_of_relationLink (hnames : PlainNames schema) {table : Table} (htable : table ∈ schema.tables)
    {name : Text} {outline : Outline} {relationships : List Relationship} {link : Link}
    (hlink : link ∈ relationLinks table.name relationships) :
    TakesUntabled schema link ∨
      Arrives schema clientPath output ⟨[table.name], name, outline⟩ link.source := by
  have hother {other : Text} (h : link = .named true [Relations.rowType other] ("../" ++ other ++ "/types")) :
      TakesUntabled schema link ∨
        Arrives schema clientPath output ⟨[table.name], name, outline⟩ link.source := by
    by_cases hnone : ∀ table ∈ schema.tables, table.name ≠ other
    · exact .inl ⟨other, hnone, h⟩
    · push Not at hnone
      obtain ⟨second, hsecond, rfl⟩ := hnone
      rw [h]
      exact .inr (.file (.tableTypes hsecond)
        (leads_across (hnames.tables table htable).isName (hnames.tables second hsecond).isName name outline))
  have hothers (h : link ∈ ((Text.sortDistinct (relationships.map (·.referencedRelation))).filter
      (· != table.name)).map fun other => .named true [Relations.rowType other] ("../" ++ other ++ "/types")) :
      TakesUntabled schema link ∨
        Arrives schema clientPath output ⟨[table.name], name, outline⟩ link.source := by
    obtain ⟨other, -, heq⟩ := List.mem_map.mp h
    exact hother heq.symm
  rw [relationLinks] at hlink
  split at hlink
  · rcases List.mem_append.mp hlink with h | h
    · exact hothers h
    · rw [List.mem_singleton.mp h]
      exact .inr (arrives_beside hnames rfl (.tableTypes htable))
  · exact hothers hlink

theorem arrives_of_routineHookLink (hnames : PlainNames schema) {routine : Routine}
    (hroutine : routine ∈ schema.publicRoutines)
    (hdirectory : module.directory = [Text.ofString "functions", routine.name])
    {link : Link} (hlink : link ∈ routineHookLinks (.ofRoutine routine) clientPath)
    (hpoint : link.source.head? = some (.char '.')) :
    link = clientLink clientPath ∨ Arrives schema clientPath output module link.source := by
  simp only [routineHookLinks, List.mem_cons, List.not_mem_nil, or_false] at hlink
  rcases hlink with rfl | rfl | rfl
  · exact absurd hpoint queryLink_head
  · exact .inl rfl
  · exact .inr (arrives_beside hnames hdirectory (.routineTypes hroutine))

theorem arrives_of_storageHookLink (hnames : PlainNames schema)
    (hdirectory : module.directory = [Text.ofString "storage"])
    {link : Link} (hlink : link ∈ storageHookLinks clientPath) (hpoint : link.source.head? = some (.char '.')) :
    link = clientLink clientPath ∨ Arrives schema clientPath output module link.source := by
  simp only [storageHookLinks, List.mem_cons, List.not_mem_nil, or_false] at hlink
  rcases hlink with rfl | rfl | rfl
  · exact absurd hpoint (by decide)
  · exact .inl rfl
  · exact .inr (arrives_beside hnames hdirectory .storageTypes)

theorem arrives_of_tableIndexSource (hnames : PlainNames schema) {table : Table} (htable : table ∈ schema.tables)
    (hdirectory : module.directory = [table.name]) {source : Text} (hsource : source ∈ tableIndexSources table) :
    Arrives schema clientPath output module source := by
  simp only [tableIndexSources, List.mem_cons] at hsource
  rcases hsource with rfl | rfl | hsource
  · exact arrives_beside hnames hdirectory (.tableTypes htable)
  · exact arrives_beside hnames hdirectory (.tableHooks htable)
  · split at hsource
    · rename_i hsome
      rw [List.mem_singleton.mp hsource]
      exact arrives_beside hnames hdirectory (.relations htable hsome)
    · cases hsource

theorem arrives_of_mainSource (hnames : PlainNames schema) (hdirectory : module.directory = []) {source : Text}
    (hsource : source ∈ mainSources schema output) : Arrives schema clientPath output module source := by
  simp only [mainSources, List.mem_append, List.mem_singleton, List.mem_map] at hsource
  rcases hsource with (((h | h) | rfl) | ⟨table, htable, rfl⟩) | h
  · split at h
    · cases h
    · rename_i hused
      rw [List.mem_singleton.mp h]
      exact arrives_beside hnames hdirectory (.baseTypes (by simpa using hused))
  · split at h
    · rename_i hsome
      rw [List.mem_singleton.mp h]
      exact arrives_beside hnames hdirectory (.enums hsome)
    · cases h
  · exact arrives_below hnames hdirectory .storageIndex
  · exact arrives_below hnames hdirectory (.tableIndex htable)
  · split at h
    · cases h
    · rename_i hsome
      rw [List.mem_singleton.mp h]
      exact arrives_below hnames hdirectory (.functionsIndex (by simpa using hsome))

-- Every link of a module that is a way from its directory leads to another module, but for that to the client
-- and those to relations that are no tables.
theorem arrives_of_link (houtput : output.IsRead) (hnames : PlainNames schema)
    (henums : schema.enums ≠ [] → schema.hasEnums) (hmodule : IsModule schema clientPath output module)
    {link : Link} (hlink : link ∈ module.outline.links) (hpoint : link.source.head? = some (.char '.')) :
    link = clientLink clientPath ∨ TakesUntabled schema link ∨
      Arrives schema clientPath output module link.source := by
  have hindex {sources : List Text} (hlink : link ∈ (indexOutline sources).links)
      (harrives : ∀ source ∈ sources, Arrives schema clientPath output module source) :
      link = clientLink clientPath ∨ TakesUntabled schema link ∨
        Arrives schema clientPath output module link.source := by
    obtain ⟨source, hsource, rfl⟩ := List.mem_map.mp hlink
    exact .inr (.inr (harrives source hsource))
  cases hmodule with
  | @tableTypes table htable =>
    have htypes : TypesModule.ofTable schema output table ∈ typesModules schema output :=
      List.mem_append_left _ (List.mem_map_of_mem htable)
    exact .inr (.inr (arrives_of_typesLink houtput hnames henums htypes
      (path_tableTypes (hnames.tables table htable).isName _) hlink))
  | tableHooks htable => exact (arrives_of_hookLink hnames htable rfl hlink hpoint).imp_right .inr
  | relations htable => exact .inr (arrives_of_relationLink hnames htable hlink)
  | tableIndex htable => exact hindex hlink fun source => arrives_of_tableIndexSource hnames htable rfl
  | @routineTypes routine hroutine =>
    have htypes : TypesModule.ofRoutine schema output routine ∈ typesModules schema output :=
      List.mem_append_right _ (List.mem_map_of_mem hroutine)
    exact .inr (.inr (arrives_of_typesLink houtput hnames henums htypes
      (path_routineTypes (hnames.routines routine hroutine).isName _) hlink))
  | routineHooks hroutine => exact (arrives_of_routineHookLink hnames hroutine rfl hlink hpoint).imp_right .inr
  | routineIndex hroutine =>
    refine hindex hlink (List.forall_mem_cons.mpr ⟨?_, List.forall_mem_singleton.mpr ?_⟩)
    · exact arrives_beside hnames rfl (.routineTypes hroutine)
    · exact arrives_beside hnames rfl (.routineHooks hroutine)
  | functionsIndex =>
    refine hindex hlink fun source hsource => ?_
    obtain ⟨routine, hroutine, rfl⟩ := List.mem_map.mp hsource
    exact arrives_below hnames rfl (.routineIndex hroutine)
  | storageHooks => exact (arrives_of_storageHookLink hnames rfl hlink hpoint).imp_right .inr
  | storageIndex =>
    refine hindex hlink (List.forall_mem_cons.mpr ⟨?_, List.forall_mem_singleton.mpr ?_⟩)
    · exact arrives_beside hnames rfl .storageTypes
    · exact arrives_beside hnames rfl .storageHooks
  | main => exact hindex hlink fun source => arrives_of_mainSource hnames rfl
  | storageTypes | baseTypes | enums => cases hlink

end Arrivals

section Targets

variable {module : Module} {importer file : GeneratedFile}

theorem IsList.not_ts {path : Text} (h : Text.ofString ".json" <:+ path) : ¬ Text.ofString ".ts" <:+ path := by
  intro hts
  rcases List.suffix_or_suffix_of_suffix h hts with hsuffix | hsuffix
  · exact absurd hsuffix (by decide)
  · exact absurd hsuffix (by decide)

-- The path of a file tells the place of what it holds.
theorem Holds.place_eq (hnames : PlainNames schema) (h : Holds schema clientPath output file module)
    {directory : List Text} {name : Text} (hisName : ∀ part ∈ directory ++ [name], IsName part)
    (hpath : file.path = Path.text ⟨output.anchor, output.names ++ (directory ++ [name ++ ".ts"])⟩) :
    module.directory = directory ∧ module.name = name := by
  rw [List.forall_mem_append, List.forall_mem_singleton] at hisName
  have hplace : ∀ part ∈ directory ++ [name ++ ".ts"], IsName part := by
    rw [List.forall_mem_append, List.forall_mem_singleton]
    exact ⟨hisName.1, isName_ts hisName.2⟩
  have heq := Path.text_append_inj ⟨by simp [Module.place], h.isModule.isName_place hnames⟩ ⟨by simp, hplace⟩
    (h.path.symm.trans hpath)
  obtain ⟨hdirectory, hname⟩ := List.append_inj' heq rfl
  exact ⟨hdirectory, List.append_cancel_right (List.cons.inj hname).1⟩

-- The file at the place of a module holds a module at this place.
theorem exists_holds (hnames : PlainNames schema) (hstored : Stored schema clientPath output files)
    {directory : List Text} {name : Text} (hisName : ∀ part ∈ directory ++ [name], IsName part)
    (h : fileAt? output files (directory ++ [name ++ ".ts"]) = some file) :
    ∃ module, Holds schema clientPath output file module ∧ module.directory = directory ∧ module.name = name := by
  obtain ⟨hfile, hpath⟩ := fileAt?_eq_some h
  have hts : Text.ofString ".ts" <:+ file.path := by
    rw [hpath, ← List.append_assoc, ← text_append_ending]
    exact List.suffix_append ..
  rcases hstored.held file hfile with hlist | ⟨module, hholds⟩
  · exact absurd hts (IsList.not_ts hlist)
  · exact ⟨module, hholds, hholds.place_eq hnames hisName hpath⟩

theorem isSome_of_isModule (hstored : Stored schema clientPath output files)
    (h : IsModule schema clientPath output module) :
    (fileAt? output files (module.directory ++ [module.name ++ ".ts"])).isSome := by
  obtain ⟨file, hfile, hpath⟩ := hstored.present module h
  exact isSome_fileAt? hfile hpath

theorem Stored.exists_file (hnames : PlainNames schema) (hstored : Stored schema clientPath output files)
    (h : IsModule schema clientPath output module) :
    ∃ file ∈ files, ∃ held, Holds schema clientPath output file held ∧ held.directory = module.directory ∧
      held.name = module.name := by
  obtain ⟨file, hfile⟩ := Option.isSome_iff_exists.mp (isSome_of_isModule hstored h)
  exact ⟨file, (fileAt?_eq_some hfile).1, exists_holds hnames hstored (h.isName hnames) hfile⟩

theorem index_ts : Text.ofString "index" ++ ".ts" = Text.ofString "index.ts" := by decide

theorem mem_of_target? {source : Text} {target : GeneratedFile} (h : target? files importer source = some target) :
    target ∈ files := by
  rw [target?, Option.orElse_eq_orElse, Option.orElse_eq_or, Option.or_eq_some_iff] at h
  rcases h with hfound | ⟨-, hfound⟩
  · exact List.mem_of_find?_eq_some hfound
  · exact List.mem_of_find?_eq_some hfound

theorem target_of_file (houtput : output.IsRead) (hnames : PlainNames schema)
    (hstored : Stored schema clientPath output files) (himporter : Holds schema clientPath output importer module)
    {reached : Module} (hreached : IsModule schema clientPath output reached) {source : Text}
    (hleads : Leads output module source reached.directory reached.name) :
    ∃ target, target? files importer source = some target ∧ target.path = (reached.path output).text ∧
      ∃ held, Holds schema clientPath output target held ∧ held.directory = reached.directory ∧
        held.name = reached.name := by
  obtain ⟨target, htarget⟩ := Option.isSome_iff_exists.mp (isSome_of_isModule hstored hreached)
  refine ⟨target, ?_, (fileAt?_eq_some htarget).2, exists_holds hnames hstored (hreached.isName hnames) htarget⟩
  rw [target?_eq houtput hstored.placed (himporter.isModule.isName_place hnames) himporter.path hleads
    (hreached.isName hnames), htarget]
  rfl

theorem target_of_index (houtput : output.IsRead) (hnames : PlainNames schema)
    (hstored : Stored schema clientPath output files) (himporter : Holds schema clientPath output importer module)
    {directory : List Text} {name : Text} {outline : Outline}
    (hindex : IsModule schema clientPath output ⟨directory ++ [name], "index", outline⟩) {source : Text}
    (hleads : Leads output module source directory name) :
    ∃ target, target? files importer source = some target ∧
      ∃ held, Holds schema clientPath output target held ∧
        ((held.directory = directory ∧ held.name = name) ∨
          (held.directory = directory ++ [name] ∧ held.name = "index")) := by
  have hisName : ∀ part ∈ directory ++ [name], IsName part :=
    (List.forall_mem_append.mp (hindex.isName hnames)).1
  rw [target?_eq houtput hstored.placed (himporter.isModule.isName_place hnames) himporter.path hleads hisName]
  cases hfile : fileAt? output files (directory ++ [name ++ ".ts"]) with
  | some target =>
    obtain ⟨held, hholds, hplace⟩ := exists_holds hnames hstored hisName hfile
    exact ⟨target, rfl, held, hholds, .inl hplace⟩
  | none =>
    obtain ⟨target, htarget⟩ := Option.isSome_iff_exists.mp (isSome_of_isModule hstored hindex)
    obtain ⟨held, hholds, hplace⟩ := exists_holds hnames hstored (hindex.isName hnames) htarget
    dsimp only at htarget
    rw [index_ts] at htarget
    exact ⟨target, htarget, held, hholds, .inr hplace⟩

-- Where there is no module, nothing is reached.
theorem target?_eq_none (houtput : output.IsRead) (hnames : PlainNames schema)
    (hstored : Stored schema clientPath output files) (himporter : Holds schema clientPath output importer module)
    {source name : Text} {directory : List Text} (hleads : Leads output module source directory name)
    (hisName : ∀ part ∈ directory ++ [name], IsName part)
    (hfile : ∀ held, IsModule schema clientPath output held → held.directory = directory → held.name ≠ name)
    (hindex : ∀ held, IsModule schema clientPath output held → held.directory = directory ++ [name] →
      held.name ≠ "index") : target? files importer source = none := by
  have hnone {directory : List Text} {name : Text} (hisName : ∀ part ∈ directory ++ [name], IsName part)
      (h : ∀ held, IsModule schema clientPath output held → held.directory = directory → held.name ≠ name) :
      fileAt? output files (directory ++ [name ++ ".ts"]) = none := by
    cases hfile : fileAt? output files (directory ++ [name ++ ".ts"]) with
    | none => rfl
    | some file =>
      obtain ⟨held, hheld, hdirectory, hname⟩ := exists_holds hnames hstored hisName hfile
      exact absurd hname (h held hheld.isModule hdirectory)
  have hindexName : ∀ part ∈ directory ++ [name] ++ [Text.ofString "index"], IsName part := by
    rw [List.forall_mem_append, List.forall_mem_singleton]
    exact ⟨hisName, by decide⟩
  rw [target?_eq houtput hstored.placed (himporter.isModule.isName_place hnames) himporter.path hleads hisName,
    hnone hisName hfile, ← index_ts, hnone hindexName hindex]
  rfl

theorem exists_target (houtput : output.IsRead) (hnames : PlainNames schema)
    (hstored : Stored schema clientPath output files) (himporter : Holds schema clientPath output importer module)
    {source : Text} (h : Arrives schema clientPath output module source) :
    ∃ target, target? files importer source = some target ∧
      ∃ held, Holds schema clientPath output target held := by
  cases h with
  | file hreached hleads =>
    obtain ⟨target, htarget, -, held, hholds, -⟩ := target_of_file houtput hnames hstored himporter hreached hleads
    exact ⟨target, htarget, held, hholds⟩
  | index hindex hleads =>
    obtain ⟨target, htarget, held, hholds, -⟩ := target_of_index houtput hnames hstored himporter hindex hleads
    exact ⟨target, htarget, held, hholds⟩

end Targets

end Generation

end HookGen
