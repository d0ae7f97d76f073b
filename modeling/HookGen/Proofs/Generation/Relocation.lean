import HookGen.Proofs.Generation.Assignments
import HookGen.Proofs.Generation.Imports

/-!
Generating for another place: the files are the same but for the directory that they are below, and they
do not depend on the file that the schema was found in.
-/

namespace HookGen

open Traced Render

-- The same schema, found in another file.
def Schema.withSource (schema : Schema) (source : Option Text) : Schema := { schema with sourceFile := source }

-- The same file, below a directory instead of where its path begins.
def GeneratedFile.below (output : Path) (file : GeneratedFile) : GeneratedFile :=
  ⟨(output.join (Path.ofText file.path)).text, file.content⟩

namespace Path

-- The path that leads nowhere else.
def here : Path := ⟨.relative, []⟩

theorem here_child (t : Text) : here.child t = ofText t := by
  rw [child, join]
  split
  · rename_i hrelative
    exact congrArg (Path.mk · _) hrelative.symm
  · rfl

theorem join_assoc (first second third : Path) : (first.join second).join third = first.join (second.join third) := by
  by_cases hthird : third.anchor = .relative <;> by_cases hsecond : second.anchor = .relative <;>
    simp [join, hthird, hsecond]

theorem join_child (output path : Path) (t : Text) : (output.join path).child t = output.join (path.child t) :=
  join_assoc ..

end Path

theorem Traced.toOption_bind {ν ε α β : Type} (x : Traced ν ε α) (f : α → Traced ν ε β) :
    (x >>= f).outcome.toOption = x.outcome.toOption.bind fun a => (f a).outcome.toOption := by
  obtain ⟨notes, outcome⟩ := x
  cases outcome <;> rfl

theorem Traced.bind_congr_ok {ν ε α β : Type} {x : Traced ν ε α} {f g : α → Traced ν ε β}
    (h : ∀ a, x.outcome = .ok a → f a = g a) : x >>= f = x >>= g := by
  obtain ⟨notes, outcome⟩ := x
  cases outcome with
  | error e => rfl
  | ok a => rw [bind_ok, bind_ok, h a rfl]

namespace Render

variable {schema : Schema} {source : Option Text} {expand : List Text → Int → Rendering Text}

theorem resolvedElement_withSource (element : Shape) :
    resolvedElement (schema.withSource source) element = resolvedElement schema element := by
  cases element <;> rfl

mutual

-- Nothing that is rendered says where the schema was found.
theorem renderOver_withSource : ∀ (shape : Shape) (indent : Int),
    renderOver (schema.withSource source) expand indent shape = renderOver schema expand indent shape
  | .object _ members _, indent => by
    rw [renderOver, renderOver, renderMembers_withSource members]
  | .union _ args, indent => by
    rw [renderOver, renderOver, renderArgs_withSource args]
  | .array _ [], indent => by
    rw [renderOver, renderOver]
  | .array _ (element :: rest), indent => by
    rw [renderOver, renderOver, renderOver_withSource element, resolvedElement_withSource]
  | .tuple _ args, indent => by
    rw [renderOver, renderOver, renderArgs_withSource args]
  | .lookup _ path, indent => by
    rw [renderOver, renderOver]
    rfl
  | .generic label args, indent => by
    rw [renderOver, renderOver, renderArgs_withSource args]
    rfl
  | .leaf label, indent => by
    rw [renderOver, renderOver]
    rfl

theorem renderArgs_withSource : ∀ (args : List Shape) (indent : Int),
    renderArgs (schema.withSource source) expand indent args = renderArgs schema expand indent args
  | [], indent => by
    rw [renderArgs, renderArgs]
  | arg :: rest, indent => by
    rw [renderArgs, renderArgs, renderOver_withSource arg, renderArgs_withSource rest]

theorem renderMembers_withSource : ∀ (members : List Member) (indent : Int),
    renderMembers (schema.withSource source) expand indent members = renderMembers schema expand indent members
  | [], indent => by
    rw [renderMembers, renderMembers]
  | .mk name shape optional readonly :: rest, indent => by
    rw [renderMembers, renderMembers, renderOver_withSource shape, renderMembers_withSource rest]

end

theorem renderWithin_withSource (budget : Nat) (resolving : List (List Text)) (indent : Int) (shape : Shape) :
    renderWithin (schema.withSource source) budget resolving indent shape =
      renderWithin schema budget resolving indent shape := by
  induction budget generalizing resolving indent shape with
  | zero => exact renderOver_withSource shape indent
  | succ budget ih =>
    rw [renderWithin, renderWithin, renderOver_withSource]
    simp only [ih]
    rfl

theorem render_withSource (indent : Int) (shape : Shape) :
    render (schema.withSource source) indent shape = render schema indent shape :=
  renderWithin_withSource ..

end Render

namespace Types

variable {schema : Schema} {source : Option Text}

theorem requireMentioned_withSource (budget : Nat) (required pending : List Text) :
    requireMentioned (schema.withSource source) budget required pending =
      requireMentioned schema budget required pending := by
  induction budget generalizing required pending with
  | zero => rfl
  | succ budget ih =>
    cases pending with
    | nil => rfl
    | cons name pending =>
      rw [requireMentioned, requireMentioned, ih]
      rfl

theorem baseTypesModule_withSource (used : List Text) :
    baseTypesModule (schema.withSource source) used = baseTypesModule schema used := by
  simp only [baseTypesModule, requiredBaseTypes, requireMentioned_withSource]
  rfl

theorem tableModule_withSource (shared : SharedImports) (table : Table) :
    tableModule (schema.withSource source) shared table = tableModule schema shared table := by
  simp only [tableModule, tableDeclarations, render_withSource]

theorem routineModule_withSource (shared : SharedImports) (routine : Routine) :
    routineModule (schema.withSource source) shared routine = routineModule schema shared routine := by
  simp only [routineModule, routineDeclarations, render_withSource]

end Types

namespace Generation

variable {schema : Schema} {source : Option Text} {clientPath : Text} {output : Path}

theorem generate_withSource :
    generate (schema.withSource source) clientPath output = generate schema clientPath output := by
  have htables : tableFiles (schema.withSource source) clientPath output = tableFiles schema clientPath output := by
    funext table
    simp only [tableFiles, Types.tableModule_withSource]
  have hroutines : routineFiles (schema.withSource source) clientPath output =
      routineFiles schema clientPath output := by
    funext routine
    simp only [routineFiles, Types.routineModule_withSource]
  have hassignments : assignments (schema.withSource source) clientPath output =
      assignments schema clientPath output := by
    simp only [assignments, htables, hroutines, Types.baseTypesModule_withSource]
    rfl
  rw [generate, generate, hassignments]
  rfl

section Below

-- A path by names that a file can have below a directory.
structure IsLocal (path : Path) (names : List Text) : Prop where
  eq : path = ⟨.relative, names⟩
  isName : ∀ name ∈ names, IsName name

theorem IsLocal.child {path : Path} {names : List Text} {name : Text} (h : IsLocal path names) (hname : IsName name) :
    IsLocal (path.child name) (names ++ [name]) where
  eq := by rw [h.eq, Path.child_of_isName _ hname]
  isName := by simpa [or_imp, forall_and] using ⟨h.isName, hname⟩

theorem isLocal_here : IsLocal .here [] := ⟨rfl, by simp⟩

theorem IsLocal.isRead {path : Path} {names : List Text} (h : IsLocal path names) : path.IsRead :=
  h.eq ▸ Path.isRead_of_isName h.isName

theorem IsLocal.normalNames {path : Path} {names : List Text} (h : IsLocal path names) :
    path.normalNames = names := by
  rw [h.eq]
  exact Path.normalNames_of_isName h.isName

theorem IsLocal.normalNames_join {path : Path} {names : List Text} (h : IsLocal path names) (output : Path) :
    (output.join path).normalNames = output.normalNames ++ names := by
  rw [h.eq]
  exact Path.normalNames_append_names h.isName

-- The way between two files below a directory is the same wherever the directory is.
theorem specifier_join {directory bare : Path} {names others : List Text} {name : Text}
    (hdirectory : IsLocal directory names) (hname : IsName name) (hbare : IsLocal bare others) :
    (output.join (directory.child name)).specifier (output.join bare) = (directory.child name).specifier bare := by
  have hparent (path : Path) : (path.child name).parent = path := by
    rw [Path.child_of_isName _ hname, Path.parent, List.dropLast_concat]
  rw [← Path.join_child, Path.specifier, Path.specifier, hparent, hparent, hdirectory.normalNames,
    hdirectory.normalNames_join, hbare.normalNames, hbare.normalNames_join, Path.wayNames_append]

theorem child_eq_join (output : Path) (t : Text) : output.child t = output.join (Path.here.child t) := by
  rw [Path.here_child, Path.child]

theorem sharedImports_join {directory : Path} {names : List Text} (h : IsLocal directory names) :
    sharedImports output (output.join (directory.child "types.ts")) =
      sharedImports .here (directory.child "types.ts") := by
  have hspecifier {name : Text} (hname : IsName name) :
      (output.join (directory.child "types.ts")).specifier (output.child name) =
        (directory.child "types.ts").specifier (Path.here.child name) := by
    rw [child_eq_join output]
    exact specifier_join h isModuleName_types.isName (isLocal_here.child hname)
  rw [sharedImports, sharedImports, @hspecifier "base-types" (by decide), @hspecifier "enums" (by decide)]

theorem file_join {path : Path} (h : path.IsRead) (content : Text) :
    file (output.join path) content = (file path content).below output := by
  rw [GeneratedFile.below, file, file, Path.ofText_text h]

-- Files with notes, below a directory.
def foundBelow (output : Path) (found : List GeneratedFile × List Note) : List GeneratedFile × List Note :=
  (found.1.map (·.below output), found.2)

theorem tableFiles_below {table : Table} (hname : IsName table.name) :
    tableFiles schema clientPath output table = foundBelow output <$> tableFiles schema clientPath .here table := by
  have hlocal := isLocal_here.child hname
  have hfile (t content : Text) : file (output.join ((Path.here.child table.name).child t)) content =
      (file ((Path.here.child table.name).child t) content).below output := file_join (hlocal.isRead.child t) content
  simp only [tableFiles, child_eq_join output, Path.join_child, sharedImports_join hlocal, hfile, map_bind]
  refine bind_congr fun types => bind_congr fun hooks => ?_
  cases table.hasRelationships with
  | false => simp [foundBelow]
  | true => simp [foundBelow]

theorem routineFiles_below {routine : Routine} (hname : IsName routine.name) :
    routineFiles schema clientPath output routine =
      foundBelow output <$> routineFiles schema clientPath .here routine := by
  have hlocal := (isLocal_here.child isName_functions).child hname
  have hfile (t content : Text) :
      file (output.join (((Path.here.child "functions").child routine.name).child t)) content =
        (file (((Path.here.child "functions").child routine.name).child t) content).below output :=
    file_join (hlocal.isRead.child t) content
  simp only [routineFiles, functionsPath, child_eq_join output, Path.join_child, sharedImports_join hlocal, hfile,
    map_bind]
  exact bind_congr fun types => by simp [foundBelow]

theorem collect_map {α : Type} {filesOf filesOf' : α → HookGen.Generated (List GeneratedFile × List Note)}
    {items : List α}
    (h : ∀ item ∈ items, filesOf item = foundBelow output <$> filesOf' item) :
    collect filesOf items = foundBelow output <$> collect filesOf' items := by
  induction items with
  | nil => rfl
  | cons item rest ih =>
    obtain ⟨hitem, hrest⟩ := List.forall_mem_cons.mp h
    rw [collect, collect, hitem, ih hrest, bind_map_left, map_bind]
    refine bind_congr fun found => ?_
    simp only [foundBelow, bind_map_left, map_bind]
    exact bind_congr fun others => by simp [foundBelow]

theorem storageFiles_below (clientPath : Text) (output : Path) : storageFiles clientPath output =
    (storageFiles clientPath .here).map (·.below output) := by
  have hfile (t content : Text) : file (output.join ((Path.here.child "storage").child t)) content =
      (file ((Path.here.child "storage").child t) content).below output :=
    file_join ((isLocal_here.child isName_storage).isRead.child t) content
  simp only [storageFiles, child_eq_join output, Path.join_child, hfile, List.map_map]
  rfl

theorem assignments_below (hnames : ProperNames schema) : assignments schema clientPath output =
    List.map (·.below output) <$> assignments schema clientPath .here := by
  have hfile (t content : Text) : file (output.join (Path.here.child t)) content =
      (file (Path.here.child t) content).below output := file_join (isLocal_here.isRead.child t) content
  have hfile' (t content : Text) : file (output.join ((Path.here.child "functions").child t)) content =
      (file ((Path.here.child "functions").child t) content).below output :=
    file_join ((isLocal_here.child isName_functions).isRead.child t) content
  have htables : collect (tableFiles schema clientPath output) schema.tables =
      foundBelow output <$> collect (tableFiles schema clientPath .here) schema.tables :=
    collect_map fun table htable => tableFiles_below (hnames.tables table htable)
  have hroutines : collect (routineFiles schema clientPath output) schema.publicRoutines =
      foundBelow output <$> collect (routineFiles schema clientPath .here) schema.publicRoutines :=
    collect_map fun routine hroutine => routineFiles_below (hnames.routines routine hroutine)
  rw [assignments, assignments, htables, bind_map_left, map_bind]
  refine bind_congr fun tables => ?_
  simp only [foundBelow]
  rw [hroutines, bind_map_left, map_bind]
  refine bind_congr fun functions => ?_
  simp only [foundBelow, storageFiles_below clientPath output, functionsPath, baseTypesPath, enumsPath,
    child_eq_join output,
    Path.join_child, hfile, hfile']
  generalize List.filterMap Note.baseType? (tables.2 ++ functions.2) = used
  generalize storageFiles clientPath .here = storage
  cases used.isEmpty <;> cases schema.publicRoutines.isEmpty <;> cases schema.hasEnums <;>
    simp only [if_true, Bool.false_eq_true, if_false, pure_bind, map_pure, map_bind, List.map_append,
      List.map_cons, List.map_nil, List.append_nil]

theorem path_below {file : GeneratedFile} {names : List Text} (h : At .here names file) (output : Path) :
    (file.below output).path = Path.text ⟨output.anchor, output.names ++ names⟩ := by
  have hpath : Path.ofText file.path = ⟨.relative, names⟩ := by
    rw [h.path]
    exact Path.ofText_text (@Path.isRead_of_isName .relative _ h.isName)
  rw [GeneratedFile.below, hpath]
  rfl

-- Files with different paths have different paths below a directory.
theorem below_path_eq_iff (houtput : output.IsRead) {file other : GeneratedFile} (hfile : Placed .here file)
    (hother : Placed .here other) : (file.below output).path = (other.below output).path ↔ file.path = other.path := by
  obtain ⟨names, hfile⟩ := hfile
  obtain ⟨others, hother⟩ := hother
  have hread {names : List Text} (h : ∀ name ∈ names, IsName name) :
      Path.IsRead ⟨output.anchor, output.names ++ names⟩ :=
    houtput.join (@Path.isRead_of_isName .relative _ h)
  constructor
  · intro h
    rw [path_below hfile, path_below hother] at h
    have hpaths := congrArg Path.ofText h
    rw [Path.ofText_text (hread hfile.isName), Path.ofText_text (hread hother.isName)] at hpaths
    rw [hfile.path, hother.path, List.append_cancel_left (congrArg Path.names hpaths)]
  · exact fun h => congrArg (fun path => (output.join (Path.ofText path)).text) h

theorem map_put (houtput : output.IsRead) {file : GeneratedFile} {files : List GeneratedFile}
    (hfile : Placed .here file) (hfiles : ∀ other ∈ files, Placed .here other) :
    put (file.below output) (files.map (·.below output)) = (put file files).map (·.below output) := by
  induction files with
  | nil => rfl
  | cons other rest ih =>
    obtain ⟨hother, hrest⟩ := List.forall_mem_cons.mp hfiles
    rw [List.map_cons, put, put]
    by_cases heq : other.path = file.path
    · rw [if_pos heq, if_pos ((below_path_eq_iff houtput hother hfile).mpr heq), List.map_cons]
    · rw [if_neg heq, if_neg (mt (below_path_eq_iff houtput hother hfile).mp heq), List.map_cons, ih hrest]

theorem map_foldl_put (houtput : output.IsRead) {files merged : List GeneratedFile}
    (hfiles : ∀ file ∈ files, Placed .here file) (hmerged : ∀ file ∈ merged, Placed .here file) :
    (files.map (·.below output)).foldl (fun files file => put file files) (merged.map (·.below output)) =
      (files.foldl (fun files file => put file files) merged).map (·.below output) := by
  induction files generalizing merged with
  | nil => rfl
  | cons file rest ih =>
    obtain ⟨hfile, hrest⟩ := List.forall_mem_cons.mp hfiles
    rw [List.map_cons, List.foldl_cons, List.foldl_cons, map_put houtput hfile hmerged]
    refine ih hrest fun other hother => ?_
    rcases mem_put hother with rfl | hmem
    · exact hfile
    · exact hmerged other hmem

-- Generating for an output directory is generating for where one is, and putting the files there.
theorem generate_below (hnames : ProperNames schema) (houtput : output.IsRead) :
    generate schema clientPath output = List.map (·.below output) <$> generate schema clientPath .here := by
  rw [generate, generate, assignments_below hnames, bind_map_left, map_bind]
  have hplaced {files : List GeneratedFile} (h : (assignments schema clientPath .here).outcome = .ok files) :
      ∀ file ∈ files, Placed .here file := by
    intro file hfile
    obtain ⟨directory, name, hinside⟩ := assignments_inside h file hfile
    exact hinside.placed hnames.tables hnames.routines
  refine bind_congr_ok fun files hfiles => ?_
  have hmerged := map_foldl_put houtput (hplaced hfiles) (@List.forall_mem_nil _ (Placed .here))
  rw [List.map_nil] at hmerged
  rw [hmerged]
  simp only [List.length_map, map_bind, map_pure]

end Below

end Generation

namespace Introspection

-- Declarations that are moved declare the same schema.
theorem introspect_moved (path path' : Text) (declarations : List Source.Declaration) (schemaName rootName : Text) :
    (introspect ⟨path', declarations⟩ schemaName rootName).outcome.toOption =
      (introspect ⟨path, declarations⟩ schemaName rootName).outcome.toOption.map (·.withSource (some path')) := by
  have hroot (path : Text) : (ofExcept (DeclarationFile.requireType ⟨path, declarations⟩ rootName) :
      Introspected Shape).outcome.toOption = DeclarationFile.type? ⟨path', declarations⟩ rootName := by
    have htype : DeclarationFile.type? ⟨path, declarations⟩ rootName =
        DeclarationFile.type? ⟨path', declarations⟩ rootName := rfl
    rw [DeclarationFile.requireType, htype]
    cases DeclarationFile.type? ⟨path', declarations⟩ rootName <;> rfl
  have hmap {α β γ : Type} (x : Option α) (f : α → Option β) (g : β → γ) :
      (x.bind f).map g = x.bind fun a => (f a).map g := Option.map_bind
  rw [introspect, introspect]
  simp only [toOption_bind, hroot, hmap]
  congr 1
  funext root
  congr 1
  funext found
  split
  · simp only [toOption_bind, hmap]
    rfl
  · rfl

end Introspection

end HookGen
