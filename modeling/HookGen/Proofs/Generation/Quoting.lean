import HookGen.Proofs.Code.Quoting
import HookGen.Proofs.Generation.Distinct
import HookGen.Proofs.Generation.Outlines

/-!
Where the files of a table or a function mention its name, and for which names each of these spots is as it is meant.
-/

namespace HookGen.Generation

open Code Traced

-- A place where a name stands as it is: a literal, or a documentation comment that is laid out.
inductive Spot
  | literal
  | doc (before after : Text)
  deriving DecidableEq, Repr

def Spot.slot (name : Text) : Spot → Slot
  | .literal => .literal name
  | .doc before after => laidDocSlot (before ++ name ++ after)

def slotsAt (spots : List Spot) (name : Text) : List Slot := spots.map (·.slot name)

theorem slotsAt_append (spots others : List Spot) (name : Text) :
    slotsAt (spots ++ others) name = slotsAt spots name ++ slotsAt others name := List.map_append

theorem slotsAt_when (condition : Bool) (spots : List Spot) (name : Text) :
    slotsAt (if condition then spots else []) name = if condition then slotsAt spots name else [] := by
  cases condition <;> rfl

section TableHooks

open TableHooks

-- The places in the hooks of a table.
def optionSpots : List Spot := [.doc "Column and relationship selection for " " queries"]

def useSingleSpots : List Spot := [.doc "React Query hook for fetching a single " " record by ID", .literal]

def useListSpots : List Spot :=
  [.doc "React Query hook for fetching multiple " " records with filtering", .literal]

def useCreateSpots : List Spot := [.doc "React Query mutation hook for creating a new " " record"]

def useUpdateSpots : List Spot := [.doc "React Query mutation hook for updating an existing " " record"]

def useDeleteSpots : List Spot := [.doc "React Query mutation hook for deleting a " " record"]

def getSingleSpots : List Spot := [.doc "Direct function to fetch a single " " by ID (no React Query)", .literal]

def getListSpots : List Spot :=
  [.doc "Direct function to fetch multiple " " records with filtering (no React Query)", .literal]

def createSpots : List Spot := [.doc "Direct function to create a new " " (no React Query)", .literal]

def updateSpots : List Spot := [.doc "Direct function to update an existing " " (no React Query)", .literal]

def deleteSpots : List Spot := [.doc "Direct function to delete a " " (no React Query)", .literal]

def hookSpots (byId : Bool) : List Spot :=
  let whenById (spots : List Spot) : List Spot := if byId then spots else []
  optionSpots ++ whenById useSingleSpots ++ (useListSpots ++ useCreateSpots) ++ whenById useUpdateSpots ++
    whenById useDeleteSpots ++ whenById getSingleSpots ++ (getListSpots ++ createSpots) ++
    whenById updateSpots ++ whenById deleteSpots

-- The hooks of a table by its name, the other names being what they are.
def hooksOf (names : Names) (clientPath : Text) (byId : Bool) (name : Text) : Text :=
  joinSections (sections { names with table := name } clientPath byId)

theorem fills_queryHook (names : Names) (description : Text → Text) (hook result parameter rest call : Text) :
    Fills (fun name => queryHook { names with table := name } (description name) hook result parameter
      ("'" ++ name ++ "'" ++ rest) call) fun name => [laidDocSlot (description name), .literal name] := by
  refine (fills_layout_literal "queryKey: [" (rest ++ "],") description
    (block ("export const " ++ hook ++ " = (") ") => \x7b" (steps [parameter, hookOptions names result]) ++
      [.indent, .line ("const " ++ names.selectionFields ++ " = options ?? \x7b\x7d;"),
        .openBlock ("return useQuery<" ++ result ++ ", Error>(\x7b") "\x7d);"])
    [.line ("queryFn: () => " ++ call ++ ","), .line "...queryOptions", .closeBlock, .dedent, .line "\x7d;"]
    (by decide)).congr (fun name => ?_) fun _ => rfl
  simp [queryHook, doc, steps, block, indented, Slot.text, hookOptions, Names.options, Names.selectionFields]

theorem fills_mutationHook (description : Text → Text) (hook result input call : Text) :
    Fills (fun name => mutationHook (description name) hook result input call) fun name =>
      [laidDocSlot (description name)] :=
  fills_layout description _

theorem fills_plainFunction (description : Text → Text) (function result : Text) (parameters : List Text)
    (first : Text) (rest : List Text) (value : Text) :
    Fills (fun name => plainFunction (description name) function result parameters
      (first :: ("  .from('" ++ name ++ "')") :: rest) value) fun name =>
      [laidDocSlot (description name), .literal name] := by
  refine (fills_layout_literal "  .from(" ")" description
    (block ("export const " ++ function ++ " = async (") ("): Promise<" ++ result ++ "> => \x7b")
      (steps parameters) ++ [.indent, .line first])
    (steps rest ++ throwOnError ++ steps [[], "return data as " ++ value ++ ";"] ++ [.dedent, .line "\x7d;"])
    (by decide)).congr (fun name => ?_) fun _ => rfl
  simp [plainFunction, doc, steps, block, indented, Slot.text, Text.ofString, Text.ofChars]

theorem fills_delete (names : Names) :
    Fills (fun name => delete { names with table := name }) (slotsAt deleteSpots) := by
  refine (fills_layout_literal "  .from(" ")"
    (fun name => "Direct function to delete a " ++ name ++ " (no React Query)")
    [.openBlock
        ("export const delete" ++ names.pascal ++ " = async (id: " ++ names.idType ++ "): Promise<void> => \x7b")
        "\x7d;",
      .line "const \x7b error \x7d = await supabase"]
    (steps ["  .delete()", "  .eq('id', id);", []] ++ throwOnError ++ [.closeBlock])
    (by decide)).congr (fun name => ?_) fun _ => rfl
  simp [delete, fromTable, doc, steps, block, Slot.text, Names.idType, Names.row, Text.ofString, Text.ofChars]

theorem fills_useSingle (names : Names) :
    Fills (fun name => useSingle { names with table := name }) (slotsAt useSingleSpots) := by
  refine (fills_queryHook names (fun name => "React Query hook for fetching a single " ++ name ++ " record by ID")
    ("use" ++ names.pascal) names.row ("id: " ++ names.idType ++ ",") (", id" ++ names.keySuffix)
    ("get" ++ names.pascal ++ "(id, " ++ names.selectionArgs ++ ")")).congr (fun name => ?_) fun _ => rfl
  have hkey : ("'" ++ name ++ "', id" ++ names.keySuffix : Text) =
      "'" ++ name ++ "'" ++ (", id" ++ names.keySuffix) := by
    simp [Text.ofString, Text.ofChars]
  rw [← hkey]
  rfl

theorem fills_useList (names : Names) :
    Fills (fun name => useList { names with table := name }) (slotsAt useListSpots) := by
  refine (fills_queryHook names
    (fun name => "React Query hook for fetching multiple " ++ name ++ " records with filtering")
    ("use" ++ names.pascal ++ "List") (names.row ++ "[]") ("params?: " ++ names.filters ++ ",")
    (", 'list', params" ++ names.keySuffix)
    ("get" ++ names.pascal ++ "List(params, " ++ names.selectionArgs ++ ")")).congr (fun name => ?_) fun _ => rfl
  have hkey : ("'" ++ name ++ "', 'list', params" ++ names.keySuffix : Text) =
      "'" ++ name ++ "'" ++ (", 'list', params" ++ names.keySuffix) := by
    simp [Text.ofString, Text.ofChars]
  rw [← hkey]
  rfl

theorem fills_useCreate (names : Names) :
    Fills (fun name => useCreate { names with table := name }) (slotsAt useCreateSpots) :=
  fills_mutationHook (fun name => "React Query mutation hook for creating a new " ++ name ++ " record")
    ("use" ++ names.pascal ++ "Create") names.row names.insert ("(newItem) => create" ++ names.pascal ++ "(newItem)")

theorem fills_useUpdate (names : Names) :
    Fills (fun name => useUpdate { names with table := name }) (slotsAt useUpdateSpots) :=
  fills_mutationHook (fun name => "React Query mutation hook for updating an existing " ++ name ++ " record")
    ("use" ++ names.pascal ++ "Update") names.row
    ("\x7b id: " ++ names.idType ++ "; data: " ++ names.update ++ " \x7d")
    ("(\x7b id, data \x7d) => update" ++ names.pascal ++ "(id, data)")

theorem fills_useDelete (names : Names) :
    Fills (fun name => useDelete { names with table := name }) (slotsAt useDeleteSpots) :=
  fills_mutationHook (fun name => "React Query mutation hook for deleting a " ++ name ++ " record")
    ("use" ++ names.pascal ++ "Delete") "void" names.idType ("(id) => delete" ++ names.pascal ++ "(id)")

theorem fills_getSingle (names : Names) :
    Fills (fun name => getSingle { names with table := name }) (slotsAt getSingleSpots) :=
  fills_plainFunction (fun name => "Direct function to fetch a single " ++ name ++ " by ID (no React Query)")
    ("get" ++ names.pascal) names.row ["id: " ++ names.idType ++ ",", "options?: " ++ names.options]
    "const \x7b data, error \x7d = await supabase"
    ["  .select(" ++ names.selectFunction ++ "(options))", Text.ofString "  .eq('id', id)",
      Text.ofString "  .single();", []]
    ("unknown as " ++ names.row)

theorem fills_getList (names : Names) :
    Fills (fun name => getList { names with table := name }) (slotsAt getListSpots) :=
  fills_plainFunction
    (fun name => "Direct function to fetch multiple " ++ name ++ " records with filtering (no React Query)")
    ("get" ++ names.pascal ++ "List") (names.row ++ "[]")
    ["params?: " ++ names.filters ++ ",", "options?: " ++ names.options]
    "const query = supabase"
    ["  .select(" ++ names.selectFunction ++ "(options));", [],
      "const \x7b data, error \x7d = await " ++ names.filterFunction ++ "(query, params);", []]
    ("unknown as " ++ names.row ++ "[]")

theorem fills_create (names : Names) :
    Fills (fun name => create { names with table := name }) (slotsAt createSpots) :=
  fills_plainFunction (fun name => "Direct function to create a new " ++ name ++ " (no React Query)")
    ("create" ++ names.pascal) names.row ["newItem: " ++ names.insert] "const \x7b data, error \x7d = await supabase"
    ["  .insert(newItem)", "  .select()", "  .single();", []] names.row

theorem fills_update (names : Names) :
    Fills (fun name => update { names with table := name }) (slotsAt updateSpots) :=
  fills_plainFunction (fun name => "Direct function to update an existing " ++ name ++ " (no React Query)")
    ("update" ++ names.pascal) names.row ["id: " ++ names.idType ++ ",", "updateData: " ++ names.update]
    "const \x7b data, error \x7d = await supabase"
    ["  .update(updateData)", "  .eq('id', id)", "  .select()", "  .single();", []] names.row

theorem fills_queryOptions (names : Names) :
    Fills (fun name => queryOptions { names with table := name }) (slotsAt optionSpots) := by
  refine (fills_layout (fun name => "Column and relationship selection for " ++ name ++ " queries")
    (block ("export type " ++ names.options ++ " = \x7b") "\x7d;"
      (doc ["Specify what columns to return", "@example ['id', 'name', 'email']"] ++ steps ["select?: string[];"] ++
        (if names.withRelations then
          doc ["Specify what relationships to join", "@example \x7b profile: true, comments: true \x7d"] ++
            steps ["with?: Partial<Record<keyof Relationships, boolean>>;"]
        else [])))).congr (fun name => ?_) fun _ => rfl
  rfl

-- The name of a table stands in its hooks at these places and nowhere else.
theorem fills_hooksOf (names : Names) (clientPath : Text) (byId : Bool) :
    Fills (hooksOf names clientPath byId) (slotsAt (hookSpots byId)) := by
  have hoptions : FillsEach "\n\n" (fun name => [queryOptions { names with table := name }]) (slotsAt optionSpots) :=
    .single (fills_queryOptions names)
  have hhelpers : FillsEach "\n\n" (fun _ => [selectBuilder names, filterHelper names]) fun _ => [] :=
    fillsEach_code ..
  have hlists : FillsEach "\n\n" _ _ :=
    (FillsEach.single (fills_useList names)).append (.single (fills_useCreate names))
  have hplain : FillsEach "\n\n" _ _ :=
    (FillsEach.single (fills_getList names)).append (.single (fills_create names))
  have hsections := (((((((hoptions.append hhelpers).append (.when byId (.single (fills_useSingle names)))).append
    hlists).append (.when byId (.single (fills_useUpdate names)))).append
    (.when byId (.single (fills_useDelete names)))).append (.when byId (.single (fills_getSingle names)))).append
    hplain).append (.when byId (.single (fills_update names))) |>.append (.when byId (.single (fills_delete names)))
  refine (Fills.between hsections (imports names clientPath) "\n").congr (fun name => ?_) fun name => ?_
  · rw [hooksOf, joinSections, sections]
    simp only [List.cons_append, List.nil_append, join_cons, List.append_assoc]
    rfl
  · simp only [hookSpots, slotsAt_append, slotsAt_when, List.append_nil, List.append_assoc]

end TableHooks

section RoutineHooks

open RoutineHooks

-- The places in the hooks of a function.
def routineQuerySpots : List Spot := [.doc "React Query hook for calling the " " RPC function", .literal]

def routineMutationSpots : List Spot := [.doc "React Query mutation hook for calling the " " RPC function"]

def directFunctionSpots : List Spot :=
  [.doc "Direct function call to " " RPC function (no React Query)", .literal]

def routineHookSpots : List Spot := routineQuerySpots ++ routineMutationSpots ++ directFunctionSpots

-- The hooks of a function by its name, the other names being what they are.
def routineHooksOf (names : Names) (clientPath name : Text) : Text :=
  let names : Names := { names with routine := name }
  joinSections [imports names clientPath, queryHook names, mutationHook names, directFunction names]

theorem fills_routineQuery (names : Names) :
    Fills (fun name => RoutineHooks.queryHook { names with routine := name }) (slotsAt routineQuerySpots) := by
  refine (fills_layout_literal "queryKey: ['rpc', " ", args],"
    (fun name => "React Query hook for calling the " ++ name ++ " RPC function")
    (block ("export const use" ++ names.pascal ++ " = (") ") => \x7b" (steps [names.parameter ++ ",",
        "options?: Omit<UseQueryOptions<" ++ names.returns ++ ", Error>, 'queryKey' | 'queryFn'>"]) ++
      [.indent, .openBlock ("return useQuery<" ++ names.returns ++ ", Error>(\x7b") "\x7d);"])
    [.line ("queryFn: () => " ++ names.direct ++ "(args),"), .line "...options", .closeBlock, .dedent, .line "\x7d;"]
    (by decide)).congr (fun name => ?_) fun _ => rfl
  simp [queryHook, steps, block, indented, Slot.text, Names.parameter, Names.args, Names.returns, Text.ofString,
    Text.ofChars]

theorem fills_routineMutation (names : Names) :
    Fills (fun name => RoutineHooks.mutationHook { names with routine := name }) (slotsAt routineMutationSpots) :=
  fills_layout (fun name => "React Query mutation hook for calling the " ++ name ++ " RPC function")
    (block ("export const use" ++ names.pascal ++ "Mutation = (") ") => \x7b"
        (steps ["options?: Omit<UseMutationOptions<" ++ (names.returns ++ ", Error, " ++ names.args) ++
          ">, 'mutationFn'>"]) ++
      indented (block ("return useMutation<" ++ (names.returns ++ ", Error, " ++ names.args) ++ ">(\x7b") "\x7d);"
        (steps ["mutationFn: (args) => " ++ names.direct ++ "(args),", "...options"])) ++
      steps ["\x7d;"])

theorem fills_directFunction (names : Names) :
    Fills (fun name => directFunction { names with routine := name }) (slotsAt directFunctionSpots) := by
  refine (fills_layout_literal "const \x7b data, error \x7d = await supabase.rpc(" ", args);"
    (fun name => "Direct function call to " ++ name ++ " RPC function (no React Query)")
    (block ("export const " ++ names.direct ++ " = async (") ("): Promise<" ++ names.returns ++ "> => \x7b")
      (steps [names.parameter]) ++ [.indent])
    ([.line []] ++ block "if (error) \x7b" "\x7d" [.line "throw new Error(error.message);"] ++
      steps [[], "return data as " ++ names.returns ++ ";"] ++ [.dedent, .line "\x7d;"])
    (by decide)).congr (fun name => ?_) fun _ => rfl
  simp [directFunction, steps, block, indented, Slot.text, Names.parameter, Names.args, Names.returns, Text.ofString,
    Text.ofChars]

-- The name of a function stands in its hooks at these places and nowhere else.
theorem fills_routineHooksOf (names : Names) (clientPath : Text) :
    Fills (routineHooksOf names clientPath) (slotsAt routineHookSpots) := by
  have hsections : FillsEach "\n\n" _ _ := ((FillsEach.single (fills_routineQuery names)).append
    (.single (fills_routineMutation names))).append (.single (fills_directFunction names))
  refine (Fills.between hsections (imports names clientPath) "\n").congr (fun name => ?_) fun _ => rfl
  rw [routineHooksOf, joinSections, join_cons]
  rfl

end RoutineHooks

section Files

variable {schema : Schema} {clientPath : Text} {output : Path} {table : Table} {routine : Routine}

-- The places in the types of a table.
def typeSlots (table : Table) : List Slot := [
  bannerSlot ("Auto-generated type definitions for table: " ++ table.name),
  docSlot ["Filter parameters for " ++ table.name ++ " queries",
    "Makes all properties from " ++ (table.typeName ++ "Row") ++ " optional and adds array operators"]]

-- What selects the rows of a relation, under its short name.
def selectText (table : Text) (relationship : Relationship) : Text :=
  relationship.relationName table ++ ":" ++ relationship.embedSelect

def relationSlots (table : Table) : List Slot :=
  docSlot ["Auto-generated relationship types for table: " ++ table.name] ::
    (distinctRelationships table).map fun relationship => .literal (selectText table.name relationship)

-- The places in the files of a table, and in those of a function, file by file.
def tableSlots (table : Table) : List (List Slot) :=
  [typeSlots table, slotsAt (hookSpots (hasId table)) table.name] ++
    (if table.hasRelationships then [relationSlots table, []] else []) ++
    [[lineSlot ("Auto-generated index file for the " ++ table.name ++ " module")]]

def routineSlots (routine : Routine) : List (List Slot) := [
  [bannerSlot ("Auto-generated type definitions for RPC function: " ++ routine.name)],
  slotsAt routineHookSpots routine.name,
  [lineSlot ("Auto-generated index file for " ++ routine.name ++ " RPC function")]]

-- The content of files has these slots in it.
def HasAllSlots (files : List GeneratedFile) (slots : List (List Slot)) : Prop :=
  List.Forall₂ (fun file slots => HasSlots file.content slots) files slots

theorem hasSlots_append {first rest : Text} {slots others : List Slot} (h : HasSlots first slots)
    (h' : HasSlots rest others) :
    HasSlots (first ++ rest) (slots ++ others) := .append h h'

theorem hasSlots_slot (slot : Slot) : HasSlots slot.text [slot] := .slot fun _ => slot

theorem hasSlots_code (text : Text) : HasSlots text [] := .code text

theorem hasSlots_joinLines {first : Text} {slots : List Slot} (h : HasSlots first slots) (rest : List Text) :
    HasSlots (Text.joinLines (first :: rest)) slots := by
  rw [joinLines_cons]
  simpa using hasSlots_append h (hasSlots_code _)

theorem hasSlots_filterParams (table : Table) : HasSlots (Types.filterParams table) [docSlot [
    "Filter parameters for " ++ table.name ++ " queries",
    "Makes all properties from " ++ (table.typeName ++ "Row") ++ " optional and adds array operators"]] := by
  rw [Types.filterParams, ← text_docSlot (by simp)]
  exact hasSlots_joinLines (hasSlots_slot _) _

theorem hasSlots_reexportIndex (banner : Text) (modules : List Text) :
    HasSlots (reexportIndex banner modules) [lineSlot banner] := by
  have htext : reexportIndex banner modules =
      (lineSlot banner).text ++ ((modules.map reexport).flatMap (Text.ofString "\n" ++ ·) ++ "\n") := by
    simp [reexportIndex, joinLines_cons, lineSlot, Slot.text, Text.ofString, Text.ofChars]
  rw [htext]
  exact hasSlots_append (hasSlots_slot _) (hasSlots_code _)

-- A module under a comment with sections, the last of which has slots.
theorem hasSlots_joinSections {comment last : Text} {slots others : List Slot} (hcomment : HasSlots comment slots)
    (texts : List Text) (h : HasSlots last others) :
    HasSlots (joinSections (comment :: texts ++ [last])) (slots ++ others) := by
  have htext : joinSections (comment :: texts ++ [last]) =
      comment ++ (texts.flatMap (Text.ofString "\n\n" ++ ·) ++ "\n\n" ++ last ++ "\n") := by
    rw [joinSections, List.cons_append, join_cons]
    simp
  rw [htext]
  exact hasSlots_append hcomment (Fills.between h (texts.flatMap (Text.ofString "\n\n" ++ ·) ++ "\n\n") "\n")

theorem hasSlots_assemble (comment imports : Text) (texts : List Text) {last : Text} {slots : List Slot}
    (h : HasSlots last slots) :
    HasSlots (assemble comment imports (texts ++ [last])) (bannerSlot comment :: slots) := by
  have hcomment := hasSlots_slot (bannerSlot comment)
  rw [text_bannerSlot] at hcomment
  have hmodule := hasSlots_joinSections hcomment ((if imports.isEmpty then [] else [imports]) ++ texts) h
  rwa [List.cons_append, List.append_assoc, ← List.cons_append] at hmodule

theorem hasSlots_selectEntry (table : Text) (relationship : Relationship) :
    HasSlots (Relations.selectEntry table relationship) [.literal (selectText table relationship)] := by
  have htext : Relations.selectEntry table relationship = "  " ++ relationship.relationName table ++ ": " ++
      (Slot.literal (selectText table relationship)).text ++ "," := by
    simp [Relations.selectEntry, selectText, Slot.text, Text.ofString, Text.ofChars]
  rw [htext]
  exact Fills.between (hasSlots_slot _) _ _

theorem hasSlots_selectEntries (table : Text) (relationships : List Relationship) :
    HasSlots ((relationships.map (Relations.selectEntry table)).flatMap (Text.ofString "\n" ++ ·))
      (relationships.map fun relationship => .literal (selectText table relationship)) := by
  induction relationships with
  | nil => exact hasSlots_code []
  | cons relationship rest ih =>
    exact hasSlots_append (hasSlots_append (hasSlots_code "\n") (hasSlots_selectEntry table relationship)) ih

theorem hasSlots_selects (table : Text) (relationships : List Relationship) (comment head : Text) :
    HasSlots
      (Text.joinLines ([comment, head] ++ relationships.map (Relations.selectEntry table) ++ [Text.ofString "\x7d;"]))
      (relationships.map fun relationship => .literal (selectText table relationship)) := by
  have hentries := Fills.between (hasSlots_selectEntries table relationships) (comment ++ ("\n" ++ head)) "\n\x7d;"
  refine hentries.congr (fun _ => ?_) fun _ => rfl
  rw [List.append_assoc, List.cons_append, joinLines_cons]
  simp [Text.ofString, Text.ofChars]

theorem hasSlots_moduleOf (table : Text) (relationships : List Relationship) :
    HasSlots (Relations.moduleOf table relationships)
    (docSlot ["Auto-generated relationship types for table: " ++ table] ::
      relationships.map fun relationship => .literal (selectText table relationship)) := by
  have hcomment := hasSlots_slot (docSlot ["Auto-generated relationship types for table: " ++ table])
  rw [text_docSlot (by simp)] at hcomment
  have hmodule (imports : List Text) (types interface : Text) :=
    hasSlots_joinSections hcomment (imports ++ [types, interface])
    (hasSlots_selects table relationships (docComment ["PostgREST embed strings, aliased to the relation name"])
      "export const relationSelects: Record<keyof Relationships, string> = \x7b")
  simp only [List.cons_append, List.append_assoc, List.nil_append] at hmodule
  rw [Relations.moduleOf]
  simp only [List.cons_append, List.nil_append]
  exact hmodule _ _ _

theorem HasAllSlots.append {files others : List GeneratedFile} {slots moreSlots : List (List Slot)}
    (h : HasAllSlots files slots) (h' : HasAllSlots others moreSlots) :
    HasAllSlots (files ++ others) (slots ++ moreSlots) :=
  List.rel_append h h'

theorem TableFiles.hasAllSlots {files : List GeneratedFile} (h : TableFiles schema clientPath output table files) :
    HasAllSlots files (tableSlots table) := by
  cases h with
  | @intro texts hooks htypes hmodule =>
    obtain ⟨byId, hid, hhooks⟩ := except_bind_eq_ok.mp hmodule
    obtain rfl := Except.ok.inj hhooks
    have hbyId : hasId table = byId := by rw [hasId, hid]; rfl
    have htypesSlots :
        HasSlots ((TypesModule.ofTable schema output table).content output texts) (typeSlots table) := by
      simp only [TypesModule.ofTable, Types.tableDeclarations, outcome_bind_eq_ok] at htypes
      obtain ⟨row, -, insert, -, update, -, htexts⟩ := htypes
      obtain rfl := Except.ok.inj htexts
      exact hasSlots_assemble _ _ [_, _, _] (hasSlots_filterParams table)
    have hhookSlots := (fills_hooksOf (.ofTable table) clientPath byId).hasSlots table.name
    refine HasAllSlots.append (HasAllSlots.append (.cons htypesSlots (.cons (hbyId ▸ hhookSlots) .nil)) ?_)
      (.cons (hasSlots_reexportIndex _ _) .nil)
    split
    · rw [relations_value]
      exact .cons (hasSlots_moduleOf table.name _) (.cons (hasSlots_code _) .nil)
    · exact .nil

theorem RoutineFiles.hasAllSlots {files : List GeneratedFile}
    (h : RoutineFiles schema clientPath output routine files) :
    HasAllSlots files (routineSlots routine) := by
  cases h with
  | @intro texts htypes =>
    have htypesSlots : HasSlots ((TypesModule.ofRoutine schema output routine).content output texts)
        [bannerSlot ("Auto-generated type definitions for RPC function: " ++ routine.name)] := by
      simp only [TypesModule.ofRoutine, Types.routineDeclarations, outcome_bind_eq_ok] at htypes
      obtain ⟨args, -, returns, -, htexts⟩ := htypes
      obtain rfl := Except.ok.inj htexts
      exact hasSlots_assemble _ _ [_] (hasSlots_code _)
    exact .cons htypesSlots (.cons ((fills_routineHooksOf (.ofRoutine routine) clientPath).hasSlots routine.name)
      (.cons (hasSlots_reexportIndex _ _) .nil))

section Faithful

variable {name before after : Text} {byId : Bool}

-- A text that can stand between single quotes as it is, and one that can stand in comments as well.
def IsQuotable (t : Text) : Prop := ∀ c ∈ t, c ≠ '\'' ∧ c ≠ '\\' ∧ c ≠ '\n' ∧ c ≠ '\r'

structure IsMentionable (t : Text) : Prop where
  quotable : IsQuotable t
  unclosed : ¬ Closes t
  line : ∀ c ∈ t, StringLiteral.isLineTerminator c = false

instance (t : Text) : Decidable (IsQuotable t) := inferInstanceAs (Decidable (∀ c ∈ t, _))

instance (t : Text) : Decidable (IsMentionable t) :=
  decidable_of_iff (IsQuotable t ∧ ¬ Closes t ∧ ∀ c ∈ t, StringLiteral.isLineTerminator c = false)
    ⟨fun ⟨quotable, unclosed, line⟩ => ⟨quotable, unclosed, line⟩, fun h => ⟨h.quotable, h.unclosed, h.line⟩⟩

theorem isFaithful_literal {t : Text} :
    (Slot.literal t).IsFaithful ↔ IsQuotable t :=
  StringLiteral.isLiteral_self_iff

theorem isFaithful_laidDoc (h : Gap before after) :
    (laidDocSlot (before ++ name ++ after)).IsFaithful ↔ ¬ Closes name := by
  rw [isFaithful_laidDocSlot, h.closes_iff]

theorem isFaithful_line (hbefore : ∀ c ∈ before, StringLiteral.isLineTerminator c = false)
    (hafter : ∀ c ∈ after, StringLiteral.isLineTerminator c = false) :
    (lineSlot (before ++ name ++ after)).IsFaithful ↔ ∀ c ∈ name, StringLiteral.isLineTerminator c = false := by
  have hspace : ∀ c ∈ Text.ofString " ", StringLiteral.isLineTerminator c = false := by decide
  simp only [lineSlot, Slot.IsFaithful, List.forall_mem_append]
  exact ⟨fun h => h.2.1.2, fun h => ⟨hspace, ⟨hbefore, h⟩, hafter⟩⟩

-- Nothing around the name ends the comment.
def Spot.IsApart : Spot → Prop
  | .literal => True
  | .doc before after => Gap before after

instance : DecidablePred Spot.IsApart
  | .literal => inferInstanceAs (Decidable True)
  | .doc before after => inferInstanceAs (Decidable (Gap before after))

theorem Spot.isFaithful_iff {spot : Spot} (h : spot.IsApart) :
    (spot.slot name).IsFaithful ↔ if spot = .literal then IsQuotable name else ¬ Closes name := by
  cases spot with
  | literal =>
    rw [if_pos rfl]
    exact isFaithful_literal
  | doc before after =>
    rw [if_neg nofun]
    exact isFaithful_laidDoc h

-- Where there are both literals and comments, a name that is right at all places is right for both.
theorem slotsAt_isFaithful {spots : List Spot} (h : ∀ spot ∈ spots, spot.IsApart) (hliteral : .literal ∈ spots)
    (hdoc : ∃ spot ∈ spots, spot ≠ .literal) :
    (∀ slot ∈ slotsAt spots name, slot.IsFaithful) ↔ IsQuotable name ∧ ¬ Closes name := by
  simp only [slotsAt, List.forall_mem_map]
  constructor
  · intro hall
    obtain ⟨spot, hspot, hne⟩ := hdoc
    have hcomment := (Spot.isFaithful_iff (h spot hspot)).mp (hall spot hspot)
    rw [if_neg hne] at hcomment
    exact ⟨isFaithful_literal.mp (hall _ hliteral), hcomment⟩
  · rintro ⟨hquotable, hopen⟩ spot hspot
    rw [Spot.isFaithful_iff (h spot hspot)]
    split
    · exact hquotable
    · exact hopen

theorem hookSpots_isFaithful :
    (∀ slot ∈ slotsAt (hookSpots byId) name, slot.IsFaithful) ↔ IsQuotable name ∧ ¬ Closes name := by
  refine slotsAt_isFaithful ?_ ?_ ?_ <;> cases byId <;> decide +kernel

theorem routineHookSpots_isFaithful :
    (∀ slot ∈ slotsAt routineHookSpots name, slot.IsFaithful) ↔ IsQuotable name ∧ ¬ Closes name :=
  slotsAt_isFaithful (by decide) (by decide) (by decide)

theorem typeSlots_isFaithful : (∀ slot ∈ typeSlots table, slot.IsFaithful) ↔ ¬ Closes table.name := by
  have hbanner : Gap "Auto-generated type definitions for table: " [] := by decide
  have hfilters : Gap "Filter parameters for " " queries" := by decide
  have htype : ¬ Closes
      ("Makes all properties from " ++ (table.typeName ++ "Row") ++ " optional and adds array operators") := by
    intro hcloses
    have hfixed : .char '*' ∉ Text.ofString "Makes all properties from " ∧ .char '*' ∉ Text.ofString "Row" ∧
        .char '*' ∉ Text.ofString " optional and adds array operators" := by decide
    have hmem : CodePoint.char '*' ∈ table.typeName := by
      simpa only [List.mem_append, hfixed.1, hfixed.2.1, hfixed.2.2, false_or, or_false] using
        hcloses.subset List.mem_cons_self
    exact absurd (Naming.continues_of_mem_safeType hmem) (by decide)
  rw [typeSlots, List.forall_mem_cons, List.forall_mem_singleton, isFaithful_bannerSlot, hbanner.closes_append_iff,
    isFaithful_docSlot, List.forall_mem_cons, List.forall_mem_singleton, hfilters.closes_iff]
  exact ⟨fun h => h.1, fun h => ⟨h, h, htype⟩⟩

theorem relationSlots_isFaithful : (∀ slot ∈ relationSlots table, slot.IsFaithful) ↔ ¬ Closes table.name ∧
    ∀ relationship ∈ distinctRelationships table, IsQuotable (selectText table.name relationship) := by
  have hgap : Gap "Auto-generated relationship types for table: " [] := by decide
  simp only [relationSlots, List.forall_mem_cons, List.forall_mem_map, isFaithful_docSlot, List.mem_singleton,
    forall_eq, hgap.closes_append_iff, isFaithful_literal]

theorem distinctRelationships_eq_nil (h : table.hasRelationships = false) : distinctRelationships table = [] := by
  have hnone : table.relationships = [] := by simpa [Table.hasRelationships] using h
  have houtcome : (Relations.distinct table).outcome = .ok [] := by
    rw [Relations.distinct, hnone]
    rfl
  exact Except.ok.inj ((outcome_eq _).symm.trans houtcome)

-- The files of a table mention it as is meant exactly where nothing in its name is special in a literal or a comment,
-- nor in what selects the rows of its relations.
theorem tableSlots_isFaithful : (∀ slots ∈ tableSlots table, ∀ slot ∈ slots, slot.IsFaithful) ↔
    IsMentionable table.name ∧
      ∀ relationship ∈ distinctRelationships table, IsQuotable (selectText table.name relationship) := by
  have hrelations : (∀ slots ∈ (if table.hasRelationships then [relationSlots table, []] else []),
      ∀ slot ∈ slots, slot.IsFaithful) ↔ (table.hasRelationships → ¬ Closes table.name) ∧
        ∀ relationship ∈ distinctRelationships table, IsQuotable (selectText table.name relationship) := by
    by_cases h : table.hasRelationships
    · simp [h, relationSlots_isFaithful]
    · rw [Bool.not_eq_true] at h
      simp [h, distinctRelationships_eq_nil h]
  have hindex : (lineSlot ("Auto-generated index file for the " ++ table.name ++ " module")).IsFaithful ↔
      ∀ c ∈ table.name, StringLiteral.isLineTerminator c = false := isFaithful_line (by decide) (by decide)
  rw [tableSlots, List.forall_mem_append, List.forall_mem_append, hrelations, List.forall_mem_cons,
    List.forall_mem_singleton, List.forall_mem_singleton, List.forall_mem_singleton, typeSlots_isFaithful,
    hookSpots_isFaithful, hindex]
  constructor
  · rintro ⟨⟨⟨hclosed, hquotable, -⟩, -, hselect⟩, hline⟩
    exact ⟨⟨hquotable, hclosed, hline⟩, hselect⟩
  · rintro ⟨h, hselect⟩
    exact ⟨⟨⟨h.unclosed, h.quotable, h.unclosed⟩, fun _ => h.unclosed, hselect⟩, h.line⟩

theorem routineSlots_isFaithful :
    (∀ slots ∈ routineSlots routine, ∀ slot ∈ slots, slot.IsFaithful) ↔ IsMentionable routine.name := by
  have hbanner : Gap "Auto-generated type definitions for RPC function: " [] := by decide
  have hindex : (lineSlot ("Auto-generated index file for " ++ routine.name ++ " RPC function")).IsFaithful ↔
      ∀ c ∈ routine.name, StringLiteral.isLineTerminator c = false := isFaithful_line (by decide) (by decide)
  rw [routineSlots, List.forall_mem_cons, List.forall_mem_singleton, List.forall_mem_cons, List.forall_mem_singleton,
    List.forall_mem_singleton, isFaithful_bannerSlot, hbanner.closes_append_iff, routineHookSpots_isFaithful, hindex]
  constructor
  · rintro ⟨hclosed, ⟨hquotable, -⟩, hline⟩
    exact ⟨hquotable, hclosed, hline⟩
  · exact fun h => ⟨h.unclosed, ⟨h.quotable, h.unclosed⟩, h.line⟩

end Faithful

section Quoted

variable {files : List GeneratedFile} {slots : List (List Slot)}

-- The content of files has these slots in it, and each of them is as it is meant.
def Quoted (files : List GeneratedFile) (slots : List (List Slot)) : Prop :=
  HasAllSlots files slots ∧ ∀ fileSlots ∈ slots, ∀ slot ∈ fileSlots, slot.IsFaithful

theorem TableFiles.quoted_iff_mentionable (h : TableFiles schema clientPath output table files) :
    Quoted files (tableSlots table) ↔ IsMentionable table.name ∧
      ∀ relationship ∈ distinctRelationships table, IsQuotable (selectText table.name relationship) := by
  rw [Quoted, tableSlots_isFaithful]
  exact and_iff_right h.hasAllSlots

theorem RoutineFiles.quoted_iff_mentionable (h : RoutineFiles schema clientPath output routine files) :
    Quoted files (routineSlots routine) ↔ IsMentionable routine.name := by
  rw [Quoted, routineSlots_isFaithful]
  exact and_iff_right h.hasAllSlots

-- Each slot is in one of the files.
theorem HasAllSlots.exists_isInfix (h : HasAllSlots files slots) {fileSlots : List Slot} (hslots : fileSlots ∈ slots)
    {slot : Slot} (hslot : slot ∈ fileSlots) : ∃ file ∈ files, slot.text <:+: file.content := by
  induction h with
  | nil => cases hslots
  | cons hfirst _ ih =>
    obtain rfl | hslots := List.mem_cons.mp hslots
    · exact ⟨_, List.mem_cons_self, hfirst.isInfix [] slot hslot⟩
    · obtain ⟨file, hfile, hinfix⟩ := ih hslots
      exact ⟨file, List.mem_cons_of_mem _ hfile, hinfix⟩

-- The names of tables and functions are written without any escapes. The files of each are as is meant exactly where
-- none of the names in them has a character that is special in a literal or a comment.
theorem quoted_iff (h : (generate schema clientPath output).outcome = .ok files) :
    ∃ tables routines, Assigned schema clientPath output tables routines ∧
      files = (tables.flatten ++ routines.flatten ++ commonFiles schema clientPath output).foldl
        (fun files file => put file files) [] ∧
      List.Forall₂ (fun table files => Quoted files (tableSlots table) ↔ IsMentionable table.name ∧
        ∀ relationship ∈ distinctRelationships table, IsQuotable (selectText table.name relationship))
        schema.tables tables ∧
      List.Forall₂ (fun routine files => Quoted files (routineSlots routine) ↔ IsMentionable routine.name)
        schema.publicRoutines routines := by
  obtain ⟨assigned, hassigned, rfl⟩ := exists_assigned h
  obtain ⟨tables, routines, hparts, rfl⟩ := assignments_eq_ok hassigned
  exact ⟨tables, routines, hparts, rfl, hparts.tables.imp fun _ _ => TableFiles.quoted_iff_mentionable,
    hparts.routines.imp fun _ _ => RoutineFiles.quoted_iff_mentionable⟩

end Quoted

section Sample

def clubsSource : Text :=
  "type Database = \x7b public: \x7b Tables: \x7b clubs: \x7b Row: \x7b id: string \x7d, Relationships: [\x7b " ++
  "foreignKeyName: \"clubs_owner_fkey\", columns: [\"owner\"], isOneToOne: false, referencedRelation: \"users\", " ++
  "referencedColumns: [\"id\"] \x7d] \x7d \x7d, Functions: \x7b find_club: \x7b Args: \x7b\x7d, Returns: string " ++
  "\x7d \x7d \x7d \x7d"

theorem clubs_generated : (Generated.of? clubsSource "@/lib/client" "out" fun schema _ =>
    schema.publicRoutines.map (·.name) = [Text.ofString "find_club"] ∧
    schema.tables.map (fun table => (table.name, (distinctRelationships table).map (selectText table.name))) =
      [(Text.ofString "clubs", [Text.ofString "owner:users!clubs_owner_fkey(*)"])] ∧
    (∀ table ∈ schema.tables, IsMentionable table.name ∧
      ∀ relationship ∈ distinctRelationships table, IsQuotable (selectText table.name relationship)) ∧
    ∀ routine ∈ schema.publicRoutines, IsMentionable routine.name).isSome := by
  have hsource : clubsSource = Text.ofChars _ ++ Text.ofChars _ ++ Text.ofChars _ ++ Text.ofChars _ :=
    congrArg₂ (· ++ ·) (congrArg₂ (· ++ ·) (congrArg₂ (· ++ ·) (Text.ofString_ofList _) (Text.ofString_ofList _))
      (Text.ofString_ofList _)) (Text.ofString_ofList _)
  rw [hsource]
  decide +kernel

def clubs := (Generated.of? clubsSource "@/lib/client" "out" _).get clubs_generated

theorem clubs_quoted : (generate clubs.schema "@/lib/client" (.ofText "out")).outcome = .ok clubs.files ∧
    ∃ tables routines, Assigned clubs.schema "@/lib/client" (.ofText "out") tables routines ∧
      clubs.files = (tables.flatten ++ routines.flatten ++
        commonFiles clubs.schema "@/lib/client" (.ofText "out")).foldl (fun files file => put file files) [] ∧
      List.Forall₂ (fun table files => Quoted files (tableSlots table)) clubs.schema.tables tables ∧
      List.Forall₂ (fun routine files => Quoted files (routineSlots routine))
        clubs.schema.publicRoutines routines := by
  obtain ⟨-, -, htables, hroutines⟩ := clubs.meets
  obtain ⟨tables, routines, hassigned, hfiles, htableFiles, hroutineFiles⟩ := quoted_iff clubs.generated
  exact ⟨clubs.generated, tables, routines, hassigned, hfiles,
    ((List.forall₂_and_left ..).mpr ⟨htables, htableFiles⟩).imp fun _ _ h => h.2.mpr h.1,
    ((List.forall₂_and_left ..).mpr ⟨hroutines, hroutineFiles⟩).imp fun _ _ h => h.2.mpr h.1⟩

-- A table whose name has an apostrophe, and a function whose name has the end of a comment.
def apostropheSource : Text :=
  "type Database = \x7b public: \x7b Tables: \x7b \"o'clock\": \x7b\x7d \x7d, Functions: \x7b \"now*/\": " ++
  "\x7b Args: \x7b\x7d, Returns: string \x7d \x7d \x7d \x7d"

theorem apostrophe_generated : (Generated.of? apostropheSource "@/lib/client" "out" fun schema _ =>
    schema.tables.map (·.name) = [Text.ofString "o'clock"] ∧
    schema.publicRoutines.map (·.name) = [Text.ofString "now*/"]).isSome := by
  have hsource : apostropheSource = Text.ofChars _ ++ Text.ofChars _ :=
    congrArg₂ (· ++ ·) (Text.ofString_ofList _) (Text.ofString_ofList _)
  rw [hsource]
  decide +kernel

def apostrophe := (Generated.of? apostropheSource "@/lib/client" "out" _).get apostrophe_generated

-- What stands between its quotes is not a literal, and its comments have an end too many.
theorem apostrophe_unquoted :
    Source.parseDeclarations apostropheSource = some apostrophe.declarations ∧
    (Introspection.introspect ⟨"database.ts", apostrophe.declarations⟩ "public" "Database").outcome =
      .ok apostrophe.schema ∧
    apostrophe.schema.tables.map (·.name) = [Text.ofString "o'clock"] ∧
    apostrophe.schema.publicRoutines.map (·.name) = [Text.ofString "now*/"] ∧
    (generate apostrophe.schema "@/lib/client" (.ofText "out")).outcome = .ok apostrophe.files ∧
    ¬ StringLiteral.IsLiteral "'o'clock'" (List.flatMap StringLiteral.units (Text.ofString "o'clock")) ∧
    ∃ tables routines, Assigned apostrophe.schema "@/lib/client" (.ofText "out") tables routines ∧
      apostrophe.files = (tables.flatten ++ routines.flatten ++
        commonFiles apostrophe.schema "@/lib/client" (.ofText "out")).foldl (fun files file => put file files) [] ∧
      List.Forall₂ (fun table files => (∃ file ∈ files, Text.ofString "'o'clock'" <:+: file.content) ∧
        ¬ Quoted files (tableSlots table)) apostrophe.schema.tables tables ∧
      List.Forall₂ (fun routine files => (∃ file ∈ files,
        Text.ofString "/** Auto-generated type definitions for RPC function: now*/ */" <:+: file.content) ∧
        ¬ Quoted files (routineSlots routine)) apostrophe.schema.publicRoutines routines := by
  obtain ⟨htables, hroutines⟩ := apostrophe.meets
  obtain ⟨assigned, hassigned, hfiles⟩ := exists_assigned apostrophe.generated
  obtain ⟨tables, routines, hparts, rfl⟩ := assignments_eq_ok hassigned
  have hclock : ∀ table ∈ apostrophe.schema.tables, table.name = "o'clock" := by
    rw [← List.forall_mem_map (P := (· = Text.ofString "o'clock")), htables, List.forall_mem_singleton]
  have hnow : ∀ routine ∈ apostrophe.schema.publicRoutines, routine.name = "now*/" := by
    rw [← List.forall_mem_map (P := (· = Text.ofString "now*/")), hroutines, List.forall_mem_singleton]
  have hliteral : ¬ IsQuotable "o'clock" := by decide
  have hcloses : Closes "now*/" := by decide
  refine ⟨apostrophe.read, apostrophe.introspected, htables, hroutines, apostrophe.generated,
    fun h => hliteral (StringLiteral.isLiteral_self_iff.mp h), tables, routines, hparts, hfiles,
    ((List.forall₂_and_left ..).mpr ⟨hclock, hparts.tables⟩).imp ?_,
    ((List.forall₂_and_left ..).mpr ⟨hnow, hparts.routines⟩).imp ?_⟩
  · rintro table files ⟨hname, h⟩
    have hslot : .literal table.name ∈ slotsAt (hookSpots (hasId table)) table.name := by
      cases hasId table <;> simp [slotsAt, hookSpots, Spot.slot, useListSpots]
    have hhooks := h.hasAllSlots.exists_isInfix (by simp [tableSlots]) hslot
    rw [h.quoted_iff_mentionable]
    rw [hname] at hhooks ⊢
    exact ⟨hhooks, fun hmentionable => hliteral hmentionable.1.quotable⟩
  · rintro routine files ⟨hname, h⟩
    have htypes := h.hasAllSlots.exists_isInfix List.mem_cons_self List.mem_cons_self
    rw [h.quoted_iff_mentionable]
    rw [hname] at htypes ⊢
    exact ⟨htypes, fun hmentionable => hmentionable.unclosed hcloses⟩

end Sample

end Files

end HookGen.Generation
