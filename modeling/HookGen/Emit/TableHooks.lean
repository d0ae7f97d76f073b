import HookGen.Code.Layout
import HookGen.Code.Statement
import HookGen.Schema.Basic

/-!
The hooks of a table: query hooks and plain functions to read, list, create, update and delete rows.
Rows are read, updated and deleted one at a time only where they have a column `id`.
-/

namespace HookGen.TableHooks

open Code

-- The names that all parts of one module share.
structure Names where
  table : Text
  pascal : Text
  withRelations : Bool
  deriving DecidableEq, Repr

namespace Names

def ofTable (table : Table) : Names := ⟨table.name, table.typeName, table.hasRelationships⟩

def row (names : Names) : Text := names.pascal ++ "Row"

def insert (names : Names) : Text := names.pascal ++ "Insert"

def update (names : Names) : Text := names.pascal ++ "Update"

def filters (names : Names) : Text := names.pascal ++ "FilterParams"

def options (names : Names) : Text := names.pascal ++ "QueryOptions"

def idType (names : Names) : Text := names.row ++ "['id']"

def selectFunction (names : Names) : Text := "build" ++ names.pascal ++ "Select"

def filterFunction (names : Names) : Text := "apply" ++ names.pascal ++ "Filters"

-- What the selected relations add to the key of a query.
def keySuffix (names : Names) : Text := if names.withRelations then ", options?.with" else []

-- The pattern that parts the options of a selection from those of the query.
def selectionFields (names : Names) : Text :=
  if names.withRelations then "\x7b select, with: relations, ...queryOptions \x7d"
  else "\x7b select, ...queryOptions \x7d"

def selectionArgs (names : Names) : Text :=
  if names.withRelations then "\x7b select, with: relations \x7d" else "\x7b select \x7d"

end Names

def steps (texts : List Text) : List Step := texts.map .line

def doc (parts : List Text) : List Step := [.lines (docComment parts)]

def throwOnError : List Step :=
  block "if (error) \x7b" "\x7d" [.line "throw new Error(error.message);"]

def imports (names : Names) (clientPath : Text) : Text :=
  let own := [
    queryImport,
    clientImport clientPath,
    importNames true [names.row, names.insert, names.update, names.filters] "./types"]
  let relations := [
    importNames false ["relationSelects"] "./relations",
    importNames true ["Relationships"] "./relations"]
  Text.joinLines (if names.withRelations then own ++ relations else own)

def queryOptions (names : Names) : Text :=
  let relations :=
    doc ["Specify what relationships to join", "@example \x7b profile: true, comments: true \x7d"] ++
      steps ["with?: Partial<Record<keyof Relationships, boolean>>;"]
  layout <|
    doc ["Column and relationship selection for " ++ names.table ++ " queries"] ++
    block ("export type " ++ names.options ++ " = \x7b") "\x7d;"
      (doc ["Specify what columns to return", "@example ['id', 'name', 'email']"] ++
        steps ["select?: string[];"] ++
        (if names.withRelations then relations else []))

def selectBuilder (names : Names) : Text :=
  let relations :=
    block "if (options?.with) \x7b" "\x7d"
      (steps [
        "const relations = Object.entries(options.with)",
        "  .filter(([, include]) => include)",
        "  .map(([relation]) => relationSelects[relation as keyof Relationships]);"] ++
      block "if (relations.length > 0) \x7b" "\x7d"
        [.line "select += ',' + relations.join(',');"])
  layout <|
    block ("const " ++ names.selectFunction ++ " = (options?: " ++ names.options ++
        "): string => \x7b") "\x7d;"
      (steps ["let select = options?.select ? options.select.join(',') : '*';"] ++
        (if names.withRelations then relations else []) ++
        steps ["return select;"])

-- Arrays are matched with any of their elements, null and undefined are ignored.
def filterHelper (names : Names) : Text :=
  joinElse <| layout <|
    block ("const " ++ names.filterFunction ++ " = (query: any, params?: " ++ names.filters ++
        ") => \x7b") "\x7d;"
      (block "if (!params) \x7b" "\x7d" [.line "return query;"] ++
        steps [[], "const \x7b limit, offset, order, ...filters \x7d = params;", []] ++
        block "Object.entries(filters).forEach(([key, value]) => \x7b" "\x7d);"
          (block "if (value === undefined || value === null) \x7b" "\x7d" [.line "return;"] ++
            block "if (Array.isArray(value)) \x7b" "\x7d" [.line "query = query.in(key, value);"] ++
            block "else \x7b" "\x7d" [.line "query = query.eq(key, value);"]) ++
        steps [[]] ++
        block "if (order) \x7b" "\x7d"
          [.line ("query = query.order(order.column as string, " ++
            "\x7b ascending: (order.direction ?? 'asc') === 'asc' \x7d);")] ++
        block "if (typeof offset === 'number') \x7b" "\x7d"
          [.line "query = query.range(offset, offset + (limit ?? 10) - 1);"] ++
        block "else if (typeof limit === 'number') \x7b" "\x7d"
          [.line "query = query.limit(limit);"] ++
        steps [[], "return query;"])

-- The options of a query hook with the given result.
def hookOptions (names : Names) (result : Text) : Text :=
  "options?: Omit<UseQueryOptions<" ++ result ++
    ", Error>, 'queryKey' | 'queryFn' | 'select'> & " ++ names.options

-- A query hook: its parameter, the key of its query and the call that runs it.
def queryHook (names : Names) (description hook result parameter key call : Text) : Text :=
  layout <|
    doc [description] ++
    block ("export const " ++ hook ++ " = (") ") => \x7b"
      (steps [parameter, hookOptions names result]) ++
    indented
      (steps ["const " ++ names.selectionFields ++ " = options ?? \x7b\x7d;"] ++
        block ("return useQuery<" ++ result ++ ", Error>(\x7b") "\x7d);"
          (steps ["queryKey: [" ++ key ++ "],", "queryFn: () => " ++ call ++ ",", "...queryOptions"])) ++
    steps ["\x7d;"]

def useSingle (names : Names) : Text :=
  queryHook names ("React Query hook for fetching a single " ++ names.table ++ " record by ID")
    ("use" ++ names.pascal) names.row ("id: " ++ names.idType ++ ",")
    ("'" ++ names.table ++ "', id" ++ names.keySuffix)
    ("get" ++ names.pascal ++ "(id, " ++ names.selectionArgs ++ ")")

def useList (names : Names) : Text :=
  queryHook names
    ("React Query hook for fetching multiple " ++ names.table ++ " records with filtering")
    ("use" ++ names.pascal ++ "List") (names.row ++ "[]") ("params?: " ++ names.filters ++ ",")
    ("'" ++ names.table ++ "', 'list', params" ++ names.keySuffix)
    ("get" ++ names.pascal ++ "List(params, " ++ names.selectionArgs ++ ")")

-- A mutation hook with the given result, input and call.
def mutationHook (description hook result input call : Text) : Text :=
  let generics := result ++ ", Error, " ++ input
  layout <|
    doc [description] ++
    block ("export const " ++ hook ++ " = (") ") => \x7b"
      (steps ["options?: Omit<UseMutationOptions<" ++ generics ++ ">, 'mutationFn'>"]) ++
    indented
      (block ("return useMutation<" ++ generics ++ ">(\x7b") "\x7d);"
        (steps ["mutationFn: " ++ call ++ ",", "...options"])) ++
    steps ["\x7d;"]

def useCreate (names : Names) : Text :=
  mutationHook ("React Query mutation hook for creating a new " ++ names.table ++ " record")
    ("use" ++ names.pascal ++ "Create") names.row names.insert
    ("(newItem) => create" ++ names.pascal ++ "(newItem)")

def useUpdate (names : Names) : Text :=
  mutationHook ("React Query mutation hook for updating an existing " ++ names.table ++ " record")
    ("use" ++ names.pascal ++ "Update") names.row
    ("\x7b id: " ++ names.idType ++ "; data: " ++ names.update ++ " \x7d")
    ("(\x7b id, data \x7d) => update" ++ names.pascal ++ "(id, data)")

def useDelete (names : Names) : Text :=
  mutationHook ("React Query mutation hook for deleting a " ++ names.table ++ " record")
    ("use" ++ names.pascal ++ "Delete") "void" names.idType
    ("(id) => delete" ++ names.pascal ++ "(id)")

-- A plain function: its parameters, the statements that talk to the database, and what it returns.
def plainFunction (description name result : Text) (parameters body : List Text) (value : Text) :
    Text :=
  layout <|
    doc [description] ++
    block ("export const " ++ name ++ " = async (") ("): Promise<" ++ result ++ "> => \x7b")
      (steps parameters) ++
    indented (steps body ++ throwOnError ++ steps [[], "return data as " ++ value ++ ";"]) ++
    steps ["\x7d;"]

def fromTable (names : Names) : Text := "  .from('" ++ names.table ++ "')"

def getSingle (names : Names) : Text :=
  plainFunction
    ("Direct function to fetch a single " ++ names.table ++ " by ID (no React Query)")
    ("get" ++ names.pascal) names.row
    ["id: " ++ names.idType ++ ",", "options?: " ++ names.options]
    ["const \x7b data, error \x7d = await supabase",
      fromTable names,
      "  .select(" ++ names.selectFunction ++ "(options))",
      "  .eq('id', id)",
      "  .single();",
      []]
    ("unknown as " ++ names.row)

def getList (names : Names) : Text :=
  plainFunction
    ("Direct function to fetch multiple " ++ names.table ++ " records with filtering (no React Query)")
    ("get" ++ names.pascal ++ "List") (names.row ++ "[]")
    ["params?: " ++ names.filters ++ ",", "options?: " ++ names.options]
    ["const query = supabase",
      fromTable names,
      "  .select(" ++ names.selectFunction ++ "(options));",
      [],
      "const \x7b data, error \x7d = await " ++ names.filterFunction ++ "(query, params);",
      []]
    ("unknown as " ++ names.row ++ "[]")

def create (names : Names) : Text :=
  plainFunction ("Direct function to create a new " ++ names.table ++ " (no React Query)")
    ("create" ++ names.pascal) names.row
    ["newItem: " ++ names.insert]
    ["const \x7b data, error \x7d = await supabase",
      fromTable names,
      "  .insert(newItem)",
      "  .select()",
      "  .single();",
      []]
    names.row

def update (names : Names) : Text :=
  plainFunction ("Direct function to update an existing " ++ names.table ++ " (no React Query)")
    ("update" ++ names.pascal) names.row
    ["id: " ++ names.idType ++ ",", "updateData: " ++ names.update]
    ["const \x7b data, error \x7d = await supabase",
      fromTable names,
      "  .update(updateData)",
      "  .eq('id', id)",
      "  .select()",
      "  .single();",
      []]
    names.row

def delete (names : Names) : Text :=
  layout <|
    doc ["Direct function to delete a " ++ names.table ++ " (no React Query)"] ++
    block ("export const delete" ++ names.pascal ++ " = async (id: " ++ names.idType ++
        "): Promise<void> => \x7b") "\x7d;"
      (steps [
        "const \x7b error \x7d = await supabase",
        fromTable names,
        "  .delete()",
        "  .eq('id', id);",
        []] ++
      throwOnError)

-- The sections of the module; those that need a column `id` are left out where there is none.
def sections (names : Names) (clientPath : Text) (byId : Bool) : List Text :=
  let whenById (section_ : Text) : List Text := if byId then [section_] else []
  [imports names clientPath, queryOptions names, selectBuilder names, filterHelper names] ++
    whenById (useSingle names) ++
    [useList names, useCreate names] ++
    whenById (useUpdate names) ++
    whenById (useDelete names) ++
    whenById (getSingle names) ++
    [getList names, create names] ++
    whenById (update names) ++
    whenById (delete names)

def module (table : Table) (clientPath : Text) : Except StringLiteral.DecodeError Text := do
  return joinSections (sections (Names.ofTable table) clientPath (← table.hasIdColumn))

def indexModule (table : Table) : Text :=
  let modules : List Text := ["./types", "./hooks"]
  let relations : List Text := if table.hasRelationships then ["./relations"] else []
  reexportIndex ("Auto-generated index file for the " ++ table.name ++ " module")
    (modules ++ relations)

end HookGen.TableHooks
