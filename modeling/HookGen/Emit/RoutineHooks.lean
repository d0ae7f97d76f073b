import HookGen.Code.Layout
import HookGen.Emit.Types

/-!
The hooks of a database function: a query hook, a mutation hook and a plain function.
-/

namespace HookGen.RoutineHooks

open Code

-- The names that all parts of one module share, and the parameter for the arguments.
structure Names where
  routine : Text
  pascal : Text
  direct : Text
  hasNoArgs : Bool
  deriving DecidableEq, Repr

namespace Names

def ofRoutine (routine : Routine) : Names :=
  ⟨routine.name, routine.typeName, Naming.directFunction routine.name, Types.hasNoArgs routine⟩

def args (names : Names) : Text := names.pascal ++ "Args"

def returns (names : Names) : Text := names.pascal ++ "Returns"

-- A function without arguments need not be given any.
def parameter (names : Names) : Text :=
  let colon : Text := if names.hasNoArgs then "args?: " else "args: "
  colon ++ names.args

end Names

def steps (texts : List Text) : List Step := texts.map .line

def imports (names : Names) (clientPath : Text) : Text :=
  Text.joinLines [
    queryImport,
    clientImport clientPath,
    importNames true [names.args, names.returns] "./types"]

def queryHook (names : Names) : Text :=
  layout <|
    [.lines (docComment
      ["React Query hook for calling the " ++ names.routine ++ " RPC function"])] ++
    block ("export const use" ++ names.pascal ++ " = (") ") => \x7b"
      (steps [
        names.parameter ++ ",",
        "options?: Omit<UseQueryOptions<" ++ names.returns ++ ", Error>, 'queryKey' | 'queryFn'>"]) ++
    indented
      (block ("return useQuery<" ++ names.returns ++ ", Error>(\x7b") "\x7d);"
        (steps [
          "queryKey: ['rpc', '" ++ names.routine ++ "', args],",
          "queryFn: () => " ++ names.direct ++ "(args),",
          "...options"])) ++
    steps ["\x7d;"]

def mutationHook (names : Names) : Text :=
  let generics := names.returns ++ ", Error, " ++ names.args
  layout <|
    [.lines (docComment
      ["React Query mutation hook for calling the " ++ names.routine ++ " RPC function"])] ++
    block ("export const use" ++ names.pascal ++ "Mutation = (") ") => \x7b"
      (steps ["options?: Omit<UseMutationOptions<" ++ generics ++ ">, 'mutationFn'>"]) ++
    indented
      (block ("return useMutation<" ++ generics ++ ">(\x7b") "\x7d);"
        (steps ["mutationFn: (args) => " ++ names.direct ++ "(args),", "...options"])) ++
    steps ["\x7d;"]

def directFunction (names : Names) : Text :=
  layout <|
    [.lines (docComment
      ["Direct function call to " ++ names.routine ++ " RPC function (no React Query)"])] ++
    block ("export const " ++ names.direct ++ " = async (")
      ("): Promise<" ++ names.returns ++ "> => \x7b") (steps [names.parameter]) ++
    indented
      (steps ["const \x7b data, error \x7d = await supabase.rpc('" ++ names.routine ++ "', args);", []] ++
        block "if (error) \x7b" "\x7d" [.line "throw new Error(error.message);"] ++
        steps [[], "return data as " ++ names.returns ++ ";"]) ++
    steps ["\x7d;"]

def module (routine : Routine) (clientPath : Text) : Text :=
  let names := Names.ofRoutine routine
  joinSections [imports names clientPath, queryHook names, mutationHook names, directFunction names]

def indexModule (routine : Routine) : Text :=
  reexportIndex ("Auto-generated index file for " ++ routine.name ++ " RPC function")
    ["./types", "./hooks"]

-- The index of all functions. Private ones have no module.
def functionsIndex (routines : List Routine) : Logged Empty Text := do
  let modules ← collect routines
  return reexportIndex "Auto-generated index file for RPC functions" modules
where
  collect : List Routine → Logged Empty (List Text)
    | [] => return []
    | routine :: rest => do
      if routine.isPrivate then
        logDebug ("Skipping private function: " ++ routine.name)
        collect rest
      else
        return ("./" ++ routine.name) :: (← collect rest)

end HookGen.RoutineHooks
