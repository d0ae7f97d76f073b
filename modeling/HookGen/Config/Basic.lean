import HookGen.Json.Basic
import HookGen.Text.Blank

/-!
The configuration. Settings are the options as they were written, whatever their values; a
configuration has options of the right kinds.
-/

namespace HookGen

structure Config where
  input : Text
  output : Text
  supabasePath : Text
  schema : Text
  manifest : Bool
  deriving DecidableEq, Repr

structure Settings where
  input : Json
  output : Json
  supabasePath : Json
  schema : Json
  manifest : Json

def Config.default : Config where
  input := "./lib/database.types.ts"
  output := "./lib/database"
  supabasePath := "@/lib/supabase"
  schema := "public"
  manifest := true

def Config.fileName : Text := "supahooks.config.json"

def Config.toSettings (config : Config) : Settings where
  input := .str config.input
  output := .str config.output
  supabasePath := .str config.supabasePath
  schema := .str config.schema
  manifest := .bool config.manifest

namespace Settings

def default : Settings := Config.default.toSettings

-- The settings that an object gives; options it does not give have their defaults. The path of the
-- client may go by a second name.
def ofJson (data : Json) : Settings where
  input := (data.field? "input").getD default.input
  output := (data.field? "output").getD default.output
  supabasePath :=
    (data.field? "supabasePath").getD ((data.field? "supabaseImportPath").getD default.supabasePath)
  schema := (data.field? "schema").getD default.schema
  manifest := (data.field? "manifest").getD default.manifest

def toJson (settings : Settings) : Json :=
  .obj [
    ("input", settings.input),
    ("output", settings.output),
    ("supabasePath", settings.supabasePath),
    ("schema", settings.schema),
    ("manifest", settings.manifest)]

inductive SettingsError
  | blankText (option : Text) (value : Json)
  | noTruthValue (value : Json)

def SettingsError.message : SettingsError → Text
  | .blankText option value =>
    "'" ++ option ++ "' must be a non-empty string, got " ++ value.shown
  | .noTruthValue value => "'manifest' must be true or false, got " ++ value.shown

-- An option that has to be a text with something in it.
def checkText (option : Text) (value : Json) : Except SettingsError Text :=
  match value with
  | .str text => if text.isBlank then .error (.blankText option value) else .ok text
  | _ => .error (.blankText option value)

def checkBool (value : Json) : Except SettingsError Bool :=
  match value with
  | .bool flag => .ok flag
  | _ => .error (.noTruthValue value)

-- The configuration that settings describe. Of several faults the first in the order of the options
-- is reported.
def check (settings : Settings) : Except SettingsError Config := do
  let input ← checkText "input" settings.input
  let output ← checkText "output" settings.output
  let supabasePath ← checkText "supabasePath" settings.supabasePath
  let schema ← checkText "schema" settings.schema
  let manifest ← checkBool settings.manifest
  return ⟨input, output, supabasePath, schema, manifest⟩

inductive OverrideError
  | unknownOption (name : Text)
  -- the name under which the settings themselves are given
  | nameTaken (name : Text)
  -- a built-in name whose value has to be of a kind that no option has
  | refusedClass (kind : Text)
  | refusedFields (kind : Text)
  -- a built-in name that cannot be set
  | readOnly (name : Text)
  deriving DecidableEq, Repr

def OverrideError.message : OverrideError → Text
  | .unknownOption name => "Unknown config option: " ++ name
  | .nameTaken name => "apply_config_overrides() got multiple values for argument '" ++ name ++ "'"
  | .refusedClass kind => "__class__ must be set to a class, not '" ++ kind ++ "' object"
  | .refusedFields kind => "__dict__ must be set to a dictionary, not a '" ++ kind ++ "'"
  | .readOnly name => "attribute '" ++ name ++ "' of 'SupaHooksConfig' objects is not writable"

-- What the kind of a value is called in these messages.
def kindName : Json → Text
  | .null => "NoneType"
  | .bool _ => "bool"
  | .int _ => "int"
  | .float _ => "float"
  | .str _ => "str"
  | .arr _ => "list"
  | .obj _ => "dict"

-- Names besides the options that every configuration answers to. Setting them changes no option.
def builtinNames : List Text := [
  "get_input_path", "get_output_path", "__annotations__", "__dataclass_fields__",
  "__dataclass_params__", "__delattr__", "__dir__", "__doc__", "__eq__", "__format__", "__ge__",
  "__getattribute__", "__getstate__", "__gt__", "__hash__", "__init__", "__init_subclass__",
  "__le__", "__lt__", "__match_args__", "__module__", "__ne__", "__new__", "__reduce__",
  "__reduce_ex__", "__repr__", "__setattr__", "__sizeof__", "__str__", "__subclasshook__",
  "__weakref__"].map Text.ofString

-- Whether a name can be overridden at all.
def isKnown (name : Text) : Bool :=
  name == ("input" : Text) || name == ("output" : Text) || name == ("supabasePath" : Text) ||
    name == ("schema" : Text) || name == ("manifest" : Text) || name == ("__class__" : Text) ||
    name == ("__dict__" : Text) || builtinNames.contains name

-- Set an option that is known.
def set (settings : Settings) (name : Text) (value : Json) : Except OverrideError Settings :=
  if name = "input" then .ok { settings with input := value }
  else if name = "output" then .ok { settings with output := value }
  else if name = "supabasePath" then .ok { settings with supabasePath := value }
  else if name = "schema" then .ok { settings with schema := value }
  else if name = "manifest" then .ok { settings with manifest := value }
  else if name = "__class__" then .error (.refusedClass (kindName value))
  else if name = "__dict__" then
    match value with
    | .obj fields =>
      -- all options at once
      .ok (ofJson (.obj (fields.filter (·.1 != ("supabaseImportPath" : Text)))))
    | _ => .error (.refusedFields (kindName value))
  else if name = "__weakref__" then .error (.readOnly name)
  else .ok settings

-- Override one option. An absent value changes nothing, but the option has to exist.
def override (settings : Settings) (name : Text) (value : Json) : Except OverrideError Settings :=
  if !isKnown name then .error (.unknownOption name)
  else
    match value with
    | .null => .ok settings
    | value => settings.set name value

-- Override options in order, up to the first that fails.
def overrideEach (settings : Settings) :
    List (Text × Json) → Settings × Except OverrideError Unit
  | [] => (settings, .ok ())
  | (name, value) :: rest =>
    match settings.override name value with
    | .ok changed => overrideEach changed rest
    | .error e => (settings, .error e)

-- The name under which the settings themselves are given, so that no option can go by it.
def ownName : Text := "config"

-- Override options that are given together.
def overrideAll (settings : Settings) (given : List (Text × Json)) :
    Settings × Except OverrideError Unit :=
  if given.any (·.1 == ownName) then (settings, .error (.nameTaken ownName))
  else settings.overrideEach given

end Settings

-- Options that a caller may give in place of the configured ones.
structure Overrides where
  input : Option Text
  output : Option Text
  supabasePath : Option Text
  schema : Option Text
  deriving DecidableEq, Repr

def Overrides.none : Overrides := ⟨Option.none, Option.none, Option.none, Option.none⟩

def Config.override (config : Config) (overrides : Overrides) : Config :=
  { config with
    input := overrides.input.getD config.input
    output := overrides.output.getD config.output
    supabasePath := overrides.supabasePath.getD config.supabasePath
    schema := overrides.schema.getD config.schema }

end HookGen
