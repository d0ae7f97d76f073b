import HookGen.Text.Digit
import HookGen.Text.Quoted

/-!
Reading the arguments of the command line. Long options may be shortened to a beginning that is that
of no other option, short ones may be joined, and a value may follow an option with or without an equals
sign.
-/

namespace HookGen.CommandLine

-- What an option is about.
inductive Action
  | help
  | input
  | output
  | config
  | supabasePath
  | schema
  | projectRoot
  | verbose
  | init
  | version
  deriving DecidableEq, Repr

def Action.takesValue : Action → Bool
  | .input | .output | .config | .supabasePath | .schema | .projectRoot => true
  | .help | .verbose | .init | .version => false

-- Every way to write an option, in the order in which messages list them.
def spellings : List (Text × Action) := [
  ("-h", .help), ("--help", .help),
  ("-i", .input), ("--input", .input),
  ("-o", .output), ("--output", .output),
  ("-c", .config), ("--config", .config),
  ("--supabase-path", .supabasePath),
  ("--schema", .schema),
  ("--project-root", .projectRoot),
  ("-v", .verbose), ("--verbose", .verbose),
  ("--init", .init),
  ("--version", .version)]

-- What an option is called in messages: all its spellings.
def Action.display (action : Action) : Text :=
  Text.join "/" ((spellings.filter (·.2 == action)).map (·.1))

-- Why arguments are not what the command line takes.
inductive UsageError
  | ambiguous (argument : Text) (candidates : List Text)
  | valueExpected (action : Action)
  | valueRefused (action : Action) (value : Text)
  | unrecognized (arguments : List Text)
  deriving DecidableEq, Repr

def UsageError.message : UsageError → Text
  | .ambiguous argument candidates =>
    "ambiguous option: " ++ argument ++ " could match " ++ Text.join ", " candidates
  | .valueExpected action => "argument " ++ action.display ++ ": expected one argument"
  | .valueRefused action value =>
    "argument " ++ action.display ++ ": ignored explicit argument " ++ value.quoted
  | .unrecognized arguments => "unrecognized arguments: " ++ Text.join " " arguments

-- A value in the same argument as its option.
inductive Attached
  | behindEquals (value : Text)
  | direct (value : Text)
  deriving DecidableEq, Repr

-- An argument as it stands on its own.
inductive Argument
  | option (action : Action) (spelling : Text) (attached : Option Attached)
  | unknownOption (text : Text)
  | positional (text : Text)
  -- two hyphens; everything behind them is positional
  | separator
  deriving DecidableEq, Repr

-- Digits, or digits around a point with at least one behind it.
def isUnsignedNumber (t : Text) : Bool :=
  let isDigit (c : CodePoint) : Bool := c.digitValue?.isSome
  match t.dropWhile isDigit with
  | [] => !t.isEmpty
  | .char '.' :: decimals => !decimals.isEmpty && decimals.all isDigit
  | _ => false

-- Whether an argument looks like a negative number, up to a line feed at its end.
def isNegativeNumber : Text → Bool
  | .char '-' :: t =>
    isUnsignedNumber t || (t.getLast? == some (.char '\n') && isUnsignedNumber t.dropLast)
  | _ => false

-- The text in front of the first equals sign and what is attached behind that.
def splitAtEquals (t : Text) : Text × Option Attached :=
  match t.dropWhile (· != .char '=') with
  | [] => (t, none)
  | _ :: value => (t.takeWhile (· != .char '='), some (.behindEquals value))

-- The options that an argument may stand for: those that begin with a long one, or the short one at
-- its start.
def candidates (argument : Text) : List Argument :=
  if Text.startsWith "--" argument then
    let (beginning, attached) := splitAtEquals argument
    (spellings.filter fun s => Text.startsWith beginning s.1).map fun s =>
      .option s.2 s.1 attached
  else
    (spellings.filter fun s => s.1 == argument.take 2).map fun s =>
      .option s.2 s.1 (some (.direct (argument.drop 2)))

def Argument.spelling? : Argument → Option Text
  | .option _ spelling _ => some spelling
  | _ => none

-- The option that is spelled in full in front of an equals sign.
def spelledOut? (argument : Text) : Option Argument :=
  match splitAtEquals argument with
  | (spelling, some attached) =>
    (spellings.lookup spelling).map fun action => .option action spelling (some attached)
  | (_, none) => none

-- What an argument in front of the separator is.
def classify (argument : Text) : Except UsageError Argument :=
  if argument.head? ≠ some (.char '-') then .ok (.positional argument)
  else
    match spellings.lookup argument with
    | some action => .ok (.option action argument none)
    | none =>
      if argument.length = 1 then .ok (.positional argument)
      else
        match spelledOut? argument with
        | some option => .ok option
        | none =>
          match candidates argument with
          | [option] => .ok option
          | first :: second :: rest =>
            .error (.ambiguous argument ((first :: second :: rest).filterMap Argument.spelling?))
          | [] =>
            if isNegativeNumber argument || argument.contains (.char ' ') then
              .ok (.positional argument)
            else .ok (.unknownOption argument)

def classifyAll : List Text → Except UsageError (List Argument)
  | [] => .ok []
  | argument :: rest =>
    if argument = "--" then .ok (.separator :: rest.map .positional)
    else do
      let first ← classify argument
      return first :: (← classifyAll rest)

-- What the arguments ask for.
structure Arguments where
  input : Option Text
  output : Option Text
  config : Option Text
  supabasePath : Option Text
  schema : Option Text
  projectRoot : Option Text
  verbose : Bool
  init : Bool
  deriving DecidableEq, Repr

def Arguments.none : Arguments :=
  ⟨Option.none, Option.none, Option.none, Option.none, Option.none, Option.none, false, false⟩

-- Why there is nothing to run.
inductive Stop
  | help
  | version
  | usage (error : UsageError)
  deriving DecidableEq, Repr

-- Do what an option asks for.
def Arguments.apply (arguments : Arguments) (action : Action) (value : Text) :
    Except Stop Arguments :=
  match action with
  | .help => .error .help
  | .version => .error .version
  | .input => .ok { arguments with input := value }
  | .output => .ok { arguments with output := value }
  | .config => .ok { arguments with config := value }
  | .supabasePath => .ok { arguments with supabasePath := value }
  | .schema => .ok { arguments with schema := value }
  | .projectRoot => .ok { arguments with projectRoot := value }
  | .verbose => .ok { arguments with verbose := true }
  | .init => .ok { arguments with init := true }

def Arguments.applyAll (arguments : Arguments) : List (Action × Text) → Except Stop Arguments
  | [] => .ok arguments
  | (action, value) :: rest => do (← arguments.apply action value).applyAll rest

-- What one argument consists of: options, each with its value if it takes one, and perhaps a rest that
-- is not recognized. It may use the argument that follows.
structure Content where
  options : List (Action × Text)
  unrecognized : List Text
  usesNext : Bool
  deriving DecidableEq, Repr

def Content.ofOption (action : Action) (value : Text) : Content := ⟨[(action, value)], [], false⟩

-- An option with a value in the same argument that cannot be anything else.
def withValue (action : Action) (value : Text) : Except UsageError Content :=
  if action.takesValue then .ok (.ofOption action value) else .error (.valueRefused action value)

-- An option that has the argument that follows for its value, if it takes one.
def withNext (action : Action) (next : Option Text) : Except UsageError Content :=
  if action.takesValue then
    match next with
    | some value => .ok ⟨[(action, value)], [], true⟩
    | none => .error (.valueExpected action)
  else .ok (.ofOption action [])

-- A short option with what is joined to it: its value, or more short options.
def joined (next : Option Text) (action : Action) : Text → Except UsageError Content
  | [] => withValue action []
  | c :: rest =>
    if action.takesValue then .ok (.ofOption action (c :: rest))
    else if c = '-' then .error (.valueRefused action (c :: rest))
    else
      match spellings.lookup [.char '-', c] with
      | none => .ok ⟨[(action, [])], [.char '-' :: c :: rest], false⟩
      | some second => do
        let others ← match rest with
          | [] => withNext second next
          | .char '=' :: value => withValue second value
          | d :: after => joined next second (d :: after)
        return { others with options := (action, []) :: others.options }

-- What an argument that begins with an option consists of.
def contentOf (next : Option Text) (action : Action) (spelling : Text) (attached : Option Attached) :
    Except UsageError Content :=
  match attached with
  | none => withNext action next
  | some (.behindEquals value) => withValue action value
  | some (.direct value) =>
    if Text.startsWith "--" spelling then withValue action value else joined next action value

-- The value that follows an option, if the next argument can be one.
def followingValue : List Argument → Option Text
  | .positional t :: _ => some t
  | _ => none

-- Go through the arguments in order. The texts are those that were not recognized so far; `skip` says
-- that the first argument is the value of the option before it.
def collect (arguments : Arguments) (unrecognized : List Text) (skip : Bool) :
    List Argument → Except Stop (Arguments × List Text)
  | [] => .ok (arguments, unrecognized)
  | first :: rest =>
    if skip then collect arguments unrecognized false rest
    else
      match first with
      | .positional t => collect arguments (unrecognized ++ [t]) false rest
      | .unknownOption t => collect arguments (unrecognized ++ [t]) false rest
      | .separator => collect arguments (unrecognized ++ [Text.ofString "--"]) false rest
      | .option action spelling attached => do
        let content ←
          (contentOf (followingValue rest) action spelling attached).mapError .usage
        let arguments ← arguments.applyAll content.options
        collect arguments (unrecognized ++ content.unrecognized) content.usesNext rest

-- Read the arguments of the command line.
def parse (arguments : List Text) : Except Stop Arguments := do
  let classified ← (classifyAll arguments).mapError .usage
  let (arguments, unrecognized) ← collect .none [] false classified
  if unrecognized.isEmpty then return arguments
  else .error (.usage (.unrecognized unrecognized))

end HookGen.CommandLine
