import HookGen.Text.Case
import HookGen.Text.Word

/-!
Names of generated types and bindings. A name is cut into words at its start and at underscores and
hyphens.
-/

namespace HookGen.Naming

-- Words that cannot name a generated binding.
def reservedWords : List Text := [
  "break", "case", "catch", "class", "const", "continue", "debugger", "default",
  "delete", "do", "else", "enum", "export", "extends", "false", "finally", "for",
  "function", "if", "import", "in", "instanceof", "new", "null", "return", "super",
  "switch", "this", "throw", "true", "try", "typeof", "var", "void", "while", "with",
  "yield", "let", "static", "implements", "interface", "package", "private",
  "protected", "public", "await"].map Text.ofString

def isReserved (name : Text) : Bool := reservedWords.contains name

def isSeparator (c : CodePoint) : Bool := c.isIn ['_', '-']

-- Replace each separator and the word character behind it by the upper case of the latter.
def capitalizeWords : Text → Text
  | separator :: c :: rest =>
    if isSeparator separator && c.isWord then
      c.upper ++ capitalizeWords rest
    else
      separator :: capitalizeWords (c :: rest)
  | t => t

-- Change the first word character with `change`: the character at the start, or the one behind a
-- separator at the start. The later words get capitals.
def changeStart (change : CodePoint → Text) : Text → Text
  | [] => []
  | c :: rest =>
    if c.isWord then
      change c ++ capitalizeWords rest
    else
      match rest with
      | d :: after =>
        if isSeparator c && d.isWord then change d ++ capitalizeWords after
        else c :: capitalizeWords rest
      | [] => [c]

-- The words of a name with capitals, joined: `api_usage_logs` becomes `ApiUsageLogs`.
def pascal (name : Text) : Text := changeStart CodePoint.upper name

-- The same with a small first letter: `api_usage_logs` becomes `apiUsageLogs`.
def camel (name : Text) : Text := changeStart CodePoint.lower name

def startsIdentifier (c : CodePoint) : Bool := c.isAsciiLetter || c.isIn ['_', '$']

def continuesIdentifier (c : CodePoint) : Bool := startsIdentifier c || c.isAsciiDigit

-- Whether a text is an identifier in ASCII.
def isIdentifier : Text → Bool
  | [] => false
  | c :: rest => startsIdentifier c && rest.all continuesIdentifier

-- Whether a name is an identifier, up to a line feed at its end, and not reserved.
def isValid (name : Text) : Bool :=
  (isIdentifier name || (name.getLast? == some (.char '\n') && isIdentifier name.dropLast)) &&
    !isReserved name

-- The name with underscores for what no identifier has, and one in front of a digit.
def safeType (name : Text) : Text :=
  let cleaned := name.map fun c => if continuesIdentifier c then c else '_'
  match cleaned with
  | [] => "_"
  | c :: _ => if c.isAsciiDigit then "_" ++ cleaned else cleaned

-- The name made usable as a binding: a reserved word gets a suffix.
def safeFunctionWith (suffix name : Text) : Text :=
  if isValid name then name
  else if isReserved name then name ++ suffix
  else safeType name

def safeFunction (name : Text) : Text := safeFunctionWith "Rpc" name

-- The name of the type of a table, function or enum.
def typeName (name : Text) : Text := safeType (pascal name)

-- The name of the plain function that calls a database function.
def directFunction (name : Text) : Text := safeFunction (camel name)

end HookGen.Naming
