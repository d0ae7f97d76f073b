import HookGen.Source.Lexer
import HookGen.Source.Statement
import HookGen.Text.Blank

/-!
The top-level type declarations of a source: aliases and interfaces, exported or not. Everything else
on the top level, and what stands in namespaces, blocks and functions, is passed over.
-/

namespace HookGen.Source

structure Declaration where
  name : Text
  value : TypeExpr
  -- the whole statement, `export` included
  source : Text
  isInterface : Bool
  hasTypeParameters : Bool
  isExported : Bool

-- The comments that begin on the line on which a statement without a semicolon ends.
def trailingComments : List Trivia → List Trivia
  | [] => []
  | trivia :: rest => if trivia.breaksLine then [] else trivia :: trailingComments rest

-- Read an alias behind the word `type`. The statement, which begins at `start`, extends to its
-- semicolon if one follows, be it on a later line, and otherwise to the last comment on its line.
def parseAlias (isExported : Bool) (start tokens : List Token) :
    Option (Declaration × List Token) := do
  match tokens with
  | [] => none
  | name :: rest =>
    let (value, after) ← parseAliasValue rest
    let declaration (source : Text) : Declaration :=
      ⟨name.text, value, source.trim, false, startsWithMark "<" rest, isExported⟩
    match after with
    | [] => none
    | next :: rest =>
      if next.isMark ";" then
        return (declaration (sourceText (consumed start rest)), rest)
      else if endsAlias after then
        let comments := (trailingComments next.lead).flatMap Trivia.text
        return (declaration (sourceText (consumed start after) ++ comments), after)
      else none

-- Read an interface behind the word.
def parseInterface (isExported : Bool) (start tokens : List Token) :
    Option (Declaration × List Token) := do
  match tokens with
  | [] => none
  | name :: rest =>
    let body ← skipHead (rest.length + 1) rest
    let (entries, after) ← parseEntries (budgetFor body) (← expectMark "\x7b" body)
    return (⟨name.text, .object entries, (sourceText (consumed start after)).trim, true,
      startsWithMark "<" rest, isExported⟩, after)
where
  -- What follows type parameters and parents: the body.
  skipHead : Nat → List Token → Option (List Token)
    | 0, _ => none
    | _ + 1, [] => none
    | budget + 1, token :: rest =>
      if token.isMark "\x7b" then some (token :: rest)
      else if token.isMark "<" then (skipGroup true (token :: rest)).bind (skipHead budget)
      else if token.kind == .finish then none
      else skipHead budget rest

def startsInterface (tokens : List Token) : Bool :=
  let rest := tokens.drop 1
  startsWithWord "interface" tokens && startsWithKind .word rest

-- Words that begin a declaration which can be exported and declares no type.
def exportableWords : List Text := [
  "const", "let", "var", "function", "class", "abstract", "async", "enum", "namespace", "module",
  "declare", "import", "default"].map Text.ofString

-- What follows an exported statement that declares no type, behind the word `export`.
def skipExported (tokens : List Token) : Option (List Token) :=
  match tokens with
  | [] => none
  | token :: rest =>
    if token.isWord "default" && (startsWithWord "function" rest || startsWithWord "async" rest ||
        startsWithWord "class" rest || startsWithWord "abstract" rest) then
      skipStatement (tokens.length + 1) rest
    else if token.kind == .word && exportableWords.contains token.text then
      skipStatement (tokens.length + 1) tokens
    else if token.isWord "as" || token.isMark "*" || token.isMark "=" then
      skipExpression .start (tokens.length + 1) tokens
    else if token.isMark "\x7b" then
      skipExpression .start (tokens.length + 1) tokens
    else if token.isWord "type" && (startsWithMark "\x7b" rest || startsWithMark "*" rest) then
      skipExpression .start (tokens.length + 1) rest
    else none

-- Read one statement: a declaration, or something else to pass over.
def parseStatement (tokens : List Token) : Option (Option Declaration × List Token) :=
  let found (read : Option (Declaration × List Token)) : Option (Option Declaration × List Token) :=
    read.map fun (declaration, rest) => (some declaration, rest)
  if startsAlias tokens then found (parseAlias false tokens (tokens.drop 1))
  else if startsInterface tokens then found (parseInterface false tokens (tokens.drop 1))
  else if startsWithWord "export" tokens && !breaksLine (tokens.drop 1) then
    let exported := tokens.drop 1
    if startsAlias exported then found (parseAlias true tokens (exported.drop 1))
    else if startsInterface exported then found (parseInterface true tokens (exported.drop 1))
    else if startsWithWord "default" exported && startsAlias (exported.drop 1) then
      found (parseAlias true tokens (exported.drop 2))
    else if startsWithWord "default" exported && startsInterface (exported.drop 1) then
      found (parseInterface true tokens (exported.drop 2))
    else (skipExported exported).map fun rest => (none, rest)
  else (skipStatement (tokens.length + 1) tokens).map fun rest => (none, rest)

-- Read the statements up to the end. None where some statement is malformed.
def parseStatements : Nat → List Token → Option (List Declaration)
  | 0, _ => none
  | budget + 1, tokens =>
    if startsWithKind .finish tokens then some []
    else do
      let (declaration, rest) ← parseStatement tokens
      let others ← parseStatements budget rest
      return declaration.toList ++ others

-- Add a declaration: a name that is declared again keeps its place.
def putDeclaration (declaration : Declaration) : List Declaration → List Declaration
  | [] => [declaration]
  | other :: rest =>
    if other.name = declaration.name then declaration :: rest
    else other :: putDeclaration declaration rest

-- The declarations of a source, each name once. None where the source is malformed.
def parseDeclarations (source : Text) : Option (List Declaration) :=
  let tokens := tokens source
  (parseStatements (tokens.length + 1) tokens).map fun declarations =>
    declarations.foldl (fun known declaration => putDeclaration declaration known) []

end HookGen.Source
