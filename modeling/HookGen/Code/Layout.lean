import HookGen.Text.Blank

/-!
Laying out generated code: lines at a level of indentation, and blocks that are opened and closed.
-/

namespace HookGen.Code

inductive Step
  | line (text : Text)
  -- a snippet of several lines
  | lines (text : Text)
  | indent
  | dedent
  | openBlock (opening closing : Text)
  -- close the innermost open block
  | closeBlock
  deriving DecidableEq, Repr

-- The state of a layout: the lines so far, the level of the next one, and what closes the blocks
-- that are open, the innermost first.
structure Builder where
  indentSize : Nat
  lines : List Text
  level : Nat
  closings : List Text
  deriving DecidableEq, Repr

namespace Builder

def empty (indentSize : Nat) : Builder := ⟨indentSize, [], 0, []⟩

-- Add a line at the current level. A blank line is left empty.
def addLine (builder : Builder) (text : Text) : Builder :=
  let line := if text.isBlank then [] else Text.spaces (builder.level * builder.indentSize) ++ text
  { builder with lines := builder.lines ++ [line] }

def addLines (builder : Builder) (texts : List Text) : Builder := texts.foldl addLine builder

def apply (builder : Builder) : Step → Builder
  | .line text => builder.addLine text
  | .lines text => builder.addLines text.lines
  | .indent => { builder with level := builder.level + 1 }
  | .dedent => { builder with level := builder.level - 1 }
  | .openBlock opening closing =>
    let opened := builder.addLine opening
    { opened with level := opened.level + 1, closings := closing :: opened.closings }
  | .closeBlock =>
    match builder.closings with
    | [] => builder
    | closing :: outer =>
      { builder with level := builder.level - 1, closings := outer }.addLine closing

def run (builder : Builder) (steps : List Step) : Builder := steps.foldl apply builder

def text (builder : Builder) : Text := Text.joinLines builder.lines

end Builder

-- Steps inside a block.
def block (opening closing : Text) (body : List Step) : List Step :=
  .openBlock opening closing :: body ++ [.closeBlock]

-- Steps one level further in.
def indented (body : List Step) : List Step := .indent :: body ++ [.dedent]

-- The text of steps with two spaces for each level.
def layout (steps : List Step) : Text := ((Builder.empty 2).run steps).text

-- Join each line that begins with `else` to the line before, if that is a closing brace.
def joinElseOnto : List Text → List Text → List Text
  | merged, [] => merged
  | merged, line :: rest =>
    match merged.getLast? with
    | some last =>
      if Text.startsWith "else" line.trim && last.trim == ("\x7d" : Text) then
        joinElseOnto (merged.dropLast ++ [last ++ " " ++ line.trim]) rest
      else joinElseOnto (merged ++ [line]) rest
    | none => joinElseOnto (merged ++ [line]) rest

def joinElse (code : Text) : Text := Text.joinLines (joinElseOnto [] code.lines)

end HookGen.Code
