import HookGen.Emit.Types

/-!
A renderer: it renders one shape after the other and gathers what all of them refer to.
-/

namespace HookGen

structure Renderer where
  schema : Schema
  notes : List Render.Note := []

namespace Renderer

-- Render one more shape. What was noted before a failure stays.
def render (renderer : Renderer) (indent : Int) (shape : Shape) :
    Renderer × Except Render.RenderError Text :=
  let rendering := Render.render renderer.schema indent shape
  ({ renderer with notes := renderer.notes ++ rendering.notes }, rendering.outcome)

-- The base types that the texts so far refer to.
def baseTypes (renderer : Renderer) : List Text :=
  Text.sortDistinct (renderer.notes.filterMap Render.Note.baseType?)

-- The enums that the texts so far refer to.
def enums (renderer : Renderer) : List Text :=
  Text.sortDistinct (renderer.notes.filterMap Render.Note.enumeration?)

-- The imports that a module with the texts so far needs.
def imports (renderer : Renderer) (shared : SharedImports) : Text :=
  Render.imports shared renderer.notes

end Renderer

end HookGen
