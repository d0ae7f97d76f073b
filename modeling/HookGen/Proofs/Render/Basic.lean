import HookGen.Proofs.Traced
import HookGen.Render.Basic

/-!
How rendering goes on from part to part, and what it takes note of on the way.
-/

namespace HookGen.Render

variable {schema : Schema} {expand : List Text → Int → Rendering Text} {indent : Int}

-- Noting the use of a name always succeeds.
theorem noteReference_eq (schema : Schema) (reference : Option Text) :
    noteReference schema reference = ⟨(noteReference schema reference).notes, .ok ()⟩ := by
  cases reference with
  | none => rfl
  | some name =>
    rw [noteReference]
    split <;> rfl

-- Looking through the element of an array takes no notes.
theorem resolvedElement_eq (schema : Schema) (element : Shape) :
    resolvedElement schema element = ⟨[], (resolvedElement schema element).outcome⟩ := by
  cases element with
  | lookup label path =>
    rw [resolvedElement]
    split
    · rfl
    · rw [targetOf]
      cases schema.resolve path <;> rfl
  | _ => rfl

-- Any element but an access stands for itself.
theorem resolvedElement_of_direct {element : Shape} (h : ∀ label path, element ≠ .lookup label path) :
    resolvedElement schema element = ⟨[], .ok element⟩ := by
  cases element with
  | lookup label path => exact absurd rfl (h label path)
  | _ => rfl

theorem map_renderArgs_cons {β : Type} (f : List Text → β) (indent : Int) (arg : Shape)
    (rest : List Shape) :
    f <$> renderArgs schema expand indent (arg :: rest) =
      renderOver schema expand indent arg >>= fun t =>
        (fun others => f (t :: others)) <$> renderArgs schema expand indent rest := by
  simp only [renderArgs, map_bind, bind_pure_comp, Functor.map_map]

theorem map_renderMembers_cons {β : Type} (f : List Text → β) (indent : Int) (name : Text)
    (shape : Shape) (optional readonly : Bool) (rest : List Member) :
    f <$> renderMembers schema expand indent (.mk name shape optional readonly :: rest) =
      renderOver schema expand indent shape >>= fun t =>
        (fun others => f ((memberHead (.mk name shape optional readonly) ++ t) :: others)) <$>
          renderMembers schema expand indent rest := by
  simp only [renderMembers, map_bind, bind_pure_comp, Functor.map_map]

section Notes

@[simp] theorem notes_renderOver_leaf (label : Label) :
    (renderOver schema expand indent (.leaf label)).notes =
      (noteReference schema label.reference).notes := by
  rw [renderOver, noteReference_eq, Traced.bind_ok, Traced.pure_eq, List.append_nil]

@[simp] theorem notes_renderOver_object (label : Label) (members : List Member)
    (signatures : List Text) :
    (renderOver schema expand indent (.object label members signatures)).notes =
      (renderMembers schema expand (indent + 1) members).notes := by
  rw [renderOver, bind_pure_comp, Traced.notes_map]

@[simp] theorem notes_renderOver_union (label : Label) (args : List Shape) :
    (renderOver schema expand indent (.union label args)).notes =
      (renderArgs schema expand indent args).notes := by
  rw [renderOver, bind_pure_comp, Traced.notes_map]

@[simp] theorem notes_renderOver_array (label : Label) (element : Shape) (rest : List Shape) :
    (renderOver schema expand indent (.array label (element :: rest))).notes =
      (renderOver schema expand indent element).notes := by
  rw [renderOver, resolvedElement_eq, Traced.bind_eq]
  split
  · rfl
  · cases (resolvedElement schema element).outcome <;> simp

@[simp] theorem notes_renderOver_tuple (label : Label) (args : List Shape) :
    (renderOver schema expand indent (.tuple label args)).notes =
      (renderArgs schema expand indent args).notes := by
  rw [renderOver, bind_pure_comp, Traced.notes_map]

@[simp] theorem notes_renderOver_generic (label : Label) (args : List Shape) :
    (renderOver schema expand indent (.generic label args)).notes =
      (noteReference schema label.reference).notes ++
        (renderArgs schema expand indent args).notes := by
  rw [renderOver, noteReference_eq, Traced.bind_ok, bind_pure_comp, Traced.notes_map]

end Notes

end HookGen.Render
