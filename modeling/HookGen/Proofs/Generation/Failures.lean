import HookGen.Generation
import HookGen.Proofs.Render.Basic
import HookGen.Proofs.Schema.Introspection

/-!
At what generating modules can fail: at an escape without a value, and at nothing else.
-/

namespace HookGen

namespace Traced

variable {ν ε α β : Type} {allowed : ε → Prop}

-- A computation that fails at nothing but what is allowed.
def FailsOnly (allowed : ε → Prop) (x : Traced ν ε α) : Prop := ∀ e, x.outcome = .error e → allowed e

theorem failsOnly_pure (a : α) : FailsOnly allowed (pure a : Traced ν ε α) := nofun

theorem failsOnly_note (n : ν) : FailsOnly allowed (note n : Traced ν ε Unit) := nofun

theorem failsOnly_ofExcept {x : Except ε α} (h : ∀ e, x = .error e → allowed e) :
    FailsOnly allowed (ofExcept x : Traced ν ε α) := by
  intro e he
  cases x with
  | error cause =>
    obtain rfl := Except.error.inj he
    exact h cause rfl
  | ok a => cases he

theorem failsOnly_bind {x : Traced ν ε α} {f : α → Traced ν ε β} (hx : FailsOnly allowed x)
    (hf : ∀ a, FailsOnly allowed (f a)) : FailsOnly allowed (x >>= f) := by
  intro e he
  obtain ⟨notes, outcome⟩ := x
  cases outcome with
  | error cause =>
    obtain rfl := Except.error.inj he
    exact hx cause rfl
  | ok a => exact hf a e he

theorem failsOnly_retell {ν' ε' : Type} {onNote : ν → Option ν'} {onError : ε → ε'} {x : Traced ν ε α}
    {allowed' : ε' → Prop} (h : FailsOnly (fun e => allowed' (onError e)) x) :
    FailsOnly allowed' (x.retell onNote onError) := by
  intro e he
  obtain ⟨notes, outcome⟩ := x
  cases outcome with
  | error cause =>
    obtain rfl := Except.error.inj he
    exact h cause rfl
  | ok a => cases he

end Traced

open Traced

namespace Render

variable {schema : Schema} {expand : List Text → Int → Rendering Text} {shape : Shape}

-- A failure of decoding.
def RenderError.IsLiteral (e : RenderError) : Prop := ∃ cause, e = .literal cause

theorem failsOnly_noteReference {allowed : RenderError → Prop} (reference : Option Text) :
    FailsOnly allowed (noteReference schema reference) := by
  intro e he
  rw [noteReference_eq] at he
  cases he

theorem failsOnly_targetOf (path : List Text) : FailsOnly RenderError.IsLiteral (targetOf schema path) := by
  refine failsOnly_ofExcept fun e he => ?_
  cases htarget : schema.resolve path with
  | error cause =>
    rw [htarget] at he
    cases he
    exact ⟨cause, rfl⟩
  | ok target =>
    rw [htarget] at he
    cases he

theorem failsOnly_resolvedElement (element : Shape) :
    FailsOnly RenderError.IsLiteral (resolvedElement schema element) := by
  cases element with
  | lookup label path =>
    rw [resolvedElement]
    split
    · exact failsOnly_pure _
    · exact failsOnly_bind (failsOnly_targetOf path) fun _ => failsOnly_pure _
  | _ => exact failsOnly_pure _

-- An access that begins with a name can be shown.
theorem failsOnly_unresolved {allowed : RenderError → Prop} {path : List Text} (hpath : path ≠ []) :
    FailsOnly allowed (unresolved path) := by
  refine failsOnly_bind (failsOnly_ofExcept fun e he => ?_) fun _ =>
    failsOnly_bind (failsOnly_note _) fun _ => failsOnly_pure _
  cases path with
  | nil => exact absurd rfl hpath
  | cons root keys => cases he

mutual

-- A shape, if the accesses in it can be expanded.
theorem failsOnly_renderOver {indent : Int} : ∀ (shape : Shape),
    (∀ path ∈ shape.lookups, ∀ indent, FailsOnly RenderError.IsLiteral (expand path indent)) →
    FailsOnly RenderError.IsLiteral (renderOver schema expand indent shape)
  | .leaf label, _ => by
    rw [renderOver]
    exact failsOnly_bind (failsOnly_noteReference _) fun _ => failsOnly_pure _
  | .object _ members _, h => by
    rw [renderOver]
    exact failsOnly_bind (failsOnly_renderMembers members h) fun _ => failsOnly_pure _
  | .union _ args, h => by
    rw [renderOver]
    exact failsOnly_bind (failsOnly_renderArgs args h) fun _ => failsOnly_pure _
  | .array _ [], _ => by
    rw [renderOver]
    exact failsOnly_pure _
  | .array _ (element :: rest), h => by
    rw [renderOver]
    refine failsOnly_bind (failsOnly_renderOver element fun path hpath => h path ?_) fun _ =>
      failsOnly_bind (failsOnly_resolvedElement element) fun _ => failsOnly_pure _
    exact List.mem_append_left _ hpath
  | .tuple _ args, h => by
    rw [renderOver]
    exact failsOnly_bind (failsOnly_renderArgs args h) fun _ => failsOnly_pure _
  | .lookup _ path, h => by
    rw [renderOver]
    split
    · exact failsOnly_bind (failsOnly_note _) fun _ => failsOnly_pure _
    · exact h path (List.mem_singleton.mpr rfl) indent
  | .generic label args, h => by
    rw [renderOver]
    exact failsOnly_bind (failsOnly_noteReference _) fun _ =>
      failsOnly_bind (failsOnly_renderArgs args h) fun _ => failsOnly_pure _

theorem failsOnly_renderArgs {indent : Int} : ∀ (args : List Shape),
    (∀ path ∈ Shape.argLookups args, ∀ indent, FailsOnly RenderError.IsLiteral (expand path indent)) →
    FailsOnly RenderError.IsLiteral (renderArgs schema expand indent args)
  | [], _ => failsOnly_pure _
  | arg :: rest, h => by
    rw [renderArgs]
    exact failsOnly_bind (failsOnly_renderOver arg fun path hpath => h path (List.mem_append_left _ hpath)) fun _ =>
      failsOnly_bind (failsOnly_renderArgs rest fun path hpath => h path (List.mem_append_right _ hpath)) fun _ =>
        failsOnly_pure _

theorem failsOnly_renderMembers {indent : Int} : ∀ (members : List Member),
    (∀ path ∈ Shape.memberLookups members, ∀ indent, FailsOnly RenderError.IsLiteral (expand path indent)) →
    FailsOnly RenderError.IsLiteral (renderMembers schema expand indent members)
  | [], _ => failsOnly_pure _
  | .mk _ shape _ _ :: rest, h => by
    rw [renderMembers]
    exact failsOnly_bind (failsOnly_renderOver shape fun path hpath => h path (List.mem_append_left _ hpath)) fun _ =>
      failsOnly_bind (failsOnly_renderMembers rest fun path hpath => h path (List.mem_append_right _ hpath)) fun _ =>
        failsOnly_pure _

end

-- Accesses that begin with a name.
def Rooted (shape : Shape) : Prop := ∀ path ∈ shape.lookups, path ≠ []

-- What an access points at stands in the root type, so that its accesses begin with a name as well.
theorem failsOnly_renderWithin (hroot : Rooted schema.root) (budget : Nat) (resolving : List (List Text))
    (indent : Int) (hshape : Rooted shape) :
    FailsOnly RenderError.IsLiteral (renderWithin schema budget resolving indent shape) := by
  induction budget generalizing resolving indent shape with
  | zero =>
    exact failsOnly_renderOver shape fun path hpath _ =>
      failsOnly_bind (failsOnly_targetOf path) fun _ => failsOnly_unresolved (hshape path hpath)
  | succ budget ih =>
    refine failsOnly_renderOver shape fun path hpath indent e he => ?_
    have hcut : FailsOnly RenderError.IsLiteral (unresolved path) := failsOnly_unresolved (hshape path hpath)
    cases htarget : schema.resolve path with
    | error cause =>
      rw [targetOf, htarget] at he
      cases he
      exact ⟨cause, rfl⟩
    | ok target =>
      rw [targetOf, htarget] at he
      cases target with
      | none => exact hcut e he
      | some target =>
        have hpart := Schema.part_of_resolve htarget
        dsimp only [mapError_ok, Traced.ofExcept_ok, Traced.bind_ok] at he
        split at he
        · exact hcut e he
        · exact ih _ _ (fun inner hinner => hroot inner (hpart.lookups_subset hinner)) e he

theorem failsOnly_render (hroot : Rooted schema.root) (indent : Int) (hshape : Rooted shape) :
    FailsOnly RenderError.IsLiteral (render schema indent shape) :=
  failsOnly_renderWithin hroot _ _ _ hshape

theorem failsOnly_withNotes {α : Type} {allowed : RenderError → Prop} {x : Rendering α}
    (h : FailsOnly allowed x) : FailsOnly allowed (withNotes x) :=
  failsOnly_bind h fun _ => nofun

end Render

open Render

-- The accesses of a schema that is found begin with names, as those of its root type do.
structure Schema.IsRooted (schema : Schema) : Prop where
  root : Rooted schema.root
  tables : ∀ table ∈ schema.tables, Rooted table.row ∧ Rooted table.insert ∧ Rooted table.update
  routines : ∀ routine ∈ schema.routines, ∀ signature ∈ routine.signatures,
    Rooted signature.args ∧ Rooted signature.returns

namespace Types

variable {schema : Schema} {shared : SharedImports}

theorem rooted_merge {shapes : List Shape} (h : ∀ shape ∈ shapes, Rooted shape) : Rooted (merge shapes) := by
  have hunion : Rooted (.unionOf shapes) := by
    intro path hpath
    obtain ⟨shape, hshape, hpath⟩ := Shape.mem_argLookups.mp hpath
    exact h shape hshape path hpath
  match shapes with
  | [only] => exact h only (List.mem_singleton.mpr rfl)
  | [] => exact hunion
  | _ :: _ :: _ => exact hunion

theorem failsOnly_tableModule (hschema : schema.IsRooted) {table : Table} (htable : table ∈ schema.tables) :
    FailsOnly RenderError.IsLiteral (tableModule schema shared table) := by
  obtain ⟨hrow, hinsert, hupdate⟩ := hschema.tables table htable
  refine failsOnly_bind (failsOnly_withNotes ?_) fun _ => failsOnly_pure _
  exact failsOnly_bind (failsOnly_render hschema.root _ hrow) fun _ =>
    failsOnly_bind (failsOnly_render hschema.root _ hinsert) fun _ =>
      failsOnly_bind (failsOnly_render hschema.root _ hupdate) fun _ => failsOnly_pure _

theorem failsOnly_routineModule (hschema : schema.IsRooted) {routine : Routine}
    (hroutine : routine ∈ schema.routines) :
    FailsOnly RenderError.IsLiteral (routineModule schema shared routine) := by
  have hsignatures := hschema.routines routine hroutine
  refine failsOnly_bind (failsOnly_withNotes ?_) fun _ => failsOnly_pure _
  refine failsOnly_bind (failsOnly_render hschema.root _ (rooted_merge ?_)) fun _ =>
    failsOnly_bind (failsOnly_render hschema.root _ (rooted_merge ?_)) fun _ => failsOnly_pure _
  · exact List.forall_mem_map.mpr fun signature hsignature => (hsignatures signature hsignature).1
  · exact List.forall_mem_map.mpr fun signature hsignature => (hsignatures signature hsignature).2

end Types

namespace Generation

variable {schema : Schema}

-- A failure of decoding, at rendering or elsewhere.
def GenerationError.IsLiteral (e : GenerationError) : Prop :=
  (∃ cause, e = .literal cause) ∨ ∃ cause, e = .render (.literal cause)

theorem failsOnly_rendered {α : Type} {x : Rendering α} (h : FailsOnly RenderError.IsLiteral x) :
    FailsOnly GenerationError.IsLiteral (rendered x) :=
  failsOnly_retell fun e he => by
    obtain ⟨cause, rfl⟩ := failsOnly_withNotes h e he
    exact .inr ⟨cause, rfl⟩

theorem failsOnly_logged {α : Type} {allowed : GenerationError → Prop} (x : Logged Empty α) :
    FailsOnly allowed (logged x) := failsOnly_retell nofun

theorem failsOnly_tableFiles (hschema : schema.IsRooted) (clientPath : Text) (output : Path) {table : Table}
    (htable : table ∈ schema.tables) :
    FailsOnly GenerationError.IsLiteral (tableFiles schema clientPath output table) := by
  refine failsOnly_bind (failsOnly_rendered (Types.failsOnly_tableModule hschema htable)) fun _ => ?_
  refine failsOnly_bind (failsOnly_ofExcept fun e he => ?_) fun hooks => ?_
  · cases hmodule : TableHooks.module table clientPath with
    | error cause =>
      rw [hmodule] at he
      cases he
      exact .inl ⟨cause, rfl⟩
    | ok _ =>
      rw [hmodule] at he
      cases he
  · split
    · exact failsOnly_bind (failsOnly_logged _) fun _ => failsOnly_pure _
    · exact failsOnly_pure _

theorem failsOnly_routineFiles (hschema : schema.IsRooted) (clientPath : Text) (output : Path)
    {routine : Routine} (hroutine : routine ∈ schema.routines) :
    FailsOnly GenerationError.IsLiteral (routineFiles schema clientPath output routine) :=
  failsOnly_bind (failsOnly_rendered (Types.failsOnly_routineModule hschema hroutine)) fun _ => failsOnly_pure _

theorem failsOnly_collect {α : Type} {allowed : GenerationError → Prop}
    {filesOf : α → Generated (List GeneratedFile × List Note)} {items : List α}
    (h : ∀ item ∈ items, FailsOnly allowed (filesOf item)) : FailsOnly allowed (collect filesOf items) := by
  induction items with
  | nil => exact failsOnly_pure _
  | cons item rest ih =>
    obtain ⟨hitem, hrest⟩ := List.forall_mem_cons.mp h
    exact failsOnly_bind hitem fun _ => failsOnly_bind (ih hrest) fun _ => failsOnly_pure _

theorem failsOnly_generate (hschema : schema.IsRooted) (clientPath : Text) (output : Path) :
    FailsOnly GenerationError.IsLiteral (generate schema clientPath output) := by
  refine failsOnly_bind ?_ fun _ => failsOnly_bind (failsOnly_note _) fun _ => failsOnly_pure _
  refine failsOnly_bind (failsOnly_collect fun _ => failsOnly_tableFiles hschema _ _) fun _ => ?_
  refine failsOnly_bind (failsOnly_collect fun routine hroutine =>
    failsOnly_routineFiles hschema _ _ (List.mem_filter.mp hroutine).1) fun _ => ?_
  dsimp only
  split
  · exact failsOnly_pure _
  · exact failsOnly_bind (failsOnly_logged _) fun _ => failsOnly_pure _

end Generation

namespace Shape

open Source

theorem ne_nil_of_path? {type : TypeExpr} {path : List Text} (h : path? type = some path) : path ≠ [] := by
  cases type with
  | access target index indexSource source =>
    unfold path? at h
    split at h
    all_goals
      obtain ⟨start, -, hkey⟩ := Option.bind_eq_some_iff.mp h
      dsimp only at hkey
      split at hkey
      · obtain rfl := Option.some.inj hkey
        simp
      · cases hkey
  | _ => simp [path?] at h

theorem rooted_text (t : Text) : Rooted (text t) := by simp [Rooted, text, lookups]

mutual

-- A type as it is parsed has accesses by name only.
theorem rooted_ofType : ∀ (type : TypeExpr), Rooted (ofType type)
  | .verbatim source => by
    rw [ofType]
    exact rooted_text _
  | .name token => by simp [Rooted, ofType, name, lookups]
  | .grouped inner => by
    rw [ofType]
    exact rooted_ofType inner
  | .object entries => by
    rw [ofType]
    exact rooted_membersOf entries
  | .union members => by
    have hmembers := rooted_ofTypes members
    rw [ofType]
    split
    · rename_i only heq
      rw [heq] at hmembers
      exact fun path hpath => hmembers path (by simpa [argLookups] using hpath)
    · exact hmembers
  | .array element => by
    rw [ofType]
    exact fun path hpath => rooted_ofType element path (by simpa [lookups, argLookups] using hpath)
  | .tuple elements => by
    rw [ofType]
    exact rooted_ofTypes elements
  | .access target index indexSource source => by
    rw [ofType]
    split
    · rename_i path hpath
      simpa [Rooted, lookups] using ne_nil_of_path? hpath
    · exact rooted_text _
  | .apply name arguments => by
    rw [ofType]
    exact rooted_ofTypes arguments

theorem rooted_ofTypes : ∀ (types : List TypeExpr), ∀ path ∈ argLookups (ofTypes types), path ≠ []
  | [] => by simp [ofTypes, argLookups]
  | type :: rest => by
    rw [ofTypes, argLookups, List.forall_mem_append]
    exact ⟨rooted_ofType type, rooted_ofTypes rest⟩

theorem rooted_membersOf : ∀ (entries : List Entry), ∀ path ∈ memberLookups (membersOf entries), path ≠ []
  | [] => by simp [membersOf, memberLookups]
  | .property _ _ _ (some type) :: rest => by
    rw [membersOf, memberLookups, List.forall_mem_append]
    exact ⟨rooted_ofType type, rooted_membersOf rest⟩
  | .property _ _ _ none :: rest => by
    rw [membersOf, memberLookups, List.forall_mem_append]
    exact ⟨rooted_text _, rooted_membersOf rest⟩
  | .other _ :: rest => by
    rw [membersOf]
    exact rooted_membersOf rest

end

end Shape

theorem Introspection.IsFound.rooted {root shape : Shape} (h : IsFound root shape) (hroot : Rooted root) :
    Rooted shape := by
  rcases h with hpart | rfl | ⟨t, rfl⟩
  · exact fun path hpath => hroot path (hpart.lookups_subset hpath)
  · simp [Rooted, Shape.emptyObject, Shape.lookups, Shape.memberLookups]
  · exact Shape.rooted_text t

theorem Introspection.Describes.isRooted {file : DeclarationFile} {rootName : Text} {schema : Schema}
    (h : Describes file rootName schema) : schema.IsRooted := by
  have hroot : Rooted schema.root := by
    obtain ⟨declaration, -, heq⟩ := Option.map_eq_some_iff.mp h.root
    exact heq ▸ Shape.rooted_ofType declaration.value
  refine ⟨hroot, fun table htable => ?_, fun routine hroutine signature hsignature => ?_⟩
  · obtain ⟨hrow, hinsert, hupdate⟩ := h.tables table htable
    exact ⟨hrow.rooted hroot, hinsert.rooted hroot, hupdate.rooted hroot⟩
  · obtain ⟨hargs, hreturns⟩ := h.routines routine hroutine signature hsignature
    exact ⟨hargs.rooted hroot, hreturns.rooted hroot⟩

end HookGen
