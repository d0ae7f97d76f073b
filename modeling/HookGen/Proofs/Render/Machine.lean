import HookGen.Proofs.Render.Substitution
import Mathlib.Data.List.Dedup
import Mathlib.Data.List.Perm.Subperm
import Mathlib.Data.List.Nodup
import Mathlib.Logic.Relation

/-!
Rendering as a machine that takes one step after the other. It keeps the accesses that are being
resolved on a stack, puts an access there when it goes on to the target, and takes it off again when
the target is done with, be it with a text or with an error. Nothing bounds its steps, and what the
stack holds can be read off at every moment.
-/

namespace HookGen.Render

open Relation

-- What the texts of arguments are put together to.
inductive Joint
  | union
  | tuple
  | generic (name : Text)

def Joint.text : Joint → List Text → Text
  | .union, texts => layoutUnion texts
  | .tuple, texts => "[" ++ Text.join ", " texts ++ "]"
  | .generic name, texts => name ++ "<" ++ Text.join ", " texts ++ ">"

-- What is left to do once the text of a part is there.
inductive Frame
  -- the other arguments, given the texts before
  | args (joint : Joint) (indent : Int) (texts : List Text) (rest : List Shape)
  -- the brackets of an array
  | brackets (element : Shape)
  -- the other properties and the signatures, given the entries before and the head of this one
  | members (indent : Int) (entries : List Text) (head : Text) (rest : List Member)
    (signatures : List Text)
  -- taking the access that has led here off the stack
  | release

-- What a machine is about to do: to render a shape, to go on with a text, or to give up.
inductive Control
  | shape (indent : Int) (shape : Shape)
  | text (t : Text)
  | failure (error : RenderError)

structure Machine where
  control : Control
  frames : List Frame
  resolving : List (List Text)
  notes : List Note

def Control.ofOutcome : Except RenderError Text → Control
  | .ok t => .text t
  | .error e => .failure e

namespace Machine

variable {schema : Schema} {m next : Machine}

def start (indent : Int) (shape : Shape) : Machine := ⟨.shape indent shape, [], [], []⟩

-- The machine with a part rendered: the frames and the stack are those of the call.
def finish (m : Machine) (rendering : Rendering Text) : Machine :=
  { m with control := .ofOutcome rendering.outcome, notes := m.notes ++ rendering.notes }

-- Go on to a part, and come back to what is left to do.
def call (m : Machine) (frame : Frame) (indent : Int) (shape : Shape) : Machine :=
  { m with control := .shape indent shape, frames := frame :: m.frames }

-- Go on to the next argument, or put the texts together.
def nextArg (m : Machine) (joint : Joint) (indent : Int) (texts : List Text) : List Shape → Machine
  | [] => { m with control := .text (joint.text texts) }
  | arg :: rest => m.call (.args joint indent texts rest) indent arg

-- Go on to the next property, or put the entries together.
def nextMember (m : Machine) (indent : Int) (entries : List Text) (signatures : List Text) :
    List Member → Machine
  | [] => { m with control := .text (layoutObject indent (entries ++ signatures)) }
  | member :: rest =>
    m.call (.members indent entries (memberHead member) rest signatures) (indent + 1) member.shape

-- Put an access on the stack and go on to its target.
def enter (m : Machine) (path : List Text) (indent : Int) (target : Shape) : Machine :=
  { m with
    control := .shape indent target
    frames := .release :: m.frames
    resolving := path :: m.resolving }

-- Follow an access that is no enum.
def follow (schema : Schema) (m : Machine) (path : List Text) (indent : Int) : Machine :=
  match schema.resolve path with
  | .error e => m.finish (Traced.fail (.literal e))
  | .ok none => m.finish (unresolved path)
  | .ok (some target) =>
    if m.resolving.contains path then m.finish (unresolved path) else m.enter path indent target

-- Begin to render a shape.
def expose (schema : Schema) (m : Machine) (indent : Int) : Shape → Machine
  | .object _ members signatures => m.nextMember indent [] signatures members
  | .union _ args => m.nextArg .union indent [] args
  | .array _ [] => { m with control := .text "unknown[]" }
  | .array _ (element :: _) => m.call (.brackets element) indent element
  | .tuple _ args => m.nextArg .tuple indent [] args
  | .lookup _ path =>
    match schema.enumOfPath? path with
    | some enumeration =>
      { m with
        control := .text enumeration.typeName
        notes := m.notes ++ [.enumeration enumeration.typeName] }
    | none => m.follow schema path indent
  | .generic label args =>
    { m with notes := m.notes ++ (noteReference schema label.reference).notes }.nextArg
      (.generic (label.text.getD "None")) indent [] args
  | .leaf label =>
    { m with
      control := .text (match label.text with
        | some (c :: rest) => c :: rest
        | _ => "unknown")
      notes := m.notes ++ (noteReference schema label.reference).notes }

-- Go on with a text where a frame has been waiting for it.
def resume (schema : Schema) (m : Machine) (t : Text) : Frame → Machine
  | .args joint indent texts rest => m.nextArg joint indent (texts ++ [t]) rest
  | .brackets element =>
    match (resolvedElement schema element).outcome with
    | .ok resolved =>
      { m with control := .text ((if needsParentheses resolved then inParentheses t else t) ++ "[]") }
    | .error e => { m with control := .failure e }
  | .members indent entries head rest signatures =>
    m.nextMember indent (entries ++ [head ++ t]) signatures rest
  | .release => { m with control := .text t, resolving := m.resolving.tail }

-- Pass an error on through a frame. Only an access that is being resolved is looked after.
def unwind (m : Machine) (e : RenderError) : Frame → Machine
  | .release => { m with control := .failure e, resolving := m.resolving.tail }
  | _ => { m with control := .failure e }

-- One step. There is none left where a text or an error has come through all frames.
def step (schema : Schema) (m : Machine) : Option Machine :=
  match m.control, m.frames with
  | .shape indent shape, _ => some (m.expose schema indent shape)
  | .text _, [] => none
  | .text t, frame :: frames => some ({ m with frames }.resume schema t frame)
  | .failure _, [] => none
  | .failure e, frame :: frames => some ({ m with frames }.unwind e frame)

-- What comes up in a run.
def Reaches (schema : Schema) : Machine → Machine → Prop :=
  ReflTransGen fun m next => m.step schema = some next

end Machine

-- The accesses that may be put on a stack: those of the shape that is rendered, and behind the first
-- of them those of the root type, where all targets lie.
def scope (schema : Schema) (origin : Shape) (stack : List (List Text)) : List (List Text) :=
  if stack.isEmpty then origin.lookups else schema.root.lookups

-- The stacks that can come up: an access is put on one only if it is in scope and not on it.
inductive Opened (schema : Schema) (origin : Shape) : List (List Text) → Prop
  | nil : Opened schema origin []
  | cons {path : List Text} {stack : List (List Text)} (hscope : path ∈ scope schema origin stack)
    (hnew : path ∉ stack) (hstack : Opened schema origin stack) : Opened schema origin (path :: stack)

namespace Opened

variable {schema : Schema} {origin : Shape} {stack : List (List Text)}

theorem nodup (h : Opened schema origin stack) : stack.Nodup := by
  induction h with
  | nil => exact List.nodup_nil
  | cons _ hnew _ ih => exact List.nodup_cons.mpr ⟨hnew, ih⟩

-- All but the first access of a stack were in the scope of the root type.
theorem dropLast_subset (h : Opened schema origin stack) :
    stack.dropLast ⊆ schema.root.lookups := by
  induction h with
  | nil => exact List.nil_subset _
  | @cons path stack hscope _ _ ih =>
    cases stack with
    | nil => exact List.nil_subset _
    | cons first rest =>
      rw [List.dropLast_cons_cons]
      exact List.cons_subset.mpr ⟨hscope, ih⟩

theorem mem_or_mem (h : Opened schema origin stack) {path : List Text} (hpath : path ∈ stack) :
    path ∈ schema.root.lookups ∨ path ∈ origin.lookups := by
  induction h with
  | nil => cases hpath
  | @cons first stack hscope _ _ ih =>
    rcases List.mem_cons.mp hpath with rfl | hrest
    · cases stack with
      | nil => exact .inr hscope
      | cons second rest => exact .inl hscope
    · exact ih hrest

theorem length_le (h : Opened schema origin stack) : stack.length ≤ depthBound schema := by
  have hle := (h.nodup.sublist (List.dropLast_sublist _)).length_le_of_subset h.dropLast_subset
  rw [List.length_dropLast] at hle
  rw [depthBound]
  omega

-- A stack of the greatest length holds every access in its scope.
theorem mem_of_length_eq (h : Opened schema origin stack) (hlength : stack.length = depthBound schema)
    {path : List Text} (hpath : path ∈ scope schema origin stack) : path ∈ stack := by
  have hnodup : stack.dropLast.Nodup := h.nodup.sublist (List.dropLast_sublist _)
  have hsub := List.subperm_of_subset hnodup h.dropLast_subset
  have hperm := hsub.perm_of_length_le (by rw [List.length_dropLast, hlength, depthBound]; omega)
  cases stack with
  | nil => simp [depthBound] at hlength
  | cons first rest => exact List.dropLast_subset _ (hperm.mem_iff.mpr hpath)

end Opened

namespace Machine

-- The frames of a machine belong to its stack: what they still have to render is in the scope of the
-- accesses that were open when they were left.
inductive Kept (schema : Schema) (origin : Shape) : List Frame → List (List Text) → Prop
  | nil : Kept schema origin [] []
  | args {joint : Joint} {indent : Int} {texts : List Text} {rest : List Shape}
    {frames : List Frame} {stack : List (List Text)}
    (hrest : Shape.argLookups rest ⊆ scope schema origin stack) (h : Kept schema origin frames stack) :
    Kept schema origin (.args joint indent texts rest :: frames) stack
  | brackets {element : Shape} {frames : List Frame} {stack : List (List Text)}
    (h : Kept schema origin frames stack) : Kept schema origin (.brackets element :: frames) stack
  | members {indent : Int} {entries : List Text} {head : Text} {rest : List Member}
    {signatures : List Text} {frames : List Frame} {stack : List (List Text)}
    (hrest : Shape.memberLookups rest ⊆ scope schema origin stack)
    (h : Kept schema origin frames stack) :
    Kept schema origin (.members indent entries head rest signatures :: frames) stack
  | release {path : List Text} {frames : List Frame} {stack : List (List Text)}
    (hscope : path ∈ scope schema origin stack) (hnew : path ∉ stack)
    (h : Kept schema origin frames stack) : Kept schema origin (.release :: frames) (path :: stack)

theorem Kept.opened {schema : Schema} {origin : Shape} {frames : List Frame}
    {stack : List (List Text)} (h : Kept schema origin frames stack) : Opened schema origin stack := by
  induction h with
  | nil => exact .nil
  | args _ _ ih => exact ih
  | brackets _ ih => exact ih
  | members _ _ ih => exact ih
  | release hscope hnew _ ih => exact .cons hscope hnew ih

-- What holds of a machine at every moment of a run that renders `origin`.
structure Proper (schema : Schema) (origin : Shape) (m : Machine) : Prop where
  kept : Kept schema origin m.frames m.resolving
  inScope : ∀ indent shape, m.control = .shape indent shape →
    shape.lookups ⊆ scope schema origin m.resolving

namespace Proper

variable {schema : Schema} {origin : Shape} {m next : Machine}

theorem start (indent : Int) : Proper schema origin (Machine.start indent origin) where
  kept := .nil
  inScope := by
    rintro _ _ ⟨⟩
    exact List.Subset.refl _

-- A machine that goes on with a text or an error.
theorem of_kept (h : Kept schema origin m.frames m.resolving)
    (hcontrol : ∀ indent shape, m.control ≠ .shape indent shape) : Proper schema origin m :=
  ⟨h, fun indent shape hshape => absurd hshape (hcontrol indent shape)⟩

theorem finish (h : Kept schema origin m.frames m.resolving) (rendering : Rendering Text) :
    Proper schema origin (m.finish rendering) := by
  obtain ⟨notes, outcome⟩ := rendering
  cases outcome <;> exact of_kept h (by rintro _ _ ⟨⟩)

theorem call {frame : Frame} {indent : Int} {shape : Shape}
    (h : Kept schema origin (frame :: m.frames) m.resolving)
    (hshape : shape.lookups ⊆ scope schema origin m.resolving) :
    Proper schema origin (m.call frame indent shape) where
  kept := h
  inScope := by
    rintro _ _ ⟨⟩
    exact hshape

theorem nextArg {joint : Joint} {indent : Int} {texts : List Text} {args : List Shape}
    (h : Kept schema origin m.frames m.resolving)
    (hargs : Shape.argLookups args ⊆ scope schema origin m.resolving) :
    Proper schema origin (m.nextArg joint indent texts args) := by
  cases args with
  | nil => exact of_kept h (by rintro _ _ ⟨⟩)
  | cons arg rest =>
    rw [Shape.argLookups, List.append_subset] at hargs
    exact call (.args hargs.2 h) hargs.1

theorem nextMember {indent : Int} {entries signatures : List Text} {members : List Member}
    (h : Kept schema origin m.frames m.resolving)
    (hmembers : Shape.memberLookups members ⊆ scope schema origin m.resolving) :
    Proper schema origin (m.nextMember indent entries signatures members) := by
  cases members with
  | nil => exact of_kept h (by rintro _ _ ⟨⟩)
  | cons member rest =>
    obtain ⟨name, shape, optional, readonly⟩ := member
    rw [Shape.memberLookups, List.append_subset] at hmembers
    exact call (.members hmembers.2 h) hmembers.1

-- Only an access with a target that is not on the stack is put there.
theorem follow {path : List Text} {indent : Int} (h : Kept schema origin m.frames m.resolving)
    (hpath : path ∈ scope schema origin m.resolving) (henum : schema.enumOfPath? path = none) :
    Proper schema origin (m.follow schema path indent) := by
  rw [Machine.follow]
  split
  · exact finish h _
  · exact finish h _
  · rename_i target htarget
    split
    · exact finish h _
    · rename_i hnew
      have hfound : target? schema path = some target := by simp [target?, henum, htarget]
      refine ⟨.release hpath (by simpa using hnew) h, ?_⟩
      rintro _ _ ⟨⟩
      exact lookups_of_target hfound

theorem expose {indent : Int} {shape : Shape} (h : Kept schema origin m.frames m.resolving)
    (hshape : shape.lookups ⊆ scope schema origin m.resolving) :
    Proper schema origin (m.expose schema indent shape) := by
  cases shape with
  | leaf label => exact of_kept h (by rintro _ _ ⟨⟩)
  | object label members signatures => exact nextMember h hshape
  | union label args => exact nextArg h hshape
  | array label args =>
    cases args with
    | nil => exact of_kept h (by rintro _ _ ⟨⟩)
    | cons element rest =>
      rw [Shape.lookups, Shape.argLookups, List.append_subset] at hshape
      exact call (.brackets h) hshape.1
  | tuple label args => exact nextArg h hshape
  | lookup label path =>
    rw [Machine.expose]
    split
    · exact of_kept h (by rintro _ _ ⟨⟩)
    · rename_i henum
      exact follow h (hshape (by simp [Shape.lookups])) henum
  | generic label args => exact nextArg h hshape

theorem resume {t : Text} {frame : Frame} (h : Kept schema origin (frame :: m.frames) m.resolving) :
    Proper schema origin (m.resume schema t frame) := by
  cases frame with
  | args joint indent texts rest =>
    cases h with
    | args hrest h => exact nextArg h hrest
  | brackets element =>
    cases h with
    | brackets h =>
      rw [Machine.resume]
      split <;> exact of_kept h (by rintro _ _ ⟨⟩)
  | members indent entries head rest signatures =>
    cases h with
    | members hrest h => exact nextMember h hrest
  | release =>
    generalize hstack : m.resolving = stack at h
    cases h with
    | release _ _ h => exact of_kept (by simpa [Machine.resume, hstack] using h) (by rintro _ _ ⟨⟩)

theorem unwind {e : RenderError} {frame : Frame}
    (h : Kept schema origin (frame :: m.frames) m.resolving) :
    Proper schema origin (m.unwind e frame) := by
  cases frame with
  | release =>
    generalize hstack : m.resolving = stack at h
    cases h with
    | release _ _ h => exact of_kept (by simpa [Machine.unwind, hstack] using h) (by rintro _ _ ⟨⟩)
  | args => cases h with | args _ h => exact of_kept h (by rintro _ _ ⟨⟩)
  | brackets => cases h with | brackets h => exact of_kept h (by rintro _ _ ⟨⟩)
  | members => cases h with | members _ h => exact of_kept h (by rintro _ _ ⟨⟩)

theorem step (h : Proper schema origin m) (hstep : m.step schema = some next) :
    Proper schema origin next := by
  obtain ⟨control, frames, stack, notes⟩ := m
  have hkept := h.kept
  cases control with
  | shape indent shape =>
    cases hstep
    exact expose hkept (h.inScope indent shape rfl)
  | text t =>
    cases frames with
    | nil => cases hstep
    | cons frame frames =>
      cases hstep
      exact resume hkept
  | failure e =>
    cases frames with
    | nil => cases hstep
    | cons frame frames =>
      cases hstep
      exact unwind hkept

theorem reaches (h : Proper schema origin m) (hrun : Reaches schema m next) :
    Proper schema origin next := by
  induction hrun with
  | refl => exact h
  | tail _ hstep ih => exact ih.step hstep

end Proper

end Machine

end HookGen.Render
