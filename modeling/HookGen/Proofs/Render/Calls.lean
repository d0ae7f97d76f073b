import HookGen.Proofs.Render.Acyclic
import HookGen.Proofs.Render.Basic
import HookGen.Proofs.Render.Machine

/-!
The machine of rendering comes to an end, whatever the accesses of the root type lead to. It ends with
what rendering gives, and each call leaves the stack as it has found it.
-/

namespace HookGen.Render.Machine

open Relation

variable {schema : Schema} {m next : Machine} {expand : List Text → Int → Rendering Text}
  {stack : List (List Text)}

theorem Reaches.trans {a b c : Machine} (h : Reaches schema a b) (h' : Reaches schema b c) :
    Reaches schema a c :=
  ReflTransGen.trans h h'

theorem Reaches.step {a b c : Machine} (h : a.step schema = some b) (h' : Reaches schema b c) :
    Reaches schema a c :=
  ReflTransGen.head h h'

theorem reaches_shape {indent : Int} {shape : Shape} (hcontrol : m.control = .shape indent shape)
    (h : Reaches schema (m.expose schema indent shape) next) : Reaches schema m next :=
  h.step (by simp [Machine.step, hcontrol])

-- After a call the frame gets the text, or is passed by the error.
theorem reaches_of_call {frame : Frame} {indent : Int} {shape : Shape} {x : Rendering Text}
    (hcall : Reaches schema ((m.call frame indent shape).expose schema indent shape)
      ((m.call frame indent shape).finish x))
    (htext : ∀ t, x.outcome = .ok t →
      Reaches schema ({ m with notes := m.notes ++ x.notes }.resume schema t frame) next)
    (hfailure : ∀ e, x.outcome = .error e →
      Reaches schema ({ m with notes := m.notes ++ x.notes }.unwind e frame) next) :
    Reaches schema (m.call frame indent shape) next := by
  refine reaches_shape rfl (hcall.trans ?_)
  obtain ⟨notes, outcome⟩ := x
  cases outcome with
  | error e => exact (hfailure e rfl).step rfl
  | ok t => exact (htext t rfl).step rfl

-- How a machine follows the accesses of a shape, given what is on its stack.
def Follows (schema : Schema) (expand : List Text → Int → Rendering Text) (stack : List (List Text))
    (paths : List (List Text)) : Prop :=
  ∀ path ∈ paths, schema.enumOfPath? path = none → ∀ (m : Machine) (indent : Int),
    m.resolving = stack → Reaches schema (m.follow schema path indent) (m.finish (expand path indent))

mutual

theorem reaches_renderOver : ∀ (shape : Shape) (m : Machine) (indent : Int), m.resolving = stack →
    Follows schema expand stack shape.lookups →
    Reaches schema (m.expose schema indent shape) (m.finish (renderOver schema expand indent shape))
  | .leaf label, m, indent, _, _ => by
    rw [renderOver, noteReference_eq, Traced.bind_ok, Traced.pure_eq, finish, List.append_nil]
    exact .refl
  | .object _ members signatures, m, indent, hm, h => by
    rw [renderOver, bind_pure_comp]
    exact reaches_renderMembers members m indent [] signatures hm h
  | .union _ args, m, indent, hm, h => by
    rw [renderOver, bind_pure_comp]
    exact reaches_renderArgs args m .union indent [] hm h
  | .array _ [], m, indent, _, _ => by
    simp [renderOver, expose, finish, Control.ofOutcome, Reaches, ReflTransGen.refl]
  | .array _ (element :: rest), m, indent, hm, h => by
    have helement : Follows schema expand stack element.lookups :=
      fun path hp => h path (by simp [Shape.lookups, Shape.argLookups, hp])
    have hcall := reaches_renderOver element (m.call (.brackets element) indent element) indent hm helement
    rw [renderOver, resolvedElement_eq]
    refine reaches_of_call hcall ?_ ?_
    · intro t ht
      rw [Traced.bind_eq, ht, resume]
      cases hresolved : (resolvedElement schema element).outcome <;>
        simp [finish, Control.ofOutcome, Reaches, ReflTransGen.refl]
    · intro e he
      rw [Traced.bind_eq, he]
      exact .refl
  | .tuple _ args, m, indent, hm, h => by
    rw [renderOver, bind_pure_comp]
    exact reaches_renderArgs args m .tuple indent [] hm h
  | .lookup _ path, m, indent, hm, h => by
    cases henum : schema.enumOfPath? path with
    | none =>
      simpa [renderOver, expose, henum] using h path (by simp [Shape.lookups]) henum m indent hm
    | some enumeration =>
      simp [renderOver, expose, henum, Traced.note, finish, Control.ofOutcome, Reaches,
        ReflTransGen.refl]
  | .generic label args, m, indent, hm, h => by
    have hargs := reaches_renderArgs args
      { m with notes := m.notes ++ (noteReference schema label.reference).notes }
      (.generic (label.text.getD "None")) indent [] hm h
    rw [renderOver, noteReference_eq, Traced.bind_ok, bind_pure_comp]
    simpa [expose, finish, Joint.text] using hargs

theorem reaches_renderArgs : ∀ (args : List Shape) (m : Machine) (joint : Joint) (indent : Int)
    (texts : List Text), m.resolving = stack →
    Follows schema expand stack (Shape.argLookups args) →
    Reaches schema (m.nextArg joint indent texts args)
      (m.finish ((fun others => joint.text (texts ++ others)) <$>
        renderArgs schema expand indent args))
  | [], m, joint, indent, texts, _, _ => by
    simp [renderArgs, nextArg, finish, Control.ofOutcome, Reaches, ReflTransGen.refl]
  | arg :: rest, m, joint, indent, texts, hm, h => by
    have harg : Follows schema expand stack arg.lookups :=
      fun path hp => h path (by simp [Shape.argLookups, hp])
    have hrest : Follows schema expand stack (Shape.argLookups rest) :=
      fun path hp => h path (by simp [Shape.argLookups, hp])
    have hcall := reaches_renderOver arg (m.call (.args joint indent texts rest) indent arg) indent hm harg
    refine reaches_of_call hcall ?_ ?_
    · intro t ht
      have hothers := reaches_renderArgs rest
        { m with notes := m.notes ++ (renderOver schema expand indent arg).notes }
        joint indent (texts ++ [t]) hm hrest
      rw [map_renderArgs_cons, Traced.bind_eq, ht]
      simpa [finish, resume] using hothers
    · intro e he
      rw [map_renderArgs_cons, Traced.bind_eq, he]
      exact .refl

theorem reaches_renderMembers : ∀ (members : List Member) (m : Machine) (indent : Int)
    (entries signatures : List Text), m.resolving = stack →
    Follows schema expand stack (Shape.memberLookups members) →
    Reaches schema (m.nextMember indent entries signatures members)
      (m.finish ((fun others => layoutObject indent (entries ++ others ++ signatures)) <$>
        renderMembers schema expand (indent + 1) members))
  | [], m, indent, entries, signatures, _, _ => by
    simp [renderMembers, nextMember, finish, Control.ofOutcome, Reaches, ReflTransGen.refl]
  | .mk name shape optional readonly :: rest, m, indent, entries, signatures, hm, h => by
    have hshape : Follows schema expand stack shape.lookups :=
      fun path hp => h path (by simp [Shape.memberLookups, hp])
    have hrest : Follows schema expand stack (Shape.memberLookups rest) :=
      fun path hp => h path (by simp [Shape.memberLookups, hp])
    have hcall := reaches_renderOver shape
      (m.call (.members indent entries (memberHead (.mk name shape optional readonly)) rest signatures)
        (indent + 1) shape) (indent + 1) hm hshape
    refine reaches_of_call hcall ?_ ?_
    · intro t ht
      have hothers := reaches_renderMembers rest
        { m with notes := m.notes ++ (renderOver schema expand (indent + 1) shape).notes }
        indent (entries ++ [memberHead (.mk name shape optional readonly) ++ t]) signatures hm hrest
      rw [map_renderMembers_cons, Traced.bind_eq, ht]
      simpa [finish, resume] using hothers
    · intro e he
      rw [map_renderMembers_cons, Traced.bind_eq, he]
      exact .refl

end

-- An access that cannot be followed, or that is on the stack, takes one step whatever the budget.
theorem follow_eq_finish {path : List Text} {indent : Int} (budget : Nat) (hm : m.resolving = stack)
    (h : ∀ target, schema.resolve path = .ok (some target) → path ∈ stack) :
    m.follow schema path indent = m.finish (expansion schema stack budget path indent) := by
  cases hresolve : schema.resolve path with
  | error e => cases budget <;> simp [follow, expansion, targetOf, hresolve, Traced.fail]
  | ok found =>
    cases found with
    | none => cases budget <;> simp [follow, expansion, targetOf, hresolve]
    | some target =>
      have hmem := h target hresolve
      cases budget <;> simp [follow, expansion, targetOf, hresolve, hm, hmem]

-- Behind the target of an access only the stack has to be put right.
theorem step_finish_enter (m : Machine) (path : List Text) (indent : Int) (target : Shape)
    (x : Rendering Text) :
    ((m.enter path indent target).finish x).step schema = some (m.finish x) := by
  obtain ⟨notes, outcome⟩ := x
  cases outcome <;> rfl

-- Without frames there is nothing to go on with.
theorem step_finish_start (indent : Int) (shape : Shape) (x : Rendering Text) :
    ((start indent shape).finish x).step schema = none := by
  obtain ⟨notes, outcome⟩ := x
  cases outcome <;> rfl

-- The budget of rendering is as good as none: a machine follows any access in scope to the end.
theorem follows_expansion {origin : Shape} {budget : Nat} (h : Opened schema origin stack)
    (hbudget : budget + stack.length = depthBound schema) :
    Follows schema (expansion schema stack budget) stack (scope schema origin stack) := by
  induction budget generalizing stack with
  | zero =>
    intro path hpath henum m indent hm
    have hmem : path ∈ stack := h.mem_of_length_eq (by omega) hpath
    rw [follow_eq_finish 0 hm fun _ _ => hmem]
    exact .refl
  | succ budget ih =>
    intro path hpath henum m indent hm
    by_cases hskip : ∀ target, schema.resolve path = .ok (some target) → path ∈ stack
    · rw [follow_eq_finish (budget + 1) hm hskip]
      exact .refl
    · obtain ⟨target, hresolve, hnew⟩ : ∃ target, schema.resolve path = .ok (some target) ∧
          path ∉ stack := by simpa using hskip
      have htarget : target? schema path = some target := by simp [target?, henum, hresolve]
      have hinside : Follows schema (expansion schema (path :: stack) budget) (path :: stack)
          target.lookups := by
        intro inner hinner
        exact ih (.cons hpath hnew h) (by rw [List.length_cons]; omega) inner
          (lookups_of_target htarget hinner)
      have hcall := reaches_renderOver target (m.enter path indent target) indent
        (by rw [enter, hm]) hinside
      have hfollow : m.follow schema path indent = m.enter path indent target := by
        simp [follow, hresolve, hm, hnew]
      rw [hfollow, expansion_of_target htarget hnew, renderWithin_eq_renderOver]
      exact reaches_shape rfl (hcall.trans (.step (step_finish_enter ..) .refl))

-- Each call in a run comes back, with the frames and the stack as they were.
theorem Proper.reaches_finish {origin shape : Shape} {indent : Int} (h : Proper schema origin m)
    (hcontrol : m.control = .shape indent shape) :
    Reaches schema m (m.finish (renderWithin schema (depthBound schema - m.resolving.length)
      m.resolving indent shape)) := by
  have hopened := h.kept.opened
  have hfollows := follows_expansion hopened (Nat.sub_add_cancel hopened.length_le)
  rw [renderWithin_eq_renderOver]
  exact reaches_shape hcontrol (reaches_renderOver shape m indent rfl fun path hpath =>
    hfollows path (h.inScope indent shape hcontrol hpath))

-- Rendering any shape comes to an end with a text or an error, and then no access is being resolved.
-- On the way none is on the stack twice, only accesses of the root type and of the shape are there,
-- so that the stack is never deeper than their number, and each call leaves it as it has found it.
theorem render_ends (schema : Schema) (indent : Int) (shape : Shape) :
    (∃ last, Reaches schema (start indent shape) last ∧ last.step schema = none ∧
      last.control = .ofOutcome (render schema indent shape).outcome ∧
      last.notes = (render schema indent shape).notes ∧ last.resolving = []) ∧
    ∀ m, Reaches schema (start indent shape) m →
      m.resolving.Nodup ∧
      (∀ path ∈ m.resolving, path ∈ schema.root.lookups ∨ path ∈ shape.lookups) ∧
      m.resolving.length ≤ (schema.root.lookups ++ shape.lookups).dedup.length ∧
      ∀ indent' part, m.control = .shape indent' part → ∃ last outcome, Reaches schema m last ∧
        last.control = .ofOutcome outcome ∧ last.frames = m.frames ∧
        last.resolving = m.resolving := by
  have hproper : Proper schema shape (start indent shape) := .start indent
  constructor
  · exact ⟨_, hproper.reaches_finish rfl, step_finish_start .., rfl, rfl, rfl⟩
  · intro m hrun
    have hm := hproper.reaches hrun
    have hopened := hm.kept.opened
    refine ⟨hopened.nodup, fun path => hopened.mem_or_mem, ?_, ?_⟩
    · apply hopened.nodup.length_le_of_subset
      intro path hpath
      simpa using hopened.mem_or_mem hpath
    · intro indent' part hcontrol
      exact ⟨_, _, hm.reaches_finish hcontrol, rfl, rfl, rfl⟩

end HookGen.Render.Machine
