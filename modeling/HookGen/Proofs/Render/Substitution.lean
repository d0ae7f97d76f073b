import HookGen.Proofs.Shape.Parts
import HookGen.Proofs.Traced
import HookGen.Render.Basic

/-!
Putting shapes in place of accesses. Rendering does not tell a shape from one with replacements that
render like the accesses they stand for.
-/

namespace HookGen.Render

-- The shape that rendering puts in place of an access: its target, unless that is an enum.
def target? (schema : Schema) (path : List Text) : Option Shape :=
  if (schema.enumOfPath? path).isSome then none
  else
    match schema.resolve path with
    | .ok target => target
    | .error _ => none

mutual

-- A shape with other shapes in place of those accesses for which `replace` has one.
def substitute (replace : List Text → Option Shape) : Shape → Shape
  | .leaf label => .leaf label
  | .object label members signatures =>
    .object label (substituteMembers replace members) signatures
  | .union label args => .union label (substituteArgs replace args)
  | .array label args => .array label (substituteArgs replace args)
  | .tuple label args => .tuple label (substituteArgs replace args)
  | .lookup label path => (replace path).getD (.lookup label path)
  | .generic label args => .generic label (substituteArgs replace args)

def substituteArgs (replace : List Text → Option Shape) : List Shape → List Shape
  | [] => []
  | arg :: rest => substitute replace arg :: substituteArgs replace rest

def substituteMembers (replace : List Text → Option Shape) : List Member → List Member
  | [] => []
  | .mk name shape optional readonly :: rest =>
    .mk name (substitute replace shape) optional readonly :: substituteMembers replace rest

end

theorem resolve_of_target {schema : Schema} {path : List Text} {target : Shape}
    (h : target? schema path = some target) : schema.resolve path = .ok (some target) := by
  unfold target? at h
  split at h
  · cases h
  · split at h
    · rename_i found hfound
      rw [hfound, h]
    · cases h

-- Targets lie in the root type, and so do their accesses.
theorem lookups_of_target {schema : Schema} {path : List Text} {target : Shape}
    (h : target? schema path = some target) : target.lookups ⊆ schema.root.lookups :=
  (Schema.part_of_resolve (resolve_of_target h)).lookups_subset

theorem enumOfPath?_of_target {schema : Schema} {path : List Text} {target : Shape}
    (h : target? schema path = some target) : schema.enumOfPath? path = none := by
  unfold target? at h
  split at h
  · cases h
  · exact Option.not_isSome_iff_eq_none.mp ‹_›

theorem targetOf_of_target {schema : Schema} {path : List Text} {target : Shape}
    (h : target? schema path = some target) : targetOf schema path = ⟨[], .ok (some target)⟩ := by
  simp [targetOf, resolve_of_target h]

-- Without a target an access that is no enum is cut off, if it can be followed at all.
theorem targetOf_of_no_target {schema : Schema} {path : List Text}
    (h : target? schema path = none) (henum : schema.enumOfPath? path = none) :
    targetOf schema path = ⟨[], .ok none⟩ ∨ ∃ e, targetOf schema path = ⟨[], .error e⟩ := by
  unfold target? at h
  rw [henum] at h
  simp only [Option.isSome_none, Bool.false_eq_true, ite_false] at h
  split at h
  · rename_i found hfound
    subst h
    exact Or.inl (by simp [targetOf, hfound])
  · rename_i e he
    exact Or.inr ⟨.literal e, by simp [targetOf, he]⟩


-- What makes rendering a shape with replaced accesses the same as rendering the shape: each
-- replacement renders like its access, and no element of an array is told apart from its replacement
-- by its need of parentheses.
structure Faithful (schema : Schema) (expand expand' : List Text → Int → Rendering Text)
    (replace : List Text → Option Shape) (shape : Shape) : Prop where
  keep : ∀ path ∈ shape.lookups, replace path = none → schema.enumOfPath? path = none →
    expand path = expand' path
  put : ∀ path ∈ shape.lookups, ∀ next, replace path = some next →
    schema.enumOfPath? path = none ∧
      ∀ indent, expand path indent = renderOver schema expand' indent next
  parentheses : ∀ label element rest, shape.Part (.array label (element :: rest)) →
    ∀ indent t, (renderOver schema expand indent element).outcome = .ok t →
      (renderOver schema expand' indent (substitute replace element)).outcome = .ok t →
      needsParentheses <$> resolvedElement schema element =
        needsParentheses <$> resolvedElement schema (substitute replace element)

section

variable {schema : Schema} {expand expand' : List Text → Int → Rendering Text}
  {replace : List Text → Option Shape}

theorem Faithful.arg {shape arg : Shape} (h : Faithful schema expand expand' replace shape)
    (harg : arg ∈ shape.args) : Faithful schema expand expand' replace arg :=
  ⟨fun path hp => h.keep path (Shape.lookups_of_mem_args harg hp),
    fun path hp => h.put path (Shape.lookups_of_mem_args harg hp),
    fun label element rest hw => h.parentheses label element rest (.arg harg hw)⟩

theorem Faithful.member {shape : Shape} {member : Member}
    (h : Faithful schema expand expand' replace shape) (hmember : member ∈ shape.members) :
    Faithful schema expand expand' replace member.shape :=
  ⟨fun path hp => h.keep path (Shape.lookups_of_mem_members hmember hp),
    fun path hp => h.put path (Shape.lookups_of_mem_members hmember hp),
    fun label element rest hw => h.parentheses label element rest (.member hmember hw)⟩

mutual

theorem renderOver_substitute : ∀ (shape : Shape) (indent : Int),
    Faithful schema expand expand' replace shape →
    renderOver schema expand indent shape =
      renderOver schema expand' indent (substitute replace shape)
  | .leaf label, indent, _ => by simp only [substitute, renderOver]
  | .object label members signatures, indent, h => by
    simp only [substitute, renderOver]
    rw [renderMembers_substitute members (indent + 1) fun member hm => h.member hm]
  | .union label args, indent, h => by
    simp only [substitute, renderOver]
    rw [renderArgs_substitute args indent fun arg ha => h.arg ha]
  | .array label [], indent, _ => by simp only [substitute, substituteArgs, renderOver]
  | .array label (element :: rest), indent, h => by
    simp only [substitute, substituteArgs, renderOver]
    have hmem : element ∈ (Shape.array label (element :: rest)).args := by simp [Shape.args]
    have helement := renderOver_substitute element indent (h.arg hmem)
    apply Traced.bind_congr_outcome helement
    intro t ht
    have hlayout (x : Rendering Shape) :
        (do
          let resolved ← x
          return (if needsParentheses resolved then inParentheses t else t) ++ ("[]" : Text)) =
        (fun parenthesized => (if parenthesized then inParentheses t else t) ++ ("[]" : Text)) <$>
          needsParentheses <$> x := by
      simp only [Functor.map_map, bind_pure_comp]
    rw [hlayout, hlayout,
      h.parentheses label element rest (.self _) indent t ht (helement ▸ ht)]
  | .tuple label args, indent, h => by
    simp only [substitute, renderOver]
    rw [renderArgs_substitute args indent fun arg ha => h.arg ha]
  | .lookup label path, indent, h => by
    have hmem : path ∈ (Shape.lookup label path).lookups := by simp [Shape.lookups]
    cases hr : replace path with
    | none =>
      cases henum : schema.enumOfPath? path with
      | none => simp [substitute, renderOver, hr, henum, h.keep path hmem hr henum]
      | some enumeration => simp [substitute, renderOver, hr, henum]
    | some next =>
      obtain ⟨henum, hnext⟩ := h.put path hmem next hr
      simp [substitute, renderOver, hr, henum, hnext]
  | .generic label args, indent, h => by
    simp only [substitute, renderOver]
    rw [renderArgs_substitute args indent fun arg ha => h.arg ha]

theorem renderArgs_substitute : ∀ (args : List Shape) (indent : Int),
    (∀ arg ∈ args, Faithful schema expand expand' replace arg) →
    renderArgs schema expand indent args =
      renderArgs schema expand' indent (substituteArgs replace args)
  | [], indent, _ => by simp only [substituteArgs, renderArgs]
  | arg :: rest, indent, h => by
    simp only [substituteArgs, renderArgs]
    rw [renderOver_substitute arg indent (h arg (by simp)),
      renderArgs_substitute rest indent fun a ha => h a (by simp [ha])]

theorem renderMembers_substitute : ∀ (members : List Member) (indent : Int),
    (∀ member ∈ members, Faithful schema expand expand' replace member.shape) →
    renderMembers schema expand indent members =
      renderMembers schema expand' indent (substituteMembers replace members)
  | [], indent, _ => by simp only [substituteMembers, renderMembers]
  | .mk name shape optional readonly :: rest, indent, h => by
    simp only [substituteMembers, renderMembers]
    rw [renderOver_substitute shape indent (h (.mk name shape optional readonly) (by simp)),
      renderMembers_substitute rest indent fun a ha => h a (by simp [ha])]
    rfl

end

end

mutual

-- Only the accesses of a shape count for a replacement.
theorem substitute_congr {f g : List Text → Option Shape} : ∀ (shape : Shape),
    (∀ path ∈ shape.lookups, f path = g path) → substitute f shape = substitute g shape
  | .leaf _, _ => by simp only [substitute]
  | .object _ members _, h => by simp only [substitute, substituteMembers_congr members h]
  | .union _ args, h => by simp only [substitute, substituteArgs_congr args h]
  | .array _ args, h => by simp only [substitute, substituteArgs_congr args h]
  | .tuple _ args, h => by simp only [substitute, substituteArgs_congr args h]
  | .lookup _ path, h => by simp only [substitute, h path (by simp [Shape.lookups])]
  | .generic _ args, h => by simp only [substitute, substituteArgs_congr args h]

theorem substituteArgs_congr {f g : List Text → Option Shape} : ∀ (args : List Shape),
    (∀ path ∈ Shape.argLookups args, f path = g path) → substituteArgs f args = substituteArgs g args
  | [], _ => rfl
  | arg :: rest, h => by
    simp only [substituteArgs]
    rw [substitute_congr arg fun path hp => h path (by simp [Shape.argLookups, hp]),
      substituteArgs_congr rest fun path hp => h path (by simp [Shape.argLookups, hp])]

theorem substituteMembers_congr {f g : List Text → Option Shape} : ∀ (members : List Member),
    (∀ path ∈ Shape.memberLookups members, f path = g path) →
      substituteMembers f members = substituteMembers g members
  | [], _ => rfl
  | .mk name shape optional readonly :: rest, h => by
    simp only [substituteMembers]
    rw [substitute_congr shape fun path hp => h path (by simp [Shape.memberLookups, hp]),
      substituteMembers_congr rest fun path hp => h path (by simp [Shape.memberLookups, hp])]

end

mutual

theorem substitute_none : ∀ (shape : Shape), substitute (fun _ => none) shape = shape
  | .leaf _ => by simp only [substitute]
  | .object _ members _ => by simp only [substitute, substituteMembers_none members]
  | .union _ args => by simp only [substitute, substituteArgs_none args]
  | .array _ args => by simp only [substitute, substituteArgs_none args]
  | .tuple _ args => by simp only [substitute, substituteArgs_none args]
  | .lookup _ _ => by simp only [substitute, Option.getD_none]
  | .generic _ args => by simp only [substitute, substituteArgs_none args]

theorem substituteArgs_none : ∀ (args : List Shape), substituteArgs (fun _ => none) args = args
  | [] => rfl
  | arg :: rest => by simp only [substituteArgs, substitute_none arg, substituteArgs_none rest]

theorem substituteMembers_none : ∀ (members : List Member),
    substituteMembers (fun _ => none) members = members
  | [] => rfl
  | .mk _ shape _ _ :: rest => by
    simp only [substituteMembers, substitute_none shape, substituteMembers_none rest]

end

-- An access behind a replacement was kept, or comes with what took the place of one.
def Remains (replace : List Text → Option Shape) (before : List (List Text)) (path : List Text) :
    Prop :=
  (path ∈ before ∧ replace path = none) ∨
    ∃ old ∈ before, ∃ next, replace old = some next ∧ path ∈ next.lookups

theorem Remains.mono {replace : List Text → Option Shape} {before after : List (List Text)}
    {path : List Text} (h : Remains replace before path) (hsub : before ⊆ after) :
    Remains replace after path := by
  rcases h with ⟨hm, hn⟩ | ⟨old, hm, next, hr, hp⟩
  · exact .inl ⟨hsub hm, hn⟩
  · exact .inr ⟨old, hsub hm, next, hr, hp⟩

mutual

theorem remains_of_mem_substitute {replace : List Text → Option Shape} {path : List Text} :
    ∀ (shape : Shape), path ∈ (substitute replace shape).lookups → Remains replace shape.lookups path
  | .leaf _, h => by simp [substitute, Shape.lookups] at h
  | .object _ members _, h => by
    simp only [substitute, Shape.lookups] at h
    exact remains_of_mem_substituteMembers members h
  | .union _ args, h => by
    simp only [substitute, Shape.lookups] at h
    exact remains_of_mem_substituteArgs args h
  | .array _ args, h => by
    simp only [substitute, Shape.lookups] at h
    exact remains_of_mem_substituteArgs args h
  | .tuple _ args, h => by
    simp only [substitute, Shape.lookups] at h
    exact remains_of_mem_substituteArgs args h
  | .lookup _ old, h => by
    simp only [substitute] at h
    cases hr : replace old with
    | none =>
      simp only [hr, Option.getD_none, Shape.lookups, List.mem_singleton] at h
      exact .inl ⟨by simp [Shape.lookups, h], h ▸ hr⟩
    | some next =>
      rw [hr, Option.getD_some] at h
      exact .inr ⟨old, by simp [Shape.lookups], next, hr, h⟩
  | .generic _ args, h => by
    simp only [substitute, Shape.lookups] at h
    exact remains_of_mem_substituteArgs args h

theorem remains_of_mem_substituteArgs {replace : List Text → Option Shape} {path : List Text} :
    ∀ (args : List Shape), path ∈ Shape.argLookups (substituteArgs replace args) →
      Remains replace (Shape.argLookups args) path
  | [], h => by simp [substituteArgs, Shape.argLookups] at h
  | arg :: rest, h => by
    simp only [substituteArgs, Shape.argLookups, List.mem_append] at h
    rcases h with h | h
    · exact (remains_of_mem_substitute arg h).mono (by simp [Shape.argLookups])
    · exact (remains_of_mem_substituteArgs rest h).mono (by simp [Shape.argLookups])

theorem remains_of_mem_substituteMembers {replace : List Text → Option Shape} {path : List Text} :
    ∀ (members : List Member), path ∈ Shape.memberLookups (substituteMembers replace members) →
      Remains replace (Shape.memberLookups members) path
  | [], h => by simp [substituteMembers, Shape.memberLookups] at h
  | .mk _ shape _ _ :: rest, h => by
    simp only [substituteMembers, Shape.memberLookups, List.mem_append] at h
    rcases h with h | h
    · exact (remains_of_mem_substitute shape h).mono (by simp [Shape.memberLookups])
    · exact (remains_of_mem_substituteMembers rest h).mono (by simp [Shape.memberLookups])

end

-- How the accesses in a shape are rendered is all that matters of the way they are.
theorem renderOver_congr {schema : Schema} {expand expand' : List Text → Int → Rendering Text}
    {shape : Shape} (indent : Int)
    (h : ∀ path ∈ shape.lookups, schema.enumOfPath? path = none → expand path = expand' path) :
    renderOver schema expand indent shape = renderOver schema expand' indent shape := by
  have hsame := @renderOver_substitute schema expand expand' (fun _ => none) shape indent
    ⟨fun path hp _ henum => h path hp henum, fun _ _ _ hr => (nomatch hr),
      fun _ element _ _ _ _ _ _ => by rw [substitute_none]⟩
  rwa [substitute_none] at hsame

end HookGen.Render
