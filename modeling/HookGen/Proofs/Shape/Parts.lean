import HookGen.Schema.Basic

/-!
The parts of a shape and the accesses among them. What one comes to from a shape by keys is a part of
it, and has no accesses of its own.
-/

namespace HookGen

-- What a shape consists of.
inductive Shape.Part : Shape → Shape → Prop
  | self (shape : Shape) : Part shape shape
  | arg {shape arg part : Shape} (harg : arg ∈ shape.args) (hpart : Part arg part) : Part shape part
  | member {shape part : Shape} {member : Member} (hmember : member ∈ shape.members)
    (hpart : Part member.shape part) : Part shape part

theorem Shape.Part.trans {shape part inner : Shape} (h : shape.Part part) (hinner : part.Part inner) :
    shape.Part inner := by
  induction h with
  | self => exact hinner
  | arg harg _ ih => exact .arg harg (ih hinner)
  | member hmember _ ih => exact .member hmember (ih hinner)

namespace Shape

theorem mem_argLookups {path : List Text} {args : List Shape} :
    path ∈ argLookups args ↔ ∃ arg ∈ args, path ∈ arg.lookups := by
  induction args with
  | nil => simp [argLookups]
  | cons arg rest ih => simp [argLookups, ih]

theorem mem_memberLookups {path : List Text} {members : List Member} :
    path ∈ memberLookups members ↔ ∃ member ∈ members, path ∈ member.shape.lookups := by
  induction members with
  | nil => simp [memberLookups]
  | cons member rest ih =>
    obtain ⟨name, shape, optional, readonly⟩ := member
    simp [memberLookups, Member.shape, ih]

theorem lookups_of_mem_args {shape arg : Shape} (harg : arg ∈ shape.args) :
    arg.lookups ⊆ shape.lookups := by
  intro path hpath
  cases shape <;> simp only [args, List.not_mem_nil] at harg <;>
    exact mem_argLookups.mpr ⟨arg, harg, hpath⟩

theorem lookups_of_mem_members {shape : Shape} {member : Member} (hmember : member ∈ shape.members) :
    member.shape.lookups ⊆ shape.lookups := by
  intro path hpath
  cases shape <;> simp only [members, List.not_mem_nil] at hmember
  exact mem_memberLookups.mpr ⟨member, hmember, hpath⟩

end Shape

theorem Shape.Part.lookups_subset {shape part : Shape} (h : shape.Part part) :
    part.lookups ⊆ shape.lookups := by
  induction h with
  | self => exact List.Subset.refl _
  | arg harg _ ih => exact List.Subset.trans ih (Shape.lookups_of_mem_args harg)
  | member hmember _ ih => exact List.Subset.trans ih (Shape.lookups_of_mem_members hmember)

mutual

-- Each access of a shape is a part of it.
theorem Shape.exists_part_of_mem_lookups {path : List Text} : ∀ (shape : Shape),
    path ∈ shape.lookups → ∃ label, shape.Part (.lookup label path)
  | .leaf _, h => by simp [lookups] at h
  | .object label members signatures, h => by
    obtain ⟨member, hm, found, hpart⟩ := exists_part_of_mem_memberLookups members h
    exact ⟨found, .member (show member ∈ (Shape.object label members signatures).members from hm) hpart⟩
  | .union label args, h => by
    obtain ⟨arg, ha, found, hpart⟩ := exists_part_of_mem_argLookups args h
    exact ⟨found, .arg (show arg ∈ (Shape.union label args).args from ha) hpart⟩
  | .array label args, h => by
    obtain ⟨arg, ha, found, hpart⟩ := exists_part_of_mem_argLookups args h
    exact ⟨found, .arg (show arg ∈ (Shape.array label args).args from ha) hpart⟩
  | .tuple label args, h => by
    obtain ⟨arg, ha, found, hpart⟩ := exists_part_of_mem_argLookups args h
    exact ⟨found, .arg (show arg ∈ (Shape.tuple label args).args from ha) hpart⟩
  | .lookup label own, h => by
    rw [lookups, List.mem_singleton] at h
    exact ⟨label, h ▸ .self _⟩
  | .generic label args, h => by
    obtain ⟨arg, ha, found, hpart⟩ := exists_part_of_mem_argLookups args h
    exact ⟨found, .arg (show arg ∈ (Shape.generic label args).args from ha) hpart⟩

theorem Shape.exists_part_of_mem_argLookups {path : List Text} : ∀ (args : List Shape),
    path ∈ argLookups args → ∃ arg ∈ args, ∃ label, arg.Part (.lookup label path)
  | [], h => by simp [argLookups] at h
  | arg :: rest, h => by
    rw [argLookups, List.mem_append] at h
    rcases h with h | h
    · exact ⟨arg, by simp, exists_part_of_mem_lookups arg h⟩
    · obtain ⟨found, hf, hpart⟩ := exists_part_of_mem_argLookups rest h
      exact ⟨found, List.mem_cons_of_mem _ hf, hpart⟩

theorem Shape.exists_part_of_mem_memberLookups {path : List Text} : ∀ (members : List Member),
    path ∈ memberLookups members →
      ∃ member ∈ members, ∃ label, member.shape.Part (.lookup label path)
  | [], h => by simp [memberLookups] at h
  | .mk name shape optional readonly :: rest, h => by
    rw [memberLookups, List.mem_append] at h
    rcases h with h | h
    · exact ⟨.mk name shape optional readonly, by simp, exists_part_of_mem_lookups shape h⟩
    · obtain ⟨found, hf, hpart⟩ := exists_part_of_mem_memberLookups rest h
      exact ⟨found, List.mem_cons_of_mem _ hf, hpart⟩

end

theorem Member.mem_of_find? {key : Text} {members : List Member} {member : Member}
    (h : Member.find? key members = .ok (some member)) : member ∈ members := by
  induction members with
  | nil => simp [find?] at h
  | cons first rest ih =>
    simp only [find?] at h
    cases hkey : first.key with
    | error e => simp [hkey, bind, Except.bind] at h
    | ok name =>
      simp only [hkey, bind, Except.bind] at h
      split at h
      · cases h; simp
      · exact List.mem_cons_of_mem _ (ih h)

-- The type of a property is a part.
theorem Shape.part_of_property {shape target : Shape} {key : Text}
    (h : shape.property? key = .ok (some target)) : shape.Part target := by
  cases hm : shape.member? key with
  | error e => simp [property?, hm, bind, Except.bind] at h
  | ok member =>
    cases member with
    | none => simp [property?, hm, bind, Except.bind, pure, Except.pure] at h
    | some member =>
      simp only [property?, hm, bind, Except.bind, pure, Except.pure, Option.map_some,
        Except.ok.injEq, Option.some.injEq] at h
      rw [← h]
      exact .member (Member.mem_of_find? hm) (.self _)

theorem Schema.part_of_descend {shape target : Shape} {keys : List Text}
    (h : Schema.descend shape keys = .ok (some target)) : shape.Part target := by
  induction keys generalizing shape with
  | nil =>
    simp only [descend, Except.ok.injEq, Option.some.injEq] at h
    exact h ▸ .self shape
  | cons key rest ih =>
    cases hp : shape.property? key with
    | error e => simp [descend, hp, bind, Except.bind] at h
    | ok next =>
      cases next with
      | none => simp [descend, hp, bind, Except.bind, pure, Except.pure] at h
      | some next =>
        simp only [descend, hp, bind, Except.bind] at h
        exact (Shape.part_of_property hp).trans (ih h)

-- What an access points at is a part of the root type.
theorem Schema.part_of_resolve {schema : Schema} {path : List Text} {target : Shape}
    (h : schema.resolve path = .ok (some target)) : schema.root.Part target := by
  cases path with
  | nil => simp [resolve] at h
  | cons root keys =>
    rw [resolve] at h
    split at h
    · exact part_of_descend h
    · cases h

end HookGen
