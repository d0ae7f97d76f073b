import HookGen.Shape.Basic
import Mathlib.Data.List.Forall2

/-!
Shapes that are the same but for how unions are put together: unions within unions may be taken apart,
members may be repeated, and a union of one member is this member.
-/

namespace HookGen.Shape

inductive Alike : Shape → Shape → Prop
  | refl (shape : Shape) : Alike shape shape
  | symm {a b : Shape} (h : Alike a b) : Alike b a
  | trans {a b c : Shape} (hab : Alike a b) (hbc : Alike b c) : Alike a c
  -- a union as a member of a union
  | flatten (before args after : List Shape) :
    Alike (unionOf (before ++ unionOf args :: after)) (unionOf (before ++ args ++ after))
  -- a member that is repeated
  | repeated (arg : Shape) (before between after : List Shape) :
    Alike (unionOf (before ++ arg :: between ++ arg :: after)) (unionOf (before ++ arg :: between ++ after))
  -- a union that is left with one member
  | single (arg : Shape) : Alike (unionOf [arg]) arg
  | inUnion (before after : List Shape) {a b : Shape} (h : Alike a b) :
    Alike (unionOf (before ++ a :: after)) (unionOf (before ++ b :: after))
  | inArray (label : Label) (before after : List Shape) {a b : Shape} (h : Alike a b) :
    Alike (.array label (before ++ a :: after)) (.array label (before ++ b :: after))
  | inTuple (label : Label) (before after : List Shape) {a b : Shape} (h : Alike a b) :
    Alike (.tuple label (before ++ a :: after)) (.tuple label (before ++ b :: after))
  | inGeneric (label : Label) (before after : List Shape) {a b : Shape} (h : Alike a b) :
    Alike (.generic label (before ++ a :: after)) (.generic label (before ++ b :: after))
  | inObject (label : Label) (before after : List Member) (signatures : List Text) (name : Text)
    (optional readonly : Bool) {a b : Shape} (h : Alike a b) :
    Alike (.object label (before ++ .mk name a optional readonly :: after) signatures)
      (.object label (before ++ .mk name b optional readonly :: after) signatures)

-- Properties that differ in how the unions of their types are put together.
def MemberAlike (a b : Member) : Prop :=
  a.name = b.name ∧ a.shape.Alike b.shape ∧ a.optional = b.optional ∧ a.readonly = b.readonly

namespace Alike

variable {a b : Shape} {as bs cs ds : List Shape}

-- Parts can be replaced all at once if they can be replaced one by one.
theorem of_forall₂ {wrap : List Shape → Shape}
    (hone : ∀ before after {a b : Shape}, Alike a b → Alike (wrap (before ++ a :: after)) (wrap (before ++ b :: after)))
    (h : List.Forall₂ Alike as bs) : ∀ before, Alike (wrap (before ++ as)) (wrap (before ++ bs)) := by
  induction h with
  | nil => exact fun before => .refl _
  | @cons a b as bs hab _ ih =>
    intro before
    have hrest := ih (before ++ [b])
    simp only [List.append_assoc, List.singleton_append] at hrest
    exact (hone before as hab).trans hrest

theorem tuple (label : Label) (h : List.Forall₂ Alike as bs) : Alike (.tuple label as) (.tuple label bs) :=
  of_forall₂ (fun before after _ _ hab => .inTuple label before after hab) h []

theorem generic (label : Label) (h : List.Forall₂ Alike as bs) :
    Alike (.generic label as) (.generic label bs) :=
  of_forall₂ (fun before after _ _ hab => .inGeneric label before after hab) h []

theorem array (label : Label) (h : Alike a b) : Alike (.array label [a]) (.array label [b]) :=
  .inArray label [] [] h

theorem object (label : Label) (signatures : List Text) {members others : List Member}
    (h : List.Forall₂ MemberAlike members others) :
    Alike (.object label members signatures) (.object label others signatures) := by
  suffices hall : ∀ before, Alike (.object label (before ++ members) signatures)
      (.object label (before ++ others) signatures) from hall []
  induction h with
  | nil => exact fun before => .refl _
  | @cons member other members others hmember _ ih =>
    intro before
    obtain ⟨name, shape, optional, readonly⟩ := member
    obtain ⟨_, otherShape, _, _⟩ := other
    obtain ⟨rfl, hshape, rfl, rfl⟩ := hmember
    have hrest := ih (before ++ [.mk name otherShape optional readonly])
    simp only [List.append_assoc, List.singleton_append] at hrest
    exact (inObject label before members signatures name optional readonly hshape).trans hrest

section Unions

-- A union with its first or its last members in a union of their own.
theorem nested_left (as bs : List Shape) : Alike (unionOf (unionOf as :: bs)) (unionOf (as ++ bs)) :=
  .flatten [] as bs

theorem nested_right (as bs : List Shape) : Alike (unionOf (as ++ [unionOf bs])) (unionOf (as ++ bs)) := by
  have h := flatten as bs []
  rwa [List.append_nil] at h

theorem append (h : Alike (unionOf as) (unionOf bs)) (h' : Alike (unionOf cs) (unionOf ds)) :
    Alike (unionOf (as ++ cs)) (unionOf (bs ++ ds)) := by
  have hfirst : Alike (unionOf (as ++ cs)) (unionOf (bs ++ cs)) :=
    (nested_left as cs).symm.trans ((inUnion [] cs h).trans (nested_left bs cs))
  have hsecond : Alike (unionOf (bs ++ cs)) (unionOf (bs ++ ds)) :=
    (nested_right bs cs).symm.trans ((inUnion bs [] h').trans (nested_right bs ds))
  exact hfirst.trans hsecond

theorem cons (h : Alike a b) (hs : Alike (unionOf as) (unionOf bs)) :
    Alike (unionOf (a :: as)) (unionOf (b :: bs)) := by
  have hfirst : Alike (unionOf [a]) (unionOf [b]) := .inUnion [] [] h
  exact append hfirst hs

-- A member that is like one in front of it can be left out.
theorem drop_like (before between after : List Shape) (h : Alike b a) :
    Alike (unionOf (before ++ a :: between ++ b :: after)) (unionOf (before ++ a :: between ++ after)) :=
  (inUnion (before ++ a :: between) after h).trans (.repeated a before between after)

end Unions

section References

variable {name : Text}

theorem argReferences_append (as bs : List Shape) :
    argReferences (as ++ bs) = argReferences as ++ argReferences bs := by
  induction as with
  | nil => rfl
  | cons a as ih => rw [List.cons_append, argReferences, argReferences, ih, List.append_assoc]

theorem memberReferences_append (members others : List Member) :
    memberReferences (members ++ others) = memberReferences members ++ memberReferences others := by
  induction members with
  | nil => rfl
  | cons member members ih =>
    obtain ⟨_, shape, _, _⟩ := member
    rw [List.cons_append, memberReferences, memberReferences, ih, List.append_assoc]

theorem references_unionOf (args : List Shape) : (unionOf args).references = argReferences args := by
  rw [unionOf, references]
  rfl

-- However unions are put together, the same names are referred to.
theorem mem_references_iff (h : Alike a b) : name ∈ a.references ↔ name ∈ b.references := by
  induction h with
  | refl => rfl
  | symm _ ih => exact ih.symm
  | trans _ _ hab hbc => exact hab.trans hbc
  | flatten before args after =>
    simp only [references_unionOf, argReferences_append, argReferences, List.append_assoc]
  | repeated arg before between after =>
    simp only [references_unionOf, argReferences_append, argReferences, List.mem_append]
    tauto
  | single arg => rw [references_unionOf, argReferences, argReferences, List.append_nil]
  | inUnion before after _ ih =>
    simp only [references_unionOf, argReferences_append, argReferences, List.mem_append, ih]
  | inArray labels before after _ ih =>
    simp only [references, argReferences_append, argReferences, List.mem_append, ih, ownReference, label]
  | inTuple labels before after _ ih =>
    simp only [references, argReferences_append, argReferences, List.mem_append, ih, ownReference, label]
  | inGeneric labels before after _ ih =>
    simp only [references, argReferences_append, argReferences, List.mem_append, ih, ownReference, label]
  | inObject labels before after signatures name optional readonly _ ih =>
    simp only [references, memberReferences_append, memberReferences, List.mem_append, ih, ownReference, label]

end References

end Alike

end HookGen.Shape
