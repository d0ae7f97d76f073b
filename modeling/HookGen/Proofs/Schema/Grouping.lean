import HookGen.Proofs.Render.Written
import HookGen.Proofs.Schema.Introspection

/-!
What parentheses in unions do to enums and functions. A union keeps the members that are not in parentheses, and
a union in parentheses becomes one member, in which neither values nor signatures are looked for.
-/

namespace HookGen

open Source Shape Introspection Traced

namespace Source

mutual

-- The members of a type as a union, seen through all parentheses. Within them nothing is grouped either.
def TypeExpr.leaves : TypeExpr → List TypeExpr
  | .verbatim source => [.verbatim source]
  | .name token => [.name token]
  | .grouped inner => inner.leaves
  | .object entries => [.object (ungroupEntries entries)]
  | .union members => leavesOf members
  | .array element => [.array (joinTypes element.leaves)]
  | .tuple elements => [.tuple (ungroupTypes elements)]
  | .access target index indexSource source => [.access target index indexSource source]
  | .apply name arguments => [.apply name (ungroupTypes arguments)]

def leavesOf : List TypeExpr → List TypeExpr
  | [] => []
  | type :: rest => type.leaves ++ leavesOf rest

def ungroupTypes : List TypeExpr → List TypeExpr
  | [] => []
  | type :: rest => joinTypes type.leaves :: ungroupTypes rest

def ungroupEntries : List Entry → List Entry
  | [] => []
  | .property name optional readonly (some type) :: rest =>
    .property name optional readonly (some (joinTypes type.leaves)) :: ungroupEntries rest
  | .property name optional readonly none :: rest => .property name optional readonly none :: ungroupEntries rest
  | .other source :: rest => .other source :: ungroupEntries rest

end

-- Types that differ by parentheses only, around some members of a union or around a whole type.
inductive Regroups : TypeExpr → TypeExpr → Prop
  | refl (type : TypeExpr) : Regroups type type
  | symm {a b : TypeExpr} (h : Regroups a b) : Regroups b a
  | trans {a b c : TypeExpr} (hab : Regroups a b) (hbc : Regroups b c) : Regroups a c
  | whole (type : TypeExpr) : Regroups (.grouped type) type
  | subunion (before members after : List TypeExpr) :
    Regroups (.union (before ++ .grouped (.union members) :: after)) (.union (before ++ members ++ after))
  | inUnion (before after : List TypeExpr) {a b : TypeExpr} (h : Regroups a b) :
    Regroups (.union (before ++ a :: after)) (.union (before ++ b :: after))
  | inArray {a b : TypeExpr} (h : Regroups a b) : Regroups (.array a) (.array b)
  | inTuple (before after : List TypeExpr) {a b : TypeExpr} (h : Regroups a b) :
    Regroups (.tuple (before ++ a :: after)) (.tuple (before ++ b :: after))
  | inArguments (name : List Token) (before after : List TypeExpr) {a b : TypeExpr} (h : Regroups a b) :
    Regroups (.apply name (before ++ a :: after)) (.apply name (before ++ b :: after))
  | inProperty (before after : List Entry) (name : List Token) (optional readonly : Bool) {a b : TypeExpr}
    (h : Regroups a b) : Regroups (.object (before ++ .property name optional readonly (some a) :: after))
      (.object (before ++ .property name optional readonly (some b) :: after))

theorem leavesOf_eq_flatMap (types : List TypeExpr) : leavesOf types = types.flatMap TypeExpr.leaves := by
  induction types with
  | nil => rfl
  | cons type rest ih => rw [leavesOf, ih, List.flatMap_cons]

theorem ungroupTypes_eq_map (types : List TypeExpr) : ungroupTypes types = types.map (joinTypes ·.leaves) := by
  induction types with
  | nil => rfl
  | cons type rest ih => rw [ungroupTypes, ih, List.map_cons]

theorem ungroupEntries_append (before after : List Entry) :
    ungroupEntries (before ++ after) = ungroupEntries before ++ ungroupEntries after := by
  induction before with
  | nil => rfl
  | cons entry before ih =>
    cases entry with
    | property name optional readonly type => cases type <;> simp only [List.cons_append, ungroupEntries, ih]
    | other source => simp only [List.cons_append, ungroupEntries, ih]

-- However a type is grouped, it has the same leaves.
theorem Regroups.leaves_eq {a b : TypeExpr} (h : Regroups a b) : a.leaves = b.leaves := by
  induction h with
  | refl => rfl
  | symm _ ih => exact ih.symm
  | trans _ _ hab hbc => exact hab.trans hbc
  | whole type => rw [TypeExpr.leaves]
  | subunion before members after =>
    simp only [TypeExpr.leaves, leavesOf_eq_flatMap, List.flatMap_append, List.flatMap_cons, List.append_assoc]
  | inUnion before after _ ih =>
    simp only [TypeExpr.leaves, leavesOf_eq_flatMap, List.flatMap_append, List.flatMap_cons, ih]
  | inArray _ ih => rw [TypeExpr.leaves, TypeExpr.leaves, ih]
  | inTuple before after _ ih =>
    simp only [TypeExpr.leaves, ungroupTypes_eq_map, List.map_append, List.map_cons, ih]
  | inArguments name before after _ ih =>
    simp only [TypeExpr.leaves, ungroupTypes_eq_map, List.map_append, List.map_cons, ih]
  | inProperty before after name optional readonly _ ih =>
    simp only [TypeExpr.leaves, ungroupEntries_append, ungroupEntries, ih]

-- The members of a union that is one itself or around which there are parentheses.
def TypeExpr.outer : TypeExpr → List TypeExpr
  | .grouped inner => inner.outer
  | .union [only] => only.outer
  | .union members => members
  | type => [type]

-- Whether a type is a union of several members, in parentheses or not.
def TypeExpr.isSeveral : TypeExpr → Bool
  | .grouped inner => inner.isSeveral
  | .union [only] => only.isSeveral
  | .union _ => true
  | _ => false

-- The leaves that stand in a union of their own within the union, and the others.
def TypeExpr.hidden (type : TypeExpr) : List TypeExpr := (type.outer.filter (·.isSeveral)).flatMap leaves

def TypeExpr.shown (type : TypeExpr) : List TypeExpr := (type.outer.filter (!·.isSeveral)).flatMap leaves

theorem leaves_eq_flatMap_outer : ∀ type : TypeExpr, type.leaves = type.outer.flatMap TypeExpr.leaves
  | .grouped inner => by rw [TypeExpr.leaves, TypeExpr.outer, leaves_eq_flatMap_outer inner]
  | .union [only] => by
    rw [TypeExpr.leaves, leavesOf, leavesOf, List.append_nil, TypeExpr.outer, leaves_eq_flatMap_outer only]
  | .union [] => rfl
  | .union (first :: second :: rest) => by rw [TypeExpr.leaves, TypeExpr.outer, leavesOf_eq_flatMap]; simp
  | .verbatim _ | .name _ | .object _ | .array _ | .tuple _ | .access _ _ _ _ | .apply _ _ => by
    rw [TypeExpr.outer, List.flatMap_singleton] <;> simp

-- The types that a type can be regrouped to such that nothing is hidden: a single type, or a union of such.
def TypeExpr.IsPlain (type : TypeExpr) : Prop :=
  type.isSeveral = false ∨ ∃ members, type = .union members ∧ ∀ member ∈ members, member.isSeveral = false

theorem hidden_of_single : ∀ type : TypeExpr, type.isSeveral = false → type.hidden = []
  | .grouped inner, h => hidden_of_single inner h
  | .union [only], h => hidden_of_single only h
  | .verbatim _, _ | .name _, _ | .object _, _ | .array _, _ | .tuple _, _ | .access _ _ _ _, _ | .apply _ _, _ => rfl

theorem TypeExpr.IsPlain.hidden_eq {type : TypeExpr} (h : type.IsPlain) : type.hidden = [] := by
  obtain h | ⟨members, rfl, h⟩ := h
  · exact hidden_of_single type h
  · match members with
    | [] => rfl
    | [only] => exact hidden_of_single only (h only (List.mem_singleton_self only))
    | first :: second :: rest =>
      have hnone : (first :: second :: rest).filter (·.isSeveral) = [] :=
        List.filter_eq_nil_iff.mpr fun member hmem => by simp [h member hmem]
      rw [TypeExpr.hidden, TypeExpr.outer, hnone]
      · rfl
      · simp

mutual

-- Without its parentheses any type is plain.
theorem exists_plain : ∀ type : TypeExpr, ∃ plain, Regroups type plain ∧ plain.IsPlain
  | .grouped inner => by
    obtain ⟨plain, hregroups, hplain⟩ := exists_plain inner
    exact ⟨plain, (Regroups.whole inner).trans hregroups, hplain⟩
  | .union members => by
    obtain ⟨others, hregroups, hplain⟩ := exists_plain_members members
    exact ⟨.union others, hregroups [], .inr ⟨others, rfl, hplain⟩⟩
  | .verbatim _ | .name _ | .object _ | .array _ | .tuple _ | .access _ _ _ _ | .apply _ _ =>
    ⟨_, .refl _, .inl rfl⟩

theorem exists_plain_members : ∀ members : List TypeExpr, ∃ others,
    (∀ before, Regroups (.union (before ++ members)) (.union (before ++ others))) ∧
      ∀ member ∈ others, member.isSeveral = false
  | [] => ⟨[], fun _ => .refl _, nofun⟩
  | member :: rest => by
    obtain ⟨others, hrest, hothers⟩ := exists_plain_members rest
    obtain ⟨plain, hmember, hplain⟩ := exists_plain member
    have hreplaced (before : List TypeExpr) :
        Regroups (.union (before ++ member :: rest)) (.union (before ++ plain :: others)) := by
      have hnext := hrest (before ++ [plain])
      rw [List.append_assoc, List.append_assoc, List.singleton_append, List.singleton_append] at hnext
      exact (Regroups.inUnion before rest hmember).trans hnext
    obtain hsingle | ⟨members, rfl, hmembers⟩ := hplain
    · exact ⟨plain :: others, hreplaced, List.forall_mem_cons.mpr ⟨hsingle, hothers⟩⟩
    · refine ⟨members ++ others, fun before => ?_, List.forall_mem_append.mpr ⟨hmembers, hothers⟩⟩
      have hgrouped := (Regroups.inUnion before others (Regroups.whole (.union members))).symm
      have hspliced := Regroups.subunion before members others
      rw [List.append_assoc] at hspliced
      exact (hreplaced before).trans (hgrouped.trans hspliced)

end

theorem exists_nothing_hidden (type : TypeExpr) : ∃ plain, Regroups type plain ∧ plain.hidden = [] := by
  obtain ⟨plain, hregroups, hplain⟩ := exists_plain type
  exact ⟨plain, hregroups, hplain.hidden_eq⟩

end Source

namespace Shape

theorem ofType_single (only : TypeExpr) : ofType (.union [only]) = ofType only := by
  rw [ofType, ofTypes, ofTypes]

theorem ofType_several (first second : TypeExpr) (rest : List TypeExpr) :
    ofType (.union (first :: second :: rest)) = unionOf (ofTypes (first :: second :: rest)) := by
  rw [ofType, ofTypes, ofTypes]

theorem alike_joinTypes (types : List TypeExpr) : (ofType (joinTypes types)).Alike (unionOf (ofTypes types)) := by
  cases types with
  | nil => exact .refl _
  | cons first rest => exact ofType_joinTypes (List.cons_ne_nil first rest)

theorem alike_union (members : List TypeExpr) : (ofType (.union members)).Alike (unionOf (ofTypes members)) := by
  match members with
  | [] => exact .refl _
  | [only] =>
    rw [ofType_single]
    exact (Alike.single _).symm
  | first :: second :: rest =>
    rw [ofType_several]
    exact .refl _

theorem signaturesOf_ungroupEntries (entries : List Entry) :
    signaturesOf (ungroupEntries entries) = signaturesOf entries := by
  induction entries with
  | nil => rfl
  | cons entry entries ih =>
    cases entry with
    | property name optional readonly type => cases type <;> simp only [ungroupEntries, signaturesOf, ih]
    | other source => simp only [ungroupEntries, signaturesOf, ih]

mutual

-- A type is like the union of its leaves, and so are all types in it.
theorem alike_leaves : ∀ type : TypeExpr, (ofType type).Alike (unionOf (ofTypes type.leaves))
  | .verbatim _ | .name _ | .access _ _ _ _ => (Alike.single _).symm
  | .grouped inner => by
    rw [ofType, TypeExpr.leaves]
    exact alike_leaves inner
  | .object entries => by
    rw [ofType, TypeExpr.leaves, ofTypes, ofTypes, ofType, signaturesOf_ungroupEntries]
    exact (Alike.object .none (signaturesOf entries) (memberAlike_ungrouped entries)).trans (Alike.single _).symm
  | .union members => by
    rw [TypeExpr.leaves]
    exact (alike_union members).trans (alike_leavesOf members)
  | .array element => by
    rw [TypeExpr.leaves, ofTypes, ofTypes, ofType, ofType]
    exact (Alike.array .none ((alike_leaves element).trans (alike_joinTypes _).symm)).trans (Alike.single _).symm
  | .tuple elements => by
    rw [TypeExpr.leaves, ofTypes, ofTypes, ofType, ofType]
    exact (Alike.tuple .none (forall₂_alike_ungrouped elements)).trans (Alike.single _).symm
  | .apply name arguments => by
    rw [TypeExpr.leaves, ofTypes, ofTypes, ofType, ofType]
    exact (Alike.generic _ (forall₂_alike_ungrouped arguments)).trans (Alike.single _).symm

theorem alike_leavesOf : ∀ types : List TypeExpr, (unionOf (ofTypes types)).Alike (unionOf (ofTypes (leavesOf types)))
  | [] => .refl _
  | type :: rest => by
    have hleaves : ofTypes (leavesOf (type :: rest)) = ofTypes type.leaves ++ ofTypes (leavesOf rest) := by
      rw [leavesOf, ofTypes_eq_map, ofTypes_eq_map, ofTypes_eq_map, List.map_append]
    have hfirst : (unionOf [ofType type]).Alike (unionOf (ofTypes type.leaves)) :=
      (Alike.single _).trans (alike_leaves type)
    rw [hleaves, ofTypes]
    exact hfirst.append (alike_leavesOf rest)

theorem forall₂_alike_ungrouped : ∀ types : List TypeExpr,
    List.Forall₂ Alike (ofTypes types) (ofTypes (ungroupTypes types))
  | [] => .nil
  | type :: rest =>
    .cons ((alike_leaves type).trans (alike_joinTypes _).symm) (forall₂_alike_ungrouped rest)

theorem memberAlike_ungrouped : ∀ entries : List Entry,
    List.Forall₂ MemberAlike (membersOf entries) (membersOf (ungroupEntries entries))
  | [] => .nil
  | .property _ _ _ (some type) :: rest =>
    .cons ⟨rfl, (alike_leaves type).trans (alike_joinTypes _).symm, rfl, rfl⟩ (memberAlike_ungrouped rest)
  | .property _ _ _ none :: rest => .cons ⟨rfl, .refl _, rfl, rfl⟩ (memberAlike_ungrouped rest)
  | .other _ :: rest => memberAlike_ungrouped rest

end

-- The members of a union that are looked at are those around which there are no parentheses.
theorem alternatives_ofType : ∀ type : TypeExpr, (ofType type).alternatives = ofTypes type.outer
  | .grouped inner => by rw [ofType, TypeExpr.outer, alternatives_ofType inner]
  | .union [only] => by rw [ofType_single, TypeExpr.outer, alternatives_ofType only]
  | .union [] => rfl
  | .union (first :: second :: rest) => by
    rw [ofType_several]
    rfl
  | .access target index indexSource source => by
    change (ofType (.access target index indexSource source)).alternatives =
      [ofType (.access target index indexSource source)]
    rw [ofType]
    split <;> rfl
  | .verbatim _ | .name _ | .object _ | .array _ | .tuple _ | .apply _ _ => rfl

-- What two shapes have in common that are read alike as a value or a signature.
structure Twin (s t : Shape) : Prop where
  isStringLiteral : s.isStringLiteral = t.isStringLiteral
  literalValue : s.isStringLiteral → s.literalValue = t.literalValue
  isObject : s.isObject = t.isObject
  members : List.Forall₂ MemberAlike s.members t.members

theorem forall₂_memberAlike_refl (members : List Member) : List.Forall₂ MemberAlike members members :=
  List.forall₂_same.mpr fun _ _ => ⟨rfl, .refl _, rfl, rfl⟩

theorem Twin.refl (shape : Shape) : Twin shape shape := ⟨rfl, fun _ => rfl, rfl, forall₂_memberAlike_refl _⟩

theorem Twin.symm {s t : Shape} (h : Twin s t) : Twin t s where
  isStringLiteral := h.isStringLiteral.symm
  literalValue := fun ht => (h.literalValue (h.isStringLiteral.trans ht)).symm
  isObject := h.isObject.symm
  members := h.members.flip.imp fun _ _ ⟨hname, hshape, hoptional, hreadonly⟩ =>
    ⟨hname.symm, hshape.symm, hoptional.symm, hreadonly.symm⟩

-- A type that is not a union of several is read like its only leaf.
theorem exists_twin : ∀ type : TypeExpr, type.isSeveral = false →
    ∃ leaf, type.leaves = [leaf] ∧ Twin (ofType type) (ofType leaf)
  | .verbatim source, _ => ⟨_, rfl, .refl _⟩
  | .name token, _ => ⟨_, rfl, .refl _⟩
  | .access target index indexSource source, _ => ⟨_, rfl, .refl _⟩
  | .grouped inner, h => by
    rw [ofType, TypeExpr.leaves]
    exact exists_twin inner h
  | .union [only], h => by
    rw [ofType_single, TypeExpr.leaves, leavesOf, leavesOf, List.append_nil]
    exact exists_twin only h
  | .object entries, _ => ⟨_, rfl, rfl, nofun, rfl, memberAlike_ungrouped entries⟩
  | .array element, _ => ⟨_, rfl, rfl, nofun, rfl, .nil⟩
  | .tuple elements, _ => ⟨_, rfl, rfl, nofun, rfl, .nil⟩
  | .apply name arguments, _ => ⟨_, rfl, rfl, nofun, rfl, .nil⟩

-- A union of several is neither a value nor a signature.
theorem isUnion_ofType : ∀ type : TypeExpr, type.isSeveral → (ofType type).isUnion
  | .grouped inner, h => by
    rw [ofType]
    exact isUnion_ofType inner h
  | .union [only], h => by
    rw [ofType_single]
    exact isUnion_ofType only h
  | .union [], _ => rfl
  | .union (first :: second :: rest), _ => by
    rw [ofType_several]
    rfl

end Shape

namespace Introspection

variable {s t : Shape} {shapes : List Shape} {members others : List Member} {key : Text}

-- The value that a shape adds to an enum, and the signature that it adds to a function.
def stringValue? (shape : Shape) : Option Text :=
  match shape.isStringLiteral, shape.literalValue with
  | true, .ok (.str value) => some value
  | _, _ => none

def signature? (shape : Shape) : Option Signature :=
  match (signatureOf shape).outcome with
  | .ok signature => signature
  | .error _ => none

theorem exists_str {value : Json} (h : s.isStringLiteral) (hvalue : s.literalValue = .ok value) :
    ∃ t, value = .str t := by
  cases s with
  | leaf label =>
    obtain ⟨text, htext, hquoted⟩ := (Option.any_eq_true _ _).mp h
    rw [literalValue, htext] at hvalue
    dsimp only at hvalue
    rw [literalOfText, if_pos hquoted] at hvalue
    cases hdecoded : StringLiteral.decode text with
    | error e =>
      rw [hdecoded] at hvalue
      cases hvalue
    | ok t =>
      rw [hdecoded] at hvalue
      exact ⟨t, (Except.ok.inj hvalue).symm⟩
  | _ => cases h

-- A literal can be decoded, and the names of properties can, as far as they are looked at.
def HasValue (shape : Shape) : Prop := shape.isStringLiteral → ∃ value, shape.literalValue = .ok value

def IsReadable (shape : Shape) : Prop := ∃ signature, (signatureOf shape).outcome = .ok signature

theorem stringValue?_eq_some {value : Text} (h : s.isStringLiteral) (hvalue : s.literalValue = .ok (.str value)) :
    stringValue? s = some value := by
  rw [stringValue?, h, hvalue]

theorem stringValue?_eq_none (h : s.isStringLiteral = false) : stringValue? s = none := by
  rw [stringValue?, h]

-- A value is put behind those that are known unless it is one of them.
theorem put_append_eraseDups (t : Text) (values new : List Text) :
    (if values.contains t then values else values ++ [t]) ++
        (new.filter (!(if values.contains t then values else values ++ [t]).contains ·)).eraseDups =
      values ++ ((t :: new).filter (!values.contains ·)).eraseDups := by
  by_cases hknown : values.contains t
  · rw [if_pos hknown, List.filter_cons_of_neg (by simpa using hknown)]
  · have hnew : new.filter (!(values ++ [t]).contains ·) = (new.filter (!values.contains ·)).filter (!· == t) := by
      rw [List.filter_filter]
      refine List.filter_congr fun other _ => ?_
      rw [Bool.eq_iff_iff]
      simp [and_comm]
    rw [if_neg hknown, List.filter_cons_of_pos (by simpa using hknown), List.eraseDups_cons, hnew, List.append_assoc,
      List.singleton_append]

-- The values of an enum are those of its members, each at the place where it comes first.
theorem enumValues_outcome {values result : List Text} : (enumValues shapes values).outcome = .ok result ↔
    (∀ shape ∈ shapes, HasValue shape) ∧
      result = values ++ ((shapes.filterMap stringValue?).filter (!values.contains ·)).eraseDups := by
  induction shapes generalizing values with
  | nil =>
    constructor
    · intro h
      obtain rfl := Except.ok.inj h
      exact ⟨nofun, (List.append_nil values).symm⟩
    · rintro ⟨-, rfl⟩
      exact congrArg Except.ok (List.append_nil values).symm
  | cons shape rest ih =>
    rw [enumValues, List.forall_mem_cons, HasValue]
    cases hliteral : shape.isStringLiteral with
    | false =>
      rw [if_neg (by simp), ih, List.filterMap_cons_none (stringValue?_eq_none hliteral)]
      simp
    | true =>
      rw [if_pos rfl, outcome_bind_eq_ok]
      constructor
      · rintro ⟨value, hvalue, h⟩
        rw [decoded_eq_ok] at hvalue
        obtain ⟨t, rfl⟩ := exists_str hliteral hvalue
        dsimp only at h
        rw [ih] at h
        refine ⟨⟨fun _ => ⟨_, hvalue⟩, h.1⟩, h.2.trans ?_⟩
        rw [List.filterMap_cons_some (stringValue?_eq_some hliteral hvalue), put_append_eraseDups]
      · rintro ⟨⟨hfirst, hrest⟩, hresult⟩
        obtain ⟨value, hvalue⟩ := hfirst rfl
        obtain ⟨t, rfl⟩ := exists_str hliteral hvalue
        refine ⟨_, decoded_eq_ok.mpr hvalue, ?_⟩
        dsimp only
        rw [ih]
        refine ⟨hrest, hresult.trans ?_⟩
        rw [List.filterMap_cons_some (stringValue?_eq_some hliteral hvalue), put_append_eraseDups]

theorem signature?_eq {signature : Option Signature} (h : (signatureOf s).outcome = .ok signature) :
    signature? s = signature := by
  rw [signature?, h]

-- The signatures of a function are those of its members.
theorem signaturesOf_outcome {signatures : List Signature} : (signaturesOf shapes).outcome = .ok signatures ↔
    (∀ shape ∈ shapes, IsReadable shape) ∧ signatures = shapes.filterMap signature? := by
  induction shapes generalizing signatures with
  | nil => simp [signaturesOf, eq_comm]
  | cons shape rest ih =>
    have hfirst {signature : Option Signature} (h : (signatureOf shape).outcome = .ok signature) :
        (shape :: rest).filterMap signature? = signature.toList ++ rest.filterMap signature? := by
      rw [List.filterMap_cons, signature?_eq h]
      cases signature <;> rfl
    rw [signaturesOf, List.forall_mem_cons]
    simp only [outcome_bind_eq_ok, ih]
    constructor
    · rintro ⟨signature, hsignature, others, ⟨hrest, rfl⟩, h⟩
      exact ⟨⟨⟨signature, hsignature⟩, hrest⟩, (Except.ok.inj h).symm.trans (hfirst hsignature).symm⟩
    · rintro ⟨⟨⟨signature, hsignature⟩, hrest⟩, rfl⟩
      exact ⟨signature, hsignature, _, ⟨hrest, rfl⟩, congrArg Except.ok (hfirst hsignature).symm⟩

-- Signatures that differ only in how the unions in their types are put together.
structure SameSignature (a b : Signature) : Prop where
  args : a.args.Alike b.args
  returns : a.returns.Alike b.returns

theorem exists_find? (h : List.Forall₂ MemberAlike members others) {found : Option Member}
    (hfound : Member.find? key others = .ok found) :
    ∃ found', Member.find? key members = .ok found' ∧ Option.Rel MemberAlike found' found := by
  induction h with
  | nil =>
    obtain rfl := Except.ok.inj hfound
    exact ⟨none, rfl, .none⟩
  | @cons member other members others hmember hs ih =>
    obtain ⟨name, shape, optional, readonly⟩ := member
    obtain ⟨_, otherShape, _, _⟩ := other
    obtain ⟨rfl, hshape, rfl, rfl⟩ := hmember
    obtain ⟨otherKey, hkey, hfound⟩ := except_bind_eq_ok.mp hfound
    have hkey' : (Member.mk name shape optional readonly).key = .ok otherKey := hkey
    rw [Member.find?, hkey']
    by_cases heq : otherKey = key
    · rw [if_pos heq] at hfound
      obtain rfl := Except.ok.inj hfound
      exact ⟨_, if_pos heq, .some ⟨rfl, hshape, rfl, rfl⟩⟩
    · rw [if_neg heq] at hfound
      obtain ⟨found', hfound', hrel⟩ := ih hfound
      exact ⟨found', (if_neg heq).trans hfound', hrel⟩

-- A property is found in both of two object types, or in none.
theorem exists_property? (h : List.Forall₂ MemberAlike s.members t.members) {found : Option Shape}
    (hfound : t.property? key = .ok found) :
    ∃ found', s.property? key = .ok found' ∧ Option.Rel Alike found' found := by
  obtain ⟨member, hmember, hfound⟩ := except_bind_eq_ok.mp hfound
  obtain rfl := Except.ok.inj hfound
  obtain ⟨member', hmember', hrel⟩ := exists_find? h hmember
  refine ⟨member'.map Member.shape, except_bind_eq_ok.mpr ⟨member', hmember', rfl⟩, ?_⟩
  cases hrel with
  | none => exact .none
  | some halike => exact .some halike.2.1

theorem exists_signatureOf (h : Twin s t) {signature : Option Signature}
    (hsignature : (signatureOf t).outcome = .ok signature) :
    ∃ found, (signatureOf s).outcome = .ok found ∧ Option.Rel SameSignature found signature := by
  have hdefault {a b : Option Shape} (hrel : Option.Rel Alike a b) (shape : Shape) :
      (a.getD shape).Alike (b.getD shape) ∧ a.isNone = b.isNone := by
    cases hrel with
    | none => exact ⟨.refl shape, rfl⟩
    | some hab => exact ⟨hab, rfl⟩
  rw [signatureOf] at hsignature ⊢
  rw [h.isObject]
  split at hsignature
  · rename_i hobject
    obtain rfl := Except.ok.inj hsignature
    exact ⟨none, by rw [if_pos hobject]; rfl, .none⟩
  · rename_i hobject
    obtain ⟨args, hargs, hsignature⟩ := outcome_bind_eq_ok.mp hsignature
    obtain ⟨returns, hreturns, hsignature⟩ := outcome_bind_eq_ok.mp hsignature
    obtain ⟨args', hargs', hrel⟩ := exists_property? h.members (decoded_eq_ok.mp hargs)
    obtain ⟨returns', hreturns', hrel'⟩ := exists_property? h.members (decoded_eq_ok.mp hreturns)
    rw [if_neg hobject]
    simp only [outcome_bind_eq_ok, decoded_eq_ok]
    have hnone := (hdefault hrel .emptyObject).2
    have hnone' := (hdefault hrel' .emptyObject).2
    split at hsignature
    · rename_i hmissing
      obtain rfl := Except.ok.inj hsignature
      rw [← hnone, ← hnone'] at hmissing
      exact ⟨none, ⟨args', hargs', returns', hreturns', by rw [if_pos hmissing]; rfl⟩, .none⟩
    · rename_i hmissing
      obtain rfl := Except.ok.inj hsignature
      rw [← hnone, ← hnone'] at hmissing
      exact ⟨_, ⟨args', hargs', returns', hreturns', by rw [if_neg hmissing]; rfl⟩,
        .some ⟨(hdefault hrel _).1, (hdefault hrel' _).1⟩⟩

theorem signatureOf_union (h : s.isUnion) : (signatureOf s).outcome = .ok none := by
  cases s with
  | union label args => rfl
  | _ => cases h

theorem isStringLiteral_union (h : s.isUnion) : s.isStringLiteral = false := by
  cases s with
  | union label args => rfl
  | _ => cases h

-- What is looked for in some shapes is found in others in the same order: they are twins of each other, but for
-- unions, which have none of it.
inductive Reduces : List Shape → List Shape → Prop
  | nil : Reduces [] []
  | twin {s t : Shape} {shapes others : List Shape} (h : Twin s t) (hs : Reduces shapes others) :
    Reduces (s :: shapes) (t :: others)
  | union {s : Shape} {shapes others : List Shape} (h : s.isUnion) (hs : Reduces shapes others) :
    Reduces (s :: shapes) others

theorem reduces_shown (types : List TypeExpr) :
    Reduces (ofTypes types) (ofTypes ((types.filter (!·.isSeveral)).flatMap TypeExpr.leaves)) := by
  induction types with
  | nil => exact .nil
  | cons type rest ih =>
    cases hseveral : type.isSeveral with
    | true =>
      rw [List.filter_cons_of_neg (by simp [hseveral])]
      exact .union (isUnion_ofType type hseveral) ih
    | false =>
      obtain ⟨leaf, hleaf, htwin⟩ := exists_twin type hseveral
      rw [List.filter_cons_of_pos (by simp [hseveral]), List.flatMap_cons, hleaf]
      exact .twin htwin ih

variable {found : List Shape}

theorem Reduces.forall_iff {P : Shape → Prop} (h : Reduces shapes found) (htwin : ∀ s t, Twin s t → P t → P s)
    (hunion : ∀ s, s.isUnion → P s) : (∀ shape ∈ shapes, P shape) ↔ ∀ shape ∈ found, P shape := by
  induction h with
  | nil => simp
  | twin h _ ih => rw [List.forall_mem_cons, List.forall_mem_cons, ih, (⟨htwin _ _ h.symm, htwin _ _ h⟩ : P _ ↔ P _)]
  | union h _ ih =>
    rw [List.forall_mem_cons, ih]
    exact ⟨And.right, fun hfound => ⟨hunion _ h, hfound⟩⟩

theorem Reduces.hasValue (h : Reduces shapes found) :
    (∀ shape ∈ shapes, HasValue shape) ↔ ∀ shape ∈ found, HasValue shape := by
  refine h.forall_iff (fun s t h ht hs => ?_) fun s h hs => ?_
  · obtain ⟨value, hvalue⟩ := ht (h.isStringLiteral.symm.trans hs)
    exact ⟨value, (h.literalValue hs).trans hvalue⟩
  · rw [isStringLiteral_union h] at hs
    cases hs

theorem Reduces.isReadable (h : Reduces shapes found) :
    (∀ shape ∈ shapes, IsReadable shape) ↔ ∀ shape ∈ found, IsReadable shape := by
  refine h.forall_iff (fun s t h ht => ?_) fun s h => ⟨none, signatureOf_union h⟩
  obtain ⟨signature, hsignature⟩ := ht
  obtain ⟨found, hfound, -⟩ := exists_signatureOf h hsignature
  exact ⟨found, hfound⟩

theorem Reduces.stringValues (h : Reduces shapes found) :
    shapes.filterMap stringValue? = found.filterMap stringValue? := by
  induction h with
  | nil => rfl
  | @twin s t _ _ h _ ih =>
    have hvalue : stringValue? s = stringValue? t := by
      cases hliteral : s.isStringLiteral with
      | false =>
        rw [stringValue?_eq_none hliteral, stringValue?_eq_none (h.isStringLiteral.symm.trans hliteral)]
      | true => rw [stringValue?, stringValue?, h.literalValue hliteral, h.isStringLiteral]
    rw [List.filterMap_cons, List.filterMap_cons, hvalue, ih]
  | union h _ ih => rw [List.filterMap_cons_none (stringValue?_eq_none (isStringLiteral_union h)), ih]

theorem Reduces.signatures (h : Reduces shapes found) (hreadable : ∀ shape ∈ found, IsReadable shape) :
    List.Forall₂ SameSignature (shapes.filterMap signature?) (found.filterMap signature?) := by
  induction h with
  | nil => exact .nil
  | @twin s t _ _ h _ ih =>
    obtain ⟨⟨signature, hsignature⟩, hreadable⟩ := List.forall_mem_cons.mp hreadable
    obtain ⟨same, hsame, hrel⟩ := exists_signatureOf h hsignature
    rw [List.filterMap_cons, List.filterMap_cons, signature?_eq hsignature, signature?_eq hsame]
    cases hrel with
    | none => exact ih hreadable
    | some hrel => exact .cons hrel (ih hreadable)
  | union h _ ih =>
    rw [List.filterMap_cons_none (signature?_eq (signatureOf_union h))]
    exact ih hreadable

-- The string values and the signatures among some types.
def valuesOf (types : List TypeExpr) : List Text := types.filterMap fun type => stringValue? (ofType type)

def overloadsOf (types : List TypeExpr) : List Signature := types.filterMap fun type => signature? (ofType type)

-- Functions of one name with the same signatures.
structure SameRoutine (a b : Routine) : Prop where
  name : a.name = b.name
  signatures : List.Forall₂ SameSignature a.signatures b.signatures

section Groups

variable {type plain : TypeExpr} {types : List TypeExpr} {name : Text} {optional readonly : Bool}

theorem flatMap_filter_not {β : Type} {f : TypeExpr → List β} {p : TypeExpr → Bool}
    (h : (types.filter p).flatMap f = []) : (types.filter (!p ·)).flatMap f = types.flatMap f := by
  induction types with
  | nil => rfl
  | cons type rest ih =>
    cases hp : p type with
    | true =>
      rw [List.filter_cons_of_pos hp, List.flatMap_cons, List.append_eq_nil_iff] at h
      rw [List.filter_cons_of_neg (by simp [hp]), ih h.2, List.flatMap_cons, h.1, List.nil_append]
    | false =>
      rw [List.filter_cons_of_neg (by simp [hp])] at h
      rw [List.filter_cons_of_pos (by simp [hp]), List.flatMap_cons, List.flatMap_cons, ih h]

theorem length_flatMap_filter {β : Type} (f : TypeExpr → List β) (p : TypeExpr → Bool) (types : List TypeExpr) :
    ((types.filter (!p ·)).flatMap f).length + ((types.filter p).flatMap f).length = (types.flatMap f).length := by
  induction types with
  | nil => rfl
  | cons type rest ih =>
    cases hp : p type <;> simp [hp] at ih ⊢ <;> omega

theorem mem_leaves_of_mem_shown {leaf : TypeExpr} (h : leaf ∈ type.shown) : leaf ∈ type.leaves := by
  obtain ⟨member, hmember, hleaf⟩ := List.mem_flatMap.mp h
  rw [leaves_eq_flatMap_outer]
  exact List.mem_flatMap.mpr ⟨member, (List.mem_filter.mp hmember).1, hleaf⟩

theorem shown_eq_leaves (h : type.hidden = []) : type.shown = type.leaves := by
  rw [leaves_eq_flatMap_outer]
  exact flatMap_filter_not h

theorem overloadsOf_flatMap (f : TypeExpr → List TypeExpr) :
    overloadsOf (types.flatMap f) = types.flatMap fun type => overloadsOf (f type) := List.filterMap_flatMap ..

theorem length_overloadsOf (type : TypeExpr) :
    (overloadsOf type.shown).length + (overloadsOf type.hidden).length = (overloadsOf type.leaves).length := by
  rw [leaves_eq_flatMap_outer, TypeExpr.shown, TypeExpr.hidden, overloadsOf_flatMap, overloadsOf_flatMap,
    overloadsOf_flatMap]
  exact length_flatMap_filter _ _ _

theorem overloadsOf_shown (h : overloadsOf type.hidden = []) : overloadsOf type.shown = overloadsOf type.leaves := by
  rw [TypeExpr.hidden, overloadsOf_flatMap] at h
  rw [leaves_eq_flatMap_outer, TypeExpr.shown, overloadsOf_flatMap, overloadsOf_flatMap]
  exact flatMap_filter_not h

theorem forall_mem_ofTypes {P : Shape → Prop} :
    (∀ shape ∈ ofTypes types, P shape) ↔ ∀ type ∈ types, P (ofType type) := by
  rw [ofTypes_eq_map, List.forall_mem_map]

theorem filterMap_ofTypes {β : Type} (f : Shape → Option β) (types : List TypeExpr) :
    (ofTypes types).filterMap f = types.filterMap fun type => f (ofType type) := by
  rw [ofTypes_eq_map, List.filterMap_map]
  rfl

theorem reduces_outer (type : TypeExpr) : Reduces (ofTypes type.outer) (ofTypes type.shown) := reduces_shown type.outer

-- An enum has the string values that are not hidden.
theorem enumOf_outcome {enumeration : Enumeration} :
    (enumOf (.mk name (ofType type) optional readonly)).outcome = .ok enumeration ↔
      (∀ leaf ∈ type.shown, HasValue (ofType leaf)) ∧
        (Member.mk name (ofType type) optional readonly).key = .ok enumeration.name ∧
        enumeration.values = (valuesOf type.shown).eraseDups := by
  have houtcome {values : List Text} : (enumValues (ofTypes type.outer) []).outcome = .ok values ↔
      (∀ leaf ∈ type.shown, HasValue (ofType leaf)) ∧ values = (valuesOf type.shown).eraseDups := by
    rw [enumValues_outcome, (reduces_outer type).hasValue, (reduces_outer type).stringValues, forall_mem_ofTypes,
      filterMap_ofTypes, ← valuesOf]
    simp
  rw [enumOf, Member.shape, alternatives_ofType]
  simp only [outcome_bind_eq_ok, houtcome, decoded_eq_ok]
  constructor
  · rintro ⟨values, ⟨hvalues, rfl⟩, key, hkey, h⟩
    have heq : ⟨key, (valuesOf type.shown).eraseDups⟩ = enumeration := by
      split at h <;> exact Except.ok.inj h
    subst heq
    exact ⟨hvalues, hkey, rfl⟩
  · rintro ⟨hvalues, hkey, heq⟩
    refine ⟨_, ⟨hvalues, rfl⟩, _, hkey, ?_⟩
    rw [← heq]
    split <;> rfl

-- The signatures that a function has are those that are not hidden.
theorem signaturesOf_outer {signatures : List Signature}
    (h : (signaturesOf (ofTypes type.outer)).outcome = .ok signatures) :
    (∀ leaf ∈ type.shown, IsReadable (ofType leaf)) ∧
      List.Forall₂ SameSignature signatures (overloadsOf type.shown) := by
  obtain ⟨hreadable, rfl⟩ := signaturesOf_outcome.mp h
  rw [(reduces_outer type).isReadable] at hreadable
  have hsame := (reduces_outer type).signatures hreadable
  rw [filterMap_ofTypes _ type.shown] at hsame
  exact ⟨forall_mem_ofTypes.mp hreadable, hsame⟩

theorem exists_signaturesOf_outer (h : ∀ leaf ∈ type.shown, IsReadable (ofType leaf)) :
    ∃ signatures, (signaturesOf (ofTypes type.outer)).outcome = .ok signatures :=
  ⟨_, signaturesOf_outcome.mpr ⟨(reduces_outer type).isReadable.mpr (forall_mem_ofTypes.mpr h), rfl⟩⟩

theorem routineOf_outcome {member : Member} {routine : Option Routine} :
    (routineOf member).outcome = .ok routine ↔ ∃ name signatures, member.key = .ok name ∧
      (signaturesOf member.shape.alternatives).outcome = .ok signatures ∧
        routine = if signatures.isEmpty then none else some ⟨name, signatures⟩ := by
  rw [routineOf]
  simp only [outcome_bind_eq_ok, decoded_eq_ok]
  constructor
  · rintro ⟨key, hkey, signatures, hsignatures, h⟩
    refine ⟨key, signatures, hkey, hsignatures, ?_⟩
    split at h
    · rename_i hempty
      rw [if_pos hempty]
      exact (Except.ok.inj h).symm
    · rename_i hfilled
      rw [if_neg hfilled]
      exact (Except.ok.inj h).symm
  · rintro ⟨key, signatures, hkey, hsignatures, rfl⟩
    refine ⟨key, hkey, signatures, hsignatures, ?_⟩
    split <;> rfl

theorem SameSignature.symm {a b : Signature} (h : SameSignature a b) : SameSignature b a :=
  ⟨h.args.symm, h.returns.symm⟩

theorem SameSignature.trans {a b c : Signature} (h : SameSignature a b) (h' : SameSignature b c) : SameSignature a c :=
  ⟨h.args.trans h'.args, h.returns.trans h'.returns⟩

theorem forall₂_trans {as bs cs : List Signature} (h : List.Forall₂ SameSignature as bs)
    (h' : List.Forall₂ SameSignature bs cs) : List.Forall₂ SameSignature as cs := by
  induction h generalizing cs with
  | nil => exact h'
  | cons hab _ ih =>
    obtain _ | ⟨hbc, h'⟩ := h'
    exact .cons (hab.trans hbc) (ih h')

-- A function is the same exactly if its signatures are; without any there is none.
theorem rel_sameRoutine {signatures others : List Signature} :
    Option.Rel SameRoutine (if signatures.isEmpty then none else some ⟨name, signatures⟩)
      (if others.isEmpty then none else some ⟨name, others⟩) ↔ List.Forall₂ SameSignature signatures others := by
  cases signatures with
  | nil =>
    cases others with
    | nil => exact ⟨fun _ => .nil, fun _ => .none⟩
    | cons other others => exact ⟨nofun, nofun⟩
  | cons signature signatures =>
    cases others with
    | nil => exact ⟨nofun, nofun⟩
    | cons other others => exact ⟨fun | .some h => h.signatures, fun h => .some ⟨rfl, h⟩⟩

-- Of two types that differ by parentheses only, one of them without a union in a union, the enums have the same
-- values if leaving out what the other hides changes neither the values nor their order. The functions have the
-- same signatures if it hides none.
theorem regroups_extraction (h : Regroups type plain) (hplain : plain.hidden = []) :
    (∀ complete, (enumOf (.mk name (ofType plain) optional readonly)).outcome = .ok complete →
      ∃ found, (enumOf (.mk name (ofType type) optional readonly)).outcome = .ok found ∧ found.name = complete.name ∧
        (found.values = complete.values ↔ (valuesOf type.shown).eraseDups = (valuesOf type.leaves).eraseDups)) ∧
    ∀ complete, (routineOf (.mk name (ofType plain) optional readonly)).outcome = .ok complete →
      ∃ found, (routineOf (.mk name (ofType type) optional readonly)).outcome = .ok found ∧
        (Option.Rel SameRoutine found complete ↔ overloadsOf type.hidden = []) := by
  have hleaves : plain.shown = type.leaves := (shown_eq_leaves hplain).trans h.leaves_eq.symm
  refine ⟨fun complete hcomplete => ?_, fun complete hcomplete => ?_⟩
  · obtain ⟨hvalues, hkey, heq⟩ := enumOf_outcome.mp hcomplete
    rw [hleaves] at hvalues heq
    have hshown : ∀ leaf ∈ type.shown, HasValue (ofType leaf) :=
      fun leaf hmem => hvalues leaf (mem_leaves_of_mem_shown hmem)
    refine ⟨⟨complete.name, (valuesOf type.shown).eraseDups⟩, enumOf_outcome.mpr ⟨hshown, hkey, rfl⟩, rfl, ?_⟩
    rw [heq]
  · obtain ⟨key, others, hkey, hothers, rfl⟩ := routineOf_outcome.mp hcomplete
    rw [Member.shape, alternatives_ofType] at hothers
    obtain ⟨hreadable, hall⟩ := signaturesOf_outer hothers
    rw [hleaves] at hreadable hall
    obtain ⟨signatures, hsignatures⟩ :=
      exists_signaturesOf_outer fun leaf hmem => hreadable leaf (mem_leaves_of_mem_shown hmem)
    have hsome := (signaturesOf_outer hsignatures).2
    refine ⟨_, routineOf_outcome.mpr ⟨key, signatures, hkey, ?_, rfl⟩, ?_⟩
    · rw [Member.shape, alternatives_ofType, hsignatures]
    · rw [rel_sameRoutine]
      constructor
      · intro hsame
        have hlengths := length_overloadsOf type
        rw [← hsome.length_eq, ← hall.length_eq, hsame.length_eq] at hlengths
        exact List.length_eq_zero_iff.mp (by omega)
      · intro hnone
        rw [overloadsOf_shown hnone] at hsome
        have hback : List.Forall₂ SameSignature (overloadsOf type.leaves) others :=
          hall.flip.imp fun _ _ => SameSignature.symm
        exact forall₂_trans hsome hback

end Groups

section Sample

-- A string between double quotes.
def stringType (t : Text) : TypeExpr := .verbatim [⟨[], .string, "\"" ++ t ++ "\""⟩]

theorem regroups_extraction_member :
    Regroups (.union [.grouped (stringType "a"), stringType "b"]) (.union [stringType "a", stringType "b"]) ∧
      (TypeExpr.union [stringType "a", stringType "b"]).hidden = [] ∧
      ∃ found, (enumOf (.mk "e" (ofType (.union [.grouped (stringType "a"), stringType "b"])) false false)).outcome =
        .ok found ∧ found.values = ["a", "b"] := by
  have hregroups : Regroups (.union [.grouped (stringType "a"), stringType "b"])
      (.union [stringType "a", stringType "b"]) := .inUnion [] _ (.whole _)
  have hplain : (TypeExpr.union [stringType "a", stringType "b"]).hidden = [] := rfl
  have hcomplete : ((enumOf (.mk "e" (ofType (.union [stringType "a", stringType "b"])) false false)).outcome).map
      Enumeration.values = .ok ["a", "b"] := by decide +kernel
  cases houtcome : (enumOf (.mk "e" (ofType (.union [stringType "a", stringType "b"])) false false)).outcome with
  | error e =>
    rw [houtcome] at hcomplete
    cases hcomplete
  | ok complete =>
    rw [houtcome] at hcomplete
    obtain ⟨found, hfound, -, hsame⟩ := (regroups_extraction hregroups hplain).1 complete houtcome
    exact ⟨hregroups, hplain, found, hfound, (hsame.mpr rfl).trans (Except.ok.inj hcomplete)⟩

-- The enums that are found in a source.
def enumsOf (source : Text) : Except IntrospectionError (List (Text × List Text)) :=
  (introspect ⟨"", (parseDeclarations source).getD []⟩ "public" "Database").outcome.map
    (·.enums.map fun enumeration => (enumeration.name, enumeration.values))

-- An enum, and the same with parentheses around two of its members.
def plainSource : Text :=
  "type Database = \x7b public: \x7b Enums: \x7b e: \"a\" | \"b\" | \"c\" \x7d \x7d \x7d"

def groupedSource : Text :=
  "type Database = \x7b public: \x7b Enums: \x7b e: (\"a\" | \"b\") | \"c\" \x7d \x7d \x7d"

set_option maxRecDepth 4000 in
-- The values in parentheses are lost.
theorem grouped_values_lost :
    enumsOf plainSource = .ok [("e", ["a", "b", "c"])] ∧ enumsOf groupedSource = .ok [("e", ["c"])] := by
  -- the literals are turned into their characters without going through their bytes
  have hplain : plainSource = Text.ofChars _ := congrArg Text.ofChars String.toList_ofList
  have hgrouped : groupedSource = Text.ofChars _ := congrArg Text.ofChars String.toList_ofList
  rw [hplain, hgrouped]
  decide +kernel

end Sample

end Introspection

end HookGen
