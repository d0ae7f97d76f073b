import HookGen.Proofs.Render.Names
import HookGen.Proofs.Text.Sort
import HookGen.Render.Renderer
import HookGen.Shape.OfSource

/-!
What a renderer has recorded once it has rendered the shape of a type: exactly the base types and enums
that one comes to from the type, by its parts and by the targets of its accesses.
-/

namespace HookGen

namespace Source

mutual

-- Every name in a type has characters, as the names of sources do.
def TypeExpr.Spelled : TypeExpr → Prop
  | .verbatim _ => True
  | .name token => token.text ≠ []
  | .grouped inner => inner.Spelled
  | .object entries => SpelledEntries entries
  | .union members => SpelledTypes members
  | .array element => element.Spelled
  | .tuple elements => SpelledTypes elements
  | .access _ _ _ _ => True
  | .apply name arguments => sourceText name ≠ [] ∧ SpelledTypes arguments

def SpelledTypes : List TypeExpr → Prop
  | [] => True
  | type :: rest => type.Spelled ∧ SpelledTypes rest

def SpelledEntries : List Entry → Prop
  | [] => True
  | .property _ _ _ (some type) :: rest => type.Spelled ∧ SpelledEntries rest
  | .property _ _ _ none :: rest => SpelledEntries rest
  | .other _ :: rest => SpelledEntries rest

end

end Source

namespace Shape

open Source

-- Whether a shape itself, its parts left aside, refers to a name.
def RefersTo (name : Text) : Shape → Prop
  | .leaf label => label.reference = some name
  | .generic label _ => label.reference = some name
  | _ => False

-- What the shapes of types are like at each of their parts, if the names of the types have characters.
structure Plain (spelled : Prop) (shape : Shape) : Prop where
  single : Render.SingleElements shape
  spelled : spelled → ∀ part, shape.Part part → ¬ part.RefersTo []

theorem Plain.mono {p q : Prop} {shape : Shape} (h : shape.Plain p) (hpq : q → p) : shape.Plain q :=
  ⟨h.single, fun hq => h.spelled (hpq hq)⟩

theorem plain_of_parts {p : Prop} {shape : Shape}
    (hsingle : ∀ label args, shape = .array label args → args.length ≤ 1)
    (hspelled : p → ¬ shape.RefersTo []) (hargs : ∀ arg ∈ shape.args, arg.Plain p)
    (hmembers : ∀ member ∈ shape.members, member.shape.Plain p) : shape.Plain p where
  single := by
    intro label args hpart
    cases hpart with
    | self => exact hsingle label args rfl
    | arg harg hrest => exact (hargs _ harg).single label args hrest
    | member hmember hrest => exact (hmembers _ hmember).single label args hrest
  spelled := by
    intro hp part hpart
    cases hpart with
    | self => exact hspelled hp
    | arg harg hrest => exact (hargs _ harg).spelled hp part hrest
    | member hmember hrest => exact (hmembers _ hmember).spelled hp part hrest

theorem plain_text (p : Prop) (t : Text) : (text t).Plain p :=
  plain_of_parts nofun nofun nofun nofun

mutual

theorem plain_ofType : ∀ (type : TypeExpr), (ofType type).Plain type.Spelled
  | .verbatim source => by
    rw [ofType]
    exact plain_text _ _
  | .name token => by
    rw [ofType]
    refine plain_of_parts nofun ?_ nofun nofun
    simp [name, RefersTo, Label.ofName, TypeExpr.Spelled]
  | .grouped inner => by
    rw [ofType]
    exact plain_ofType inner
  | .object entries => by
    rw [ofType]
    exact plain_of_parts nofun nofun nofun (plain_membersOf entries)
  | .union members => by
    have hall := plain_ofTypes members
    rw [ofType]
    split
    · rename_i only heq
      exact hall only (by simp [heq])
    · exact plain_of_parts nofun nofun hall nofun
  | .array element => by
    rw [ofType]
    refine plain_of_parts ?_ nofun ?_ nofun
    · rintro label args ⟨⟩
      simp
    · intro arg harg
      obtain rfl : arg = ofType element := List.mem_singleton.mp harg
      exact plain_ofType element
  | .tuple elements => by
    rw [ofType]
    exact plain_of_parts nofun nofun (plain_ofTypes elements) nofun
  | .access target index indexSource source => by
    rw [ofType]
    split
    · exact plain_of_parts nofun nofun nofun nofun
    · exact plain_text _ _
  | .apply name arguments => by
    rw [ofType]
    refine plain_of_parts nofun ?_ (fun arg harg => (plain_ofTypes arguments arg harg).mono And.right) nofun
    rintro ⟨hname, -⟩
    simpa [RefersTo, Label.ofName] using hname

theorem plain_ofTypes : ∀ (types : List TypeExpr),
    ∀ shape ∈ ofTypes types, shape.Plain (SpelledTypes types)
  | [] => by simp [ofTypes]
  | type :: rest => by
    rw [ofTypes]
    exact List.forall_mem_cons.mpr ⟨(plain_ofType type).mono And.left,
      fun shape hshape => (plain_ofTypes rest shape hshape).mono And.right⟩

theorem plain_membersOf : ∀ (entries : List Entry),
    ∀ member ∈ membersOf entries, member.shape.Plain (SpelledEntries entries)
  | [] => by simp [membersOf]
  | .property _ _ _ (some type) :: rest => by
    rw [membersOf]
    exact List.forall_mem_cons.mpr ⟨(plain_ofType type).mono And.left,
      fun member hmember => (plain_membersOf rest member hmember).mono And.right⟩
  | .property _ _ _ none :: rest => by
    rw [membersOf]
    exact List.forall_mem_cons.mpr ⟨plain_text _ _, plain_membersOf rest⟩
  | .other _ :: rest => by
    rw [membersOf]
    exact plain_membersOf rest

end

theorem Plain.part {p : Prop} {shape part : Shape} (h : shape.Plain p) (hpart : shape.Part part) :
    part.Plain p :=
  ⟨fun label args harray => h.single label args (hpart.trans harray),
    fun hp inner hinner => h.spelled hp inner (hpart.trans hinner)⟩

end Shape

namespace Render

variable {schema : Schema} {shape part : Shape} {name : Text}

theorem mem_noteReference {reference : Option Text} :
    .baseType name ∈ (noteReference schema reference).notes ↔
      reference = some name ∧ name ≠ [] ∧ schema.isBaseType name := by
  cases reference with
  | none => simp [noteReference]
  | some other =>
    rw [noteReference]
    by_cases hused : !other.isEmpty && schema.isBaseType other
    · have hboth : other ≠ [] ∧ schema.isBaseType other := by simpa using hused
      rw [if_pos hused]
      constructor
      · intro hmem
        obtain rfl : name = other := by simpa [Traced.note] using hmem
        exact ⟨rfl, hboth⟩
      · rintro ⟨heq, -⟩
        simp [Traced.note, Option.some.inj heq]
    · rw [if_neg hused]
      constructor
      · intro hmem
        simp at hmem
      · rintro ⟨heq, hne, hbase⟩
        obtain rfl : other = name := Option.some.inj heq
        exact absurd (by simp [hne, hbase]) hused

theorem baseType_mem_ownNotes : .baseType name ∈ ownNotes schema part ↔
    part.RefersTo name ∧ name ≠ [] ∧ schema.isBaseType name := by
  cases part with
  | leaf label => exact mem_noteReference
  | generic label args => exact mem_noteReference
  | lookup label path => cases h : schema.enumOfPath? path <;> simp [ownNotes, Shape.RefersTo, h]
  | _ => simp [ownNotes, Shape.RefersTo]

theorem not_enumeration_mem_noteReference {reference : Option Text} :
    .enumeration name ∉ (noteReference schema reference).notes := by
  cases reference with
  | none => simp [noteReference]
  | some other =>
    rw [noteReference]
    split <;> simp [Traced.note]

theorem enumeration_mem_ownNotes : .enumeration name ∈ ownNotes schema part ↔
    ∃ label path enumeration, part = .lookup label path ∧
      schema.enumOfPath? path = some enumeration ∧ name = enumeration.typeName := by
  cases part with
  | lookup label path => cases h : schema.enumOfPath? path <;> simp [ownNotes, h]
  | leaf label => simp [ownNotes, not_enumeration_mem_noteReference]
  | generic label args => simp [ownNotes, not_enumeration_mem_noteReference]
  | _ => simp [ownNotes]

theorem mem_baseTypes {notes : List Note} :
    name ∈ notes.filterMap Note.baseType? ↔ .baseType name ∈ notes := by
  rw [List.mem_filterMap]
  constructor
  · rintro ⟨note, hnote, heq⟩
    cases note <;> simp_all [Note.baseType?]
  · exact fun h => ⟨_, h, rfl⟩

theorem mem_enumerations {notes : List Note} :
    name ∈ notes.filterMap Note.enumeration? ↔ .enumeration name ∈ notes := by
  rw [List.mem_filterMap]
  constructor
  · rintro ⟨note, hnote, heq⟩
    cases note <;> simp_all [Note.enumeration?]
  · exact fun h => ⟨_, h, rfl⟩

-- Rendering notes the own notes of what one comes to from a shape, and nothing else but accesses that
-- were cut off.
theorem mem_render_notes {indent : Int} {t : Text} {n : Note} (hroot : SingleElements schema.root)
    (hsingle : SingleElements shape) (h : (render schema indent shape).outcome = .ok t)
    (hname : ∀ shown, n ≠ .unresolved shown) :
    n ∈ (render schema indent shape).notes ↔
      ∃ part, Within schema shape part ∧ n ∈ ownNotes schema part := by
  constructor
  · exact fun hmem => exists_within_of_mem_notes hmem hname
  · rintro ⟨part, hwithin, hown⟩
    exact ownNotes_subset_render hroot hsingle h hwithin hown

-- What one comes to from the shape of a type is plain if the root type is.
theorem plain_of_within {p : Prop} (hroot : schema.root.Plain p) (hshape : shape.Plain p)
    (h : Within schema shape part) : part.Plain p := by
  induction h with
  | part hpart => exact hshape.part hpart
  | target _ htarget _ ih =>
    exact ih (hroot.part (Schema.part_of_resolve (resolve_of_target htarget)))

-- A renderer that has rendered the shape of one type has recorded exactly the base types that a leaf
-- or a generic type within the shape refers to, and the enums that the accesses within it point at.
theorem recorded_iff_within (schema : Schema) (rootType type : Source.TypeExpr) (indent : Int) (t : Text)
    (hroot : schema.root = Shape.ofType rootType) (hrootNames : rootType.Spelled)
    (hnames : type.Spelled)
    (h : ((Renderer.mk schema []).render indent (Shape.ofType type)).2 = .ok t) :
    let renderer := ((Renderer.mk schema []).render indent (Shape.ofType type)).1
    (∀ name, name ∈ renderer.baseTypes ↔ name ∈ schema.baseTypes.map (·.1) ∧
      ∃ part, Within schema (Shape.ofType type) part ∧ part.RefersTo name) ∧
    ∀ name, name ∈ renderer.enums ↔ ∃ label path enumeration,
      Within schema (Shape.ofType type) (.lookup label path) ∧
        schema.enumOfPath? path = some enumeration ∧ name = enumeration.typeName := by
  have hplain : (Shape.ofType type).Plain True := (Shape.plain_ofType type).mono fun _ => hnames
  have hplainRoot : schema.root.Plain True :=
    hroot ▸ (Shape.plain_ofType rootType).mono fun _ => hrootNames
  have hok : (render schema indent (Shape.ofType type)).outcome = .ok t := h
  constructor
  · intro name
    have hnoted := mem_render_notes (n := .baseType name) hplainRoot.single hplain.single hok nofun
    have hkey : name ∈ schema.baseTypes.map (·.1) ↔ schema.isBaseType name := by
      simp [Schema.isBaseType]
    rw [Renderer.baseTypes, Text.mem_sortDistinct, mem_baseTypes, hkey]
    simp only [Renderer.render, List.nil_append, hnoted, baseType_mem_ownNotes]
    constructor
    · rintro ⟨part, hwithin, hrefers, -, hbase⟩
      exact ⟨hbase, part, hwithin, hrefers⟩
    · rintro ⟨hbase, part, hwithin, hrefers⟩
      refine ⟨part, hwithin, hrefers, ?_, hbase⟩
      rintro rfl
      exact (plain_of_within hplainRoot hplain hwithin).spelled trivial part (.self part) hrefers
  · intro name
    have hnoted := mem_render_notes (n := .enumeration name) hplainRoot.single hplain.single hok nofun
    rw [Renderer.enums, Text.mem_sortDistinct, mem_enumerations]
    simp only [Renderer.render, List.nil_append, hnoted, enumeration_mem_ownNotes]
    constructor
    · rintro ⟨part, hwithin, label, path, enumeration, rfl, henum, hname⟩
      exact ⟨label, path, enumeration, hwithin, henum, hname⟩
    · rintro ⟨label, path, enumeration, hwithin, henum, hname⟩
      exact ⟨_, hwithin, label, path, enumeration, rfl, henum, hname⟩

section Cycle

open Source

private def wordToken (t : String) : Token := ⟨[], .word, t⟩

private def nameType (t : String) : TypeExpr := .name (wordToken t)

private def keyed (target : TypeExpr) (key : String) : TypeExpr :=
  .access target (.verbatim []) [⟨[], .string, .char '"' :: (Text.ofString key ++ "\"")⟩] []

private def property (name : String) (type : TypeExpr) : Entry :=
  .property [wordToken name] false false (some type)

-- Two properties that contain each other, and an enum.
def cyclicRoot : TypeExpr := .object [
  property "a" (.union [nameType "Json", keyed (nameType "Database") "b"]),
  property "b" (.object [
    property "back" (keyed (nameType "Database") "a"),
    property "state" (keyed (keyed (keyed (nameType "Database") "public") "Enums") "status"),
    property "extra" (.apply [wordToken "Box"] [nameType "string"])])]

def cyclicSchema : Schema where
  root := Shape.ofType cyclicRoot
  rootName := "Database"
  name := "public"
  tables := []
  routines := []
  enums := [⟨"status", ["draft"]⟩]
  baseTypes := [("Json", "export type Json = string;"), ("Box", "export type Box = string;")]
  hasTables := false
  hasRoutines := false
  hasEnums := true
  sourceFile := none

def cyclicType : TypeExpr := .array (keyed (nameType "Database") "a")

def cyclicText : Text :=
  "(Json | \x7b\n  back: unknown;\n  state: Status;\n  extra: Box<string>;\n\x7d)[]"

theorem spelled_cyclicRoot : cyclicRoot.Spelled := by
  simp [cyclicRoot, property, keyed, nameType, wordToken, TypeExpr.Spelled, SpelledEntries,
    SpelledTypes, sourceText, Text.ofString, Text.ofChars]

theorem recorded_iff_within_cyclicType :
    cyclicSchema.root = Shape.ofType cyclicRoot ∧ cyclicRoot.Spelled ∧ cyclicType.Spelled ∧
    ((Renderer.mk cyclicSchema []).render 0 (Shape.ofType cyclicType)).2 = .ok cyclicText ∧
    let renderer := ((Renderer.mk cyclicSchema []).render 0 (Shape.ofType cyclicType)).1
    (∀ name, name ∈ renderer.baseTypes ↔ name ∈ cyclicSchema.baseTypes.map (·.1) ∧
      ∃ part, Within cyclicSchema (Shape.ofType cyclicType) part ∧ part.RefersTo name) ∧
    ∀ name, name ∈ renderer.enums ↔ ∃ label path enumeration,
      Within cyclicSchema (Shape.ofType cyclicType) (.lookup label path) ∧
        cyclicSchema.enumOfPath? path = some enumeration ∧ name = enumeration.typeName :=
  ⟨rfl, spelled_cyclicRoot, trivial, rfl,
    recorded_iff_within cyclicSchema cyclicRoot cyclicType 0 cyclicText rfl spelled_cyclicRoot trivial rfl⟩

end Cycle

end Render

end HookGen
