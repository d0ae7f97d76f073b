import HookGen.Emit.Relations
import HookGen.Proofs.Manifest.Listing
import HookGen.Proofs.Schema.Introspection

/-!
Relationships as JSON. A relationship that was read from a source has no surrogates in its texts, so that
what is written down of a table is read back as it was.
-/

namespace HookGen

namespace Relationship

variable {relationship : Relationship} {raw : Json} {field : Text}

-- A text that stays as it is in JSON of ASCII characters, where surrogates could make up pairs.
def IsPlain (t : Text) : Prop := hasSurrogate t = false

structure Plain (relationship : Relationship) : Prop where
  foreignKeyName : IsPlain relationship.foreignKeyName
  columns : ∀ t ∈ relationship.columns, IsPlain t
  referencedRelation : IsPlain relationship.referencedRelation
  referencedColumns : ∀ t ∈ relationship.referencedColumns, IsPlain t

theorem IsPlain.rejoin_eq {t : Text} (h : IsPlain t) : Json.rejoin t = t :=
  Manifest.rejoin_of_low fun _ hmem => absurd (List.any_eq_false.mp h _ hmem) (by simp)

theorem IsPlain.readBack_eq {t : Text} (h : IsPlain t) (asciiOnly : Bool) : Json.readBack asciiOnly t = t := by
  cases asciiOnly with
  | false => rfl
  | true => exact h.rejoin_eq

theorem readText_str {t : Text} (h : IsPlain t) : readText (.str t) = .ok t := by
  rw [readText, h, if_neg (by simp)]

theorem isPlain_of_readText {t : Text} (h : readText raw = .ok t) : IsPlain t := by
  cases raw with
  | str value =>
    rw [readText] at h
    split at h
    · simp at h
    · rename_i hplain
      obtain rfl := Except.ok.inj h
      exact (Bool.not_eq_true _).mp hplain
  | _ => simp [readText] at h

theorem isPlain_of_readField {t : Text} {problem : Problem} {errors : List FieldError}
    (h : readField readText field (.error problem) raw = (some t, errors)) : IsPlain t := by
  rw [readField] at h
  cases hvalue : raw.field? field with
  | none => simp [hvalue] at h
  | some value =>
    rw [hvalue, Option.elim_some] at h
    split at h
    · rename_i hread
      obtain rfl := Option.some.inj (Prod.mk.inj h).1
      exact isPlain_of_readText hread
    · simp at h

theorem isPlain_of_readTexts {index : Nat} {elements : List Json} :
    ∀ t ∈ (readTexts field index elements).1, IsPlain t := by
  induction elements generalizing index with
  | nil => simp [readTexts]
  | cons element rest ih =>
    rw [readTexts]
    cases hread : readText element with
    | ok t => exact List.forall_mem_cons.mpr ⟨isPlain_of_readText hread, ih⟩
    | error problem => exact ih

theorem isPlain_of_readTextList {texts : List Text} {errors : List FieldError}
    (h : readTextList field raw = (some texts, errors)) : ∀ t ∈ texts, IsPlain t := by
  rw [readTextList] at h
  split at h
  · simp at h
  · rename_i elements _
    obtain ⟨htexts, -⟩ := Prod.mk.inj h
    split at htexts
    · obtain rfl := Option.some.inj htexts
      exact isPlain_of_readTexts
    · simp at htexts
  · simp at h

-- Reading a relationship checks its texts for surrogates.
theorem plain_of_ofJson (h : ofJson raw = .ok relationship) : relationship.Plain := by
  cases raw with
  | obj fields =>
    rcases hname : readField readText "foreignKeyName" (.error .missing) (.obj fields) with ⟨name?, _⟩
    rcases hcolumns : readTextList "columns" (.obj fields) with ⟨columns?, _⟩
    rcases hrelation : readField readText "referencedRelation" (.error .missing) (.obj fields) with ⟨relation?, _⟩
    rcases hreferenced : readTextList "referencedColumns" (.obj fields) with ⟨referenced?, _⟩
    rw [ofJson, hname, hcolumns, hrelation, hreferenced] at h
    simp only at h
    split at h
    · obtain rfl := Except.ok.inj h
      exact ⟨isPlain_of_readField hname, isPlain_of_readTextList hcolumns, isPlain_of_readField hrelation,
        isPlain_of_readTextList hreferenced⟩
    · simp at h
  | _ => simp [ofJson] at h

theorem readTexts_strings {texts : List Text} (h : ∀ t ∈ texts, IsPlain t) (index : Nat) :
    readTexts field index (texts.map .str) = (texts, []) := by
  induction texts generalizing index with
  | nil => rfl
  | cons t rest ih =>
    obtain ⟨ht, hrest⟩ := List.forall_mem_cons.mp h
    rw [List.map_cons, readTexts, ih hrest, readText_str ht]

theorem readTextList_strings {texts : List Text} (h : ∀ t ∈ texts, IsPlain t)
    (hfield : raw.field? field = some (.arr (texts.map .str))) :
    readTextList field raw = (some texts, []) := by
  rw [readTextList, hfield]
  simp only [readTexts_strings h, List.isEmpty_nil, if_true]

theorem readField_string {t : Text} (h : IsPlain t) {absent : Except Problem Text}
    (hfield : raw.field? field = some (.str t)) : readField readText field absent raw = (some t, []) := by
  rw [readField, hfield, Option.elim_some, readText_str h]

theorem ofJson_toJson (h : relationship.Plain) : ofJson relationship.toJson = .ok relationship := by
  have hname : readField readText "foreignKeyName" (.error .missing) relationship.toJson =
      (some relationship.foreignKeyName, []) := readField_string h.foreignKeyName rfl
  have hcolumns : readTextList "columns" relationship.toJson = (some relationship.columns, []) :=
    readTextList_strings h.columns rfl
  have hflag : readField readBool "isOneToOne" (.ok false) relationship.toJson =
      (some relationship.isOneToOne, []) := rfl
  have hrelation : readField readText "referencedRelation" (.error .missing) relationship.toJson =
      (some relationship.referencedRelation, []) := readField_string h.referencedRelation rfl
  have hreferenced :
      readTextList "referencedColumns" relationship.toJson = (some relationship.referencedColumns, []) :=
    readTextList_strings h.referencedColumns rfl
  rw [toJson] at *
  rw [ofJson, hname, hcolumns, hflag, hrelation, hreferenced]

theorem rereadElements_plain {texts : List Text} (h : ∀ t ∈ texts, IsPlain t) (asciiOnly : Bool) :
    Json.rereadElements asciiOnly (texts.map .str) = texts.map .str := by
  rw [Manifest.rereadElements_strings]
  exact List.map_congr_left fun t ht => congrArg Json.str ((h t ht).readBack_eq asciiOnly)

theorem reread_toJson (h : relationship.Plain) (asciiOnly : Bool) :
    Json.reread asciiOnly relationship.toJson = relationship.toJson := by
  -- the names of the fields are texts of their own, and distinct
  have hfields : Json.reread asciiOnly relationship.toJson = .obj [
      ("foreignKeyName", .str (Json.readBack asciiOnly relationship.foreignKeyName)),
      ("columns", .arr (Json.rereadElements asciiOnly (relationship.columns.map .str))),
      ("isOneToOne", .bool relationship.isOneToOne),
      ("referencedRelation", .str (Json.readBack asciiOnly relationship.referencedRelation)),
      ("referencedColumns", .arr (Json.rereadElements asciiOnly (relationship.referencedColumns.map .str)))] := by
    cases asciiOnly <;> rfl
  rw [hfields, h.foreignKeyName.readBack_eq, h.referencedRelation.readBack_eq, rereadElements_plain h.columns,
    rereadElements_plain h.referencedColumns, toJson]

theorem numberFree_toJson (relationship : Relationship) : relationship.toJson.NumberFree :=
  ⟨trivial, Manifest.numberFree_strings _, trivial, trivial, Manifest.numberFree_strings _, trivial⟩

theorem numberFree_relationships (relationships : List Relationship) :
    Json.NumberFreeElements (relationships.map toJson) := by
  induction relationships with
  | nil => trivial
  | cons relationship rest ih => exact ⟨numberFree_toJson relationship, ih⟩

theorem rereadElements_relationships {relationships : List Relationship} (h : ∀ r ∈ relationships, r.Plain)
    (asciiOnly : Bool) : Json.rereadElements asciiOnly (relationships.map toJson) = relationships.map toJson := by
  induction relationships with
  | nil => rfl
  | cons relationship rest ih =>
    obtain ⟨hfirst, hrest⟩ := List.forall_mem_cons.mp h
    rw [List.map_cons, Json.rereadElements, reread_toJson hfirst, ih hrest]

end Relationship

namespace Introspection

open Traced Relationship

variable {name : Text} {shape : Shape} {relationships : List Relationship}

theorem plain_of_relationshipOf {entry : Shape} {relationship : Relationship}
    (h : (relationshipOf name entry).outcome = .ok (some relationship)) : relationship.Plain := by
  rw [relationshipOf] at h
  split at h
  · obtain ⟨_, -, h⟩ := outcome_bind_eq_ok.mp h
    cases h
  · obtain ⟨fields, -, h⟩ := outcome_bind_eq_ok.mp h
    split at h
    · rename_i hread
      obtain rfl := Option.some.inj (Except.ok.inj h)
      exact plain_of_ofJson hread
    · obtain ⟨_, -, h⟩ := outcome_bind_eq_ok.mp h
      cases h

theorem plain_of_relationshipsOf {entries : List Shape}
    (h : (relationshipsOf name entries).outcome = .ok relationships) : ∀ r ∈ relationships, r.Plain := by
  induction entries generalizing relationships with
  | nil =>
    obtain rfl := Except.ok.inj h
    simp
  | cons entry rest ih =>
    simp only [relationshipsOf, outcome_bind_eq_ok] at h
    obtain ⟨first, hfirst, others, hothers, h⟩ := h
    obtain rfl := Except.ok.inj h
    intro r hr
    rcases List.mem_append.mp hr with hr | hr
    · obtain rfl : first = some r := Option.mem_toList.mp hr
      exact plain_of_relationshipOf hfirst
    · exact ih hothers r hr

theorem plain_of_tableRelationships (h : (tableRelationships name shape).outcome = .ok relationships) :
    ∀ r ∈ relationships, r.Plain := by
  obtain ⟨property, -, h⟩ := outcome_bind_eq_ok.mp h
  split at h
  · obtain rfl := Except.ok.inj h
    simp
  · exact plain_of_relationshipsOf h
  · obtain ⟨_, -, h⟩ := outcome_bind_eq_ok.mp h
    obtain rfl := Except.ok.inj h
    simp

end Introspection

namespace Relations

open Introspection

-- The relationships that were found for a table are read back from its list of them: all of them, also
-- those whose relations have the name of an earlier one.
theorem ofJson_read_jsonModule {name : Text} {shape : Shape} {table : Table}
    (h : (tableRelationships name shape).outcome = .ok table.relationships) :
    ∃ elements, Json.read (jsonModule table) = .ok (.arr elements) ∧
      elements.map Relationship.ofJson = table.relationships.map .ok := by
  have hplain := plain_of_tableRelationships h
  refine ⟨table.relationships.map Relationship.toJson, ?_, ?_⟩
  · have hfree : (Json.arr (table.relationships.map Relationship.toJson)).NumberFree :=
      Relationship.numberFree_relationships table.relationships
    rw [jsonModule, Json.read_print ⟨some 2, true⟩ hfree (by decide), Json.reread,
      Relationship.rereadElements_relationships hplain]
  · rw [List.map_map]
    exact List.map_congr_left fun r hr => Relationship.ofJson_toJson (hplain r hr)

section Sample

-- Two keys of one short name, and a column whose name is one code point beyond sixteen bits.
def sharedEntries : List Shape := [
  .object .none [
    .mk "foreignKeyName" (.text "'posts_author_fkey'") false false,
    .mk "columns" (.tuple .none [.text "'\\ud83d\\ude00\\n'"]) false false,
    .mk "isOneToOne" (.text "true") false false,
    .mk "referencedRelation" (.text "'users'") false false,
    .mk "referencedColumns" (.tuple .none [.text "'id'"]) false false] [],
  .object .none [
    .mk "foreignKeyName" (.text "'author_fkey'") false false,
    .mk "columns" (.tuple .none []) false false,
    .mk "referencedRelation" (.text "'users'") false false,
    .mk "referencedColumns" (.tuple .none []) false false] []]

def sharedShape : Shape := .object .none [.mk "Relationships" (.tuple .none sharedEntries) false false] []

def sharedTable : Table where
  name := "posts"
  row := .emptyObject
  insert := .emptyObject
  update := .emptyObject
  relationships := [
    ⟨"posts_author_fkey", ["😀\n"], true, "users", ["id"]⟩,
    ⟨"author_fkey", [], false, "users", []⟩]

theorem ofJson_read_jsonModule_shared :
    (tableRelationships "posts" sharedShape).outcome = .ok sharedTable.relationships ∧
      (distinct sharedTable).outcome = .ok (sharedTable.relationships.take 1) ∧
      ∃ elements, Json.read (jsonModule sharedTable) = .ok (.arr elements) ∧
        elements.map Relationship.ofJson = sharedTable.relationships.map .ok := by
  have hfound : (tableRelationships "posts" sharedShape).outcome = .ok sharedTable.relationships := by
    decide +kernel
  exact ⟨hfound, by decide +kernel, ofJson_read_jsonModule hfound⟩

end Sample

end Relations

end HookGen
