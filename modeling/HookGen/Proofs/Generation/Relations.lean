import HookGen.Emit.Relations
import HookGen.Proofs.Text.Sort
import HookGen.Proofs.Traced
import Mathlib.Data.List.Basic
import Mathlib.Tactic.Tauto

/-!
The relations of a table. Of the relationships with one name the first counts, and the module shows what counts
three times: as types, as an interface, and as what selects the related rows.
-/

namespace HookGen.Relations

open Code

variable {table : Text} {taken : List Text} {relationship : Relationship} {relationships : List Relationship}

section Distinct

-- Whether the name at a place is taken before, or is one of those that are taken from the start.
def isRepeated (table : Text) (taken : List Text) (relationships : List Relationship)
    (place : Relationship × Nat) : Bool :=
  taken.contains (place.1.relationName table) ||
    ((relationships.take place.2).map (·.relationName table)).contains (place.1.relationName table)

-- The relationships that are the first with their names, and all the others.
def firstsFrom (table : Text) (taken : List Text) (relationships : List Relationship) : List Relationship :=
  (relationships.zipIdx.filter fun place => !isRepeated table taken relationships place).map (·.1)

def repeatsFrom (table : Text) (taken : List Text) (relationships : List Relationship) : List Relationship :=
  (relationships.zipIdx.filter fun place => isRepeated table taken relationships place).map (·.1)

def firsts (table : Table) : List Relationship := firstsFrom table.name [] table.relationships

def repeats (table : Table) : List Relationship := repeatsFrom table.name [] table.relationships

-- What is said about a relationship whose name is taken.
def duplicateWarning (table : Text) (relationship : Relationship) : LogRecord :=
  ⟨.warning, "Duplicate relation name '" ++ relationship.relationName table ++ "' in table " ++ table ++ " (" ++
    relationship.foreignKeyName ++ "), skipping"⟩

theorem filter_zipIdx_cons (p : Relationship × Nat → Bool) (relationship : Relationship)
    (rest : List Relationship) :
    ((relationship :: rest).zipIdx.filter p).map (·.1) =
      (if p (relationship, 0) then [relationship] else []) ++
        (rest.zipIdx.filter fun place => p (place.1, place.2 + 1)).map (·.1) := by
  rw [List.zipIdx_cons, List.zipIdx_succ, List.filter_cons, List.filter_map]
  split <;> simp [Function.comp_def]

theorem isRepeated_zero : isRepeated table taken relationships (relationship, 0) =
    taken.contains (relationship.relationName table) := by
  simp [isRepeated]

-- Behind a relationship its name is taken.
theorem isRepeated_succ {place : Relationship × Nat} :
    isRepeated table taken (relationship :: relationships) (place.1, place.2 + 1) =
      isRepeated table (relationship.relationName table :: taken) relationships place := by
  rw [Bool.eq_iff_iff]
  simp only [isRepeated, List.take_succ_cons, List.map_cons, List.contains_cons, Bool.or_eq_true]
  tauto

theorem isRepeated_of_mem (h : relationship.relationName table ∈ taken) {place : Relationship × Nat} :
    isRepeated table (relationship.relationName table :: taken) relationships place =
      isRepeated table taken relationships place := by
  have hsame : (relationship.relationName table :: taken).contains (place.1.relationName table) =
      taken.contains (place.1.relationName table) := by
    rw [Bool.eq_iff_iff, List.contains_iff_mem, List.contains_iff_mem, List.mem_cons]
    exact or_iff_right_of_imp fun heq => heq ▸ h
  rw [isRepeated, hsame, isRepeated]

theorem firstsFrom_cons_of_mem (h : relationship.relationName table ∈ taken) :
    firstsFrom table taken (relationship :: relationships) = firstsFrom table taken relationships := by
  rw [firstsFrom, filter_zipIdx_cons]
  simp only [isRepeated_succ, isRepeated_of_mem h, isRepeated_zero]
  simp [h, firstsFrom]

theorem firstsFrom_cons_of_notMem (h : relationship.relationName table ∉ taken) :
    firstsFrom table taken (relationship :: relationships) =
      relationship :: firstsFrom table (relationship.relationName table :: taken) relationships := by
  rw [firstsFrom, filter_zipIdx_cons]
  simp only [isRepeated_succ, isRepeated_zero]
  simp [h, firstsFrom]

theorem repeatsFrom_cons_of_mem (h : relationship.relationName table ∈ taken) :
    repeatsFrom table taken (relationship :: relationships) =
      relationship :: repeatsFrom table taken relationships := by
  rw [repeatsFrom, filter_zipIdx_cons]
  simp only [isRepeated_succ, isRepeated_of_mem h, isRepeated_zero]
  simp [h, repeatsFrom]

theorem repeatsFrom_cons_of_notMem (h : relationship.relationName table ∉ taken) :
    repeatsFrom table taken (relationship :: relationships) =
      repeatsFrom table (relationship.relationName table :: taken) relationships := by
  rw [repeatsFrom, filter_zipIdx_cons]
  simp only [isRepeated_succ, isRepeated_zero]
  simp [h, repeatsFrom]

theorem distinctFrom_eq (table : Text) (taken : List Text) (relationships : List Relationship) :
    distinctFrom table taken relationships =
      ⟨(repeatsFrom table taken relationships).map (duplicateWarning table),
        .ok (firstsFrom table taken relationships)⟩ := by
  induction relationships generalizing taken with
  | nil => rfl
  | cons relationship rest ih =>
    simp only [distinctFrom, List.contains_iff_mem]
    split
    · rename_i htaken
      rw [ih, firstsFrom_cons_of_mem htaken, repeatsFrom_cons_of_mem htaken]
      rfl
    · rename_i hnew
      rw [ih, firstsFrom_cons_of_notMem hnew, repeatsFrom_cons_of_notMem hnew]
      simp

theorem distinct_eq (table : Table) :
    distinct table = ⟨(repeats table).map (duplicateWarning table.name), .ok (firsts table)⟩ :=
  distinctFrom_eq table.name [] table.relationships

theorem firsts_sublist (table : Table) : (firsts table).Sublist table.relationships := by
  have hsub := (List.filter_sublist (l := table.relationships.zipIdx)
    (p := fun place => !isRepeated table.name [] table.relationships place)).map (·.1)
  rwa [List.zipIdx_map_fst] at hsub

-- The names that are kept are all names, each where it occurs first.
theorem map_relationName_firstsFrom (table : Text) (taken : List Text) (relationships : List Relationship) :
    (firstsFrom table taken relationships).map (·.relationName table) =
      ((relationships.map (·.relationName table)).filter fun name => !taken.contains name).eraseDups := by
  induction relationships generalizing taken with
  | nil => rfl
  | cons relationship rest ih =>
    by_cases h : relationship.relationName table ∈ taken
    · rw [firstsFrom_cons_of_mem h, ih, List.map_cons, List.filter_cons_of_neg (by simpa using h)]
    · rw [firstsFrom_cons_of_notMem h, List.map_cons, ih, List.map_cons, List.filter_cons_of_pos (by simpa using h),
        List.eraseDups_cons, List.filter_filter]
      refine congrArg (_ :: ·) (congrArg List.eraseDups (List.filter_congr fun name _ => ?_))
      rw [List.contains_cons, Bool.not_or]

theorem map_relationName_firsts (table : Table) : (firsts table).map (·.relationName table.name) =
    (table.relationships.map (·.relationName table.name)).eraseDups := by
  have hnone (names : List Text) : (names.filter fun name => !([] : List Text).contains name) = names :=
    List.filter_eq_self.mpr fun _ _ => rfl
  rw [firsts, map_relationName_firstsFrom, hnone]

theorem nodup_firsts (table : Table) : ((firsts table).map (·.relationName table.name)).Nodup :=
  map_relationName_firsts table ▸ Text.nodup_eraseDups _

end Distinct

section Views

-- What the module says about one relation: the type by its name, and what selects its rows.
structure Relation where
  name : Text
  target : Text
  select : Text

namespace Relation

def ofRelationship (table : Text) (relationship : Relationship) : Relation where
  name := relationship.relationName table
  target := rowType relationship.referencedRelation ++
    if relationship.isOneToOne then Text.ofString " | null" else Text.ofString "[]"
  select := relationship.relationName table ++ ":" ++ relationship.referencedRelation ++ "!" ++
    relationship.foreignKeyName ++ "(*)"

-- The three lines about it.
def typeLine (relation : Relation) : Text := "export type " ++ relation.name ++ " = " ++ relation.target ++ ";"

def memberLine (relation : Relation) : Text := "  " ++ relation.name ++ "?: " ++ relation.name ++ ";"

def selectLine (relation : Relation) : Text := "  " ++ relation.name ++ ": '" ++ relation.select ++ "',"

theorem typeLine_ofRelationship :
    (ofRelationship table relationship).typeLine = relationType table relationship := by
  cases h : relationship.isOneToOne <;> simp [typeLine, ofRelationship, relationType, h, Text.ofString, Text.ofChars]

theorem memberLine_ofRelationship :
    (ofRelationship table relationship).memberLine = interfaceMember table relationship := rfl

theorem selectLine_ofRelationship :
    (ofRelationship table relationship).selectLine = selectEntry table relationship := by
  simp [selectLine, ofRelationship, selectEntry, Relationship.embedSelect]

end Relation

-- What the module of a table shows.
def relations (table : Table) : List Relation := (firsts table).map (.ofRelationship table.name)

def importOf (table other : Text) : Text :=
  let source : Text := if other = table then "./types" else "../" ++ other ++ "/types"
  "import type \x7b " ++ rowType other ++ " \x7d from '" ++ source ++ "';"

-- The module that shows some relations and imports the rows of some tables.
def shown (table : Text) (others : List Text) (relations : List Relation) : Text :=
  joinSections (
    docComment ["Auto-generated relationship types for table: " ++ table] ::
    (if others.isEmpty then [] else [Text.joinLines (others.map (importOf table))]) ++
    [Text.joinLines (relations.map Relation.typeLine),
      Text.joinLines (
        docComment ["All available relationships for this table"] ::
        Text.ofString "export interface Relationships \x7b" ::
        relations.map Relation.memberLine ++
        [Text.ofString "\x7d"]),
      Text.joinLines (
        docComment ["PostgREST embed strings, aliased to the relation name"] ::
        Text.ofString "export const relationSelects: Record<keyof Relationships, string> = \x7b" ::
        relations.map Relation.selectLine ++
        [Text.ofString "\x7d;"])])

-- The tables whose rows are imported: the own one comes last.
def rowTables (table : Text) (relationships : List Relationship) : List Text :=
  let referenced := Text.sortDistinct (relationships.map (·.referencedRelation))
  referenced.filter (· != table) ++ referenced.filter (· == table)

theorem mem_rowTables {other : Text} : other ∈ rowTables table relationships ↔
    ∃ relationship ∈ relationships, relationship.referencedRelation = other := by
  have hcases (q : Prop) : q ∧ other ≠ table ∨ q ∧ other = table ↔ q := by tauto
  simp [rowTables, hcases]

theorem nodup_rowTables (table : Text) (relationships : List Relationship) :
    (rowTables table relationships).Nodup := by
  have hnodup := Text.nodup_sortDistinct (relationships.map (·.referencedRelation))
  refine List.nodup_append'.mpr ⟨hnodup.filter _, hnodup.filter _, List.disjoint_left.mpr fun other hother hown => ?_⟩
  have hne : other ≠ table := by simpa using (List.mem_filter.mp hother).2
  exact hne (by simpa using (List.mem_filter.mp hown).2)

theorem importNames_rowType (other source : Text) : importNames true [rowType other] source =
    "import type \x7b " ++ rowType other ++ " \x7d from '" ++ source ++ "';" := by
  have hsorted : Text.sortDistinct [rowType other] = [rowType other] := by
    simp [Text.sortDistinct, Text.sort, Text.insertSorted, List.eraseDups_cons]
  simp [importNames, hsorted, Text.join, Text.ofString, Text.ofChars]

theorem filter_beq_of_nodup {tables : List Text} (h : tables.Nodup) :
    tables.filter (· == table) = if tables.contains table then [table] else [] := by
  rw [List.filter_beq, List.Nodup.count h]
  by_cases hmem : table ∈ tables <;> simp [hmem]

theorem imports_eq (table : Text) (relationships : List Relationship) :
    imports table relationships = (rowTables table relationships).map (importOf table) := by
  have hnodup := Text.nodup_sortDistinct (relationships.map (·.referencedRelation))
  have hothers (tables : List Text) : (tables.filter (· != table)).map (importOf table) =
      (tables.filter (· != table)).map fun other => importNames true [rowType other] ("../" ++ other ++ "/types") := by
    refine List.map_congr_left fun other hother => ?_
    have hne : other ≠ table := by simpa using (List.mem_filter.mp hother).2
    rw [importNames_rowType, importOf, if_neg hne]
  have hown : importOf table table = importNames true [rowType table] "./types" := by
    rw [importNames_rowType, importOf, if_pos rfl]
  rw [imports, rowTables, List.map_append, hothers, filter_beq_of_nodup hnodup]
  split <;> simp [hown]

theorem moduleOf_eq (table : Text) (relationships : List Relationship) :
    moduleOf table relationships =
      shown table (rowTables table relationships) (relationships.map (.ofRelationship table)) := by
  rw [moduleOf, shown, imports_eq, List.isEmpty_map]
  simp only [List.map_map, Function.comp_def, Relation.typeLine_ofRelationship, Relation.memberLine_ofRelationship,
    Relation.selectLine_ofRelationship]
  rfl

-- What becomes of the relationships of a table.
structure Agrees (table : Table) (kept : Logged Empty (List Relationship)) (written : Logged Empty Text) : Prop where
  -- the first with each name is kept, and there is one warning for each of the others
  kept : kept = ⟨(repeats table).map (duplicateWarning table.name), .ok (firsts table)⟩
  sublist : (firsts table).Sublist table.relationships
  names : (firsts table).map (·.relationName table.name) =
    (table.relationships.map (·.relationName table.name)).eraseDups
  nodup : ((firsts table).map (·.relationName table.name)).Nodup
  -- what is kept is what is shown, with one import for each table that it refers to
  written : ∃ others : List Text, others.Nodup ∧
    (∀ other, other ∈ others ↔ ∃ relationship ∈ firsts table, relationship.referencedRelation = other) ∧
    written = ⟨(repeats table).map (duplicateWarning table.name),
      .ok (shown table.name others (relations table))⟩

theorem agrees_module (table : Table) : Agrees table (distinct table) (module table) where
  kept := distinct_eq table
  sublist := firsts_sublist table
  names := map_relationName_firsts table
  nodup := nodup_firsts table
  written := by
    refine ⟨rowTables table.name (firsts table), nodup_rowTables .., fun _ => mem_rowTables, ?_⟩
    rw [module, distinct_eq, relations, ← moduleOf_eq]
    simp

end Views

end HookGen.Relations
