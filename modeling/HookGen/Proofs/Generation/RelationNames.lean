import HookGen.Proofs.Generation.Distinct
import HookGen.Proofs.Generation.Relations
import HookGen.Proofs.Naming

/-!
The names of relations as names of types. They are what is left of the names of foreign keys, as it stands there:
nothing makes them identifiers.
-/

namespace HookGen

namespace Text

variable {needle t rest : Text}

-- A text without the first occurrence of another one, if there is any.
def Without (needle t rest : Text) : Prop :=
  (¬ needle <:+: t ∧ rest = t) ∨
    ∃ front back, t = front ++ needle ++ back ∧ rest = front ++ back ∧
      ∀ front' back', t = front' ++ needle ++ back' → front.length ≤ front'.length

theorem without_replaceFirst (needle t : Text) : Without needle t (replaceFirst needle [] t) := by
  induction t with
  | nil =>
    by_cases hneedle : needle = []
    · subst hneedle
      exact .inr ⟨[], [], rfl, rfl, fun _ _ _ => Nat.zero_le _⟩
    · exact .inl ⟨fun h => hneedle (List.infix_nil.mp h), by simp [replaceFirst]⟩
  | cons c t ih =>
    rw [replaceFirst]
    split
    · rename_i hprefix
      obtain ⟨back, hback⟩ := List.isPrefixOf_iff_prefix.mp hprefix
      refine .inr ⟨[], back, hback.symm, ?_, fun _ _ _ => Nat.zero_le _⟩
      rw [← hback, List.drop_left]
    · rename_i hprefix
      have hprefix : ¬ needle <+: c :: t := fun h => hprefix (List.isPrefixOf_iff_prefix.mpr h)
      obtain ⟨hnone, heq⟩ | ⟨front, back, ht, heq, hfirst⟩ := ih
      · refine .inl ⟨fun h => ?_, by rw [heq]⟩
        exact (List.infix_cons_iff.mp h).elim hprefix hnone
      · refine .inr ⟨c :: front, back, by rw [ht]; simp, by rw [heq, List.cons_append], fun front' back' h => ?_⟩
        cases front' with
        | nil => exact absurd ⟨back', h.symm⟩ hprefix
        | cons d front' => exact Nat.succ_le_succ (hfirst front' back' (List.cons.inj h).2)

theorem without_iff : Without needle t rest ↔ rest = replaceFirst needle [] t := by
  refine ⟨fun h => ?_, fun h => h ▸ without_replaceFirst needle t⟩
  obtain ⟨hnone, rfl⟩ | ⟨front, back, ht, rfl, hfirst⟩ := h
  · obtain ⟨-, heq⟩ | ⟨front, back, ht, -⟩ := without_replaceFirst needle rest
    · exact heq.symm
    · exact absurd ⟨front, back, ht.symm⟩ hnone
  · obtain ⟨hnone, -⟩ | ⟨front', back', ht', heq, hfirst'⟩ := without_replaceFirst needle t
    · exact absurd ⟨front, back, ht.symm⟩ hnone
    · -- both are the first occurrence, so they begin at one place
      have hlength := Nat.le_antisymm (hfirst front' back' ht') (hfirst' front back ht)
      have hsame := ht.symm.trans ht'
      rw [List.append_assoc, List.append_assoc] at hsame
      obtain ⟨hfront, hrest⟩ := List.append_inj hsame hlength
      rw [heq, hfront, List.append_cancel_left hrest]

end Text

namespace Relations

variable {table key short name : Text}

-- What a foreign key of a table is called in short: without the name of the table and the usual ending.
def Leaves (table key short : Text) : Prop :=
  ∃ middle, Text.Without (table ++ "_") key middle ∧ Text.Without "_fkey" middle short

theorem leaves_iff (relationship : Relationship) :
    Leaves table relationship.foreignKeyName short ↔ short = relationship.relationName table := by
  simp [Leaves, Text.without_iff, Relationship.relationName]

-- A key that is named as databases do it leaves what stands in the middle.
theorem leaves_standard (h : ¬ Text.ofString "_fkey" <:+: short) :
    Leaves table (table ++ "_" ++ short ++ "_fkey") short := by
  refine ⟨short ++ "_fkey", .inr ⟨[], short ++ "_fkey", by simp, rfl, fun _ _ _ => Nat.zero_le _⟩,
    .inr ⟨short, [], by simp, by simp, fun front back heq => ?_⟩⟩
  -- an ending that begins further ahead would lie within the middle, or would overlap with the one behind it
  have hborder : ∀ n < 5, n ≠ 0 → ¬ (Text.ofString "_fkey").drop n <+: Text.ofString "_fkey" := by decide
  rw [List.append_assoc] at heq
  obtain ⟨more, rfl, -⟩ | ⟨more, rfl, hmore⟩ := List.append_eq_append_iff.mp heq
  · simp
  obtain ⟨rest, rfl, -⟩ | ⟨rest, hending, hrest⟩ := List.append_eq_append_iff.mp hmore
  · exact absurd ⟨front, rest, by simp⟩ h
  by_contra hahead
  have hlength : more.length + rest.length = 5 := by
    rw [← List.length_append, ← hending]
    rfl
  have hdrop : (Text.ofString "_fkey").drop more.length = rest := by rw [hending, List.drop_left]
  refine hborder more.length ?_ ?_ (hdrop ▸ ⟨back, hrest.symm⟩)
  · have hrest : rest ≠ [] := by
      rintro rfl
      rw [List.append_nil] at hending
      exact h ⟨front, [], by simp [hending]⟩
    have hpos := List.length_pos_iff.mpr hrest
    omega
  · rw [List.length_append] at hahead
    omega

-- A name that a declaration can have.
def IsUsable (name : Text) : Prop := Naming.isIdentifier name ∧ ¬ Naming.isReserved name

instance (name : Text) : Decidable (IsUsable name) := inferInstanceAs (Decidable (_ ∧ _))

theorem startsIdentifier_iff {c : CodePoint} :
    Naming.startsIdentifier c ↔ Naming.continuesIdentifier c ∧ ¬ c.isAsciiDigit := by
  have hdigit : Naming.startsIdentifier c → ¬ c.isAsciiDigit := by
    cases c with
    | surrogate offset => exact fun h => nomatch h
    | char c =>
      simp only [Naming.startsIdentifier, CodePoint.isAsciiLetter, CodePoint.isIn, CodePoint.isAsciiDigit,
        List.contains_cons, List.contains_nil, Bool.or_false, Bool.or_eq_true, Bool.and_eq_true, decide_eq_true_eq,
        beq_iff_eq, Char.le_def, UInt32.le_iff_toNat_le]
      have hz : 'a'.val.toNat = 97 := by decide
      have hA : 'A'.val.toNat = 65 := by decide
      have h9 : '9'.val.toNat = 57 := by decide
      rintro ((h | h) | rfl | rfl)
      · omega
      · omega
      · decide
      · decide
  rw [Naming.continuesIdentifier, Bool.or_eq_true]
  tauto

theorem isUsable_iff : IsUsable name ↔ name ≠ [] ∧ (∀ c ∈ name, Naming.continuesIdentifier c) ∧
    (∀ c ∈ name.head?, ¬ c.isAsciiDigit) ∧ name ∉ Naming.reservedWords := by
  cases name with
  | nil => simp [IsUsable, Naming.isIdentifier]
  | cons c rest =>
    simp only [IsUsable, Naming.isIdentifier, Bool.and_eq_true, startsIdentifier_iff, List.all_eq_true,
      Naming.isReserved, List.contains_iff_mem, List.forall_mem_cons, List.head?_cons, Option.mem_some_iff, forall_eq',
      ne_eq, reduceCtorEq, not_false_eq_true, true_and]
    tauto

-- The names in the module of a table are names of declarations exactly where none of its foreign keys leaves nothing,
-- a reserved word, a digit in front, or something that no identifier has.
theorem usable_iff (table : Table) :
    (∃ others, (module table).outcome = .ok (shown table.name others (relations table))) ∧
    ((∀ relation ∈ relations table, IsUsable relation.name) ↔
      ∀ relationship ∈ table.relationships, ∀ short, Leaves table.name relationship.foreignKeyName short →
        short ≠ [] ∧ (∀ c ∈ short, Naming.continuesIdentifier c) ∧ (∀ c ∈ short.head?, ¬ c.isAsciiDigit) ∧
          short ∉ Naming.reservedWords) ∧
    ∀ short, ¬ Text.ofString "_fkey" <:+: short → Leaves table.name (table.name ++ "_" ++ short ++ "_fkey") short := by
  refine ⟨⟨rowTables table.name (firsts table), ?_⟩, ?_, fun short => leaves_standard⟩
  · rw [module, distinct_eq, relations, ← moduleOf_eq]
    rfl
  · have hnames : ∀ name, name ∈ (firsts table).map (·.relationName table.name) ↔
        name ∈ table.relationships.map (·.relationName table.name) := fun name => by
      rw [map_relationName_firsts, List.mem_eraseDups]
    have hshown : (relations table).map (·.name) = (firsts table).map (·.relationName table.name) := List.map_map ..
    simp only [leaves_iff, forall_eq, ← isUsable_iff]
    rw [← List.forall_mem_map, hshown]
    refine .trans (forall_congr' fun name => by rw [hnames]) List.forall_mem_map

section Sample

-- A foreign key over a column whose name begins with a digit.
def digitSource : Text :=
  "type Database=\x7bpublic:\x7bTables:\x7bt:\x7bRelationships:[\x7bforeignKeyName:'t_2fa_fkey'," ++
  "columns:['2fa'],isOneToOne:false,referencedRelation:'u',referencedColumns:['id']\x7d]\x7d\x7d\x7d\x7d"

set_option maxRecDepth 4000 in
theorem digit_generated : (Generation.Generated.of? digitSource "@/lib/client" "out" fun schema _ =>
    schema.tables.map (fun table => (firsts table).map (·.relationName table.name)) =
      [[Text.ofString "2fa"]]).isSome := by
  -- the literal is turned into its characters without going through its bytes
  have hsource : digitSource = Text.ofChars _ ++ Text.ofChars _ :=
    congrArg₂ (· ++ ·) (Text.ofString_ofList _) (Text.ofString_ofList _)
  rw [hsource]
  decide +kernel

def digit := (Generation.Generated.of? digitSource "@/lib/client" "out" _).get digit_generated

-- Its relation gets the name of the column, which is no identifier.
theorem digit_not_usable :
    Source.parseDeclarations digitSource = some digit.declarations ∧
    (Introspection.introspect ⟨"database.ts", digit.declarations⟩ "public" "Database").outcome = .ok digit.schema ∧
    ∃ table ∈ digit.schema.tables,
      ¬ ∀ relation ∈ relations table, IsUsable relation.name := by
  obtain ⟨table, htables, hname⟩ := List.map_eq_singleton_iff.mp digit.meets
  refine ⟨digit.read, digit.introspected, table, by simp [htables], fun h => ?_⟩
  obtain ⟨relationship, hfirsts, hrelation⟩ := List.map_eq_singleton_iff.mp hname
  have husable := h (.ofRelationship table.name relationship) (by simp [relations, hfirsts])
  rw [show (Relation.ofRelationship table.name relationship).name = Text.ofString "2fa" from hrelation] at husable
  exact absurd husable (by decide)

end Sample

end Relations

end HookGen
