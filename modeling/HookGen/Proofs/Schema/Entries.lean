import HookGen.Proofs.Schema.Access

/-!
The relationships of a table, entry by entry. An entry that is no relationship costs a warning and nothing else, but
for an escape beyond the code points in one of its texts, with which the whole table is lost.
-/

namespace HookGen

-- Where the second of two steps fails for every value of the first or for none.
theorem except_bind_error {ε α β : Type} {x : Except ε α} {f : α → Except ε β} {P : Prop}
    (h : ∀ a, (∃ e, f a = .error e) ↔ P) : (∃ e, x >>= f = .error e) ↔ (∃ e, x = .error e) ∨ P := by
  cases x with
  | error e => exact iff_of_true ⟨e, rfl⟩ (.inl ⟨e, rfl⟩)
  | ok a => exact (h a).trans (or_iff_right (by simp)).symm

theorem except_bind_pure_error {ε α β : Type} {x : Except ε α} {f : α → β} :
    (∃ e, (x >>= fun a => pure (f a)) = Except.error e) ↔ ∃ e, x = .error e := by
  cases x <;> simp [pure, Except.pure, bind, Except.bind]

-- A text in quotes with an escape that names no code point.
def StringLiteral.Fails (t : Text) : Prop := isQuoted t ∧ Overflows (inner t)

theorem StringLiteral.decode_of_quoted {t : Text} (h : isQuoted t) : (∃ e, decode t = .error e) ↔ Fails t := by
  rw [decode_error, if_pos h, Fails]
  exact (and_iff_right h).symm

namespace Member

variable {member : Member} {before after : List Member} {key : Text}

theorem key_error : (∃ e, member.key = .error e) ↔ StringLiteral.Fails member.name := by
  rw [key]
  split
  · rename_i hquoted
    exact StringLiteral.decode_of_quoted hquoted
  · rename_i hquoted
    exact iff_of_false (by simp) fun h => hquoted h.1

-- A property is found behind others that have other names.
theorem find?_behind (before : List Member) (hkey : member.key = .ok key)
    (h : ∀ other ∈ before, ∃ name, other.key = .ok name ∧ name ≠ key) :
    find? key (before ++ member :: after) = .ok (some member) := by
  induction before with
  | nil => exact except_bind_eq_ok.mpr ⟨key, hkey, if_pos rfl⟩
  | cons other before ih =>
    obtain ⟨⟨name, hname, hne⟩, hbefore⟩ := List.forall_mem_cons.mp h
    exact except_bind_eq_ok.mpr ⟨name, hname, (if_neg hne).trans (ih hbefore)⟩

-- Finding it takes the names of all that stand before it.
theorem keys_of_find? (hfirst : ∀ other ∈ before, other.key ≠ .ok key) {found : Option Member}
    (h : find? key (before ++ member :: after) = .ok found) :
    ∀ other ∈ before, ∃ name, other.key = .ok name ∧ name ≠ key := by
  induction before with
  | nil => exact nofun
  | cons other before ih =>
    obtain ⟨hother, hbefore⟩ := List.forall_mem_cons.mp hfirst
    obtain ⟨name, hname, h⟩ := except_bind_eq_ok.mp h
    have hne : name ≠ key := fun heq => hother (heq ▸ hname)
    rw [if_neg hne] at h
    exact List.forall_mem_cons.mpr ⟨⟨name, hname, hne⟩, ih hbefore h⟩

end Member

namespace Shape

-- A literal, or a tuple with one at any depth, that has no value.
inductive Fails : Shape → Prop
  | leaf {label : Label} {text : Text} (hlabel : label.text = some text) (h : StringLiteral.Fails text) :
    Fails (.leaf label)
  | tuple {label : Label} {args : List Shape} {arg : Shape} (harg : arg ∈ args) (h : Fails arg) :
    Fails (.tuple label args)

theorem literalOfText_error {text : Text} : (∃ e, literalOfText text = .error e) ↔ StringLiteral.Fails text := by
  rw [literalOfText]
  split
  · rename_i hquoted
    rw [← StringLiteral.decode_of_quoted hquoted, except_bind_pure_error]
  · rename_i hquoted
    refine iff_of_false ?_ fun h => hquoted h.1
    rintro ⟨e, h⟩
    split at h
    · cases h
    · split at h
      · cases h
      · split at h <;> cases h

mutual

theorem literalValue_error : ∀ shape : Shape, (∃ e, shape.literalValue = .error e) ↔ shape.Fails
  | .leaf label => by
    rw [literalValue]
    cases hlabel : label.text with
    | none =>
      refine iff_of_false (by simp) fun h => ?_
      cases h with
      | leaf htext _ => cases hlabel.symm.trans htext
    | some text =>
      dsimp only
      rw [literalOfText_error]
      refine ⟨.leaf hlabel, fun h => ?_⟩
      cases h with
      | leaf htext h => exact Option.some.inj (hlabel.symm.trans htext) ▸ h
  | .tuple label args => by
    rw [literalValue, except_bind_pure_error, literalValues_error args]
    refine ⟨fun ⟨arg, harg, h⟩ => .tuple harg h, fun h => ?_⟩
    cases h with
    | tuple harg h => exact ⟨_, harg, h⟩
  | .object _ _ _ | .union _ _ | .array _ _ | .lookup _ _ | .generic _ _ => by
    refine iff_of_false (by simp [literalValue]) fun h => ?_
    cases h

theorem literalValues_error : ∀ args : List Shape, (∃ e, literalValues args = .error e) ↔ ∃ arg ∈ args, arg.Fails
  | [] => by simp [literalValues]
  | arg :: rest => by
    simp only [List.mem_cons, exists_eq_or_imp]
    rw [literalValues, ← literalValue_error arg, ← literalValues_error rest]
    refine except_bind_error fun value => ?_
    rw [except_bind_pure_error]

end

-- An entry whose properties have no names or no values.
def EntryFails (entry : Shape) : Prop :=
  entry.isObject ∧ ∃ member ∈ entry.members, StringLiteral.Fails member.name ∨ member.shape.Fails

end Shape

namespace Introspection

open Traced Shape

variable {table : Text} {shape entry : Shape} {entries : List Shape} {member : Member} {before after : List Member}

theorem literalFields_error {members : List Member} {fields : List (Text × Json)} :
    (∃ e, literalFields members fields = .error e) ↔
      ∃ member ∈ members, StringLiteral.Fails member.name ∨ member.shape.Fails := by
  induction members generalizing fields with
  | nil => simp [literalFields]
  | cons member rest ih =>
    simp only [List.mem_cons, exists_eq_or_imp]
    rw [literalFields, ← Member.key_error, ← literalValue_error, or_assoc]
    exact except_bind_error fun key => except_bind_error fun value => ih

-- The relationship that an entry describes: it is an object type, and the values of its literals are accepted.
def described? (entry : Shape) : Option Relationship :=
  if entry.isObject then
    (literalFields entry.members []).toOption.bind fun fields => (Relationship.ofJson (.obj fields)).toOption
  else none

-- A warning that says which table it is about.
def WarnsOf (table : Text) (record : LogRecord) : Prop := record.level = .warning ∧ table <:+: record.text

-- A table with nothing but some relationships.
def tableWith (entries : List Shape) : Shape :=
  .object .none [.mk "Relationships" (.tuple .none entries) false false] []

-- What is asked of the relationships of a table: the entries that describe one are found, every other one has a
-- warning, and each is read as if it were alone.
structure Isolates (table : Text) (entries : List Shape) (result : Introspected (List Relationship)) : Prop where
  found : result.outcome = .ok (entries.filterMap described?)
  warned : List.Forall₂ (fun _ => WarnsOf table) (entries.filter fun entry => (described? entry).isNone) result.notes
  apart : ∃ alone, List.Forall₂
      (fun entry relationships => (tableRelationships table (tableWith [entry])).outcome = .ok relationships)
      entries alone ∧
    result.outcome = .ok alone.flatten

-- An entry with all its values has a relationship or a warning.
theorem relationshipOf_cases (table : Text) (h : ¬ entry.EntryFails) :
    (∃ relationship, described? entry = some relationship ∧
      relationshipOf table entry = ⟨[], .ok (some relationship)⟩) ∨
    described? entry = none ∧ ∃ record, WarnsOf table record ∧ relationshipOf table entry = ⟨[record], .ok none⟩ := by
  rw [described?, relationshipOf]
  cases hobject : entry.isObject with
  | false => exact .inr ⟨rfl, _, ⟨rfl, List.suffix_append .. |>.isInfix⟩, rfl⟩
  | true =>
    cases hfields : literalFields entry.members [] with
    | error e => exact absurd ⟨hobject, literalFields_error.mp ⟨e, hfields⟩⟩ h
    | ok fields =>
      cases hread : Relationship.ofJson (.obj fields) with
      | ok relationship => exact .inl ⟨relationship, by simp [Except.toOption, hread], by simp [decoded, hread]⟩
      | error errors =>
        refine .inr ⟨by simp [Except.toOption, hread], _, ⟨rfl, ?_⟩, by simp [decoded, hread, logWarning, note]; rfl⟩
        exact List.infix_append' ..

theorem relationshipOf_fails (table : Text) (h : entry.EntryFails) :
    ∃ e, relationshipOf table entry = ⟨[], .error e⟩ := by
  obtain ⟨hobject, hmember⟩ := h
  obtain ⟨e, he⟩ := literalFields_error.mpr hmember
  refine ⟨.literal e, ?_⟩
  rw [relationshipOf, hobject, decoded, he]
  rfl

-- One entry after the other.
theorem relationshipsOf_isolates (table : Text) (h : ∀ entry ∈ entries, ¬ entry.EntryFails) :
    (relationshipsOf table entries).outcome = .ok (entries.filterMap described?) ∧
      List.Forall₂ (fun _ => WarnsOf table) (entries.filter fun entry => (described? entry).isNone)
        (relationshipsOf table entries).notes := by
  induction entries with
  | nil => exact ⟨rfl, .nil⟩
  | cons entry rest ih =>
    obtain ⟨hentry, hrest⟩ := List.forall_mem_cons.mp h
    obtain ⟨houtcome, hnotes⟩ := ih hrest
    have hothers : relationshipsOf table rest =
        ⟨(relationshipsOf table rest).notes, .ok (rest.filterMap described?)⟩ := by rw [← houtcome]
    obtain ⟨relationship, hdescribed, hfirst⟩ | ⟨hdescribed, record, hrecord, hfirst⟩ :=
      relationshipOf_cases table hentry
    · rw [relationshipsOf, hfirst, hothers, List.filterMap_cons_some hdescribed,
        List.filter_cons_of_neg (by simp [hdescribed])]
      exact ⟨rfl, by simpa using hnotes⟩
    · rw [relationshipsOf, hfirst, hothers, List.filterMap_cons_none hdescribed,
        List.filter_cons_of_pos (by simp [hdescribed])]
      exact ⟨rfl, by simpa using ⟨hrecord, hnotes⟩⟩

theorem notFails_of_relationshipsOf {relationships : List Relationship}
    (h : (relationshipsOf table entries).outcome = .ok relationships) : ∀ entry ∈ entries, ¬ entry.EntryFails := by
  induction entries generalizing relationships with
  | nil => exact nofun
  | cons entry rest ih =>
    simp only [relationshipsOf, outcome_bind_eq_ok] at h
    obtain ⟨first, hfirst, others, hothers, -⟩ := h
    refine List.forall_mem_cons.mpr ⟨fun hfails => ?_, ih hothers⟩
    obtain ⟨e, he⟩ := relationshipOf_fails table hfails
    rw [he] at hfirst
    cases hfirst

-- The tuple of relationships is found unless the name of a property before it fails.
theorem tableRelationships_of_keys {label : Label} (before : List Member)
    (hmembers : shape.members = before ++ member :: after)
    (hkey : member.key = .ok "Relationships") (hshape : member.shape = .tuple label entries)
    (h : ∀ other ∈ before, ∃ name, other.key = .ok name ∧ name ≠ "Relationships") :
    tableRelationships table shape = relationshipsOf table entries := by
  have hproperty : shape.property? "Relationships" = .ok (some (.tuple label entries)) := by
    rw [← hshape]
    exact except_bind_eq_ok.mpr ⟨_, hmembers ▸ Member.find?_behind before hkey h, rfl⟩
  rw [tableRelationships, hproperty]
  exact bind_ok [] _ _

theorem tableRelationships_tableWith (table : Text) (entries : List Shape) :
    tableRelationships table (tableWith entries) = relationshipsOf table entries :=
  tableRelationships_of_keys [] rfl rfl rfl nofun

theorem keys_of_tableRelationships (hmembers : shape.members = before ++ member :: after)
    (hfirst : ∀ other ∈ before, other.key ≠ .ok "Relationships") {relationships : List Relationship}
    (h : (tableRelationships table shape).outcome = .ok relationships) :
    ∀ other ∈ before, ∃ name, other.key = .ok name ∧ name ≠ "Relationships" := by
  obtain ⟨property, hproperty, -⟩ := outcome_bind_eq_ok.mp h
  obtain ⟨found, hfound, -⟩ := except_bind_eq_ok.mp (decoded_eq_ok.mp hproperty)
  rw [Shape.member?, hmembers] at hfound
  exact Member.keys_of_find? hfirst hfound

-- A table with a tuple of relationships behind other properties.
structure HasRelationships (shape : Shape) (before : List Member) (entries : List Shape) : Prop where
  members : ∃ member after label, shape.members = before ++ member :: after ∧ member.key = .ok "Relationships" ∧
    member.shape = .tuple label entries
  first : ∀ other ∈ before, other.key ≠ .ok "Relationships"

-- Malformed relationships do not harm the others exactly when no text has an escape beyond the code points: neither
-- the name of a property up to the relationships, nor a name or a literal of an entry.
theorem isolates_iff (h : HasRelationships shape before entries) :
    Isolates table entries (tableRelationships table shape) ↔
      (∀ other ∈ before, ¬ StringLiteral.Fails other.name) ∧ ∀ entry ∈ entries, ¬ entry.EntryFails := by
  obtain ⟨⟨member, after, label, hmembers, hkey, hshape⟩, hfirst⟩ := h
  constructor
  · rintro ⟨hfound, -, -⟩
    have hkeys := keys_of_tableRelationships hmembers hfirst hfound
    rw [tableRelationships_of_keys before hmembers hkey hshape hkeys] at hfound
    refine ⟨fun other hother hfails => ?_, notFails_of_relationshipsOf hfound⟩
    obtain ⟨name, hname, -⟩ := hkeys other hother
    obtain ⟨e, he⟩ := Member.key_error.mpr hfails
    cases hname.symm.trans he
  · rintro ⟨hnames, hentries⟩
    have hkeys : ∀ other ∈ before, ∃ name, other.key = .ok name ∧ name ≠ "Relationships" := by
      intro other hother
      cases hname : other.key with
      | error e => exact absurd (Member.key_error.mp ⟨e, hname⟩) (hnames other hother)
      | ok name => exact ⟨name, rfl, fun heq => hfirst other hother (heq ▸ hname)⟩
    rw [tableRelationships_of_keys before hmembers hkey hshape hkeys]
    obtain ⟨hfound, hwarned⟩ := relationshipsOf_isolates table hentries
    refine ⟨hfound, hwarned, entries.map fun entry => (described? entry).toList, ?_, ?_⟩
    · rw [List.forall₂_map_right_iff, List.forall₂_same]
      intro entry hentry
      rw [tableRelationships_tableWith,
        (relationshipsOf_isolates table (List.forall_mem_singleton.mpr (hentries entry hentry))).1]
      cases hdescribed : described? entry <;> simp [hdescribed]
    · rw [hfound, List.filterMap_eq_flatMap_toList, List.flatMap_def]

section Sample

-- Entries of which the first has a number for a name, and the second is no object.
def mixedEntries : List Shape := [
  .object .none [.mk "foreignKeyName" (.text "1") false false] [],
  .text "'x'",
  .object .none [
    .mk "foreignKeyName" (.text "'f'") false false,
    .mk "columns" (.tuple .none [.text "'\\u\x7b41\x7d'"]) false false,
    .mk "referencedRelation" (.text "'u'") false false,
    .mk "referencedColumns" (.tuple .none []) false false] []]

theorem isolates_mixedEntries :
    HasRelationships (tableWith mixedEntries) [] mixedEntries ∧
      Isolates "t" mixedEntries (tableRelationships "t" (tableWith mixedEntries)) := by
  have hrelationships : HasRelationships (tableWith mixedEntries) [] mixedEntries :=
    ⟨⟨_, [], .none, rfl, rfl, rfl⟩, nofun⟩
  have hvalues : ∀ entry ∈ mixedEntries, (literalFields entry.members []).toOption.isSome := by decide +kernel
  refine ⟨hrelationships, (isolates_iff hrelationships).mpr ⟨nofun, fun entry hentry hfails => ?_⟩⟩
  obtain ⟨e, he⟩ := literalFields_error.mpr hfails.2
  have hsome := hvalues entry hentry
  rw [he] at hsome
  cases hsome

-- An escape in a comment between two literals, in the first of two entries.
def strayEscapeSource : Text :=
  "type T = \x7b Relationships: [\x7b a: 'a' & /* \\u\x7b110000\x7d */ 'b' \x7d, \x7b foreignKeyName: 'f', " ++
  "columns: [], referencedRelation: 'u', referencedColumns: [] \x7d] \x7d"

set_option maxRecDepth 4000 in
-- The table fails as a whole.
theorem strayEscape_fails :
    ∃ shape entries, Schema.rootOf strayEscapeSource "T" = some shape ∧ HasRelationships shape [] entries ∧
      ¬ Isolates "t" entries (tableRelationships "t" shape) := by
  -- the literals are turned into their characters without going through their bytes
  have hsource : strayEscapeSource = Text.ofChars _ ++ Text.ofChars _ :=
    congrArg₂ (· ++ ·) (congrArg Text.ofChars String.toList_ofList) (congrArg Text.ofChars String.toList_ofList)
  have hroot : (Schema.rootOf strayEscapeSource "T").map
      (fun shape => (shape.members.map Member.key, (tableRelationships "t" shape).outcome.toOption)) =
      some ([.ok "Relationships"], none) := by
    rw [hsource]
    decide +kernel
  obtain ⟨shape, hshape, hread⟩ := Option.map_eq_some_iff.mp hroot
  obtain ⟨hkeys, hfails⟩ := Prod.mk.inj hread
  obtain ⟨member, hmembers, hkey⟩ := List.map_eq_singleton_iff.mp hkeys
  have hproperty : shape.property? "Relationships" = .ok (some member.shape) :=
    except_bind_eq_ok.mpr ⟨_, hmembers ▸ Member.find?_behind [] hkey nofun, rfl⟩
  cases htuple : member.shape with
  | tuple label entries =>
    refine ⟨shape, entries, hshape, ⟨⟨member, [], label, hmembers, hkey, htuple⟩, nofun⟩, fun h => ?_⟩
    rw [h.found] at hfails
    cases hfails
  | _ =>
    rw [tableRelationships, hproperty, htuple] at hfails
    cases hfails

end Sample

end Introspection

end HookGen
