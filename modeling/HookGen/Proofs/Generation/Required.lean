import HookGen.Emit.Types
import Mathlib.Algebra.Order.Group.Multiset
import Mathlib.Data.List.Basic
import Mathlib.Logic.Relation
import Mathlib.Tactic.Tauto

/-!
Which base types are declared beside the ones in use: those that one comes to from these by the words of
their sources. A search looks at one pending name after the other. It ends whichever name it takes next, and
what it has found then is always the same.
-/

namespace HookGen.Types

variable {schema : Schema} {name other : Text} {required used : List Text}

-- The names of the base types.
def baseTypeNames (schema : Schema) : List Text := schema.baseTypes.map (·.1)

-- The source of one base type has the name of another as a word.
def Mentions (schema : Schema) (name other : Text) : Prop :=
  other ∈ baseTypeNames schema ∧ Text.includesWord other (schema.baseTypeSource name)

-- What one comes to from some names by what the sources mention.
inductive Needed (schema : Schema) (used : List Text) : Text → Prop
  | used {name : Text} (h : name ∈ used) : Needed schema used name
  | mentioned {name other : Text} (h : Needed schema used name) (hmentions : Mentions schema name other) :
    Needed schema used other

theorem needed_iff :
    Needed schema used name ↔ ∃ start ∈ used, Relation.ReflTransGen (Mentions schema) start name := by
  constructor
  · intro h
    induction h with
    | used h => exact ⟨_, h, .refl⟩
    | mentioned _ hmentions ih =>
      obtain ⟨start, hstart, hreach⟩ := ih
      exact ⟨start, hstart, hreach.tail hmentions⟩
  · rintro ⟨start, hstart, hreach⟩
    induction hreach with
    | refl => exact .used hstart
    | tail _ hmentions ih => exact .mentioned ih hmentions

-- The names that a step of the search adds.
def newlyMentioned (schema : Schema) (required : List Text) (name : Text) : List Text :=
  (baseTypeNames schema).filter fun other =>
    !required.contains other && Text.includesWord other (schema.baseTypeSource name)

theorem mem_newlyMentioned :
    other ∈ newlyMentioned schema required name ↔ Mentions schema name other ∧ other ∉ required := by
  simp [newlyMentioned, Mentions, and_assoc, and_comm]

-- How many base types are not required so far.
def restCount (schema : Schema) (required : List Text) : Nat :=
  ((baseTypeNames schema).filter fun other => !required.contains other).length

-- The names that a step adds are no longer among the rest.
theorem restCount_append (schema : Schema) (required : List Text) (name : Text) :
    restCount schema (required ++ newlyMentioned schema required name) +
      (newlyMentioned schema required name).length = restCount schema required := by
  let unlisted := (baseTypeNames schema).filter fun other => !required.contains other
  let isMentioned (other : Text) : Bool := Text.includesWord other (schema.baseTypeSource name)
  have hnew : newlyMentioned schema required name = unlisted.filter isMentioned := by
    rw [List.filter_filter]
    exact List.filter_congr fun other _ => Bool.and_comm ..
  have hrest : restCount schema (required ++ newlyMentioned schema required name) =
      (unlisted.filter fun other => !isMentioned other).length := by
    rw [restCount, List.filter_filter]
    refine congrArg List.length (List.filter_congr fun other hother => ?_)
    rw [Bool.eq_iff_iff]
    simp [mem_newlyMentioned, Mentions, hother, isMentioned]
    tauto
  rw [hrest, hnew, Nat.add_comm]
  exact (List.length_eq_length_filter_add isMentioned).symm

-- Where a search stands: the names that are required so far, and those whose sources are still to be looked at.
structure Search where
  required : List Text
  pending : Multiset Text

namespace Search

variable {search next : Search}

-- It begins with the names in use, each once.
def start (used : List Text) : Search := ⟨used.eraseDups, used.eraseDups⟩

-- Any of the pending names may be looked at next.
inductive Step (schema : Schema) : Search → Search → Prop
  | look {search : Search} {name : Text} (h : name ∈ search.pending) :
    Step schema search ⟨search.required ++ newlyMentioned schema search.required name,
      search.pending.erase name + newlyMentioned schema search.required name⟩

-- A search after any number of steps.
abbrev Run (schema : Schema) : Search → Search → Prop := Relation.ReflTransGen (Step schema)

section Ending

-- The steps that are left: one for each pending name, and one for each that can still be added.
def work (schema : Schema) (search : Search) : Nat := search.pending.card + restCount schema search.required

theorem Step.work (h : Step schema search next) : next.work schema + 1 = search.work schema := by
  cases h with
  | @look name hname =>
    have hrest := restCount_append schema search.required name
    have hcard := Multiset.card_erase_add_one hname
    simp only [Search.work, Multiset.card_add, Multiset.coe_card]
    omega

theorem wellFounded_step (schema : Schema) : WellFounded fun next search => Step schema search next :=
  Subrelation.wf (fun h => Nat.lt_of_succ_le (Step.work h).le) (measure (Search.work schema)).wf

theorem exists_step (h : search.pending ≠ 0) : ∃ next, Step schema search next := by
  obtain ⟨name, hname⟩ := Multiset.exists_mem_of_ne_zero h
  exact ⟨_, .look hname⟩

end Ending

section Finding

-- What holds all the time: the required names are needed, and each of them is pending, unless all that it
-- mentions is required as well.
structure Invariant (schema : Schema) (used : List Text) (search : Search) : Prop where
  begun : ∀ name ∈ used, name ∈ search.required
  needed : ∀ name ∈ search.required, Needed schema used name
  listed : ∀ name ∈ search.pending, name ∈ search.required
  looked : ∀ name ∈ search.required,
    name ∈ search.pending ∨ ∀ other, Mentions schema name other → other ∈ search.required

theorem invariant_start (schema : Schema) (used : List Text) : Invariant schema used (start used) where
  begun := fun _ => List.mem_eraseDups.mpr
  needed := fun _ h => .used (List.mem_eraseDups.mp h)
  listed := fun _ => Multiset.mem_coe.mp
  looked := fun _ h => .inl (Multiset.mem_coe.mpr h)

theorem Invariant.step (h : Invariant schema used search) (hstep : Step schema search next) :
    Invariant schema used next := by
  cases hstep with
  | @look name hname =>
    have hrequired := h.listed name hname
    constructor
    · exact fun other hother => List.mem_append_left _ (h.begun other hother)
    · intro other hother
      obtain hold | hnew := List.mem_append.mp hother
      · exact h.needed other hold
      · exact .mentioned (h.needed name hrequired) (mem_newlyMentioned.mp hnew).1
    · intro other hother
      obtain hold | hnew := Multiset.mem_add.mp hother
      · exact List.mem_append_left _ (h.listed other (Multiset.mem_of_mem_erase hold))
      · exact List.mem_append_right _ (Multiset.mem_coe.mp hnew)
    · intro other hother
      obtain hold | hnew := List.mem_append.mp hother
      · by_cases heq : other = name
        · -- the name that has been looked at
          subst heq
          refine .inr fun target htarget => ?_
          by_cases htarget' : target ∈ search.required
          · exact List.mem_append_left _ htarget'
          · exact List.mem_append_right _ (mem_newlyMentioned.mpr ⟨htarget, htarget'⟩)
        · obtain hpending | hlooked := h.looked other hold
          · exact .inl (Multiset.mem_add.mpr (.inl ((Multiset.mem_erase_of_ne heq).mpr hpending)))
          · exact .inr fun target htarget => List.mem_append_left _ (hlooked target htarget)
      · exact .inl (Multiset.mem_add.mpr (.inr (Multiset.mem_coe.mpr hnew)))

theorem Invariant.run (h : Invariant schema used search) (hrun : Run schema search next) :
    Invariant schema used next := by
  induction hrun with
  | refl => exact h
  | tail _ hstep ih => exact ih.step hstep

-- A search with nothing left to look at has found all that is needed.
theorem Invariant.mem_required_iff (h : Invariant schema used search) (hdone : search.pending = 0) :
    name ∈ search.required ↔ Needed schema used name := by
  refine ⟨h.needed name, fun hneeded => ?_⟩
  induction hneeded with
  | used hused => exact h.begun _ hused
  | mentioned _ hmentions ih =>
    obtain hpending | hlooked := h.looked _ ih
    · simp [hdone] at hpending
    · exact hlooked _ hmentions

end Finding

-- The names are taken off a list at its front.
theorem run_requireMentioned {budget : Nat} {pending : List Text}
    (hbudget : pending.length + restCount schema required ≤ budget) :
    Run schema ⟨required, pending⟩ ⟨requireMentioned schema budget required pending, 0⟩ := by
  induction budget generalizing required pending with
  | zero =>
    obtain rfl : pending = [] := List.eq_nil_of_length_eq_zero (by omega)
    exact .refl
  | succ budget ih =>
    cases pending with
    | nil => exact .refl
    | cons first pending =>
      have hcount := restCount_append schema required first
      have hrest : (pending ++ newlyMentioned schema required first).length +
          restCount schema (required ++ newlyMentioned schema required first) ≤ budget := by
        simp only [List.length_append, List.length_cons] at hbudget ⊢
        omega
      have hstep : Step schema ⟨required, (first :: pending : List Text)⟩
          ⟨required ++ newlyMentioned schema required first,
            (pending ++ newlyMentioned schema required first : List Text)⟩ := by
        have hlook : Step schema ⟨required, (first :: pending : List Text)⟩ _ :=
          .look (Multiset.mem_coe.mpr (List.mem_cons_self ..))
        simpa using hlook
      exact .head hstep (ih hrest)

end Search

-- The base types that are declared are those that one comes to from the ones in use.
theorem mem_requiredBaseTypes_iff :
    name ∈ requiredBaseTypes schema used ↔ name ∈ baseTypeNames schema ∧ Needed schema used name := by
  have hbudget : used.eraseDups.length + restCount schema used.eraseDups ≤
      used.eraseDups.length + schema.baseTypes.length + 1 := by
    have hcount : restCount schema used.eraseDups ≤ (baseTypeNames schema).length := List.length_filter_le ..
    rw [baseTypeNames, List.length_map] at hcount
    omega
  have hfound := (Search.invariant_start schema used).run (Search.run_requireMentioned hbudget)
  rw [requiredBaseTypes, List.mem_filter, List.contains_iff_mem]
  exact and_congr_right fun _ => hfound.mem_required_iff rfl

-- What is declared for the names in use, and how it is found.
structure IsExpansion (schema : Schema) (used found : List Text) : Prop where
  -- in the order of the base types, and each as often as it is one
  ordered : found.Sublist (baseTypeNames schema)
  nodup : (baseTypeNames schema).Nodup → found.Nodup
  reached : ∀ name, name ∈ found ↔
    name ∈ baseTypeNames schema ∧ ∃ start ∈ used, Relation.ReflTransGen (Mentions schema) start name
  -- every search ends, and not before all pending names are looked at, with the same names
  ends : WellFounded fun next search => Search.Step schema search next
  goesOn : ∀ search, search.pending ≠ 0 → ∃ next, Search.Step schema search next
  anyOrder : ∀ search, Search.Run schema (.start used) search → search.pending = 0 →
    (baseTypeNames schema).filter search.required.contains = found
  anyUse : ∀ used', used' ⊆ used → used ⊆ used' → requiredBaseTypes schema used' = found
  again : requiredBaseTypes schema found = found

theorem requiredBaseTypes_congr {used' : List Text}
    (h : ∀ name ∈ baseTypeNames schema, Needed schema used' name ↔ Needed schema used name) :
    requiredBaseTypes schema used' = requiredBaseTypes schema used := by
  have hmem (name : Text) (hname : name ∈ baseTypeNames schema) :
      name ∈ requiredBaseTypes schema used' ↔ name ∈ requiredBaseTypes schema used := by
    rw [mem_requiredBaseTypes_iff, mem_requiredBaseTypes_iff, h name hname]
  refine List.filter_congr fun name hname => ?_
  have hiff := hmem name hname
  simp only [requiredBaseTypes, List.mem_filter] at hiff
  exact Bool.eq_iff_iff.mpr (by tauto)

theorem Needed.mono {used' : List Text} (h : Needed schema used name)
    (hmono : ∀ name ∈ used, Needed schema used' name) : Needed schema used' name := by
  induction h with
  | used h => exact hmono _ h
  | mentioned _ hmentions ih => exact .mentioned ih hmentions

theorem isExpansion_requiredBaseTypes (schema : Schema) (used : List Text) :
    IsExpansion schema used (requiredBaseTypes schema used) where
  ordered := List.filter_sublist
  nodup := fun hnodup => hnodup.filter _
  reached := fun name => by rw [mem_requiredBaseTypes_iff, needed_iff]
  ends := Search.wellFounded_step schema
  goesOn := fun _ => Search.exists_step
  anyOrder := fun search hrun hdone => by
    have hfound := (Search.invariant_start schema used).run hrun
    refine List.filter_congr fun name hname => ?_
    have hiff : name ∈ requiredBaseTypes schema used ↔ _ := mem_requiredBaseTypes_iff
    rw [requiredBaseTypes, List.mem_filter] at hiff
    rw [Bool.eq_iff_iff, List.contains_iff_mem, hfound.mem_required_iff hdone]
    tauto
  anyUse := fun used' hsub hsup => requiredBaseTypes_congr fun name _ =>
    ⟨fun h => h.mono fun _ hmem => .used (hsub hmem), fun h => h.mono fun _ hmem => .used (hsup hmem)⟩
  again := requiredBaseTypes_congr fun name hname => by
    refine ⟨fun h => h.mono fun other hother => (mem_requiredBaseTypes_iff.mp hother).2, fun h => ?_⟩
    exact .used (mem_requiredBaseTypes_iff.mpr ⟨hname, h⟩)

end HookGen.Types
