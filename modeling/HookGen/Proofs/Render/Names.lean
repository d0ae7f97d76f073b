import HookGen.Proofs.Path
import HookGen.Proofs.Render.Basic
import HookGen.Proofs.Render.Inlining

/-!
What rendering takes note of and what it writes: the base types, the enums and the texts that one comes to
from a shape by its parts and the targets of its accesses. An access that is cut off hides none of them,
because its target is being rendered already.
-/

namespace HookGen.Render

variable {schema : Schema} {expand : List Text → Int → Rendering Text} {shape piece : Shape} {n : Note}

-- What a shape itself gives rise to, its parts and targets left aside.
def ownNotes (schema : Schema) : Shape → List Note
  | .leaf label => (noteReference schema label.reference).notes
  | .generic label _ => (noteReference schema label.reference).notes
  | .lookup _ path =>
    match schema.enumOfPath? path with
    | some enumeration => [.enumeration enumeration.typeName]
    | none => []
  | _ => []

-- Where the notes of rendering come from: a part itself, or what an access is replaced by.
def Noted (schema : Schema) (expand : List Text → Int → Rendering Text) (shape : Shape) (n : Note) :
    Prop :=
  (∃ part, shape.Part part ∧ n ∈ ownNotes schema part) ∨
    ∃ label path, shape.Part (.lookup label path) ∧ schema.enumOfPath? path = none ∧
      ∃ indent, n ∈ (expand path indent).notes

theorem Noted.of_part (h : Noted schema expand piece n) (hpart : shape.Part piece) :
    Noted schema expand shape n := by
  rcases h with ⟨inner, hinner, hown⟩ | ⟨label, path, hlookup, henum, hnote⟩
  · exact .inl ⟨inner, hpart.trans hinner, hown⟩
  · exact .inr ⟨label, path, hpart.trans hlookup, henum, hnote⟩

-- All rendering of a shape can note comes from its arguments, its properties and itself.
theorem noted_of_arg {arg : Shape} (harg : arg ∈ shape.args) (h : Noted schema expand arg n) :
    Noted schema expand shape n :=
  h.of_part (.arg harg (.self arg))

theorem noted_of_member {member : Member} (hmember : member ∈ shape.members)
    (h : Noted schema expand member.shape n) : Noted schema expand shape n :=
  h.of_part (.member hmember (.self member.shape))

mutual

theorem noted_of_mem_renderOver : ∀ (shape : Shape) (indent : Int),
    n ∈ (renderOver schema expand indent shape).notes → Noted schema expand shape n
  | .leaf label, indent, h => by
    rw [notes_renderOver_leaf] at h
    exact .inl ⟨_, .self _, h⟩
  | .object label members signatures, indent, h => by
    rw [notes_renderOver_object] at h
    obtain ⟨member, hmember, hnoted⟩ := noted_of_mem_renderMembers members (indent + 1) h
    exact noted_of_member hmember hnoted
  | .union label args, indent, h => by
    rw [notes_renderOver_union] at h
    obtain ⟨arg, harg, hnoted⟩ := noted_of_mem_renderArgs args indent h
    exact noted_of_arg harg hnoted
  | .array label [], indent, h => by
    simp [renderOver] at h
  | .array label (element :: rest), indent, h => by
    rw [notes_renderOver_array] at h
    exact noted_of_arg (List.mem_cons_self ..) (noted_of_mem_renderOver element indent h)
  | .tuple label args, indent, h => by
    rw [notes_renderOver_tuple] at h
    obtain ⟨arg, harg, hnoted⟩ := noted_of_mem_renderArgs args indent h
    exact noted_of_arg harg hnoted
  | .lookup label path, indent, h => by
    cases henum : schema.enumOfPath? path with
    | none =>
      simp only [renderOver, henum] at h
      exact .inr ⟨label, path, .self _, henum, indent, h⟩
    | some enumeration =>
      refine .inl ⟨.lookup label path, .self _, ?_⟩
      simpa [renderOver, henum, ownNotes, Traced.note] using h
  | .generic label args, indent, h => by
    rw [notes_renderOver_generic, List.mem_append] at h
    rcases h with hown | hargs
    · exact .inl ⟨_, .self _, hown⟩
    · obtain ⟨arg, harg, hnoted⟩ := noted_of_mem_renderArgs args indent hargs
      exact noted_of_arg harg hnoted

theorem noted_of_mem_renderArgs : ∀ (args : List Shape) (indent : Int),
    n ∈ (renderArgs schema expand indent args).notes → ∃ arg ∈ args, Noted schema expand arg n
  | [], indent, h => by simp [renderArgs] at h
  | arg :: rest, indent, h => by
    rw [renderArgs, Traced.mem_notes_bind] at h
    rcases h with hfirst | ⟨t, -, hrest⟩
    · exact ⟨arg, by simp, noted_of_mem_renderOver arg indent hfirst⟩
    · rw [bind_pure_comp, Traced.notes_map] at hrest
      obtain ⟨found, hfound, hnoted⟩ := noted_of_mem_renderArgs rest indent hrest
      exact ⟨found, List.mem_cons_of_mem _ hfound, hnoted⟩

theorem noted_of_mem_renderMembers : ∀ (members : List Member) (indent : Int),
    n ∈ (renderMembers schema expand indent members).notes →
      ∃ member ∈ members, Noted schema expand member.shape n
  | [], indent, h => by simp [renderMembers] at h
  | .mk name shape optional readonly :: rest, indent, h => by
    rw [renderMembers, Traced.mem_notes_bind] at h
    rcases h with hfirst | ⟨t, -, hrest⟩
    · exact ⟨_, List.mem_cons_self .., noted_of_mem_renderOver shape indent hfirst⟩
    · rw [bind_pure_comp, Traced.notes_map] at hrest
      obtain ⟨found, hfound, hnoted⟩ := noted_of_mem_renderMembers rest indent hrest
      exact ⟨found, List.mem_cons_of_mem _ hfound, hnoted⟩

end

theorem eq_unresolved_of_mem {path : List Text} (h : n ∈ (unresolved path).notes) :
    ∃ shown, n = .unresolved shown := by
  cases path with
  | nil => simp [unresolved, shownPath] at h
  | cons root keys =>
    have hnote : n = .unresolved (root ++ keys.flatMap shownKey) := by
      simpa [unresolved, shownPath, Traced.note] using h
    exact ⟨_, hnote⟩

-- An access that is no enum brings the names of its target only.
theorem mem_expansion_notes {budget : Nat} {resolving : List (List Text)} {path : List Text}
    {indent : Int} (henum : schema.enumOfPath? path = none)
    (h : n ∈ (expansion schema resolving budget path indent).notes)
    (hname : ∀ shown, n ≠ .unresolved shown) :
    ∃ left target, budget = left + 1 ∧ target? schema path = some target ∧
      n ∈ (renderWithin schema left (path :: resolving) indent target).notes := by
  have hcut : n ∉ (unresolved path).notes := by
    intro hmem
    obtain ⟨shown, rfl⟩ := eq_unresolved_of_mem hmem
    exact hname shown rfl
  cases htarget : target? schema path with
  | none =>
    rw [expansion_of_no_target htarget henum, expansion] at h
    rcases targetOf_of_no_target htarget henum with hfound | ⟨e, hfound⟩
    · simp [hfound, hcut] at h
    · simp [hfound] at h
  | some target =>
    cases budget with
    | zero => simp [expansion, targetOf_of_target htarget, hcut] at h
    | succ left =>
      by_cases hmem : path ∈ resolving
      · simp [expansion, targetOf_of_target htarget, hmem, hcut] at h
      · rw [expansion_of_target htarget hmem] at h
        exact ⟨left, target, rfl, rfl, h⟩

-- Each name that rendering takes note of belongs to something one comes to from the shape.
theorem exists_within_of_mem_notes {budget : Nat} {resolving : List (List Text)} {indent : Int}
    (h : n ∈ (renderWithin schema budget resolving indent shape).notes)
    (hname : ∀ shown, n ≠ .unresolved shown) :
    ∃ part, Within schema shape part ∧ n ∈ ownNotes schema part := by
  induction budget using Nat.strongRecOn generalizing resolving indent shape with
  | ind budget ih =>
    rw [renderWithin_eq_renderOver] at h
    rcases noted_of_mem_renderOver shape indent h with
      ⟨part, hpart, hown⟩ | ⟨label, path, hlookup, henum, indent', hexpand⟩
    · exact ⟨part, .part hpart, hown⟩
    · obtain ⟨left, target, rfl, htarget, hnotes⟩ := mem_expansion_notes henum hexpand hname
      obtain ⟨part, hpart, hown⟩ := ih left (Nat.lt_succ_self left) hnotes
      exact ⟨part, .target hlookup htarget hpart, hown⟩

-- Arrays of a shape have one element at most, as those of sources do.
def SingleElements (shape : Shape) : Prop :=
  ∀ label args, shape.Part (.array label args) → args.length ≤ 1

theorem SingleElements.part (h : SingleElements shape) (hpart : shape.Part piece) :
    SingleElements piece :=
  fun label args harray => h label args (hpart.trans harray)

-- A rendering that succeeds and is done on the way of another one: what it notes is noted there, and its
-- text stands in the text of the other.
structure Shown (y x : Rendering Text) : Prop where
  stage : y.Stage x
  infix_of : ∀ u t, y.outcome = .ok u → x.outcome = .ok t → u <:+: t

theorem Shown.refl {x : Rendering Text} {t : Text} (h : x.outcome = .ok t) : Shown x x where
  stage := ⟨⟨t, h⟩, List.Subset.refl _⟩
  infix_of := by
    intro u v hu hv
    obtain rfl : u = v := Except.ok.inj (hu.symm.trans hv)
    exact List.infix_rfl

theorem Shown.of_stage {y x : Rendering Text} {t : Text} (hstage : y.Stage x) (h : x.outcome = .ok t)
    (hwithin : ∀ u, y.outcome = .ok u → u <:+: t) : Shown y x where
  stage := hstage
  infix_of := by
    intro u v hu hv
    obtain rfl : t = v := Except.ok.inj (h.symm.trans hv)
    exact hwithin u hu

theorem Shown.trans {z y x : Rendering Text} (h : Shown z y) (h' : Shown y x) : Shown z x where
  stage := h.stage.trans h'.stage
  infix_of := by
    intro u t hu ht
    obtain ⟨v, hv⟩ := h'.stage.1
    exact (h.infix_of u v hu hv).trans (h'.infix_of v t hv ht)

section Layout

theorem infix_join {separator t : Text} {texts : List Text} (h : t ∈ texts) :
    t <:+: Text.join separator texts := by
  induction texts with
  | nil => cases h
  | cons first rest ih =>
    cases rest with
    | nil =>
      obtain rfl := List.mem_singleton.mp h
      exact (Text.join_singleton ..) ▸ List.infix_rfl
    | cons second rest =>
      rw [Text.join_cons_cons, List.append_assoc]
      rcases List.mem_cons.mp h with rfl | hrest
      · exact (List.prefix_append ..).isInfix
      · exact (ih hrest).trans ((List.suffix_append ..).trans (List.suffix_append ..)).isInfix

theorem infix_layoutUnion {t : Text} {texts : List Text} (h : t ∈ texts) : t <:+: layoutUnion texts := by
  have hsome : texts.isEmpty = false := List.isEmpty_eq_false_iff.mpr (List.ne_nil_of_mem h)
  rw [layoutUnion, hsome]
  exact infix_join (List.mem_eraseDups.mpr h)

theorem infix_parenthesized (c : Prop) [Decidable c] (t : Text) :
    t <:+: if c then inParentheses t else t := by
  split
  · exact ⟨"(", ")", rfl⟩
  · exact List.infix_rfl

theorem infix_layoutObject {indent : Int} {entry : Text} {entries : List Text} (h : entry ∈ entries) :
    entry <:+: layoutObject indent entries := by
  unfold layoutObject
  split
  · cases h
  · rw [List.mem_singleton.mp h]
    exact ⟨_, _, rfl⟩
  · refine List.IsInfix.trans ?_ ⟨"\x7b\n", indentation indent ++ "\x7d", (List.append_assoc ..).symm⟩
    obtain ⟨before, after, rfl⟩ := List.append_of_mem h
    rw [List.flatMap_append, List.flatMap_cons]
    refine List.IsInfix.trans ?_ (List.suffix_append ..).isInfix
    refine List.IsInfix.trans ?_ (List.prefix_append ..).isInfix
    exact ⟨indentation (indent + 1), ";\n", rfl⟩

end Layout

section Success

variable {indent : Int} {t : Text}

theorem stage_renderArgs {args : List Shape} {arg : Shape} {texts : List Text} (harg : arg ∈ args)
    (h : (renderArgs schema expand indent args).outcome = .ok texts) :
    (renderOver schema expand indent arg).Stage (renderArgs schema expand indent args) ∧
      ∀ u, (renderOver schema expand indent arg).outcome = .ok u → u ∈ texts := by
  induction args generalizing texts with
  | nil => cases harg
  | cons first rest ih =>
    rw [renderArgs] at h ⊢
    obtain ⟨text, htext, hothers⟩ := Traced.outcome_bind_eq_ok.mp h
    obtain ⟨others, htexts, hall⟩ := Traced.outcome_bind_eq_ok.mp hothers
    obtain rfl : text :: others = texts := Except.ok.inj hall
    rcases List.mem_cons.mp harg with rfl | hrest
    · refine ⟨Traced.stage_first h, fun u hu => ?_⟩
      obtain rfl : text = u := Except.ok.inj (htext.symm.trans hu)
      exact List.mem_cons_self ..
    · obtain ⟨hstage, hmem⟩ := ih hrest htexts
      exact ⟨hstage.trans ((Traced.stage_first hothers).trans (Traced.stage_next htext h)),
        fun u hu => List.mem_cons_of_mem _ (hmem u hu)⟩

theorem stage_renderMembers {members : List Member} {member : Member} {texts : List Text}
    (hmember : member ∈ members)
    (h : (renderMembers schema expand indent members).outcome = .ok texts) :
    (renderOver schema expand indent member.shape).Stage
        (renderMembers schema expand indent members) ∧
      ∀ u, (renderOver schema expand indent member.shape).outcome = .ok u →
        memberHead member ++ u ∈ texts := by
  induction members generalizing texts with
  | nil => cases hmember
  | cons first rest ih =>
    obtain ⟨name, shape, optional, readonly⟩ := first
    rw [renderMembers] at h ⊢
    obtain ⟨text, htext, hothers⟩ := Traced.outcome_bind_eq_ok.mp h
    obtain ⟨others, htexts, hall⟩ := Traced.outcome_bind_eq_ok.mp hothers
    obtain rfl := Except.ok.inj hall
    rcases List.mem_cons.mp hmember with rfl | hrest
    · refine ⟨Traced.stage_first h, fun u hu => ?_⟩
      obtain rfl : text = u := Except.ok.inj (htext.symm.trans hu)
      exact List.mem_cons_self ..
    · obtain ⟨hstage, hmem⟩ := ih hrest htexts
      exact ⟨hstage.trans ((Traced.stage_first hothers).trans (Traced.stage_next htext h)),
        fun u hu => List.mem_cons_of_mem _ (hmem u hu)⟩

-- Where a shape is rendered, its arguments are.
theorem shown_arg {arg : Shape} (hsingle : SingleElements shape) (harg : arg ∈ shape.args)
    (h : (renderOver schema expand indent shape).outcome = .ok t) :
    Shown (renderOver schema expand indent arg) (renderOver schema expand indent shape) := by
  cases shape with
  | leaf | object | lookup => cases harg
  | union label args =>
    rw [renderOver] at h ⊢
    obtain ⟨texts, htexts, heq⟩ := Traced.outcome_bind_eq_ok.mp h
    obtain ⟨hstage, hmem⟩ := stage_renderArgs harg htexts
    refine .of_stage (hstage.trans (Traced.stage_first h)) h fun u hu => ?_
    obtain rfl : layoutUnion texts = t := Except.ok.inj heq
    exact infix_layoutUnion (hmem u hu)
  | array label args =>
    cases args with
    | nil => cases harg
    | cons element rest =>
      have hlength := hsingle label _ (.self _)
      obtain rfl : rest = [] := by simpa using hlength
      obtain rfl : arg = element := List.mem_singleton.mp harg
      rw [renderOver] at h ⊢
      obtain ⟨text, htext, heq⟩ := Traced.outcome_bind_eq_ok.mp h
      obtain ⟨resolved, -, heq⟩ := Traced.outcome_bind_eq_ok.mp heq
      refine .of_stage (Traced.stage_first h) h fun u hu => ?_
      obtain rfl : text = u := Except.ok.inj (htext.symm.trans hu)
      obtain rfl := Except.ok.inj heq
      exact (infix_parenthesized ..).trans (List.prefix_append ..).isInfix
  | tuple label args =>
    rw [renderOver] at h ⊢
    obtain ⟨texts, htexts, heq⟩ := Traced.outcome_bind_eq_ok.mp h
    obtain ⟨hstage, hmem⟩ := stage_renderArgs harg htexts
    refine .of_stage (hstage.trans (Traced.stage_first h)) h fun u hu => ?_
    obtain rfl := Except.ok.inj heq
    exact (infix_join (hmem u hu)).trans ⟨"[", "]", rfl⟩
  | generic label args =>
    rw [renderOver] at h ⊢
    obtain ⟨done, hdone, hothers⟩ := Traced.outcome_bind_eq_ok.mp h
    obtain ⟨texts, htexts, heq⟩ := Traced.outcome_bind_eq_ok.mp hothers
    obtain ⟨hstage, hmem⟩ := stage_renderArgs harg htexts
    refine .of_stage (hstage.trans ((Traced.stage_first hothers).trans (Traced.stage_next hdone h))) h
      fun u hu => ?_
    obtain rfl := Except.ok.inj heq
    exact (infix_join (hmem u hu)).trans ⟨label.text.getD "None" ++ "<", ">", rfl⟩

-- Where a shape is rendered, its properties are.
theorem shown_member {member : Member} (hmember : member ∈ shape.members)
    (h : (renderOver schema expand indent shape).outcome = .ok t) :
    Shown (renderOver schema expand (indent + 1) member.shape)
      (renderOver schema expand indent shape) := by
  cases shape with
  | object label members signatures =>
    rw [renderOver] at h ⊢
    obtain ⟨texts, htexts, heq⟩ := Traced.outcome_bind_eq_ok.mp h
    obtain ⟨hstage, hmem⟩ := stage_renderMembers hmember htexts
    refine .of_stage (hstage.trans (Traced.stage_first h)) h fun u hu => ?_
    obtain rfl := Except.ok.inj heq
    exact (List.suffix_append ..).isInfix.trans
      (infix_layoutObject (List.mem_append_left signatures (hmem u hu)))
  | _ => cases hmember

-- Where a shape is rendered, all its parts are.
theorem shown_part (hpart : shape.Part piece) (hsingle : SingleElements shape)
    (h : (renderOver schema expand indent shape).outcome = .ok t) :
    ∃ indent', Shown (renderOver schema expand indent' piece)
      (renderOver schema expand indent shape) := by
  induction hpart generalizing indent t with
  | self => exact ⟨indent, .refl h⟩
  | arg harg hrest ih =>
    have hshown := shown_arg hsingle harg h
    obtain ⟨t', ht'⟩ := hshown.stage.1
    obtain ⟨indent', hinner⟩ := ih (hsingle.part (.arg harg (.self _))) ht'
    exact ⟨indent', hinner.trans hshown⟩
  | member hmember hrest ih =>
    have hshown := shown_member hmember h
    obtain ⟨t', ht'⟩ := hshown.stage.1
    obtain ⟨indent', hinner⟩ := ih (hsingle.part (.member hmember (.self _))) ht'
    exact ⟨indent', hinner.trans hshown⟩

-- A shape that is rendered gives rise to its own notes.
theorem ownNotes_subset (schema : Schema) (expand : List Text → Int → Rendering Text) (indent : Int)
    (shape : Shape) : ownNotes schema shape ⊆ (renderOver schema expand indent shape).notes := by
  cases shape with
  | leaf label => simp [ownNotes]
  | generic label args => simp [ownNotes]
  | lookup label path => cases henum : schema.enumOfPath? path <;> simp [ownNotes, renderOver, henum, Traced.note]
  | _ => simp [ownNotes]

-- The texts that a shape itself brings along, the names of properties left aside.
def ownTexts : Shape → List Text
  | .leaf label => label.text.toList
  | .object _ _ signatures => signatures
  | .generic label _ => label.text.toList
  | _ => []

-- They stand in what the shape is rendered to.
theorem infix_of_mem_ownTexts {own : Text} (hown : own ∈ ownTexts shape)
    (h : (renderOver schema expand indent shape).outcome = .ok t) : own <:+: t := by
  cases shape with
  | leaf label =>
    obtain ⟨text, reference⟩ := label
    obtain rfl : text = some own := by simpa [ownTexts] using hown
    rw [renderOver, noteReference_eq, Traced.bind_ok] at h
    cases own with
    | nil => exact List.nil_infix
    | cons c rest =>
      obtain rfl := Except.ok.inj h
      exact List.infix_rfl
  | object label members signatures =>
    rw [renderOver] at h
    obtain ⟨texts, -, heq⟩ := Traced.outcome_bind_eq_ok.mp h
    obtain rfl := Except.ok.inj heq
    exact infix_layoutObject (List.mem_append_right texts hown)
  | generic label args =>
    obtain ⟨text, reference⟩ := label
    obtain rfl : text = some own := by simpa [ownTexts] using hown
    rw [renderOver] at h
    obtain ⟨-, -, hothers⟩ := Traced.outcome_bind_eq_ok.mp h
    obtain ⟨texts, -, heq⟩ := Traced.outcome_bind_eq_ok.mp hothers
    obtain rfl := Except.ok.inj heq
    exact ⟨[], "<" ++ Text.join ", " texts ++ ">", by simp⟩
  | _ => cases hown

end Success

-- The accesses on the way from a shape to something one comes to from it.
inductive Along (schema : Schema) : List (List Text) → Shape → Shape → Prop
  | part {shape part : Shape} (hpart : shape.Part part) : Along schema [] shape part
  | target {paths : List (List Text)} {shape target part : Shape} {label : Label} {path : List Text}
    (hlookup : shape.Part (.lookup label path)) (htarget : target? schema path = some target)
    (hrest : Along schema paths target part) : Along schema (path :: paths) shape part

namespace Along

variable {paths : List (List Text)}

-- From an access on the way on, the rest of the way leads from its target.
theorem behind {path : List Text} (h : Along schema paths shape piece) (hpath : path ∈ paths) :
    ∃ rest target, path :: rest <:+ paths ∧ target? schema path = some target ∧
      Along schema rest target piece := by
  induction h with
  | part => cases hpath
  | @target others _ target _ _ first _ htarget hrest ih =>
    rcases List.mem_cons.mp hpath with rfl | hothers
    · exact ⟨others, target, List.suffix_refl _, htarget, hrest⟩
    · obtain ⟨rest, found, hsuffix, hfound, halong⟩ := ih hothers
      exact ⟨rest, found, hsuffix.trans (List.suffix_cons ..), hfound, halong⟩

theorem subset_root (h : Along schema paths shape piece) (hshape : shape.lookups ⊆ schema.root.lookups) :
    paths ⊆ schema.root.lookups := by
  induction h with
  | part => exact List.nil_subset _
  | target hlookup htarget _ ih =>
    refine List.cons_subset.mpr ⟨?_, ih (lookups_of_target htarget)⟩
    exact hshape (hlookup.lookups_subset (by simp [Shape.lookups]))

-- A way without repetition is no longer than the depth that rendering has a budget for.
theorem length_le (h : Along schema paths shape piece) (hnodup : paths.Nodup) :
    paths.length ≤ depthBound schema := by
  cases h with
  | part => exact Nat.zero_le _
  | target _ htarget hrest =>
    have hsub := hrest.subset_root (lookups_of_target htarget)
    exact Nat.succ_le_succ ((List.nodup_cons.mp hnodup).2.length_le_of_subset hsub)

end Along

-- A way can be cut short where it comes back to an access.
theorem Within.exists_nodup_along (h : Within schema shape piece) :
    ∃ paths, paths.Nodup ∧ Along schema paths shape piece := by
  induction h with
  | part hpart => exact ⟨[], List.nodup_nil, .part hpart⟩
  | @target _ _ _ _ path hlookup htarget _ ih =>
    obtain ⟨paths, hnodup, halong⟩ := ih
    by_cases hmem : path ∈ paths
    · obtain ⟨rest, target, hsuffix, hfound, hbehind⟩ := halong.behind hmem
      exact ⟨path :: rest, hnodup.sublist hsuffix.sublist, .target hlookup hfound hbehind⟩
    · exact ⟨path :: paths, List.nodup_cons.mpr ⟨hmem, hnodup⟩, .target hlookup htarget halong⟩

theorem SingleElements.target {path : List Text} {target : Shape}
    (hroot : SingleElements schema.root) (htarget : target? schema path = some target) :
    SingleElements target :=
  hroot.part (Schema.part_of_resolve (resolve_of_target htarget))

-- Where a shape is rendered, so is what one comes to without meeting an access that is being resolved.
theorem shown_along {paths resolving : List (List Text)} {budget : Nat} {indent : Int} {t : Text}
    (halong : Along schema paths shape piece) (hnodup : paths.Nodup)
    (hnew : ∀ path ∈ paths, path ∉ resolving) (hbudget : paths.length ≤ budget)
    (hroot : SingleElements schema.root) (hsingle : SingleElements shape)
    (h : (renderWithin schema budget resolving indent shape).outcome = .ok t) :
    ∃ budget' resolving' indent', Shown (renderWithin schema budget' resolving' indent' piece)
      (renderWithin schema budget resolving indent shape) := by
  induction halong generalizing budget resolving indent t with
  | part hpart =>
    rw [renderWithin_eq_renderOver] at h ⊢
    obtain ⟨indent', hshown⟩ := shown_part hpart hsingle h
    exact ⟨budget, resolving, indent', by rwa [renderWithin_eq_renderOver]⟩
  | @target paths _ target _ _ path hlookup htarget _ ih =>
    obtain ⟨left, rfl⟩ : ∃ left, budget = left + 1 := ⟨budget - 1, by simp at hbudget; omega⟩
    have hpath := hnew path (by simp)
    rw [renderWithin_eq_renderOver] at h
    obtain ⟨indent', hshown⟩ := shown_part hlookup hsingle h
    rw [renderOver, enumOfPath?_of_target htarget] at hshown
    simp only [expansion_of_target htarget hpath, ← renderWithin_eq_renderOver] at hshown
    obtain ⟨t', ht'⟩ := hshown.stage.1
    obtain ⟨hfirst, hothers⟩ := List.nodup_cons.mp hnodup
    have hclear : ∀ inner ∈ paths, inner ∉ path :: resolving := by
      intro inner hinner hmem
      rcases List.mem_cons.mp hmem with rfl | hresolving
      · exact hfirst hinner
      · exact hnew inner (by simp [hinner]) hresolving
    obtain ⟨budget', resolving', indent'', hinner⟩ :=
      ih hothers hclear (by simpa using hbudget) (hroot.target htarget) ht'
    exact ⟨budget', resolving', indent'', hinner.trans hshown⟩

-- What one comes to from a shape is rendered, wherever accesses lead back to one another.
theorem shown_within {indent : Int} {t : Text} (hroot : SingleElements schema.root)
    (hsingle : SingleElements shape) (h : (render schema indent shape).outcome = .ok t)
    (hwithin : Within schema shape piece) :
    ∃ budget resolving indent', Shown (renderWithin schema budget resolving indent' piece)
      (render schema indent shape) := by
  obtain ⟨paths, hnodup, halong⟩ := hwithin.exists_nodup_along
  exact shown_along halong hnodup (by simp) (halong.length_le hnodup) hroot hsingle h

-- So its names are noted.
theorem ownNotes_subset_render {indent : Int} {t : Text} (hroot : SingleElements schema.root)
    (hsingle : SingleElements shape) (h : (render schema indent shape).outcome = .ok t)
    (hwithin : Within schema shape piece) :
    ownNotes schema piece ⊆ (render schema indent shape).notes := by
  obtain ⟨budget, resolving, indent', hshown⟩ := shown_within hroot hsingle h hwithin
  rw [renderWithin_eq_renderOver] at hshown
  exact List.Subset.trans (ownNotes_subset ..) hshown.stage.2

-- And its texts are written.
theorem ownTexts_infix_render {indent : Int} {t own : Text} (hroot : SingleElements schema.root)
    (hsingle : SingleElements shape) (h : (render schema indent shape).outcome = .ok t)
    (hwithin : Within schema shape piece) (hown : own ∈ ownTexts piece) : own <:+: t := by
  obtain ⟨budget, resolving, indent', hshown⟩ := shown_within hroot hsingle h hwithin
  obtain ⟨u, hu⟩ := hshown.stage.1
  have hinner := hshown.infix_of u t hu h
  rw [renderWithin_eq_renderOver] at hu
  exact (infix_of_mem_ownTexts hown hu).trans hinner

end HookGen.Render
