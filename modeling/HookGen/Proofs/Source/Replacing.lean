import HookGen.Proofs.Source.Keeping

/-!
What groups of brackets, names and other short runs of tokens are does not depend on what stands far behind them: the
same tokens are read in front of anything that begins alike, or that no type goes on with.
-/

namespace HookGen.Source

variable {token : Token} {ts us front rest rest' : List Token} {budget : Nat} {context : Context}

section Replacing

-- The marks that no type goes on with.
def stopMarks : List Text := [";", ")"].map Text.ofString

-- A token that no type goes on with: the end of an alias or of parentheses, or what begins an exported statement on a
-- line of its own.
def Token.Stops (token : Token) : Prop :=
  token.kind = .finish ∨ (token.kind = .mark ∧ token.text ∈ stopMarks) ∨ token.isWord "export" ∧ token.startsLine

-- What can take the place of a rest behind some tokens. The word `infer` would take the next word for its own.
structure Replaces (ts rest rest' : List Token) : Prop where
  point : startsWithMark "." rest' = false
  head : (∃ token us us', rest = token :: us ∧ rest' = token :: us') ∨
    (∃ token us, rest' = token :: us ∧ token.Stops) ∧
      (startsWithKind .word rest' = startsWithKind .word rest ∨ ∀ token ∈ ts.getLast?, token.isWord "infer" = false)

theorem Token.Stops.not_mark {mark : Text} (h : token.Stops) (hmark : mark ∉ stopMarks) :
    token.isMark mark = false := by
  obtain hfinish | hend | hword := h
  · simp [isMark, hfinish]
  · have hother : token.text ≠ mark := fun heq => hmark (heq ▸ hend.2)
    simp [isMark, hother]
  · have hkind : token.kind = .word := by
      have hboth : token.kind = .word ∧ token.text = "export" := Token.isWord_iff.mp hword.1
      exact hboth.1
    simp [isMark, hkind]

theorem Token.Stops.not_word {word : Text} (h : token.Stops) (hword : word ≠ "export") : token.isWord word = false := by
  obtain hfinish | hend | hexport := h
  · simp [isWord, hfinish]
  · simp [isWord, hend.1]
  · have hboth : token.kind = .word ∧ token.text = "export" := Token.isWord_iff.mp hexport.1
    simp [isWord, hboth.2, hword.symm]

-- It is no word on the same line.
theorem Token.Stops.startsLine (h : token.Stops) (hkind : token.kind = .word) : token.startsLine := by
  obtain hfinish | hend | hexport := h
  · rw [hkind] at hfinish
    cases hfinish
  · rw [hkind] at hend
    cases hend.1
  · exact hexport.2

namespace Replaces

theorem cons (h : token.isMark "." = false) : Replaces ts (token :: us) (token :: rest) :=
  ⟨h, .inl ⟨token, us, rest, rfl, rfl⟩⟩

theorem of_append (front : List Token) (h : Replaces (front ++ ts) rest rest') : Replaces ts rest rest' := by
  refine ⟨h.point, h.head.imp_right fun hstops => ⟨hstops.1, hstops.2.imp_right fun hlast token hmem => hlast token ?_⟩⟩
  rw [List.getLast?_append]
  simp [Option.mem_def.mp hmem]

theorem drop (n : Nat) (h : Replaces ts rest rest') : Replaces (ts.drop n) rest rest' :=
  .of_append (ts.take n) (by rwa [List.take_append_drop])

-- Tokens that were read already and those that follow them.
theorem before (h : Replaces (front ++ ts) rest rest') (hpoint : startsWithMark "." ts = false) :
    Replaces front (ts ++ rest) (ts ++ rest') := by
  cases ts with
  | nil => simpa using h
  | cons token ts => exact .cons hpoint

-- What the rest does not begin with, that which replaces it does not begin with if it cannot be gone on with.
theorem not {p : Token → Bool} (h : Replaces ts rest rest') (hp : ∀ token, token.Stops → p token = false)
    (hrest : rest.head?.any p = false) : rest'.head?.any p = false := by
  obtain ⟨token, us, us', rfl, rfl⟩ | ⟨⟨token, us, rfl, hstops⟩, -⟩ := h.head
  · exact hrest
  · exact hp token hstops

theorem not_mark {mark : Text} (h : Replaces ts rest rest') (hmark : mark ∉ stopMarks)
    (hrest : startsWithMark mark rest = false) : startsWithMark mark rest' = false :=
  h.not (fun _ hstops => hstops.not_mark hmark) hrest

theorem not_word {word : Text} (h : Replaces ts rest rest') (hword : word ≠ "export")
    (hrest : startsWithWord word rest = false) : startsWithWord word rest' = false :=
  h.not (fun _ hstops => hstops.not_word hword) hrest

end Replaces

-- What can take the place of a rest behind a type that is complete before any brackets of arrays.
structure Borders (rest rest' : List Token) : Prop where
  point : startsWithMark "." rest' = false
  angle : startsWithMark "<" rest = false → startsWithMark "<" rest' = false
  symbol : startsWithWord "symbol" rest = false → startsWithWord "symbol" rest' = false

theorem Borders.cons (h : token.isMark "." = false) : Borders (token :: us) (token :: rest) := ⟨h, id, id⟩

theorem Replaces.borders (h : Replaces ts rest rest') : Borders rest rest' :=
  ⟨h.point, h.not_mark (by decide), h.not_word (by decide)⟩

-- A tail of some tokens and a rest, with the rest at its end.
theorem exists_split (ts : List Token) (h : us <:+ ts ++ rest) (hrest : rest <:+ us) :
    ∃ front back, ts = front ++ back ∧ us = back ++ rest := by
  obtain ⟨front, hfront⟩ := h
  obtain ⟨back, rfl⟩ := hrest
  exact ⟨front, back, (List.append_left_inj rest).mp (by simpa using hfront.symm), rfl⟩

theorem eq_nil_of_append_eq (ts : List Token) (h : ts ++ rest = rest) : ts = [] :=
  List.length_eq_zero_iff.mp (by simpa using congrArg List.length h)

end Replacing

section Groups

variable {angles : Bool} {closing : Text} {closings outer : List Text}

theorem length_lt_of_skipOpen (h : skipOpen angles (closing :: outer) ts = some rest) : rest.length < ts.length := by
  cases ts with
  | nil => simp [skipOpen] at h
  | cons token ts =>
    rw [skipOpen] at h
    repeat' split at h
    · exact Nat.lt_succ_of_le (skipOpen_suffix h).length_le
    · cases h
    · exact Nat.lt_succ_of_le (skipOpen_suffix h).length_le
    · exact Nat.lt_succ_of_le (skipOpen_suffix h).length_le

-- Brackets that are closed are closed whatever stands behind them.
theorem skipOpen_replace (h : skipOpen angles closings (ts ++ rest) = some rest) (rest' : List Token) :
    skipOpen angles closings (ts ++ rest') = some rest' := by
  induction ts generalizing closings with
  | nil =>
    cases closings with
    | nil => simp [skipOpen]
    | cons => exact absurd (length_lt_of_skipOpen h) (Nat.lt_irrefl _)
  | cons token ts ih =>
    cases closings with
    | nil => exact absurd (eq_nil_of_append_eq (token :: ts) (Option.some.inj h)) (List.cons_ne_nil _ _)
    | cons closing outer =>
      rw [List.cons_append, skipOpen] at h ⊢
      split
      · rename_i hclosing
        rw [if_pos hclosing] at h
        exact ih h
      · rename_i hclosing
        rw [if_neg hclosing] at h
        split
        · rename_i hother
          rw [if_pos hother] at h
          cases h
        · rename_i hother
          rw [if_neg hother] at h
          cases hinner : closingMark? angles token with
          | some inner =>
            rw [hinner] at h
            exact ih h
          | none =>
            rw [hinner] at h
            exact ih h

theorem skipGroup_replace (ts : List Token) (h : skipGroup angles (ts ++ rest) = some rest) (rest' : List Token) :
    skipGroup angles (ts ++ rest') = some rest' := by
  cases ts with
  | nil =>
    cases rest with
    | nil => simp [skipGroup] at h
    | cons token rest =>
      rw [List.nil_append, skipGroup] at h
      split at h
      · exact absurd (length_lt_of_skipOpen h) (by simp)
      · cases h
  | cons token ts =>
    rw [List.cons_append, skipGroup] at h ⊢
    split
    · rename_i closing hclosing
      rw [hclosing] at h
      exact skipOpen_replace h rest'
    · rename_i hclosing
      rw [hclosing] at h
      cases h

theorem skipAngles_replace (h : skipAngles (ts ++ rest) = some rest) (hrest : Borders rest rest') :
    skipAngles (ts ++ rest') = some rest' := by
  cases ts with
  | nil =>
    rw [List.nil_append, skipAngles] at h ⊢
    split at h
    · have hgroup := skipGroup_replace [] h []
      simp [skipGroup] at hgroup
    · rename_i hangle
      rw [if_neg (by simpa using hrest.angle (by simpa using hangle))]
  | cons token ts =>
    rw [List.cons_append, skipAngles, startsWithMark_cons] at h ⊢
    split at h
    · rename_i hangle
      rw [if_pos hangle]
      exact skipGroup_replace (token :: ts) h rest'
    · exact absurd (eq_nil_of_append_eq (token :: ts) (Option.some.inj h)) (List.cons_ne_nil _ _)

-- A group begins with its opening mark.
theorem not_point_of_skipGroup (h : skipGroup angles ts = some rest) : startsWithMark "." ts = false := by
  cases ts with
  | nil => rfl
  | cons token ts =>
    by_contra hpoint
    have hboth : token.kind = .mark ∧ token.text = "." := Token.isMark_iff.mp (eq_true_of_ne_false hpoint)
    simp [skipGroup, closingMark?, hboth, Text.ofString, Text.ofChars] at h

theorem skipParameters_replace (h : skipParameters (ts ++ rest) = some rest) (rest' : List Token) :
    skipParameters (ts ++ rest') = some rest' := by
  simp only [skipParameters, Option.bind_eq_bind, Option.bind_eq_some_iff] at h ⊢
  obtain ⟨middle, hangles, hgroup⟩ := h
  split at hgroup
  · rename_i hopen
    obtain ⟨front, back, rfl, rfl⟩ := exists_split _ (Spans.skipAngles hangles).suffix (skipGroup_suffix hgroup)
    have hback : back ≠ [] := by
      rintro rfl
      have hempty := skipGroup_replace [] hgroup []
      simp [skipGroup] at hempty
    obtain ⟨token, back, rfl⟩ := List.exists_cons_of_ne_nil hback
    have hpoint := not_point_of_skipGroup hgroup
    rw [List.append_assoc] at hangles ⊢
    refine ⟨token :: back ++ rest', skipAngles_replace hangles (.cons hpoint), ?_⟩
    rw [if_pos (by simpa using hopen)]
    exact skipGroup_replace _ hgroup rest'
  · cases hgroup

end Groups

section Names

theorem spanDots_of_not_point (h : startsWithMark "." ts = false) : spanDots ts = ([], ts) := by
  match ts with
  | [] => rfl
  | [_] => rfl
  | point :: word :: ts =>
    rw [startsWithMark_cons] at h
    rw [spanDots, if_neg (by simp [h])]

-- The points of a name, each with its word.
theorem spanDots_replace {ts : List Token} (h : spanDots (ts ++ rest) = (ts, rest))
    (hpoint : startsWithMark "." rest' = false) : spanDots (ts ++ rest') = (ts, rest') := by
  match ts with
  | [] => exact spanDots_of_not_point hpoint
  | [point] =>
    cases rest with
    | nil => cases h
    | cons word rest =>
      rw [List.cons_append, List.nil_append, spanDots] at h
      split at h <;> simp at h
  | point :: word :: ts =>
    rw [List.cons_append, List.cons_append, spanDots] at h ⊢
    split at h
    · rename_i hboth
      obtain ⟨hts, hrest⟩ := Prod.mk.inj h
      rw [if_pos hboth, spanDots_replace (Prod.ext (List.cons.inj (List.cons.inj hts).2).2 hrest) hpoint]
    · simp at h

theorem skipDots_replace (h : skipDots (ts ++ rest) = rest) (hpoint : startsWithMark "." rest' = false) :
    skipDots (ts ++ rest') = rest' := by
  have happend := spanDots_append (ts ++ rest)
  rw [skipDots] at h ⊢
  rw [h] at happend
  rw [spanDots_replace (Prod.ext (List.append_cancel_right happend) h) hpoint]

-- A dotted name and type arguments.
theorem skipAngles_skipDots_replace (h : skipAngles (skipDots (ts ++ rest)) = some rest) (hrest : Borders rest rest') :
    skipAngles (skipDots (ts ++ rest')) = some rest' := by
  obtain ⟨dots, us, rfl, hdots⟩ := exists_split _ (Spans.skipDots (ts ++ rest)).suffix (Spans.skipAngles h).suffix
  have hpoint : startsWithMark "." (us ++ rest') = false := by
    cases us with
    | nil => exact hrest.point
    | cons token us =>
      rw [hdots] at h
      by_contra hpoint
      have hangle : token.isMark "<" = false := Token.not_isMark (by simpa using hpoint) (by decide)
      rw [skipAngles, if_neg (by simp [hangle])] at h
      exact absurd (eq_nil_of_append_eq (token :: us) (Option.some.inj h)) (List.cons_ne_nil _ _)
  rw [hdots] at h
  rw [List.append_assoc] at hdots ⊢
  rw [skipDots_replace hdots hpoint]
  exact skipAngles_replace h hrest

theorem skipQueried_replace (h : skipQueried (ts ++ rest) = some rest) (hrest : Borders rest rest') :
    skipQueried (ts ++ rest') = some rest' := by
  obtain ⟨token, ts, rfl⟩ : ∃ token us, ts = token :: us := by
    refine List.exists_cons_of_ne_nil ?_
    rintro rfl
    exact absurd (Takes.skipQueried h).shorter (Nat.lt_irrefl _)
  rw [List.cons_append, skipQueried] at h ⊢
  split
  · rename_i himport
    rw [if_pos himport] at h
    obtain ⟨after, hgroup, h⟩ := Option.bind_eq_some_iff.mp h
    obtain ⟨group, us, rfl, rfl⟩ := exists_split _ (skipGroup_suffix hgroup)
      ((Spans.skipAngles h).suffix.trans (Spans.skipDots after).suffix)
    rw [List.append_assoc] at hgroup ⊢
    rw [skipGroup_replace _ hgroup, Option.bind_some]
    exact skipAngles_skipDots_replace h hrest
  · rename_i himport
    rw [if_neg himport] at h
    split
    · rename_i hword
      rw [if_pos hword] at h
      exact skipAngles_skipDots_replace h hrest
    · rename_i hword
      rw [if_neg hword] at h
      cases h

-- No name goes on with it.
theorem Token.Stops.not_startsName (h : token.Stops) : (startsName token && !token.startsLine) = false := by
  by_cases hkind : token.kind = .word
  · simp [h.startsLine hkind]
  · have hbracket := h.not_mark (show ("[" : Text) ∉ stopMarks by decide)
    obtain hfinish | hend | hexport := h
    · simp [startsName, hfinish, hbracket]
    · simp [startsName, hend.1, hbracket]
    · simp [isWord, hkind] at hexport

theorem usesModifier_replace {words : List Text} (h : usesModifier words (token :: (ts ++ rest)) = false)
    (hrest : Replaces ts rest rest') : usesModifier words (token :: (ts ++ rest')) = false := by
  cases ts with
  | cons => exact h
  | nil =>
    have htest (us : List Token) : usesModifier words (token :: us) =
        (token.kind == .word && words.contains token.text &&
        us.head?.any fun next => startsName next && !next.startsLine) := by
      cases us <;> simp [usesModifier, Bool.and_assoc]
    rw [List.nil_append, htest] at h ⊢
    cases hword : token.kind == .word && words.contains token.text with
    | false => rfl
    | true =>
      rw [hword, Bool.true_and] at h
      exact hrest.not (fun _ hstops => hstops.not_startsName) h

-- Modifiers that something else follows.
theorem dropModifiers_replace {readonly found : Bool} (h : dropModifiers readonly (ts ++ rest) = (found, us ++ rest))
    (hus : us ≠ []) (hrest : Replaces ts rest rest') :
    dropModifiers readonly (ts ++ rest') = (found, us ++ rest') := by
  induction ts generalizing readonly with
  | nil =>
    have hlength := (Spans.dropModifiers readonly rest).suffix.length_le
    rw [List.nil_append] at h
    rw [h, List.length_append] at hlength
    exact absurd (List.length_eq_zero_iff.mp (by omega)) hus
  | cons token ts ih =>
    have hrest' : Replaces ts rest rest' := .of_append [token] hrest
    rw [List.cons_append, dropModifiers] at h ⊢
    split at h
    · rename_i huses
      cases ts with
      | nil =>
        have hlength := (Spans.dropModifiers (readonly || token.isWord "readonly") rest).suffix.length_le
        rw [List.nil_append] at h
        rw [h, List.length_append] at hlength
        exact absurd (List.length_eq_zero_iff.mp (by omega)) hus
      | cons next ts =>
        rw [if_pos (by simpa [usesModifier] using huses)]
        exact ih h hrest'
    · rename_i huses
      obtain ⟨rfl, hus'⟩ := Prod.mk.inj h
      obtain rfl : token :: ts = us := List.append_cancel_right (by simpa using hus')
      rw [if_neg (by simp [usesModifier_replace (by simpa using huses) hrest'])]
      rfl

-- Words in front of a method's name.
theorem dropAccessors_replace {accessor found : Bool} (h : dropAccessors accessor (ts ++ rest) = (found, us ++ rest))
    (hus : us ≠ []) (hrest : Replaces ts rest rest') :
    dropAccessors accessor (ts ++ rest') = (found, us ++ rest') := by
  induction ts generalizing accessor with
  | nil =>
    have hlength := (Spans.dropAccessors accessor rest).suffix.length_le
    rw [List.nil_append] at h
    rw [h, List.length_append] at hlength
    exact absurd (List.length_eq_zero_iff.mp (by omega)) hus
  | cons token ts ih =>
    have hrest' : Replaces ts rest rest' := .of_append [token] hrest
    rw [List.cons_append, dropAccessors] at h ⊢
    split at h
    · rename_i huses
      cases ts with
      | nil =>
        have hlength := (Spans.dropAccessors true rest).suffix.length_le
        rw [List.nil_append] at h
        rw [h, List.length_append] at hlength
        exact absurd (List.length_eq_zero_iff.mp (by omega)) hus
      | cons next ts =>
        rw [if_pos (by simpa [usesModifier] using huses)]
        exact ih h hrest'
    · rename_i huses
      rw [if_neg (by simp [usesModifier_replace (by simpa using huses) hrest'])]
      split at h
      · rename_i hstar
        obtain ⟨rfl, hus'⟩ := Prod.mk.inj h
        obtain rfl := List.append_cancel_right hus'
        rw [if_pos hstar]
      · rename_i hstar
        obtain ⟨rfl, hus'⟩ := Prod.mk.inj h
        obtain rfl : token :: ts = us := List.append_cancel_right (by simpa using hus')
        rw [if_neg hstar]
        rfl

theorem readName_replace {name : List Token} (h : readName (ts ++ rest) = some (name, rest)) (rest' : List Token) :
    readName (ts ++ rest') = some (name, rest') := by
  obtain ⟨token, ts, rfl⟩ : ∃ token us, ts = token :: us := by
    refine List.exists_cons_of_ne_nil ?_
    rintro rfl
    exact absurd (Takes.readName h).shorter (Nat.lt_irrefl _)
  rw [List.cons_append, readName] at h ⊢
  split at h
  · rename_i hbracket
    obtain ⟨after, hgroup, h⟩ := Option.map_eq_some_iff.mp h
    obtain ⟨hname, rfl⟩ := Prod.mk.inj h
    have hgroup' := skipGroup_replace (token :: ts) hgroup rest'
    rw [List.cons_append] at hgroup'
    rw [if_pos hbracket, hgroup', Option.map_some, ← hname, ← List.cons_append, ← List.cons_append,
      consumed_append_self, consumed_append_self]
  · rename_i hbracket
    rw [if_neg hbracket]
    split at h
    · rename_i hname
      obtain ⟨rfl, hts⟩ := Prod.mk.inj (Option.some.inj h)
      obtain rfl := eq_nil_of_append_eq _ hts
      rw [if_pos hname]
      rfl
    · cases h

theorem not_startsIndexSignature (h : token.isMark "[" = false) (ts : List Token) :
    startsIndexSignature (token :: ts) = false := by
  obtain - | ⟨second, - | ⟨third, ts⟩⟩ := ts
  · rfl
  · rfl
  · simp [startsIndexSignature, h]

-- An index signature shows in its bracket, which is closed.
theorem startsIndexSignature_replace (hts : ts ≠ []) (rest' : List Token)
    (h : startsWithMark "[" ts → ∃ after, skipGroup false (ts ++ rest) = some after ∧ rest <:+ after) :
    startsIndexSignature (ts ++ rest') = startsIndexSignature (ts ++ rest) := by
  have hshort {ts : List Token} (hclosed : skipOpen false ["]"] rest = some ts) : ¬ rest <:+ ts := fun hsuffix =>
    absurd (length_lt_of_skipOpen hclosed) (Nat.not_lt_of_le hsuffix.length_le)
  obtain - | ⟨bracket, - | ⟨name, - | ⟨next, ts⟩⟩⟩ := ts
  · exact absurd rfl hts
  · have hbracket : bracket.isMark "[" = false := by
      by_contra hopen
      have hboth : bracket.kind = .mark ∧ bracket.text = "[" := Token.isMark_iff.mp (eq_true_of_ne_false hopen)
      obtain ⟨after, hgroup, hsuffix⟩ := h (by simpa using hopen)
      rw [List.cons_append, skipGroup] at hgroup
      simp only [closingMark?, hboth] at hgroup
      exact hshort hgroup hsuffix
    rw [List.singleton_append, List.singleton_append, not_startsIndexSignature hbracket,
        not_startsIndexSignature hbracket]
  · have hname : (bracket.isMark "[" && name.kind == .word) = false := by
      by_contra hopen
      simp only [Bool.not_eq_false, Bool.and_eq_true, beq_iff_eq] at hopen
      have hboth : bracket.kind = .mark ∧ bracket.text = "[" := Token.isMark_iff.mp hopen.1
      obtain ⟨after, hgroup, hsuffix⟩ := h (by simpa using hopen.1)
      rw [List.cons_append, skipGroup] at hgroup
      simp only [closingMark?, hboth] at hgroup
      have hplain : name.IsPlain := Token.isPlain_of_kind (by simp [hopen.2])
      have hclosed := (skipOpen_cons_of_isPlain (by decide) hplain).symm.trans hgroup
      exact hshort hclosed hsuffix
    have hnone (us : List Token) : startsIndexSignature ([bracket, name] ++ us) = false := by
      cases us with
      | nil => rfl
      | cons next us => simp [startsIndexSignature, hname]
    rw [hnone, hnone]
  · rfl

theorem expectMark_replace {mark : Text} (h : expectMark mark (ts ++ rest) = some rest) (rest' : List Token) :
    expectMark mark (ts ++ rest') = some rest' := by
  obtain ⟨token, hts, hmark⟩ := exists_of_expectMark h
  obtain rfl : ts = [token] := List.append_cancel_right (by simpa using hts)
  simp [expectMark, hmark]

-- The name of a tuple element, with its colon.
theorem skipElementName_replace (h : skipElementName (ts ++ rest) = some rest) (rest' : List Token) :
    skipElementName (ts ++ rest') = some rest' := by
  match ts with
  | [] => exact absurd (Takes.elementName h).shorter (Nat.lt_irrefl _)
  | [name] =>
    cases rest with
    | nil => cases h
    | cons colon rest =>
      rw [List.cons_append, List.nil_append, skipElementName] at h
      split at h
      · cases h
      split at h
      · exact absurd (eq_nil_of_append_eq [colon] (Option.some.inj h).symm) (by simp)
      split at h
      · exact absurd (Takes.expectMark (by decide) h).shorter (by simp)
      · cases h
  | name :: colon :: ts =>
    rw [List.cons_append, List.cons_append, skipElementName] at h ⊢
    split at h
    · cases h
    rename_i hname
    rw [if_neg hname]
    split at h
    · rename_i hcolon
      obtain rfl := eq_nil_of_append_eq _ (Option.some.inj h)
      rw [if_pos hcolon]
      rfl
    rename_i hcolon
    rw [if_neg hcolon]
    split at h
    · rename_i hquestion
      rw [if_pos hquestion]
      exact expectMark_replace h rest'
    · cases h

-- A type without a name, with a question mark behind it or without.
theorem skipElementName_none (h : skipElementName (ts ++ rest) = none) (hts : ts ≠ [])
    (hquestion : ts.length = 1 → startsWithMark "?" rest = false) (hrest : Replaces ts rest rest') :
    skipElementName (ts ++ rest') = none := by
  match ts with
  | [] => exact absurd rfl hts
  | [name] =>
    cases rest with
    | nil =>
      obtain ⟨_, _, _, hnil, -⟩ | ⟨⟨token, us, rfl, hstops⟩, -⟩ := hrest.head
      · cases hnil
      · simp [skipElementName, hstops.not_mark (show (":" : Text) ∉ stopMarks by decide),
          hstops.not_mark (show ("?" : Text) ∉ stopMarks by decide)]
    | cons colon rest =>
      have hquestion' := hrest.not_mark (by decide) (hquestion rfl)
      have hcolon' (hname : name.kind = .word) : startsWithMark ":" rest' = false := by
        refine hrest.not_mark (by decide) ?_
        by_contra hcolon
        simp only [startsWithMark_cons, Bool.not_eq_false] at hcolon
        simp [skipElementName, hname, hcolon] at h
      cases rest' with
      | nil => rfl
      | cons token us =>
        rw [startsWithMark_cons] at hquestion'
        by_cases hname : name.kind = .word
        · have hcolon := hcolon' hname
          rw [startsWithMark_cons] at hcolon
          simp [skipElementName, hquestion', hcolon]
        · simp [skipElementName, hname]
  | [name, colon] =>
    rw [List.cons_append, List.cons_append, skipElementName] at h ⊢
    split at h
    · rename_i hname
      rw [if_pos hname]
    rename_i hname
    rw [if_neg hname]
    split at h
    · cases h
    rename_i hcolon
    rw [if_neg hcolon]
    split at h
    · rename_i hmark
      rw [if_pos hmark]
      have hother := hrest.not_mark (show (":" : Text) ∉ stopMarks by decide) (by
        by_contra hother
        cases rest with
        | nil => cases hother rfl
        | cons token rest => simp_all [expectMark])
      cases rest' with
      | nil => rfl
      | cons token us =>
        rw [startsWithMark_cons] at hother
        simp [expectMark, hother]
    · rename_i hmark
      rw [if_neg hmark]
  | name :: colon :: third :: ts =>
    rw [List.cons_append, List.cons_append, skipElementName] at h ⊢
    split at h
    · rename_i hname
      rw [if_pos hname]
    rename_i hname
    rw [if_neg hname]
    split at h
    · cases h
    rename_i hcolon
    rw [if_neg hcolon]
    split at h
    · rename_i hmark
      rw [if_pos hmark]
      rw [List.cons_append, expectMark] at h ⊢
      split at h
      · cases h
      · rename_i hother
        rw [if_neg hother]
    · rename_i hmark
      rw [if_neg hmark]

end Names

end HookGen.Source
