import HookGen.Proofs.Source.Following
import Mathlib.Data.List.Infix

/-!
How far the parsers read: up to a tail of the tokens, and every bracket that they read is closed in what they
read.
-/

namespace HookGen.Source

variable {token : Token} {tokens middle rest : List Token} {budget : Nat} {context : Context}

section Brackets

-- The marks that close brackets.
def closers : List Text := [")", "]", "\x7d"].map Text.ofString

-- A token that neither opens nor closes a bracket.
structure Token.IsPlain (token : Token) : Prop where
  closes : isClosingMark false token = false
  opens : closingMark? false token = none

-- Tokens up to a tail in which all brackets are closed.
structure Spans (tokens rest : List Token) : Prop where
  suffix : rest <:+ tokens
  balanced : ∀ closing ∈ closers, ∀ outer,
    skipOpen false (closing :: outer) tokens = skipOpen false (closing :: outer) rest

-- Tokens up to the mark that closes the bracket in front of them.
structure Closes (closing : Text) (tokens rest : List Token) : Prop where
  suffix : rest <:+ tokens
  closed : ∀ outer, skipOpen false (closing :: outer) tokens = skipOpen false outer rest

theorem Token.isPlain_of_kind (h : token.kind ≠ .mark) : token.IsPlain where
  closes := by simp [isClosingMark, isMark, h]
  opens := by simp [closingMark?, h]

theorem Token.isPlain_of_isMark {mark : Text} (h : token.isMark mark)
    (hmark : mark ∉ ["(", "[", "\x7b", ")", "]", "\x7d"].map Text.ofString) : token.IsPlain := by
  have hboth : token.kind = .mark ∧ token.text = mark := Token.isMark_iff.mp h
  simp only [List.map_cons, List.map_nil, List.mem_cons, List.not_mem_nil, or_false, not_or] at hmark
  constructor
  · simp [isClosingMark, isMark, hboth, hmark]
  · simp [closingMark?, hboth, hmark]

-- A mark that closes a bracket does nothing else.
theorem closingMark?_of_closer {closing : Text} (hclosing : closing ∈ closers) (h : token.isMark closing) :
    closingMark? false token = none ∧ isClosingMark false token := by
  have hboth : token.kind = .mark ∧ token.text = closing := Token.isMark_iff.mp h
  simp only [closers, List.map_cons, List.map_nil, List.mem_cons, List.not_mem_nil, or_false] at hclosing
  rcases hclosing with rfl | rfl | rfl <;> constructor <;>
    simp [closingMark?, isClosingMark, Token.isMark, hboth, Text.ofString, Text.ofChars]

-- An opening mark is told by the mark that closes it.
theorem closingMark?_mem {inner : Text} (h : closingMark? false token = some inner) : inner ∈ closers := by
  unfold closingMark? at h
  split at h
  · cases h
  · repeat' split at h
    all_goals simp_all [closers]

theorem skipOpen_cons_of_isPlain {closing : Text} {outer : List Text} (hclosing : closing ∈ closers)
    (h : token.IsPlain) :
    skipOpen false (closing :: outer) (token :: rest) = skipOpen false (closing :: outer) rest := by
  have hother : token.isMark closing = false := by
    by_contra hmark
    have hcloses := (closingMark?_of_closer hclosing (by simpa using hmark)).2
    rw [h.closes] at hcloses
    cases hcloses
  rw [skipOpen, hother, h.closes, h.opens]
  rfl

theorem skipOpen_cons_of_closer {closing : Text} {outer : List Text} (h : token.isMark closing) :
    skipOpen false (closing :: outer) (token :: rest) = skipOpen false outer rest := by
  rw [skipOpen, if_pos h]

theorem skipOpen_cons_of_opener {closing inner : Text} {outer : List Text} (hclosing : closing ∈ closers)
    (h : closingMark? false token = some inner) :
    skipOpen false (closing :: outer) (token :: rest) = skipOpen false (inner :: closing :: outer) rest := by
  have hother : token.isMark closing = false := by
    by_contra hmark
    rw [(closingMark?_of_closer hclosing (by simpa using hmark)).1] at h
    cases h
  have hopens : isClosingMark false token = false := by
    by_contra hcloses
    simp only [isClosingMark, Bool.not_eq_false, Bool.or_eq_true, Bool.false_and, Bool.false_eq_true, or_false]
        at hcloses
    rcases hcloses with (hmark | hmark) | hmark
    all_goals
      rw [(closingMark?_of_closer (by decide) hmark).1] at h
      cases h
  rw [skipOpen, hother, hopens, h]
  rfl

-- What is skipped inside brackets is skipped as well if more are open around them.
theorem skipOpen_append {angles : Bool} {closings : List Text} (outer : List Text)
    (h : skipOpen angles closings tokens = some rest) :
    skipOpen angles (closings ++ outer) tokens = skipOpen angles outer rest := by
  induction closings, tokens using skipOpen.induct angles with
  | case1 tokens =>
    rw [skipOpen] at h
    cases h
    rfl
  | case2 closing others => simp [skipOpen] at h
  | case3 closing others token tokens hclosing ih =>
    rw [skipOpen, if_pos hclosing] at h
    rw [List.cons_append, skipOpen, if_pos hclosing, ih h]
  | case4 closing others token tokens hclosing hother =>
    rw [skipOpen, if_neg hclosing, if_pos hother] at h
    cases h
  | case5 closing others token tokens hclosing hother inner hinner ih =>
    rw [skipOpen, if_neg hclosing, if_neg hother, hinner] at h
    rw [List.cons_append, skipOpen, if_neg hclosing, if_neg hother, hinner]
    exact ih h
  | case6 closing others token tokens hclosing hother hinner ih =>
    rw [skipOpen, if_neg hclosing, if_neg hother, hinner] at h
    rw [List.cons_append, skipOpen, if_neg hclosing, if_neg hother, hinner]
    exact ih h

theorem closingMark?_angles (token : Token) :
    closingMark? true token = if token.isMark "<" then some (Text.ofString ">") else closingMark? false token := by
  by_cases hkind : token.kind = .mark
  · by_cases htext : token.text = "<"
    · simp [closingMark?, Token.isMark, hkind, htext, Text.ofString, Text.ofChars]
    · simp [closingMark?, Token.isMark, hkind, htext]
  · simp [closingMark?, Token.isMark, hkind]

theorem isClosingMark_of_angles (h : isClosingMark true token = false) : isClosingMark false token = false := by
  simp only [isClosingMark, Bool.or_eq_false_iff, Bool.true_and] at h
  simp [isClosingMark, h.1]

-- Where angle brackets count, the other brackets are closed inside them.
theorem skipOpen_of_angles {closings : List Text}
    (hclosings : ∀ closing ∈ closings, closing = ">" ∨ closing ∈ closers)
    (h : skipOpen true closings tokens = some rest) {closing : Text} (hclosing : closing ∈ closers)
    (outer : List Text) :
    skipOpen false (closings.filter (· ∈ closers) ++ closing :: outer) tokens =
      skipOpen false (closing :: outer) rest := by
  -- Some bracket is open all the time, be it the one around them.
  have htop (others : List Text) : ∃ top below,
      others.filter (· ∈ closers) ++ closing :: outer = top :: below ∧ top ∈ closers := by
    cases hfilter : others.filter (· ∈ closers) with
    | nil => exact ⟨closing, outer, rfl, hclosing⟩
    | cons top below =>
      have hmem : top ∈ others.filter (· ∈ closers) := hfilter ▸ List.mem_cons_self ..
      exact ⟨top, below ++ closing :: outer, rfl, by simpa using (List.mem_filter.mp hmem).2⟩
  induction closings, tokens using skipOpen.induct true with
  | case1 tokens =>
    rw [skipOpen] at h
    cases h
    rfl
  | case2 closing others => simp [skipOpen] at h
  | case3 first others token tokens hfirst ih =>
    rw [skipOpen, if_pos hfirst] at h
    obtain ⟨hhead, hothers⟩ := List.forall_mem_cons.mp hclosings
    rw [← ih hothers h]
    rcases hhead with rfl | hmem
    · obtain ⟨top, below, heq, hcloser⟩ := htop others
      rw [List.filter_cons_of_neg (by decide), heq]
      exact skipOpen_cons_of_isPlain hcloser (Token.isPlain_of_isMark hfirst (by decide))
    · rw [List.filter_cons_of_pos (by simpa using hmem), List.cons_append]
      exact skipOpen_cons_of_closer hfirst
  | case4 first others token tokens hfirst hother =>
    rw [skipOpen, if_neg hfirst, if_pos hother] at h
    cases h
  | case5 first others token tokens hfirst hother inner hinner ih =>
    rw [skipOpen, if_neg hfirst, if_neg hother, hinner] at h
    rw [closingMark?_angles] at hinner
    split at hinner
    · rename_i hangle
      obtain rfl := Option.some.inj hinner
      have hangles : Text.ofString ">" ∉ closers := by decide
      rw [← ih (List.forall_mem_cons.mpr ⟨.inl rfl, hclosings⟩) h,
        @List.filter_cons_of_neg _ _ (Text.ofString ">") _ (by simpa using hangles)]
      obtain ⟨top, below, heq, hcloser⟩ := htop (first :: others)
      rw [heq]
      exact skipOpen_cons_of_isPlain hcloser (Token.isPlain_of_isMark hangle (by decide))
    · have hmem := closingMark?_mem hinner
      rw [← ih (List.forall_mem_cons.mpr ⟨.inr hmem, hclosings⟩) h,
        @List.filter_cons_of_pos _ _ inner _ (by simpa using hmem)]
      obtain ⟨top, below, heq, hcloser⟩ := htop (first :: others)
      rw [List.cons_append, heq]
      exact skipOpen_cons_of_opener hcloser hinner
  | case6 first others token tokens hfirst hother hinner ih =>
    rw [skipOpen, if_neg hfirst, if_neg hother, hinner] at h
    rw [← ih hclosings h]
    obtain ⟨top, below, heq, hcloser⟩ := htop (first :: others)
    rw [heq]
    refine skipOpen_cons_of_isPlain hcloser ⟨isClosingMark_of_angles (by simpa using hother), ?_⟩
    rw [closingMark?_angles] at hinner
    split at hinner
    · cases hinner
    · exact hinner

namespace Spans

theorem refl (tokens : List Token) : Spans tokens tokens := ⟨List.suffix_refl _, fun _ _ _ => rfl⟩

theorem trans (h : Spans tokens middle) (h' : Spans middle rest) : Spans tokens rest where
  suffix := h'.suffix.trans h.suffix
  balanced := fun closing hclosing outer =>
      (h.balanced closing hclosing outer).trans (h'.balanced closing hclosing outer)

theorem plain (h : token.IsPlain) : Spans (token :: rest) rest where
  suffix := List.suffix_cons _ _
  balanced := fun _ hclosing _ => skipOpen_cons_of_isPlain hclosing h

theorem bracket {inner : Text} (hopen : closingMark? false token = some inner) (h : Closes inner tokens rest) :
    Spans (token :: tokens) rest where
  suffix := h.suffix.trans (List.suffix_cons _ _)
  balanced := fun closing hclosing outer =>
    (skipOpen_cons_of_opener hclosing hopen).trans (h.closed (closing :: outer))

theorem closes {closing : Text} (hclosing : closing ∈ closers) (h : Spans tokens (token :: rest))
    (hmark : token.isMark closing) : Closes closing tokens rest where
  suffix := (List.suffix_cons _ _).trans h.suffix
  closed := fun outer => (h.balanced closing hclosing outer).trans (skipOpen_cons_of_closer hmark)

theorem skipGroup (h : skipGroup false tokens = some rest) : Spans tokens rest := by
  cases tokens with
  | nil => simp [Source.skipGroup] at h
  | cons token tokens =>
    rw [Source.skipGroup] at h
    cases hopen : closingMark? false token with
    | none => simp [hopen] at h
    | some inner =>
      rw [hopen] at h
      exact bracket hopen ⟨skipOpen_suffix h, fun outer => skipOpen_append outer h⟩

theorem skipAngles (h : skipAngles tokens = some rest) : Spans tokens rest := by
  rw [Source.skipAngles] at h
  split at h
  · rename_i hangle
    cases tokens with
    | nil => cases hangle
    | cons token tokens =>
      rw [startsWithMark_cons] at hangle
      rw [Source.skipGroup, closingMark?_angles, if_pos hangle] at h
      have hinside : Spans tokens rest := ⟨skipOpen_suffix h, fun closing hclosing outer => by
        have hskip := skipOpen_of_angles (by simp) h hclosing outer
        rwa [List.filter_cons_of_neg (by decide)] at hskip⟩
      exact (plain (Token.isPlain_of_isMark hangle (by decide))).trans hinside
  · cases h
    exact refl _

theorem skipParameters (h : skipParameters tokens = some rest) : Spans tokens rest := by
  simp only [Source.skipParameters, Option.bind_eq_bind, Option.bind_eq_some_iff] at h
  obtain ⟨middle, hangles, hgroup⟩ := h
  split at hgroup
  · exact (skipAngles hangles).trans (skipGroup hgroup)
  · cases hgroup


end Spans

theorem Closes.of_spans {closing : Text} (hclosing : closing ∈ closers) (h : Spans tokens middle)
    (h' : Closes closing middle rest) : Closes closing tokens rest where
  suffix := h'.suffix.trans h.suffix
  closed := fun outer => (h.balanced closing hclosing outer).trans (h'.closed outer)

end Brackets

section Steps

-- The marks that open and close brackets.
def bracketMarks : List Text := ["(", "[", "\x7b", ")", "]", "\x7d"].map Text.ofString

-- Tokens up to a tail, and at least one of them.
structure Takes (tokens rest : List Token) : Prop extends Spans tokens rest where
  shorter : rest.length < tokens.length

namespace Takes

theorem andThen (h : Takes tokens middle) (h' : Spans middle rest) : Takes tokens rest :=
  ⟨h.toSpans.trans h', h'.suffix.length_le.trans_lt h.shorter⟩

theorem after (h : Spans tokens middle) (h' : Takes middle rest) : Takes tokens rest :=
  ⟨h.trans h'.toSpans, h'.shorter.trans_le h.suffix.length_le⟩

theorem trans (h : Takes tokens middle) (h' : Takes middle rest) : Takes tokens rest := h.andThen h'.toSpans

theorem plain (h : token.IsPlain) : Takes (token :: rest) rest := ⟨.plain h, Nat.lt_succ_self _⟩

theorem mark {mark : Text} (hmark : mark ∉ bracketMarks) (h : startsWithMark mark tokens) :
    Takes tokens (tokens.drop 1) := by
  cases tokens with
  | nil => cases h
  | cons token rest => exact plain (Token.isPlain_of_isMark h hmark)

theorem kind {kind : Kind} (hkind : kind ≠ .mark) (h : startsWithKind kind tokens) :
    Takes tokens (tokens.drop 1) := by
  cases tokens with
  | nil => cases h
  | cons token rest =>
    have htoken : token.kind = kind := by simpa using h
    exact plain (Token.isPlain_of_kind (htoken ▸ hkind))

theorem word {word : Text} (h : startsWithWord word tokens) : Takes tokens (tokens.drop 1) := by
  refine @kind _ .word (by decide) ?_
  by_contra hword
  rw [not_word_of_not_kind (by simpa using hword)] at h
  cases h

theorem expectMark {mark : Text} (hmark : mark ∉ bracketMarks) (h : expectMark mark tokens = some rest) :
    Takes tokens rest := by
  cases tokens with
  | nil => cases h
  | cons token tokens =>
    rw [Source.expectMark] at h
    split at h
    · rename_i htoken
      cases h
      exact plain (Token.isPlain_of_isMark htoken hmark)
    · cases h

theorem bracket {inner : Text} (hopen : closingMark? false token = some inner) (h : Closes inner tokens rest) :
    Takes (token :: tokens) rest :=
  ⟨.bracket hopen h, Nat.lt_succ_of_le h.suffix.length_le⟩

theorem skipGroup (h : skipGroup false tokens = some rest) : Takes tokens rest := by
  refine ⟨.skipGroup h, ?_⟩
  cases tokens with
  | nil => simp [Source.skipGroup] at h
  | cons token tokens =>
    rw [Source.skipGroup] at h
    split at h
    · exact Nat.lt_succ_of_le (skipOpen_suffix h).length_le
    · cases h

theorem skipParameters (h : skipParameters tokens = some rest) : Takes tokens rest := by
  simp only [Source.skipParameters, Option.bind_eq_bind, Option.bind_eq_some_iff] at h
  obtain ⟨middle, hangles, hgroup⟩ := h
  split at hgroup
  · exact after (.skipAngles hangles) (skipGroup hgroup)
  · cases hgroup

end Takes

theorem Spans.dropMark {mark : Text} (hmark : mark ∉ bracketMarks) (tokens : List Token) :
    Spans tokens (if startsWithMark mark tokens then tokens.drop 1 else tokens) := by
  split
  · rename_i h
    exact (Takes.mark hmark h).toSpans
  · exact .refl _

theorem Spans.dropSign (tokens : List Token) :
    Spans tokens (if startsWithMark "+" tokens || startsWithMark "-" tokens then tokens.drop 1 else tokens) := by
  split
  · rename_i h
    rcases Bool.or_eq_true_iff.mp h with h | h
    · exact (Takes.mark (by decide) h).toSpans
    · exact (Takes.mark (by decide) h).toSpans
  · exact .refl _

theorem Spans.skipDots (tokens : List Token) : Spans tokens (skipDots tokens) := by
  rw [Source.skipDots]
  induction tokens using spanDots.induct with
  | case1 point word rest h dots after heq ih =>
    rw [spanDots, if_pos h]
    simp only [Bool.and_eq_true, beq_iff_eq] at h
    have hpoint := Token.isPlain_of_isMark h.1 (by decide)
    have hword : word.IsPlain := Token.isPlain_of_kind (by simp [h.2])
    exact (Spans.plain hpoint).trans ((Spans.plain hword).trans ih)
  | case2 point word rest h =>
    rw [spanDots, if_neg h]
    exact .refl _
  | case3 tokens h =>
    rw [spanDots]
    · exact .refl _
    · exact h

theorem Takes.skipQueried (h : skipQueried tokens = some rest) : Takes tokens rest := by
  cases tokens with
  | nil => cases h
  | cons token tokens =>
    rw [Source.skipQueried] at h
    split at h
    · rename_i himport
      obtain ⟨after, hgroup, hangles⟩ := Option.bind_eq_some_iff.mp h
      have hword : startsWithWord "import" (token :: tokens) := himport
      exact (Takes.word hword).andThen ((Spans.skipGroup hgroup).trans
        ((Spans.skipDots _).trans (.skipAngles hangles)))
    · split at h
      · rename_i hkind
        have hword : startsWithKind .word (token :: tokens) := hkind
        exact (Takes.kind (by decide) hword).andThen ((Spans.skipDots _).trans (.skipAngles h))
      · cases h

end Steps

section Parsers

-- What a parser reads with a budget.
structure Bracketed (budget : Nat) : Prop where
  type : ∀ {context tokens type rest}, parseType budget context tokens = some (type, rest) → Takes tokens rest
  union : ∀ {context tokens type rest}, parseUnion budget context tokens = some (type, rest) → Takes tokens rest
  alternatives : ∀ {context tokens types rest},
    parseAlternatives budget context tokens = some (types, rest) → Spans tokens rest
  intersection : ∀ {context tokens type rest},
    parseIntersection budget context tokens = some (type, rest) → Takes tokens rest
  intersected : ∀ {context tokens rest}, skipIntersected budget context tokens = some rest → Spans tokens rest
  operand : ∀ {context tokens type rest}, parseOperand budget context tokens = some (type, rest) → Takes tokens rest
  result : ∀ {context tokens rest}, skipResult budget context tokens = some rest → Takes tokens rest
  indices : ∀ {context start type tokens result rest},
    parsePostfix budget context start type tokens = some (result, rest) → Spans tokens rest
  primary : ∀ {tokens type rest}, parsePrimary budget tokens = some (type, rest) → Takes tokens rest
  arguments : ∀ {tokens types rest}, parseArguments budget tokens = some (types, rest) → Takes tokens rest
  elements : ∀ {tokens types rest}, parseElements budget tokens = some (types, rest) → Closes "]" tokens rest
  element : ∀ {tokens type rest}, parseElement budget tokens = some (type, rest) → Takes tokens rest
  entries : ∀ {tokens entries rest}, parseEntries budget tokens = some (entries, rest) → Closes "\x7d" tokens rest
  entry : ∀ {tokens entry rest}, parseEntry budget tokens = some (entry, rest) → Takes tokens rest
  resultType : ∀ {tokens rest}, skipResultType budget tokens = some rest → Spans tokens rest

variable {type : TypeExpr} {types : List TypeExpr} {start : List Token} {result : TypeExpr}

theorem takes_type (ih : Bracketed budget) (h : parseType (budget + 1) context tokens = some (type, rest)) :
    Takes tokens rest := by
  simp only [parseType, Option.bind_eq_bind, Option.bind_eq_some_iff, Option.pure_def] at h
  obtain ⟨⟨first, after⟩, hfirst, h⟩ := h
  split at h
  · rename_i hextends
    simp only [Bool.and_eq_true] at hextends
    simp only [Option.bind_eq_some_iff] at h
    obtain ⟨⟨_, bound⟩, hbound, question, hquestion, ⟨_, yes⟩, hyes, colon, hcolon, ⟨_, no⟩, hno, h⟩ := h
    cases h
    exact (ih.union hfirst).andThen (Takes.word hextends.1.2 |>.trans (ih.type hbound) |>.trans
      (.expectMark (by decide) hquestion) |>.trans (ih.type hyes) |>.trans (.expectMark (by decide) hcolon) |>.trans
      (ih.type hno)).toSpans
  · cases h
    exact ih.union hfirst

theorem takes_union (ih : Bracketed budget) (h : parseUnion (budget + 1) context tokens = some (type, rest)) :
    Takes tokens rest := by
  simp only [parseUnion, Option.bind_eq_bind, Option.bind_eq_some_iff, Option.pure_def] at h
  obtain ⟨⟨first, after⟩, hfirst, ⟨others, rest⟩, hothers, h⟩ := h
  have hall := (Takes.after (.dropMark (by decide) tokens) (ih.intersection hfirst)).andThen (ih.alternatives hothers)
  split at h <;> cases h <;> exact hall

theorem spans_alternatives (ih : Bracketed budget)
    (h : parseAlternatives (budget + 1) context tokens = some (types, rest)) : Spans tokens rest := by
  rw [parseAlternatives] at h
  split at h
  · rename_i hbar
    simp only [Option.bind_eq_bind, Option.bind_eq_some_iff, Option.pure_def] at h
    obtain ⟨⟨first, after⟩, hfirst, ⟨others, rest⟩, hothers, h⟩ := h
    cases h
    exact (Takes.mark (by decide) hbar).toSpans.trans ((ih.intersection hfirst).toSpans.trans (ih.alternatives hothers))
  · cases h
    exact .refl _

theorem takes_intersection (ih : Bracketed budget)
    (h : parseIntersection (budget + 1) context tokens = some (type, rest)) : Takes tokens rest := by
  simp only [parseIntersection, Option.bind_eq_bind, Option.bind_eq_some_iff, Option.pure_def] at h
  obtain ⟨⟨first, middle⟩, hfirst, after, hothers, h⟩ := h
  have hoperand := Takes.after (.dropMark (by decide) tokens) (ih.operand hfirst)
  split at h
  · cases h
    exact hoperand.andThen (ih.intersected hothers)
  · cases h
    exact hoperand

theorem spans_intersected (ih : Bracketed budget) (h : skipIntersected (budget + 1) context tokens = some rest) :
    Spans tokens rest := by
  rw [skipIntersected] at h
  split at h
  · rename_i hamp
    simp only [Option.bind_eq_bind, Option.bind_eq_some_iff] at h
    obtain ⟨⟨_, after⟩, hoperand, h⟩ := h
    exact (Takes.mark (by decide) hamp).toSpans.trans ((ih.operand hoperand).toSpans.trans (ih.intersected h))
  · cases h
    exact .refl _

theorem takes_operand (ih : Bracketed budget) (h : parseOperand (budget + 1) context tokens = some (type, rest)) :
    Takes tokens rest := by
  rw [parseOperand] at h
  simp only [Option.bind_eq_bind, Option.pure_def] at h
  split at h
  · simp only [Option.bind_eq_some_iff] at h
    obtain ⟨after, hparameters, result, harrow, rest, hresult, h⟩ := h
    cases h
    exact ((Takes.skipParameters hparameters).trans (.expectMark (by decide) harrow)).trans (ih.result hresult)
  split at h
  · rename_i hreadonly
    obtain ⟨⟨_, rest⟩, hrest, h⟩ := Option.bind_eq_some_iff.mp h
    cases h
    exact (Takes.word hreadonly).trans (ih.type hrest)
  split at h
  · rename_i hkeyof
    obtain ⟨⟨_, rest⟩, hrest, h⟩ := Option.bind_eq_some_iff.mp h
    cases h
    exact (Takes.word hkeyof).trans (ih.operand hrest)
  split at h
  · rename_i hnew
    simp only [Option.bind_eq_some_iff] at h
    obtain ⟨after, hparameters, result, harrow, ⟨_, rest⟩, hrest, h⟩ := h
    cases h
    have hhead : Spans tokens (tokens.drop (if startsWithWord "new" tokens then 1 else 2)) := by
      split
      · rename_i hword
        exact (Takes.word hword).toSpans
      · rename_i hword
        simp only [hword, Bool.false_or, Bool.and_eq_true] at hnew
        have hboth := (Takes.word hnew.1).trans (.word hnew.2)
        rw [List.drop_drop] at hboth
        exact hboth.toSpans
    exact Takes.after hhead (((Takes.skipParameters hparameters).trans (.expectMark (by decide) harrow)).trans
      (ih.operand hrest))
  split at h
  · rename_i hinfer
    simp only [Bool.and_eq_true] at hinfer
    have hboth := (Takes.word hinfer.1).trans (.kind (by decide) hinfer.2)
    rw [List.drop_drop] at hboth
    split at h
    · rename_i hextends
      obtain ⟨⟨_, rest⟩, hrest, h⟩ := Option.bind_eq_some_iff.mp h
      cases h
      exact (hboth.trans (.word hextends)).trans (ih.union hrest)
    · cases h
      exact hboth
  · obtain ⟨⟨first, after⟩, hfirst, h⟩ := Option.bind_eq_some_iff.mp h
    exact (ih.primary hfirst).andThen (ih.indices h)

theorem takes_result (ih : Bracketed budget) (h : skipResult (budget + 1) context tokens = some rest) :
    Takes tokens rest := by
  rw [skipResult] at h
  simp only [Option.bind_eq_bind, Option.pure_def] at h
  split at h
  · rename_i hsubject
    simp only [Bool.and_eq_true] at hsubject
    obtain ⟨⟨_, rest⟩, hrest, h⟩ := Option.bind_eq_some_iff.mp h
    cases h
    have hboth := (Takes.kind (by decide) hsubject.1.1).trans (.word hsubject.1.2)
    rw [List.drop_drop] at hboth
    exact hboth.trans (ih.type hrest)
  split at h
  · rename_i hasserts
    simp only [Bool.and_eq_true] at hasserts
    have hboth := (Takes.word hasserts.1.1).trans (.kind (by decide) hasserts.1.2)
    rw [List.drop_drop] at hboth
    split at h
    · rename_i his
      simp only [Bool.and_eq_true] at his
      obtain ⟨⟨_, rest⟩, hrest, h⟩ := Option.bind_eq_some_iff.mp h
      cases h
      have hall := hboth.trans (.word his.1)
      rw [List.drop_drop] at hall
      exact hall.trans (ih.type hrest)
    · cases h
      exact hboth
  · obtain ⟨⟨_, rest⟩, hrest, h⟩ := Option.bind_eq_some_iff.mp h
    cases h
    exact ih.type hrest

-- Behind an opening mark, up to the one that closes it.
theorem takes_bracket {mark closing : Text} (hopen : startsWithMark mark tokens)
    (hboth : (mark, closing) ∈ [("(", ")"), ("[", "]"), ("\x7b", "\x7d")].map fun (mark, closing) =>
      (Text.ofString mark, Text.ofString closing))
    (h : Closes closing (tokens.drop 1) rest) : Takes tokens rest := by
  cases tokens with
  | nil => cases hopen
  | cons token tokens =>
    have htoken : token.kind = .mark ∧ token.text = mark := Token.isMark_iff.mp hopen
    refine .bracket ?_ h
    simp only [List.map_cons, List.map_nil, List.mem_cons, List.not_mem_nil, or_false, Prod.mk.injEq] at hboth
    rcases hboth with ⟨rfl, rfl⟩ | ⟨rfl, rfl⟩ | ⟨rfl, rfl⟩ <;>
      simp [closingMark?, htoken, Text.ofString, Text.ofChars]

theorem Closes.of_expectMark {closing : Text} (hclosing : closing ∈ closers) (h : Spans tokens middle)
    (hmark : expectMark closing middle = some rest) : Closes closing tokens rest := by
  cases middle with
  | nil => cases hmark
  | cons token middle =>
    rw [expectMark] at hmark
    split at hmark
    · rename_i htoken
      cases hmark
      exact h.closes hclosing htoken
    · cases hmark

theorem Closes.of_startsWithMark {closing : Text} (hclosing : closing ∈ closers) (h : Spans tokens middle)
    (hmark : startsWithMark closing middle) : Closes closing tokens (middle.drop 1) := by
  cases middle with
  | nil => cases hmark
  | cons token middle => exact h.closes hclosing hmark

theorem takes_indices (ih : Bracketed budget)
    (hopen : (startsWithMark "[" tokens && !(context.lineEnds && breaksLine tokens)) = true)
    (h : parsePostfix (budget + 1) context start type tokens = some (result, rest)) : Takes tokens rest := by
  rw [parsePostfix, if_pos hopen] at h
  simp only [Bool.and_eq_true] at hopen
  split at h
  · rename_i hclose
    have hboth := takes_bracket hopen.1 (by decide) (.of_startsWithMark (by decide) (.refl _) hclose)
    rw [List.drop_drop] at hboth
    exact hboth.andThen (ih.indices h)
  · simp only [Option.bind_eq_bind, Option.bind_eq_some_iff] at h
    obtain ⟨⟨index, middle⟩, hindex, after, hclose, h⟩ := h
    have hboth := takes_bracket hopen.1 (by decide) (.of_expectMark (by decide) (ih.type hindex).toSpans hclose)
    exact hboth.andThen (ih.indices h)

theorem spans_indices (ih : Bracketed budget)
    (h : parsePostfix (budget + 1) context start type tokens = some (result, rest)) : Spans tokens rest := by
  cases hopen : startsWithMark "[" tokens && !(context.lineEnds && breaksLine tokens) with
  | true => exact (takes_indices ih hopen h).toSpans
  | false =>
    rw [parsePostfix, hopen] at h
    cases h
    exact .refl _

theorem takes_primary (ih : Bracketed budget) (h : parsePrimary (budget + 1) tokens = some (type, rest)) :
    Takes tokens rest := by
  cases tokens with
  | nil => simp [parsePrimary] at h
  | cons token tokens =>
    rw [parsePrimary] at h
    simp only [Option.bind_eq_bind, Option.pure_def] at h
    split at h
    · cases h
    · cases h
    · rename_i hkind
      cases h
      exact .plain (Token.isPlain_of_kind (by simp [hkind]))
    · rename_i hkind
      cases h
      exact .plain (Token.isPlain_of_kind (by simp [hkind]))
    · rename_i hkind
      cases h
      exact .plain (Token.isPlain_of_kind (by simp [hkind]))
    · split at h
      · rename_i hopen
        simp only [Option.bind_eq_some_iff] at h
        obtain ⟨⟨inner, middle⟩, hinner, after, hclose, h⟩ := h
        cases h
        exact @takes_bracket (token :: tokens) _ _ _ hopen (by decide)
          (.of_expectMark (by decide) (ih.type hinner).toSpans hclose)
      split at h
      · rename_i hopen
        obtain ⟨⟨elements, rest⟩, helements, h⟩ := Option.bind_eq_some_iff.mp h
        cases h
        exact @takes_bracket (token :: tokens) _ _ _ hopen (by decide) (ih.elements helements)
      split at h
      · rename_i hopen
        obtain ⟨⟨entries, rest⟩, hentries, h⟩ := Option.bind_eq_some_iff.mp h
        cases h
        exact @takes_bracket (token :: tokens) _ _ _ hopen (by decide) (ih.entries hentries)
      split at h
      · rename_i hsigned
        simp only [Bool.and_eq_true, Bool.or_eq_true] at hsigned
        cases h
        have hsign : Takes (token :: tokens) tokens := by
          rcases hsigned.1 with hmark | hmark
          · exact .plain (Token.isPlain_of_isMark hmark (by decide))
          · exact .plain (Token.isPlain_of_isMark hmark (by decide))
        exact hsign.trans (.kind (by decide) hsigned.2)
      · cases h
    · rename_i hkind
      have hword : Takes (token :: tokens) tokens := .plain (Token.isPlain_of_kind (by simp [hkind]))
      split at h
      · cases h
        exact hword
      split at h
      · rename_i hunique
        simp only [Bool.and_eq_true] at hunique
        cases h
        exact hword.trans (.word hunique.2)
      split at h
      · obtain ⟨after, hqueried, h⟩ := Option.bind_eq_some_iff.mp h
        cases h
        exact hword.trans (.skipQueried hqueried)
      split at h
      · simp only [Option.bind_eq_some_iff] at h
        obtain ⟨after, hgroup, rest, hangles, h⟩ := h
        cases h
        exact hword.andThen ((Spans.skipGroup hgroup).trans ((Spans.skipDots _).trans (.skipAngles hangles)))
      · have hdots : Spans tokens (spanDots tokens).2 := .skipDots tokens
        split at h
        · rename_i hangle
          obtain ⟨⟨arguments, rest⟩, harguments, h⟩ := Option.bind_eq_some_iff.mp h
          cases h
          exact hword.andThen (hdots.trans ((Takes.mark (by decide) hangle).trans (ih.arguments harguments)).toSpans)
        · split at h
          · cases h
            exact hword
          · cases h
            exact hword.andThen hdots

theorem takes_arguments (ih : Bracketed budget) (h : parseArguments (budget + 1) tokens = some (types, rest)) :
    Takes tokens rest := by
  simp only [parseArguments, Option.bind_eq_bind, Option.bind_eq_some_iff, Option.pure_def] at h
  obtain ⟨⟨first, after⟩, hfirst, h⟩ := h
  have htype := ih.type hfirst
  split at h
  · rename_i hclose
    cases h
    exact htype.trans (.mark (by decide) hclose)
  · simp only [Option.bind_eq_some_iff] at h
    obtain ⟨next, hcomma, h⟩ := h
    have hnext := htype.trans (.expectMark (by decide) hcomma)
    split at h
    · rename_i hclose
      cases h
      exact hnext.trans (.mark (by decide) hclose)
    · obtain ⟨⟨others, rest⟩, hothers, h⟩ := Option.bind_eq_some_iff.mp h
      cases h
      exact hnext.trans (ih.arguments hothers)

theorem closes_elements (ih : Bracketed budget) (h : parseElements (budget + 1) tokens = some (types, rest)) :
    Closes "]" tokens rest := by
  rw [parseElements] at h
  split at h
  · rename_i hclose
    cases h
    exact .of_startsWithMark (by decide) (.refl _) hclose
  · simp only [Option.bind_eq_bind, Option.bind_eq_some_iff, Option.pure_def] at h
    obtain ⟨⟨first, after⟩, hfirst, h⟩ := h
    have helement := (ih.element hfirst).toSpans
    split at h
    · rename_i hclose
      cases h
      exact .of_startsWithMark (by decide) helement hclose
    · simp only [Option.bind_eq_some_iff] at h
      obtain ⟨next, hcomma, ⟨others, rest⟩, hothers, h⟩ := h
      cases h
      exact .of_spans (by decide) (helement.trans (Takes.expectMark (by decide) hcomma).toSpans) (ih.elements hothers)

theorem Takes.elementName (h : skipElementName tokens = some rest) : Takes tokens rest := by
  unfold skipElementName at h
  split at h
  · rename_i name colon after
    split at h
    · cases h
    rename_i hname
    have hkind : name.kind = .word := by simpa using hname
    have hword : Takes (name :: colon :: after) (colon :: after) := .plain (Token.isPlain_of_kind (by simp [hkind]))
    split at h
    · rename_i hcolon
      cases h
      exact hword.trans (@Takes.mark (colon :: rest) _ (by decide) hcolon)
    split at h
    · rename_i hoptional
      exact (hword.trans (@Takes.mark (colon :: after) _ (by decide) hoptional)).trans (.expectMark (by decide) h)
    · cases h
  · cases h

theorem takes_element (ih : Bracketed budget) (h : parseElement (budget + 1) tokens = some (type, rest)) :
    Takes tokens rest := by
  rw [parseElement] at h
  have hspread : Spans tokens (if startsWithMark "..." tokens then tokens.drop 1 else tokens) :=
    .dropMark (by decide) tokens
  simp only [Option.bind_eq_bind, Option.pure_def] at h
  split at h
  · rename_i after hname
    obtain ⟨⟨_, rest⟩, htype, h⟩ := Option.bind_eq_some_iff.mp h
    cases h
    exact Takes.after hspread ((Takes.elementName hname).trans (ih.type htype))
  · obtain ⟨⟨type, after⟩, htype, h⟩ := Option.bind_eq_some_iff.mp h
    have helement := Takes.after hspread (ih.type htype)
    split at h
    · rename_i hoptional
      cases h
      exact helement.trans (.mark (by decide) hoptional)
    · split at h <;> cases h <;> exact helement

theorem closes_entries {entries : List Entry} (ih : Bracketed budget)
    (h : parseEntries (budget + 1) tokens = some (entries, rest)) : Closes "\x7d" tokens rest := by
  rw [parseEntries] at h
  split at h
  · rename_i hclose
    cases h
    exact .of_startsWithMark (by decide) (.refl _) hclose
  split at h
  · rename_i hend
    have hmark : Spans tokens (tokens.drop 1) := by
      rcases Bool.or_eq_true_iff.mp hend with hend | hend
      · exact (Takes.mark (by decide) hend).toSpans
      · exact (Takes.mark (by decide) hend).toSpans
    exact .of_spans (by decide) hmark (ih.entries h)
  · simp only [Option.bind_eq_bind, Option.bind_eq_some_iff, Option.pure_def] at h
    obtain ⟨⟨first, after⟩, hfirst, h⟩ := h
    split at h
    · obtain ⟨⟨others, rest⟩, hothers, h⟩ := Option.bind_eq_some_iff.mp h
      cases h
      exact .of_spans (by decide) (ih.entry hfirst).toSpans (ih.entries hothers)
    · cases h

theorem kind_of_usesModifier {words : List Text} (h : usesModifier words (token :: tokens)) : token.kind = .word := by
  cases tokens with
  | nil => simp [usesModifier] at h
  | cons next tokens =>
    simp only [usesModifier, Bool.and_eq_true, beq_iff_eq] at h
    exact h.1.1.1

theorem Spans.dropModifiers (readonly : Bool) (tokens : List Token) :
    Spans tokens (dropModifiers readonly tokens).2 := by
  induction tokens generalizing readonly with
  | nil => exact .refl _
  | cons token tokens ih =>
    rw [Source.dropModifiers]
    split
    · rename_i h
      exact (plain (Token.isPlain_of_kind (by simp [kind_of_usesModifier h]))).trans (ih _)
    · exact .refl _

theorem Spans.dropAccessors (found : Bool) (tokens : List Token) : Spans tokens (dropAccessors found tokens).2 := by
  induction tokens generalizing found with
  | nil => exact .refl _
  | cons token tokens ih =>
    rw [Source.dropAccessors]
    split
    · rename_i h
      exact (plain (Token.isPlain_of_kind (by simp [kind_of_usesModifier h]))).trans (ih _)
    split
    · rename_i hstar
      exact plain (Token.isPlain_of_isMark hstar (by decide))
    · exact .refl _

theorem Takes.readName {name : List Token} (h : readName tokens = some (name, rest)) : Takes tokens rest := by
  cases tokens with
  | nil => cases h
  | cons token tokens =>
    rw [Source.readName] at h
    split at h
    · obtain ⟨after, hgroup, h⟩ := Option.map_eq_some_iff.mp h
      cases h
      exact .skipGroup hgroup
    · rename_i hbracket
      split at h
      · rename_i hname
        cases h
        refine .plain (Token.isPlain_of_kind fun hmark => ?_)
        simp [startsName, hmark, hbracket] at hname
      · cases h

theorem takes_entry {entry : Entry} (ih : Bracketed budget) (h : parseEntry (budget + 1) tokens = some (entry, rest)) :
    Takes tokens rest := by
  simp only [parseEntry, Option.bind_eq_bind, Option.pure_def] at h
  have hsigned : Spans tokens
      (if startsWithMark "+" tokens || startsWithMark "-" tokens then tokens.drop 1 else tokens) := .dropSign tokens
  generalize (if startsWithMark "+" tokens || startsWithMark "-" tokens then tokens.drop 1 else tokens) = unsigned
    at h hsigned
  have hnamed := hsigned.trans (.dropModifiers false unsigned)
  generalize dropModifiers false unsigned = modified at h hnamed
  split at h
  · simp only [Option.bind_eq_some_iff] at h
    obtain ⟨after, hgroup, rest, hresult, h⟩ := h
    cases h
    exact Takes.after hnamed ((Takes.skipGroup hgroup).andThen
      (((Spans.dropSign after).trans (.dropMark (by decide) _)).trans (ih.resultType hresult)))
  split at h
  · simp only [Option.bind_eq_some_iff] at h
    obtain ⟨after, hparameters, rest, hresult, h⟩ := h
    cases h
    exact (Takes.skipParameters hparameters).andThen (ih.resultType hresult)
  split at h
  · rename_i hnew
    simp only [Bool.and_eq_true] at hnew
    simp only [Option.bind_eq_some_iff] at h
    obtain ⟨after, hparameters, rest, hresult, h⟩ := h
    cases h
    exact (Takes.word hnew.1).trans ((Takes.skipParameters hparameters).andThen (ih.resultType hresult))
  · obtain ⟨⟨name, afterName⟩, hname, h⟩ := Option.bind_eq_some_iff.mp h
    have hread := Takes.after (hnamed.trans (.dropAccessors false _)) (Takes.readName hname)
    have hoptional := hread.andThen (.dropMark (by decide) afterName : Spans afterName
      (if startsWithMark "?" afterName then afterName.drop 1 else afterName))
    dsimp only at h
    generalize (if startsWithMark "?" afterName then afterName.drop 1 else afterName) = behind at h hoptional
    split at h
    · simp only [Option.bind_eq_some_iff] at h
      obtain ⟨after, hparameters, rest, hresult, h⟩ := h
      cases h
      exact hoptional.trans ((Takes.skipParameters hparameters).andThen (ih.resultType hresult))
    split at h
    · cases h
    split at h
    · rename_i hcolon
      obtain ⟨⟨type, rest⟩, htype, h⟩ := Option.bind_eq_some_iff.mp h
      cases h
      exact hoptional.trans ((Takes.mark (by decide) hcolon).trans (ih.type htype))
    · cases h
      exact hoptional

theorem spans_resultType (ih : Bracketed budget) (h : skipResultType (budget + 1) tokens = some rest) :
    Spans tokens rest := by
  rw [skipResultType] at h
  split at h
  · rename_i hcolon
    exact (Takes.mark (by decide) hcolon).toSpans.trans (ih.result h).toSpans
  · cases h
    exact .refl _

theorem bracketed (budget : Nat) : Bracketed budget := by
  induction budget with
  | zero => constructor <;> intros <;> simp_all [parseType, parseUnion, parseAlternatives, parseIntersection,
      skipIntersected, parseOperand, skipResult, parsePostfix, parsePrimary, parseArguments, parseElements,
      parseElement, parseEntries, parseEntry, skipResultType]
  | succ budget ih => exact ⟨takes_type ih, takes_union ih, spans_alternatives ih, takes_intersection ih,
      spans_intersected ih, takes_operand ih, takes_result ih, spans_indices ih, takes_primary ih, takes_arguments ih,
      closes_elements ih, takes_element ih, closes_entries ih, takes_entry ih, spans_resultType ih⟩

end Parsers

end HookGen.Source
