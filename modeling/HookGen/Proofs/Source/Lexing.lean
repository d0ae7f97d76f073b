import HookGen.Source.Lexer
import Mathlib.Data.List.TakeWhile

/-!
How texts of declarations are cut into tokens, piece by piece: what stands behind a piece does not change
its tokens as long as it cannot belong to the last of them.
-/

namespace HookGen.Source

variable {lead : List Trivia} {operand : Bool} {c : CodePoint} {t u rest : Text} {ts us : List Token}

-- A character that a word or a number in front of it ends at.
def isBoundary (c : CodePoint) : Bool :=
  !isWordPart c && c != '.' && c != '\\' && c != '+' && c != '-'

def Bounded (rest : Text) : Prop := ∀ c ∈ rest.head?, isBoundary c

-- A name or keyword as it is written in a source, without escapes.
def isWord : Text → Bool
  | [] => false
  | c :: rest => isWordStart c && rest.all isWordPart

-- Whether a zero in front of a text begins a number with a base of its own.
def hasBase (rest : Text) : Bool :=
  rest.head?.any (CodePoint.isIn ['x', 'X', 'o', 'O', 'b', 'B'])

-- A text that is read as one number: with a base of its own, or decimal.
def isNumber : Text → Bool
  | [] => false
  | c :: rest =>
    if c = '0' && hasBase rest then rest.all isWordPart
    else
      (c.isAsciiDigit || (c = '.' && rest.head?.any CodePoint.isAsciiDigit)) &&
        numberLength false rest == rest.length

-- Whether a quote ends a text that is the rest of a string, and no quote before it.
def closes (quote : CodePoint) : Text → Bool
  | [] => false
  | [c] => c = quote
  | c :: d :: rest => if c = '\\' then closes quote rest else c != quote && closes quote (d :: rest)

-- A string between two quotes of one kind.
def isString : Text → Bool
  | [] => false
  | quote :: rest => (quote = '"' || quote = '\'') && closes quote rest

-- The marks that are tokens whatever follows them.
def isSingleMark (c : CodePoint) : Bool :=
  c.isIn [':', ';', ',', '|', '<', '>', '?', '(', ')', '[', ']', '\x7b', '\x7d']

theorem bounded_nil : Bounded [] := by
  intro c hc
  simp at hc

theorem bounded_cons (h : isBoundary c) : Bounded (c :: rest) := by
  intro d hd
  cases hd
  exact h

theorem Bounded.append (ht : Bounded t) (hu : Bounded u) : Bounded (t ++ u) := by
  cases t with
  | nil => exact hu
  | cons c t => exact bounded_cons (ht c rfl)

theorem isBoundary_iff : isBoundary c ↔
    isWordPart c = false ∧ c ≠ '.' ∧ c ≠ '\\' ∧ c ≠ '+' ∧ c ≠ '-' := by
  simp [isBoundary, and_assoc]

theorem Bounded.head (h : Bounded (c :: rest)) :
    isWordPart c = false ∧ c ≠ '.' ∧ c ≠ '\\' ∧ c ≠ '+' ∧ c ≠ '-' :=
  isBoundary_iff.mp (h c rfl)

theorem tokensFrom_nil (lead : List Trivia) (operand : Bool) : tokensFrom lead operand [] = [⟨lead, .finish, []⟩] := by
  rw [tokensFrom.eq_def]

-- One token in front of anything.
theorem tokensFrom_of_lexeme {kind : Kind} (h : lexeme (!operand) c (t ++ rest) = (.token kind, t.length))
    (lead : List Trivia) : tokensFrom lead operand (c :: (t ++ rest)) =
      ⟨lead, kind, c :: t⟩ :: tokensFrom [] (Token.endsOperand ⟨lead, kind, c :: t⟩) rest := by
  rw [tokensFrom.eq_def lead]
  simp only [h, List.take_left, List.drop_left]

theorem tokensFrom_token {kind : Kind} (h : lexeme (!operand) c (t ++ rest) = (.token kind, t.length)) :
    ∃ next, tokensFrom lead operand (c :: t ++ rest) = ⟨lead, kind, c :: t⟩ :: tokensFrom [] next rest :=
  ⟨_, tokensFrom_of_lexeme h lead⟩

-- Blanks go to the token behind them.
theorem tokensFrom_blank (hne : t ≠ []) (hspace : ∀ c ∈ t, isSpace c)
    (hrest : ∀ c ∈ rest.head?, isSpace c = false) :
    tokensFrom lead operand (t ++ rest) = tokensFrom (lead ++ [.blank t]) operand rest := by
  cases t with
  | nil => exact absurd rfl hne
  | cons c t =>
    obtain ⟨hc, ht⟩ := List.forall_mem_cons.mp hspace
    have hlength : ((t ++ rest).takeWhile isSpace).length = t.length := by
      rw [List.takeWhile_append_of_pos ht]
      cases rest with
      | nil => simp
      | cons d rest => simp [hrest d (by simp)]
    have hlexeme : lexeme (!operand) c (t ++ rest) = (.blank, t.length) := by
      rw [lexeme.eq_def, if_pos hc, hlength]
    rw [List.cons_append, tokensFrom.eq_def lead]
    simp only [hlexeme, List.take_left, List.drop_left]

theorem not_isSpace_of_isWordPart (h : isWordPart c) : isSpace c = false := by
  simp only [isWordPart, Bool.and_eq_true, Bool.not_eq_true'] at h
  exact h.1.2

theorem ne_of_isWordPart {d : CodePoint} (h : isWordPart c) (hd : isWordPart d = false) : c ≠ d := by
  rintro rfl
  rw [h] at hd
  simp at hd

section Words

-- What a word in front of it ends at. In front of a point a number would go on.
def EndsWord (rest : Text) : Prop := ∀ c ∈ rest.head?, isWordPart c = false ∧ c ≠ '\\'

theorem Bounded.endsWord (h : Bounded rest) : EndsWord rest := by
  intro c hc
  have hboundary := isBoundary_iff.mp (h c hc)
  exact ⟨hboundary.1, hboundary.2.2.1⟩

theorem wordLength_append (ht : ∀ c ∈ t, isWordPart c) (hrest : EndsWord rest) :
    wordLength false (t ++ rest) = t.length := by
  induction t with
  | nil =>
    cases rest with
    | nil => rfl
    | cons c rest =>
      obtain ⟨hpart, hescape⟩ := hrest c rfl
      rw [List.nil_append, wordLength.eq_def]
      simp [hpart, hescape]
  | cons c t ih =>
    obtain ⟨hc, hothers⟩ := List.forall_mem_cons.mp ht
    rw [List.cons_append, wordLength.eq_def]
    simp [hc, ih hothers]

theorem lexeme_word (hc : isWordStart c) (ht : ∀ d ∈ t, isWordPart d) (hrest : EndsWord rest)
    (regexAllowed : Bool) : lexeme regexAllowed c (t ++ rest) = (.token .word, t.length) := by
  have hboth := hc
  simp only [isWordStart, Bool.and_eq_true, Bool.not_eq_true'] at hboth
  obtain ⟨hpart, hdigit⟩ := hboth
  have hother (d : CodePoint) (hd : isWordPart d = false) : c ≠ d := ne_of_isWordPart hpart hd
  have hzero : c ≠ '0' := by
    rintro rfl
    simp [CodePoint.isAsciiDigit] at hdigit
  have hslash : c ≠ '/' := hother _ (by decide)
  have hdouble : c ≠ '"' := hother _ (by decide)
  have hsingle : c ≠ '\'' := hother _ (by decide)
  have htick : c ≠ '\x60' := hother _ (by decide)
  have hpoint : c ≠ '.' := hother _ (by decide)
  rw [lexeme.eq_def]
  simp [not_isSpace_of_isWordPart hpart, hslash, hdouble, hsingle, htick, hzero, hdigit, hpoint, hc,
    wordLength_append ht hrest]

end Words

section Numbers

theorem numberLength_append {afterLetter : Bool} (ht : numberLength afterLetter t = t.length)
    (hrest : Bounded rest) : numberLength afterLetter (t ++ rest) = t.length := by
  induction t generalizing afterLetter with
  | nil =>
    cases rest with
    | nil => rfl
    | cons c rest =>
      obtain ⟨hpart, hpoint, -, hplus, hminus⟩ := hrest.head
      have hsign : c.isIn ['+', '-'] = false := by
        cases c with
        | surrogate offset => rfl
        | char c => simpa [CodePoint.isIn] using And.intro hplus hminus
      rw [List.nil_append, numberLength.eq_def]
      simp [hpart, hpoint, hsign]
  | cons c t ih =>
    rw [numberLength.eq_def] at ht
    simp only at ht
    split at ht
    · next hgoesOn =>
      simp only [List.length_cons, Nat.add_right_cancel_iff] at ht
      rw [List.cons_append, numberLength.eq_def]
      simp only [if_pos hgoesOn, ih ht, List.length_cons]
    · simp at ht

theorem basedNumberLength_append (ht : ∀ c ∈ t, isWordPart c) (hrest : Bounded rest) :
    basedNumberLength (t ++ rest) = t.length := by
  rw [basedNumberLength, List.takeWhile_append_of_pos ht]
  cases rest with
  | nil => simp
  | cons d rest => simp [hrest.head.1]

theorem hasBase_append (hrest : Bounded rest) : hasBase (t ++ rest) = hasBase t := by
  cases t with
  | cons c t => rfl
  | nil =>
    cases rest with
    | nil => rfl
    | cons c rest =>
      cases c with
      | surrogate offset => rfl
      | char c =>
        have hpart := hrest.head.1
        by_contra h
        have hc : c = 'x' ∨ c = 'X' ∨ c = 'o' ∨ c = 'O' ∨ c = 'b' ∨ c = 'B' := by
          simpa [hasBase, CodePoint.isIn, or_iff_not_imp_left] using h
        rcases hc with rfl | rfl | rfl | rfl | rfl | rfl <;> exact absurd hpart (by decide)

theorem isWordPart_of_isAsciiDigit (h : c.isAsciiDigit) : isWordPart c := by
  have hall : ∀ n < 58, 48 ≤ n → isWordPart (.char (Char.ofNat n)) := by decide
  cases c with
  | surrogate offset => cases h
  | char c =>
    simp only [CodePoint.isAsciiDigit, Bool.and_eq_true, decide_eq_true_eq, Char.le_def] at h
    have hdigit := hall c.toNat (Nat.lt_succ_of_le h.2) h.1
    rwa [Char.ofNat_toNat] at hdigit

theorem first_of_isNumber (h : isNumber (c :: t)) : c.isAsciiDigit ∨ c = '.' := by
  by_cases hbase : c = '0' ∧ hasBase t
  · exact .inl (by rw [hbase.1]; decide)
  · have hdecimal := h
    simp only [isNumber, Bool.and_eq_true, decide_eq_true_eq, hbase, if_false] at hdecimal
    simp only [Bool.or_eq_true, Bool.and_eq_true, decide_eq_true_eq] at hdecimal
    exact hdecimal.1.imp id And.left

-- The character that a number begins with begins nothing else.
theorem ne_first_of_isNumber {d : CodePoint} (h : isNumber (c :: t)) (hd : isWordPart d = false)
    (hpoint : d ≠ '.') : c ≠ d := by
  cases first_of_isNumber h with
  | inl hdigit => exact ne_of_isWordPart (isWordPart_of_isAsciiDigit hdigit) hd
  | inr heq => exact fun hcd => hpoint (hcd.symm.trans heq)

theorem not_isSpace_of_isNumber (h : isNumber (c :: t)) : isSpace c = false := by
  cases first_of_isNumber h with
  | inl hdigit => exact not_isSpace_of_isWordPart (isWordPart_of_isAsciiDigit hdigit)
  | inr hpoint => rw [hpoint]; decide

theorem lexeme_number (h : isNumber (c :: t)) (hrest : Bounded rest) (regexAllowed : Bool) :
    lexeme regexAllowed c (t ++ rest) = (.token .number, t.length) := by
  have hhead := hasBase_append (t := t) hrest
  by_cases hbase : c = '0' ∧ hasBase t
  · obtain ⟨rfl, ht⟩ := hbase
    have hall : ∀ d ∈ t, isWordPart d := by simpa [isNumber, ht] using h
    rw [ht, hasBase] at hhead
    rw [lexeme.eq_def]
    simp [-List.head?_append, isSpace, CodePoint.toNat, hhead, basedNumberLength_append hall hrest]
  · have hdecimal : (c.isAsciiDigit ∨ (c = '.' ∧ t.head?.any CodePoint.isAsciiDigit)) ∧
        numberLength false t = t.length := by
      simpa [isNumber, hbase] using h
    obtain ⟨hfirst, hlength⟩ := hdecimal
    have hfirst' : c.isAsciiDigit ∨ (c = '.' ∧ (t ++ rest).head?.any CodePoint.isAsciiDigit) := by
      cases t with
      | nil => exact .inl (by simpa using hfirst)
      | cons d t => exact hfirst
    have hbase' : ¬(c = '0' ∧ (t ++ rest).head?.any
        (CodePoint.isIn ['x', 'X', 'o', 'O', 'b', 'B'])) := by
      rw [← hhead] at hbase
      exact hbase
    have hother (d : CodePoint) (hd : isWordPart d = false ∧ d ≠ '.') : c ≠ d :=
      ne_first_of_isNumber h hd.1 hd.2
    have hslash : c ≠ '/' := hother _ (by decide)
    have hdouble : c ≠ '"' := hother _ (by decide)
    have hsingle : c ≠ '\'' := hother _ (by decide)
    have htick : c ≠ '\x60' := hother _ (by decide)
    rw [lexeme.eq_def, if_neg (by simp [not_isSpace_of_isNumber h]), if_neg hslash, if_neg (by simp [hdouble, hsingle]),
      if_neg htick, if_neg hbase', if_pos hfirst', numberLength_append hlength hrest]

end Numbers

section Strings

theorem literalLength_append {quote : CodePoint} (hquote : quote ≠ '\\') (h : closes quote t) :
    literalLength [.quoted quote] (t ++ rest) = t.length := by
  induction t using closes.induct with
  | case1 => simp [closes] at h
  | case2 c =>
    have hc : c = quote := by simpa [closes] using h
    subst hc
    simp [literalLength.eq_def, hquote]
  | case3 d t ih =>
    have ht : closes quote t := by simpa [closes] using h
    rw [List.cons_append, literalLength.eq_def]
    simp [ih ht]
  | case4 c d t hc ih =>
    have hboth : c ≠ quote ∧ closes quote (d :: t) := by simpa [closes, hc] using h
    have hothers := ih hboth.2
    rw [List.cons_append] at hothers
    rw [List.cons_append, List.cons_append, literalLength.eq_def]
    simp [hc, hboth.1, hothers]

theorem lexeme_string (h : isString (c :: t)) (regexAllowed : Bool) :
    lexeme regexAllowed c (t ++ rest) = (.token .string, t.length) := by
  have hboth : (c = '"' ∨ c = '\'') ∧ closes c t := by simpa [isString] using h
  obtain ⟨hquote, hclosed⟩ := hboth
  have hne : c ≠ '\\' := by
    rintro rfl
    exact absurd hquote (by decide)
  have hplain : isSpace c = false ∧ c ≠ '/' := by
    rcases hquote with rfl | rfl <;> decide
  rw [lexeme.eq_def, if_neg (by simp [hplain.1]), if_neg hplain.2, if_pos hquote,
    literalLength_append hne hclosed]

end Strings

section Marks

theorem lexeme_mark (h : isSingleMark c) (regexAllowed : Bool) (rest : Text) :
    lexeme regexAllowed c rest = (.token .mark, 0) := by
  cases c with
  | surrogate offset => cases h
  | char c =>
    simp only [isSingleMark, CodePoint.isIn, List.contains_eq_mem, List.mem_cons, List.not_mem_nil,
      or_false, decide_eq_true_eq] at h
    rcases h with rfl | rfl | rfl | rfl | rfl | rfl | rfl | rfl | rfl | rfl | rfl | rfl | rfl <;> rfl

theorem isBoundary_of_isSingleMark (h : isSingleMark c) : isBoundary c := by
  cases c with
  | surrogate offset => cases h
  | char c =>
    simp only [isSingleMark, CodePoint.isIn, List.contains_eq_mem, List.mem_cons, List.not_mem_nil,
      or_false, decide_eq_true_eq] at h
    rcases h with rfl | rfl | rfl | rfl | rfl | rfl | rfl | rfl | rfl | rfl | rfl | rfl | rfl <;> rfl

-- The first branches do not take marks that the last ones look at.
theorem lexeme_of_punctuation (hc : c = '.' ∨ c = '=' ∨ c = '+' ∨ c = '-')
    (hdigit : c = '.' → rest.head?.any CodePoint.isAsciiDigit = false) (regexAllowed : Bool) :
    lexeme regexAllowed c rest =
      if c = '=' ∧ rest.head? = some (.char '>') then (.token .mark, 1)
      else if (c = '+' ∨ c = '-') ∧ rest.head? = some c then (.token .mark, 1)
      else if c = '.' ∧ Text.startsWith ".." rest then (.token .mark, 2)
      else (.token .mark, 0) := by
  have hplain : isSpace c = false ∧ c.isAsciiDigit = false ∧ isWordStart c = false ∧ c ≠ '/' ∧
      c ≠ '"' ∧ c ≠ '\'' ∧ c ≠ '\x60' ∧ c ≠ '0' ∧ c ≠ '\\' ∧ c ≠ '#' := by
    rcases hc with rfl | rfl | rfl | rfl <;> decide
  obtain ⟨hspace, hnumber, hword, hslash, hdouble, hsingle, htick, hzero, hescape, hhash⟩ := hplain
  have hpoint : ¬(c.isAsciiDigit ∨ (c = '.' ∧ rest.head?.any CodePoint.isAsciiDigit)) := by
    rintro (h | ⟨h, hnext⟩)
    · simp [hnumber] at h
    · simp [hdigit h] at hnext
  rw [lexeme.eq_def, if_neg (by simp [hspace]), if_neg hslash, if_neg (by simp [hdouble, hsingle]),
    if_neg htick, if_neg (by simp [hzero]), if_neg hpoint, if_neg (by simp [hword]),
    if_neg (by simp [hescape, hhash])]

-- A sign in front of something else.
theorem lexeme_sign (hc : c = '+' ∨ c = '-') (hrest : rest.head? ≠ some c) (regexAllowed : Bool) :
    lexeme regexAllowed c rest = (.token .mark, 0) := by
  rw [lexeme_of_punctuation (by simp [hc]) (by rintro rfl; simp at hc)]
  rcases hc with rfl | rfl <;> simp [hrest]

-- A point in front of a word.
theorem lexeme_point {d : CodePoint} (hd : isWordStart d) (regexAllowed : Bool) :
    lexeme regexAllowed '.' (d :: rest) = (.token .mark, 0) := by
  have hboth := hd
  simp only [isWordStart, Bool.and_eq_true, Bool.not_eq_true'] at hboth
  have hpoint : d ≠ '.' := ne_of_isWordPart hboth.1 (by decide)
  rw [lexeme_of_punctuation (by simp) (by simp [hboth.2])]
  simp [Text.startsWith, Text.ofString, Text.ofChars, Ne.symm hpoint]

theorem lexeme_equals (h : rest.head? ≠ some (.char '>')) (regexAllowed : Bool) :
    lexeme regexAllowed '=' rest = (.token .mark, 0) := by
  rw [lexeme_of_punctuation (by simp) (by simp)]
  simp [h]

end Marks

-- The tokens of a text, the first with `lead` in front of it, whatever follows behind its boundary.
def Lexes (lead : List Trivia) (t : Text) (ts : List Token) : Prop :=
  ∀ operand rest, Bounded rest →
    ∃ next, tokensFrom lead operand (t ++ rest) = ts ++ tokensFrom [] next rest

-- A text that does not begin with a blank.
def Visible (t : Text) : Prop := ∃ c u, t = c :: u ∧ isSpace c = false

namespace Visible

theorem head (h : Visible t) : ∀ c ∈ (t ++ rest).head?, isSpace c = false := by
  obtain ⟨c, u, rfl, hc⟩ := h
  intro d hd
  cases hd
  exact hc

theorem append (h : Visible t) : Visible (t ++ u) := by
  obtain ⟨c, v, rfl, hc⟩ := h
  exact ⟨c, v ++ u, rfl, hc⟩

theorem of_isWord (h : isWord t) : Visible t := by
  cases t with
  | nil => cases h
  | cons c t =>
    simp only [isWord, isWordStart, Bool.and_eq_true] at h
    exact ⟨c, t, rfl, not_isSpace_of_isWordPart h.1.1⟩

theorem of_isNumber (h : isNumber t) : Visible t := by
  cases t with
  | nil => cases h
  | cons c t => exact ⟨c, t, rfl, not_isSpace_of_isNumber h⟩

theorem of_isString (h : isString t) : Visible t := by
  cases t with
  | nil => cases h
  | cons c t =>
    simp only [isString, Bool.and_eq_true, Bool.or_eq_true, decide_eq_true_eq] at h
    rcases h.1 with rfl | rfl <;> exact ⟨_, t, rfl, by decide⟩

theorem of_isSingleMark (h : isSingleMark c) : Visible (c :: t) := by
  refine ⟨c, t, rfl, ?_⟩
  by_contra hspace
  have hlexeme := lexeme_mark h true []
  rw [lexeme.eq_def, if_pos (by simpa using hspace)] at hlexeme
  cases hlexeme

end Visible

namespace Lexes

theorem nil : Lexes [] [] [] := by
  intro operand rest hrest
  exact ⟨operand, rfl⟩

theorem append (ht : Lexes lead t ts) (hu : Lexes [] u us) (hbounded : Bounded u) :
    Lexes lead (t ++ u) (ts ++ us) := by
  intro operand rest hrest
  obtain ⟨middle, hmiddle⟩ := ht operand (u ++ rest) (hbounded.append hrest)
  obtain ⟨next, hnext⟩ := hu middle rest hrest
  refine ⟨next, ?_⟩
  rw [List.append_assoc, hmiddle, hnext, List.append_assoc]

theorem blank (hne : t ≠ []) (hspace : ∀ c ∈ t, isSpace c) (hu : Lexes (lead ++ [.blank t]) u us)
    (hvisible : Visible u) : Lexes lead (t ++ u) us := by
  intro operand rest hrest
  obtain ⟨next, hnext⟩ := hu operand rest hrest
  refine ⟨next, ?_⟩
  rw [List.append_assoc, tokensFrom_blank hne hspace hvisible.head, hnext]

theorem word (h : isWord t) : Lexes lead t [⟨lead, .word, t⟩] := by
  intro operand rest hrest
  cases t with
  | nil => cases h
  | cons c t =>
    simp only [isWord, Bool.and_eq_true, List.all_eq_true] at h
    exact tokensFrom_token (lexeme_word h.1 h.2 hrest.endsWord _)

theorem number (h : isNumber t) : Lexes lead t [⟨lead, .number, t⟩] := by
  intro operand rest hrest
  cases t with
  | nil => cases h
  | cons c t => exact tokensFrom_token (lexeme_number h hrest _)

theorem string (h : isString t) : Lexes lead t [⟨lead, .string, t⟩] := by
  intro operand rest hrest
  cases t with
  | nil => cases h
  | cons c t => exact tokensFrom_token (lexeme_string h _)

-- A mark that is cut off from what stands behind it.
theorem mark (hu : Lexes [] u us)
    (h : ∀ regexAllowed rest, Bounded rest → lexeme regexAllowed c (u ++ rest) = (.token .mark, 0)) :
    Lexes lead (c :: u) (⟨lead, .mark, [c]⟩ :: us) := by
  intro operand rest hrest
  have hfirst : ∃ next, tokensFrom lead operand ([c] ++ (u ++ rest)) =
      ⟨lead, .mark, [c]⟩ :: tokensFrom [] next (u ++ rest) :=
    tokensFrom_token (h (!operand) rest hrest)
  obtain ⟨middle, hmiddle⟩ := hfirst
  obtain ⟨next, hnext⟩ := hu middle rest hrest
  refine ⟨next, ?_⟩
  rw [List.cons_append, List.cons_append, ← hnext]
  exact hmiddle

theorem singleMark (h : isSingleMark c) (hu : Lexes [] u us) :
    Lexes lead (c :: u) (⟨lead, .mark, [c]⟩ :: us) :=
  hu.mark fun regexAllowed rest _ => lexeme_mark h regexAllowed (u ++ rest)

-- The members of a union, with a bar between blanks.
theorem barred (ht : Lexes lead t ts) (hu : Lexes [.blank " "] u us) (hvisible : Visible u) :
    Lexes lead (t ++ " | " ++ u) (ts ++ ⟨[.blank " "], .mark, "|"⟩ :: us) := by
  have hbar : Lexes [.blank " "] (.char '|' :: ((" " : Text) ++ u)) (⟨[.blank " "], .mark, "|"⟩ :: us) :=
    .singleMark rfl (.blank (by decide) (by decide) hu hvisible)
  have hblank : Lexes [] ((" " : Text) ++ .char '|' :: ((" " : Text) ++ u)) (⟨[.blank " "], .mark, "|"⟩ :: us) :=
    .blank (by decide) (by decide) hbar (.of_isSingleMark rfl)
  rw [List.append_assoc]
  exact ht.append hblank (bounded_cons (by decide))

-- A word with a point and a name behind it.
theorem dotted (h : isWord t) (hc : isWordStart c) (hu : Lexes [] (c :: u) us) :
    Lexes lead (t ++ .char '.' :: c :: u) (⟨lead, .word, t⟩ :: ⟨[], .mark, "."⟩ :: us) := by
  have hpoint : Lexes [] (.char '.' :: c :: u) (⟨[], .mark, "."⟩ :: us) :=
    hu.mark fun regexAllowed rest _ => lexeme_point hc regexAllowed
  intro operand rest hrest
  cases t with
  | nil => cases h
  | cons d t =>
    simp only [isWord, Bool.and_eq_true, List.all_eq_true] at h
    have hends : EndsWord (.char '.' :: c :: u ++ rest) := by
      intro e he
      cases he
      decide
    have hfirst : ∃ next, tokensFrom lead operand (d :: t ++ (.char '.' :: c :: u ++ rest)) =
        ⟨lead, .word, d :: t⟩ :: tokensFrom [] next (.char '.' :: c :: u ++ rest) :=
      tokensFrom_token (lexeme_word h.1 h.2 hends (!operand))
    obtain ⟨middle, hmiddle⟩ := hfirst
    obtain ⟨next, hnext⟩ := hpoint middle rest hrest
    refine ⟨next, ?_⟩
    rw [List.append_assoc, hmiddle, hnext]
    rfl

end Lexes

end HookGen.Source
