import HookGen.Source.Lexer
import HookGen.Text.Word
import Mathlib.Init

/-!
Words in texts: a name that stands in a text as an identifier is found as a word, if its first and its
last character are word characters.
-/

namespace HookGen

namespace Text

variable {word before after : Text}

-- Whether a word edge lies in front of a text and behind it wherever identifiers end.
def isWordy (word : Text) : Bool := word.head?.any CodePoint.isWord && word.getLast?.any CodePoint.isWord

theorem includesWordAfter_of_edges {previous : Option CodePoint} (hwordy : isWordy word)
    (hbefore : (before.getLast?.or previous).any CodePoint.isWord = false)
    (hafter : after.head?.any CodePoint.isWord = false) :
    includesWordAfter word previous (before ++ word ++ after) := by
  simp only [isWordy, Bool.and_eq_true] at hwordy
  induction before generalizing previous with
  | nil =>
    cases word with
    | nil => simp at hwordy
    | cons c rest =>
      have hstart : isWordEdge previous (some c) := by
        have hprevious : previous.any CodePoint.isWord = false := by simpa using hbefore
        have hfirst : c.isWord := by simpa using hwordy.1
        simp [isWordEdge, hprevious, hfirst]
      have hend : isWordEdge (((c :: rest).getLast?).or previous) after.head? := by
        obtain ⟨last, hlast⟩ := Option.isSome_iff_exists.mp (List.getLast?_isSome.mpr (List.cons_ne_nil c rest))
        have hword : last.isWord := by simpa [hlast] using hwordy.2
        simp [isWordEdge, hlast, hword, hafter]
      rw [List.nil_append, List.cons_append, includesWordAfter, Bool.or_eq_true]
      left
      have hdrop : (c :: (rest ++ after)).drop (c :: rest).length = after := by simp
      have hfront : (c :: rest).isPrefixOf (c :: (rest ++ after)) := by simp
      rw [hfront, hdrop, hstart, hend]
      rfl
  | cons c before ih =>
    rw [List.cons_append, List.cons_append, includesWordAfter, Bool.or_eq_true]
    refine .inr (ih ?_)
    cases before with
    | nil => simpa using hbefore
    | cons d before =>
      have hlast : (c :: d :: before).getLast? = (d :: before).getLast? := List.getLast?_cons_cons
      rw [hlast] at hbefore
      obtain ⟨last, heq⟩ := Option.isSome_iff_exists.mp (List.getLast?_isSome.mpr (List.cons_ne_nil d before))
      simpa [heq] using hbefore

end Text

namespace Source

-- The spaces beyond ASCII.
def wideSpaces : List (Nat × Nat) := [
  (0xA0, 0xA0), (0x1680, 0x1680), (0x2000, 0x200B), (0x2028, 0x2029), (0x202F, 0x202F), (0x205F, 0x2060),
  (0x3000, 0x3000), (0xFEFF, 0xFEFF)]

theorem isSpace_wide {c : CodePoint} (hwide : 128 ≤ c.toNat) (h : isSpace c) :
    ∃ range ∈ wideSpaces, range.1 ≤ c.toNat ∧ c.toNat ≤ range.2 := by
  simp only [isSpace, Bool.or_eq_true, Bool.and_eq_true, decide_eq_true_eq, beq_iff_eq] at h
  simp only [wideSpaces, List.mem_cons, List.not_mem_nil, or_false, exists_eq_or_imp, exists_eq_left]
  omega

theorem isPunctuation_ascii {c : CodePoint} (h : isPunctuation c) : c.toNat < 128 := by
  cases c with
  | surrogate offset => cases h
  | char c =>
    have hall : ∀ n ∈ [':', ';', '\x60', '"', '\'', '@', '#', '.', ',', '|', '^', '&', '<', '=', '>', '+', '-',
      '*', '/', '\\', '%', '?', '!', '~', '(', ')', '[', ']', '\x7b', '\x7d'].map Char.toNat, n < 128 := by decide
    exact hall c.toNat (List.mem_map_of_mem (by simpa [isPunctuation, CodePoint.isIn] using h))

theorem wordRanges_disjoint : ∀ range ∈ wordRanges, ∀ space ∈ wideSpaces,
    range.2 < space.1 ∨ space.2 < range.1 := by
  decide +kernel

-- Word characters can be part of identifiers.
theorem isWordPart_of_isWord {c : CodePoint} (h : c.isWord) : isWordPart c := by
  by_cases hascii : c.toNat < 128
  · have hall : ∀ n < 128, CodePoint.isWord (.char (Char.ofNat n)) → isWordPart (.char (Char.ofNat n)) := by
      decide +kernel
    cases c with
    | surrogate offset =>
      simp only [CodePoint.toNat] at hascii
      omega
    | char c =>
      have hword := hall c.toNat hascii
      rw [Char.ofNat_toNat] at hword
      exact hword h
  · rw [CodePoint.isWord, if_neg hascii, List.any_eq_true] at h
    obtain ⟨range, hrange, hin⟩ := h
    simp only [Bool.and_eq_true, decide_eq_true_eq] at hin
    have hspace : isSpace c = false := by
      refine Bool.eq_false_iff.mpr fun hspace => ?_
      obtain ⟨space, hmem, hle⟩ := isSpace_wide (Nat.le_of_not_lt hascii) hspace
      have hdisjoint := wordRanges_disjoint range hrange space hmem
      omega
    have hpunctuation : isPunctuation c = false :=
      Bool.eq_false_iff.mpr fun hpunctuation => hascii (isPunctuation_ascii hpunctuation)
    have hlarge : 0x20 < c.toNat := by omega
    simp [isWordPart, hspace, hpunctuation, hlarge]

-- A name stands in a text as a whole: what is next to it cannot belong to an identifier.
def Stands (name t : Text) : Prop :=
  ∃ before after, t = before ++ name ++ after ∧ before.getLast?.any isWordPart = false ∧
    after.head?.any isWordPart = false

theorem Stands.includesWord {name t : Text} (h : Stands name t) (hwordy : Text.isWordy name) :
    Text.includesWord name t := by
  have hmono {found : Option CodePoint} (hpart : found.any isWordPart = false) :
      found.any CodePoint.isWord = false := by
    cases found with
    | none => rfl
    | some c =>
      refine Bool.eq_false_iff.mpr fun hword => ?_
      simp [isWordPart_of_isWord (c := c) (by simpa using hword)] at hpart
  obtain ⟨before, after, rfl, hbefore, hafter⟩ := h
  exact Text.includesWordAfter_of_edges hwordy (by simpa using hmono hbefore) (hmono hafter)

end Source

end HookGen
