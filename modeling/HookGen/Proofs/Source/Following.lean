import HookGen.Source.TypeParser
import Mathlib.Init

/-!
What types begin with and what can follow them, as far as the parsers look at it. Only an arrow makes an
opening parenthesis the beginning of a function.
-/

namespace HookGen.Source

variable {token : Token} {tokens ts us rest : List Token}

@[simp] theorem startsWithMark_cons (mark : Text) (token : Token) (rest : List Token) :
    startsWithMark mark (token :: rest) = token.isMark mark := rfl

@[simp] theorem startsWithWord_cons (word : Text) (token : Token) (rest : List Token) :
    startsWithWord word (token :: rest) = token.isWord word := rfl

@[simp] theorem startsWithKind_cons (kind : Kind) (token : Token) (rest : List Token) :
    startsWithKind kind (token :: rest) = (token.kind == kind) := rfl

@[simp] theorem breaksLine_cons (token : Token) (rest : List Token) :
    breaksLine (token :: rest) = token.startsLine := rfl

theorem Token.isMark_iff {mark : Text} : token.isMark mark ↔ token.kind = .mark ∧ token.text = mark := by
  simp [isMark]

theorem Token.isWord_iff {word : Text} : token.isWord word ↔ token.kind = .word ∧ token.text = word := by
  simp [isWord]

-- A token is one mark only.
theorem Token.not_isMark {mark other : Text} (h : token.isMark mark) (hne : mark ≠ other) :
    token.isMark other = false := by
  have hboth : token.kind = .mark ∧ token.text = mark := Token.isMark_iff.mp h
  simp [isMark, hboth.2, hne]

theorem Token.not_isWord {word other : Text} (h : token.isWord word) (hne : word ≠ other) :
    token.isWord other = false := by
  have hboth : token.kind = .word ∧ token.text = word := Token.isWord_iff.mp h
  simp [isWord, hboth.2, hne]

theorem consumed_append_self (tokens rest : List Token) : consumed (tokens ++ rest) rest = tokens := by
  rw [consumed, List.length_append, Nat.add_sub_cancel, List.take_left]

-- Tokens that begin with one of the given kinds or marks.
def Begins (kinds : List Kind) (marks : List Char) (tokens : List Token) : Prop :=
  ∃ token rest, tokens = token :: rest ∧
    (token.kind ∈ kinds ∨ token.kind = .mark ∧ ∃ c ∈ marks, token.text = [.char c])

-- What an operand begins with.
def BeginsOperand : List Token → Prop :=
  Begins [.word, .number, .string] ['(', '[', '\x7b', '-', '+']

-- What can follow a type: the end of the source, or a mark that ends what it is part of.
def FollowsType : List Token → Prop := Begins [.finish] [',', ';', ')', ']', '\x7d', '>']

-- What can follow a member of a union.
def FollowsMember : List Token → Prop := Begins [.finish] ['|', ',', ';', ')', ']', '\x7d', '>']

-- What can follow an operand to which brackets may belong.
def FollowsOperand : List Token → Prop :=
  Begins [.finish] ['[', '|', ',', ';', ')', ']', '\x7d', '>']

-- Tokens without the arrow of a function.
def Arrowless (tokens : List Token) : Prop := ∀ token ∈ tokens, token.isMark "=>" = false

namespace Begins

variable {kinds : List Kind} {marks : List Char}

theorem append (h : Begins kinds marks ts) : Begins kinds marks (ts ++ us) := by
  obtain ⟨token, rest, rfl, hfirst⟩ := h
  exact ⟨token, rest ++ us, rfl, hfirst⟩

theorem mono {others : List Char} (h : Begins kinds marks ts) (hmarks : marks ⊆ others) :
    Begins kinds others ts := by
  obtain ⟨token, rest, rfl, hfirst⟩ := h
  refine ⟨token, rest, rfl, hfirst.imp id ?_⟩
  rintro ⟨hkind, c, hc, htext⟩
  exact ⟨hkind, c, hmarks hc, htext⟩

theorem mark (c : Char) (h : token.isMark [.char c]) (hc : c ∈ marks) :
    Begins kinds marks (token :: rest) := by
  have hboth : token.kind = .mark ∧ token.text = [.char c] := Token.isMark_iff.mp h
  exact ⟨token, rest, rfl, .inr ⟨hboth.1, c, hc, hboth.2⟩⟩

theorem not_mark (h : Begins kinds marks ts) (hkinds : .mark ∉ kinds) {mark : Text}
    (hmarks : mark ∉ marks.map fun c => [.char c]) : startsWithMark mark ts = false := by
  obtain ⟨token, rest, rfl, hfirst⟩ := h
  rcases hfirst with hkind | ⟨hkind, c, hc, htext⟩
  · have hne : token.kind ≠ .mark := by
      rintro heq
      exact hkinds (heq ▸ hkind)
    simp [Token.isMark, hne]
  · have hne : token.text ≠ mark := by
      rintro rfl
      exact hmarks (List.mem_map.mpr ⟨c, hc, htext.symm⟩)
    simp [Token.isMark, hne]

theorem not_kind (h : Begins kinds marks ts) {kind : Kind} (hkind : kind ∉ kinds) (hmark : kind ≠ .mark) :
    startsWithKind kind ts = false := by
  obtain ⟨token, rest, rfl, hfirst⟩ := h
  rcases hfirst with htoken | ⟨htoken, -⟩
  · have hne : token.kind ≠ kind := by
      rintro heq
      exact hkind (heq ▸ htoken)
    simp [hne]
  · simp [htoken, Ne.symm hmark]

end Begins

theorem not_word_of_not_kind {word : Text} (h : startsWithKind .word tokens = false) :
    startsWithWord word tokens = false := by
  cases tokens with
  | nil => rfl
  | cons token rest =>
    have hkind : token.kind ≠ .word := by simpa using h
    simp [Token.isWord, hkind]

theorem FollowsType.member (h : FollowsType rest) : FollowsMember rest :=
  Begins.mono h (by decide)

theorem FollowsMember.operand (h : FollowsMember rest) : FollowsOperand rest :=
  Begins.mono h (by decide)

theorem arrowless_nil : Arrowless [] := by
  intro token h
  cases h

theorem arrowless_cons : Arrowless (token :: ts) ↔ token.isMark "=>" = false ∧ Arrowless ts :=
  List.forall_mem_cons

theorem arrowless_mark {mark : Text} (h : token.isMark mark) (hne : mark ≠ "=>") (hs : Arrowless ts) :
    Arrowless (token :: ts) :=
  arrowless_cons.mpr ⟨Token.not_isMark h hne, hs⟩

theorem arrowless_append : Arrowless (ts ++ us) ↔ Arrowless ts ∧ Arrowless us :=
  List.forall_mem_append

-- Skipping brackets ends at a tail of the tokens.
theorem skipOpen_suffix {angles : Bool} {closings : List Text}
    (h : skipOpen angles closings tokens = some rest) : rest <:+ tokens := by
  induction closings, tokens using skipOpen.induct angles with
  | case1 tokens =>
    rw [skipOpen] at h
    cases h
    exact List.suffix_refl _
  | case2 closing outer => simp [skipOpen] at h
  | case3 closing outer token tokens hclosing ih =>
    rw [skipOpen, if_pos hclosing] at h
    exact (ih h).trans (List.suffix_cons _ _)
  | case4 closing outer token tokens hclosing hother =>
    rw [skipOpen, if_neg hclosing, if_pos hother] at h
    cases h
  | case5 closing outer token tokens hclosing hother inner hinner ih =>
    rw [skipOpen, if_neg hclosing, if_neg hother, hinner] at h
    exact (ih h).trans (List.suffix_cons _ _)
  | case6 closing outer token tokens hclosing hother hinner ih =>
    rw [skipOpen, if_neg hclosing, if_neg hother, hinner] at h
    exact (ih h).trans (List.suffix_cons _ _)

theorem skipGroup_suffix {angles : Bool} (h : skipGroup angles tokens = some rest) : rest <:+ tokens := by
  cases tokens with
  | nil => simp [skipGroup] at h
  | cons token tokens =>
    rw [skipGroup] at h
    cases hclosing : closingMark? angles token with
    | none => simp [hclosing] at h
    | some closing =>
      rw [hclosing] at h
      exact (skipOpen_suffix h).trans (List.suffix_cons _ _)

theorem skipParameters_suffix (h : skipParameters tokens = some rest) : rest <:+ tokens := by
  simp only [skipParameters, Option.bind_eq_bind, Option.bind_eq_some_iff] at h
  obtain ⟨middle, hangles, hgroup⟩ := h
  have hmiddle : middle <:+ tokens := by
    unfold skipAngles at hangles
    split at hangles
    · exact skipGroup_suffix hangles
    · cases hangles
      exact List.suffix_refl _
  split at hgroup
  · exact (skipGroup_suffix hgroup).trans hmiddle
  · cases hgroup

theorem Arrowless.not_startsFunction (h : Arrowless tokens) : startsFunction tokens = false := by
  cases hskip : skipParameters tokens with
  | none => simp [startsFunction, hskip]
  | some rest =>
    have hrest : startsWithMark "=>" rest = false := by
      cases rest with
      | nil => rfl
      | cons token rest =>
        have hmem : token ∈ tokens := (skipParameters_suffix hskip).subset (by simp)
        exact h token hmem
    simp [startsFunction, hskip, hrest]

end HookGen.Source
