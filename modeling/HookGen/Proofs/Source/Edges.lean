import HookGen.Proofs.Source.Keeping

/-!
The first and the last token of a type. Neither is a regular expression, and no type begins with a slash.
-/

namespace HookGen.Source

variable {token : Token} {tokens middle rest : List Token} {budget : Nat} {context : Context} {type : TypeExpr}

section First

-- A slash, or a regular expression, which begins with one.
def Token.IsSlash (token : Token) : Prop := token.kind = .regex ∨ token.isMark "/"

theorem Token.not_isSlash_of_word (h : token.kind = .word) : ¬ token.IsSlash := by
  simp [IsSlash, isMark, h]

theorem Token.not_isSlash_of_mark {mark : Text} (h : token.isMark mark) (hmark : mark ≠ "/") : ¬ token.IsSlash := by
  have hboth : token.kind = .mark ∧ token.text = mark := Token.isMark_iff.mp h
  simp [IsSlash, isMark, hboth, hmark]

theorem not_isSlash_of_startsWithWord {word : Text} (h : startsWithWord word (token :: tokens)) : ¬ token.IsSlash := by
  have hboth : token.kind = .word ∧ token.text = word := Token.isWord_iff.mp h
  exact Token.not_isSlash_of_word hboth.1

theorem not_isSlash_of_primary (h : parsePrimary budget (token :: tokens) = some (type, rest)) : ¬ token.IsSlash := by
  cases budget with
  | zero => cases h
  | succ budget =>
    rintro (hregex | hslash)
    · simp [parsePrimary, hregex] at h
    · have hboth : token.kind = .mark ∧ token.text = "/" := Token.isMark_iff.mp hslash
      simp [parsePrimary, hboth, Token.isMark, Text.ofString, Text.ofChars] at h

theorem not_isSlash_of_operand (h : parseOperand budget context (token :: tokens) = some (type, rest)) :
    ¬ token.IsSlash := by
  cases budget with
  | zero => cases h
  | succ budget =>
    simp only [parseOperand] at h
    split at h
    · rename_i hfunction
      obtain hangle | hparen := Bool.or_eq_true_iff.mp (Bool.and_eq_true_iff.mp hfunction).1
      · exact Token.not_isSlash_of_mark hangle (by decide)
      · exact Token.not_isSlash_of_mark hparen (by decide)
    split at h
    · exact not_isSlash_of_startsWithWord ‹_›
    split at h
    · exact not_isSlash_of_startsWithWord ‹_›
    split at h
    · rename_i hnew
      obtain hnew | hnew := Bool.or_eq_true_iff.mp hnew
      · exact not_isSlash_of_startsWithWord hnew
      · exact not_isSlash_of_startsWithWord (Bool.and_eq_true_iff.mp hnew).1
    split at h
    · rename_i hinfer
      exact not_isSlash_of_startsWithWord (Bool.and_eq_true_iff.mp hinfer).1
    · obtain ⟨_, hprimary, -⟩ := Option.bind_eq_some_iff.mp h
      exact not_isSlash_of_primary hprimary

theorem not_isSlash_of_intersection (h : parseIntersection budget context (token :: tokens) = some (type, rest)) :
    ¬ token.IsSlash := by
  cases budget with
  | zero => cases h
  | succ budget =>
    simp only [parseIntersection] at h
    split at h
    · exact Token.not_isSlash_of_mark ‹_› (by decide)
    · obtain ⟨_, hoperand, -⟩ := Option.bind_eq_some_iff.mp h
      exact not_isSlash_of_operand hoperand

theorem not_isSlash_of_type (h : parseType budget context (token :: tokens) = some (type, rest)) : ¬ token.IsSlash := by
  match budget with
  | 0 => cases h
  | 1 => cases h
  | budget + 2 =>
    obtain ⟨_, hunion, -⟩ := Option.bind_eq_some_iff.mp h
    simp only [parseUnion] at hunion
    split at hunion
    · exact Token.not_isSlash_of_mark ‹_› (by decide)
    · obtain ⟨_, hintersection, -⟩ := Option.bind_eq_some_iff.mp hunion
      exact not_isSlash_of_intersection hintersection

end First

section Last

-- Tokens up to a tail, the last of which is no regular expression.
def EndsPlain (tokens rest : List Token) : Prop := ∃ front token, tokens = front ++ token :: rest ∧ token.kind ≠ .regex

theorem EndsPlain.of_suffix (h : EndsPlain middle rest) (hmiddle : middle <:+ tokens) : EndsPlain tokens rest := by
  obtain ⟨front, token, rfl, hkind⟩ := h
  obtain ⟨more, rfl⟩ := hmiddle
  exact ⟨more ++ front, token, by simp, hkind⟩

theorem endsPlain_cons (h : token.kind ≠ .regex) : EndsPlain (token :: rest) rest := ⟨[], token, rfl, h⟩

theorem endsPlain_drop {p : Token → Bool} (hp : ∀ token, p token → token.kind ≠ .regex) (h : tokens.head?.any p) :
    EndsPlain tokens (tokens.drop 1) := by
  cases tokens with
  | nil => cases h
  | cons token tokens => exact endsPlain_cons (hp token h)

theorem Token.kind_ne_of_isMark {mark : Text} (h : token.isMark mark) : token.kind ≠ .regex := by
  have hboth : token.kind = .mark ∧ token.text = mark := Token.isMark_iff.mp h
  simp [hboth.1]

theorem endsPlain_mark {mark : Text} (h : startsWithMark mark tokens) : EndsPlain tokens (tokens.drop 1) :=
  endsPlain_drop (fun _ => Token.kind_ne_of_isMark) h

theorem endsPlain_word (h : startsWithKind .word tokens) : EndsPlain tokens (tokens.drop 1) :=
  endsPlain_drop (fun token hkind => by simp_all) h

theorem endsPlain_expectMark {mark : Text} (h : expectMark mark tokens = some rest) : EndsPlain tokens rest := by
  obtain ⟨token, rfl, hmark⟩ := exists_of_expectMark h
  exact endsPlain_cons (Token.kind_ne_of_isMark hmark)

-- Tokens up to a tail, if any.
def EndsOpen (tokens rest : List Token) : Prop := rest = tokens ∨ EndsPlain tokens rest

theorem EndsPlain.then (h : EndsPlain tokens middle) (h' : EndsOpen middle rest) : EndsPlain tokens rest := by
  obtain rfl | h' := h'
  · exact h
  · obtain ⟨front, token, rfl, -⟩ := h
    exact h'.of_suffix ⟨front ++ [token], by simp⟩

theorem endsPlain_skipOpen {angles : Bool} {closing : Text} {outer : List Text}
    (h : skipOpen angles (closing :: outer) tokens = some rest) : EndsPlain tokens rest := by
  induction tokens generalizing closing outer with
  | nil => cases h
  | cons token tokens ih =>
    have hbehind {outer : List Text} {closing : Text} (h : skipOpen angles (closing :: outer) tokens = some rest) :
        EndsPlain (token :: tokens) rest := (ih h).of_suffix (List.suffix_cons _ _)
    rw [skipOpen] at h
    split at h
    · rename_i hclosing
      cases outer with
      | nil =>
        rw [skipOpen] at h
        obtain rfl := Option.some.inj h
        exact endsPlain_cons (Token.kind_ne_of_isMark hclosing)
      | cons => exact hbehind h
    split at h
    · cases h
    split at h
    · exact hbehind h
    · exact hbehind h

theorem endsPlain_skipGroup {angles : Bool} (h : skipGroup angles tokens = some rest) : EndsPlain tokens rest := by
  cases tokens with
  | nil => cases h
  | cons token tokens =>
    rw [skipGroup] at h
    split at h
    · exact (endsPlain_skipOpen h).of_suffix (List.suffix_cons _ _)
    · cases h

theorem endsOpen_skipAngles (h : skipAngles tokens = some rest) : EndsOpen tokens rest := by
  rw [skipAngles] at h
  split at h
  · exact .inr (endsPlain_skipGroup h)
  · exact .inl (Option.some.inj h).symm

theorem endsOpen_skipDots (tokens : List Token) : EndsOpen tokens (skipDots tokens) := by
  rw [skipDots]
  induction tokens using spanDots.induct with
  | case1 point word rest h dots after heq ih =>
    rw [spanDots, if_pos h]
    have hword : EndsPlain (word :: rest) rest := endsPlain_cons (by simp_all)
    exact .inr ((hword.then ih).of_suffix (List.suffix_cons _ _))
  | case2 point word rest h =>
    rw [spanDots, if_neg h]
    exact .inl rfl
  | case3 tokens h =>
    rw [spanDots]
    · exact .inl rfl
    · exact h

theorem EndsOpen.then (h : EndsOpen tokens middle) (h' : EndsOpen middle rest) : EndsOpen tokens rest := by
  obtain rfl | h := h
  · exact h'
  · exact .inr (h.then h')

theorem endsPlain_skipQueried (h : skipQueried tokens = some rest) : EndsPlain tokens rest := by
  cases tokens with
  | nil => cases h
  | cons token tokens =>
    rw [skipQueried] at h
    split at h
    · obtain ⟨after, hgroup, hangles⟩ := Option.bind_eq_some_iff.mp h
      have hname := (endsPlain_skipGroup hgroup).then ((endsOpen_skipDots after).then (endsOpen_skipAngles hangles))
      exact hname.of_suffix (List.suffix_cons _ _)
    split at h
    · rename_i hword
      exact (endsPlain_cons (by simp_all)).then ((endsOpen_skipDots tokens).then (endsOpen_skipAngles h))
    · cases h

-- What the parsers read with a budget.
structure Finishes (budget : Nat) : Prop where
  type : ∀ {context tokens type rest}, parseType budget context tokens = some (type, rest) → EndsPlain tokens rest
  union : ∀ {context tokens type rest}, parseUnion budget context tokens = some (type, rest) → EndsPlain tokens rest
  alternatives : ∀ {context tokens types rest},
    parseAlternatives budget context tokens = some (types, rest) → EndsOpen tokens rest
  intersection : ∀ {context tokens type rest},
    parseIntersection budget context tokens = some (type, rest) → EndsPlain tokens rest
  intersected : ∀ {context tokens rest}, skipIntersected budget context tokens = some rest → EndsOpen tokens rest
  operand : ∀ {context tokens type rest}, parseOperand budget context tokens = some (type, rest) → EndsPlain tokens rest
  result : ∀ {context tokens rest}, skipResult budget context tokens = some rest → EndsPlain tokens rest
  indices : ∀ {context start type tokens result rest},
    parsePostfix budget context start type tokens = some (result, rest) → EndsOpen tokens rest
  primary : ∀ {tokens type rest}, parsePrimary budget tokens = some (type, rest) → EndsPlain tokens rest
  arguments : ∀ {tokens types rest}, parseArguments budget tokens = some (types, rest) → EndsPlain tokens rest
  elements : ∀ {tokens types rest}, parseElements budget tokens = some (types, rest) → EndsPlain tokens rest
  entries : ∀ {tokens entries rest}, parseEntries budget tokens = some (entries, rest) → EndsPlain tokens rest

theorem finishes_type (ih : Finishes budget) (h : parseType (budget + 1) context tokens = some (type, rest)) :
    EndsPlain tokens rest := by
  simp only [parseType, Option.bind_eq_bind, Option.bind_eq_some_iff, Option.pure_def] at h
  obtain ⟨⟨first, after⟩, hfirst, h⟩ := h
  split at h
  · simp only [Option.bind_eq_some_iff] at h
    obtain ⟨⟨_, bound⟩, hbound, question, hquestion, ⟨_, yes⟩, hyes, colon, hcolon, ⟨_, no⟩, hno, h⟩ := h
    obtain ⟨-, rfl⟩ := Prod.mk.inj (Option.some.inj h)
    have hquestion' := (Takes.expectMark (by decide) hquestion).suffix.trans
      (((bracketed budget).type hbound).suffix.trans (List.drop_suffix 1 after))
    have hcolon' := (Takes.expectMark (by decide) hcolon).suffix.trans ((bracketed budget).type hyes).suffix
    exact (ih.type hno).of_suffix ((hcolon'.trans hquestion').trans ((bracketed budget).union hfirst).suffix)
  · obtain ⟨-, rfl⟩ := Prod.mk.inj (Option.some.inj h)
    exact ih.union hfirst

theorem finishes_union (ih : Finishes budget) (h : parseUnion (budget + 1) context tokens = some (type, rest)) :
    EndsPlain tokens rest := by
  simp only [parseUnion, Option.bind_eq_bind, Option.bind_eq_some_iff, Option.pure_def] at h
  obtain ⟨⟨first, after⟩, hfirst, ⟨others, last⟩, hothers, h⟩ := h
  have hread := (ih.intersection hfirst).of_suffix
    (Spans.dropMark (by decide : Text.ofString "|" ∉ bracketMarks) tokens).suffix
  split at h
  all_goals
    obtain ⟨-, rfl⟩ := Prod.mk.inj (Option.some.inj h)
    exact hread.then (ih.alternatives hothers)

theorem finishes_alternatives {types : List TypeExpr} (ih : Finishes budget)
    (h : parseAlternatives (budget + 1) context tokens = some (types, rest)) : EndsOpen tokens rest := by
  rw [parseAlternatives] at h
  split at h
  · simp only [Option.bind_eq_bind, Option.bind_eq_some_iff, Option.pure_def] at h
    obtain ⟨⟨first, after⟩, hfirst, ⟨others, last⟩, hothers, h⟩ := h
    obtain ⟨-, rfl⟩ := Prod.mk.inj (Option.some.inj h)
    exact .inr (((ih.intersection hfirst).then (ih.alternatives hothers)).of_suffix (List.drop_suffix 1 tokens))
  · exact .inl (Prod.mk.inj (Option.some.inj h)).2.symm

theorem finishes_intersection (ih : Finishes budget)
    (h : parseIntersection (budget + 1) context tokens = some (type, rest)) : EndsPlain tokens rest := by
  simp only [parseIntersection, Option.bind_eq_bind, Option.bind_eq_some_iff, Option.pure_def] at h
  obtain ⟨⟨first, after⟩, hfirst, last, hothers, h⟩ := h
  have hread := (ih.operand hfirst).of_suffix
    (Spans.dropMark (by decide : Text.ofString "&" ∉ bracketMarks) tokens).suffix
  split at h
  · obtain ⟨-, rfl⟩ := Prod.mk.inj (Option.some.inj h)
    exact hread.then (ih.intersected hothers)
  · obtain ⟨-, rfl⟩ := Prod.mk.inj (Option.some.inj h)
    exact hread

theorem finishes_intersected (ih : Finishes budget) (h : skipIntersected (budget + 1) context tokens = some rest) :
    EndsOpen tokens rest := by
  rw [skipIntersected] at h
  split at h
  · simp only [Option.bind_eq_bind, Option.bind_eq_some_iff] at h
    obtain ⟨⟨_, after⟩, hoperand, hothers⟩ := h
    exact .inr (((ih.operand hoperand).then (ih.intersected hothers)).of_suffix (List.drop_suffix 1 tokens))
  · exact .inl (Option.some.inj h).symm

theorem finishes_operand (ih : Finishes budget) (h : parseOperand (budget + 1) context tokens = some (type, rest)) :
    EndsPlain tokens rest := by
  have harrow {parameters after tail : List Token} (hparameters : parameters <:+ tokens)
      (hskip : skipParameters parameters = some after) (hmark : expectMark "=>" after = some tail) : tail <:+ tokens :=
    ((Takes.expectMark (by decide) hmark).suffix.trans (skipParameters_suffix hskip)).trans hparameters
  simp only [parseOperand, Option.bind_eq_bind, Option.pure_def] at h
  split at h
  · simp only [Option.bind_eq_some_iff] at h
    obtain ⟨after, hparameters, tail, hmark, last, hresult, h⟩ := h
    obtain ⟨-, rfl⟩ := Prod.mk.inj (Option.some.inj h)
    exact (ih.result hresult).of_suffix (harrow List.suffix_rfl hparameters hmark)
  split at h
  · obtain ⟨⟨_, last⟩, htype, h⟩ := Option.bind_eq_some_iff.mp h
    obtain ⟨-, rfl⟩ := Prod.mk.inj (Option.some.inj h)
    exact (ih.type htype).of_suffix (List.drop_suffix 1 tokens)
  split at h
  · obtain ⟨⟨_, last⟩, hoperand, h⟩ := Option.bind_eq_some_iff.mp h
    obtain ⟨-, rfl⟩ := Prod.mk.inj (Option.some.inj h)
    exact (ih.operand hoperand).of_suffix (List.drop_suffix 1 tokens)
  split at h
  · simp only [Option.bind_eq_some_iff] at h
    obtain ⟨after, hparameters, tail, hmark, ⟨_, last⟩, hoperand, h⟩ := h
    obtain ⟨-, rfl⟩ := Prod.mk.inj (Option.some.inj h)
    exact (ih.operand hoperand).of_suffix (harrow (List.drop_suffix _ _) hparameters hmark)
  split at h
  · rename_i hinfer
    have hname := (endsPlain_word (Bool.and_eq_true_iff.mp hinfer).2).of_suffix (List.drop_suffix 1 tokens)
    rw [List.drop_drop] at hname
    split at h
    · obtain ⟨⟨_, last⟩, hunion, h⟩ := Option.bind_eq_some_iff.mp h
      obtain ⟨-, rfl⟩ := Prod.mk.inj (Option.some.inj h)
      exact (ih.union hunion).of_suffix ((List.drop_suffix 1 _).trans (List.drop_suffix 2 tokens))
    · obtain ⟨-, rfl⟩ := Prod.mk.inj (Option.some.inj h)
      exact hname
  · obtain ⟨⟨_, after⟩, hprimary, hindices⟩ := Option.bind_eq_some_iff.mp h
    exact (ih.primary hprimary).then (ih.indices hindices)

theorem finishes_result (ih : Finishes budget) (h : skipResult (budget + 1) context tokens = some rest) :
    EndsPlain tokens rest := by
  simp only [skipResult, Option.bind_eq_bind, Option.pure_def] at h
  split at h
  · obtain ⟨⟨_, last⟩, htype, h⟩ := Option.bind_eq_some_iff.mp h
    obtain rfl := Option.some.inj h
    exact (ih.type htype).of_suffix (List.drop_suffix 2 tokens)
  split at h
  · rename_i hasserts
    split at h
    · obtain ⟨⟨_, last⟩, htype, h⟩ := Option.bind_eq_some_iff.mp h
      obtain rfl := Option.some.inj h
      exact (ih.type htype).of_suffix (List.drop_suffix 3 tokens)
    · simp only [Bool.and_eq_true] at hasserts
      obtain rfl := Option.some.inj h
      have hsubject := (endsPlain_word hasserts.1.2).of_suffix (List.drop_suffix 1 tokens)
      rwa [List.drop_drop] at hsubject
  · obtain ⟨⟨_, last⟩, htype, h⟩ := Option.bind_eq_some_iff.mp h
    obtain rfl := Option.some.inj h
    exact ih.type htype

theorem finishes_indices {start : List Token} {result : TypeExpr} (ih : Finishes budget)
    (h : parsePostfix (budget + 1) context start type tokens = some (result, rest)) : EndsOpen tokens rest := by
  simp only [parsePostfix, Option.bind_eq_bind] at h
  split at h
  · split at h
    · rename_i hclose
      have hpair := (endsPlain_mark hclose).of_suffix (List.drop_suffix 1 tokens)
      rw [List.drop_drop] at hpair
      exact .inr (hpair.then (ih.indices h))
    · simp only [Option.bind_eq_some_iff] at h
      obtain ⟨⟨index, after⟩, hindex, last, hclose, h⟩ := h
      have hpair := (endsPlain_expectMark hclose).of_suffix
        (((bracketed budget).type hindex).suffix.trans (List.drop_suffix 1 tokens))
      exact .inr (hpair.then (ih.indices h))
  · exact .inl (Prod.mk.inj (Option.some.inj h)).2.symm

theorem finishes_primary (ih : Finishes budget) (h : parsePrimary (budget + 1) tokens = some (type, rest)) :
    EndsPlain tokens rest := by
  cases tokens with
  | nil => cases h
  | cons token tokens =>
    have hsingle (hkind : token.kind ≠ .regex) {type' : TypeExpr} (h : some (type', tokens) = some (type, rest)) :
        EndsPlain (token :: tokens) rest := by
      obtain ⟨-, rfl⟩ := Prod.mk.inj (Option.some.inj h)
      exact endsPlain_cons hkind
    have hpair {type' : TypeExpr} (hnext : EndsPlain tokens (tokens.drop 1))
        (h : some (type', tokens.drop 1) = some (type, rest)) : EndsPlain (token :: tokens) rest := by
      obtain ⟨-, rfl⟩ := Prod.mk.inj (Option.some.inj h)
      exact hnext.of_suffix (List.suffix_cons _ _)
    simp only [parsePrimary, Option.bind_eq_bind, Option.pure_def] at h
    cases hkind : token.kind with
    | finish => simp [hkind] at h
    | regex => simp [hkind] at h
    | string =>
      rw [hkind] at h
      exact hsingle (by simp [hkind]) h
    | template =>
      rw [hkind] at h
      exact hsingle (by simp [hkind]) h
    | number =>
      rw [hkind] at h
      exact hsingle (by simp [hkind]) h
    | mark =>
      simp only [hkind] at h
      split at h
      · simp only [Option.bind_eq_some_iff] at h
        obtain ⟨⟨inner, middle⟩, hinner, after, hclose, h⟩ := h
        obtain ⟨-, rfl⟩ := Prod.mk.inj (Option.some.inj h)
        exact (endsPlain_expectMark hclose).of_suffix
            (((bracketed budget).type hinner).suffix.trans (List.suffix_cons _ _))
      split at h
      · obtain ⟨⟨_, last⟩, helements, h⟩ := Option.bind_eq_some_iff.mp h
        obtain ⟨-, rfl⟩ := Prod.mk.inj (Option.some.inj h)
        exact (ih.elements helements).of_suffix (List.suffix_cons _ _)
      split at h
      · obtain ⟨⟨_, last⟩, hentries, h⟩ := Option.bind_eq_some_iff.mp h
        obtain ⟨-, rfl⟩ := Prod.mk.inj (Option.some.inj h)
        exact (ih.entries hentries).of_suffix (List.suffix_cons _ _)
      split at h
      · rename_i hsigned
        exact hpair (endsPlain_drop (fun token hnumber => by simp_all) (Bool.and_eq_true_iff.mp hsigned).2) h
      · cases h
    | word =>
      have hword : token.kind ≠ .regex := by simp [hkind]
      simp only [hkind] at h
      split at h
      · exact hsingle hword h
      split at h
      · rename_i hunique
        exact hpair
            (endsPlain_drop (fun token hsymbol => by simp_all [Token.isWord]) (Bool.and_eq_true_iff.mp hunique).2) h
      split at h
      · obtain ⟨after, hqueried, h⟩ := Option.bind_eq_some_iff.mp h
        obtain ⟨-, rfl⟩ := Prod.mk.inj (Option.some.inj h)
        exact (endsPlain_skipQueried hqueried).of_suffix (List.suffix_cons _ _)
      split at h
      · simp only [Option.bind_eq_some_iff] at h
        obtain ⟨after, hgroup, last, hangles, h⟩ := h
        obtain ⟨-, rfl⟩ := Prod.mk.inj (Option.some.inj h)
        have hname := (endsPlain_skipGroup hgroup).then ((endsOpen_skipDots after).then (endsOpen_skipAngles hangles))
        exact hname.of_suffix (List.suffix_cons _ _)
      have hdots : EndsPlain (token :: tokens) (spanDots tokens).2 :=
          (endsPlain_cons hword).then (endsOpen_skipDots tokens)
      split at h
      · obtain ⟨⟨_, last⟩, harguments, h⟩ := Option.bind_eq_some_iff.mp h
        obtain ⟨-, rfl⟩ := Prod.mk.inj (Option.some.inj h)
        exact (ih.arguments harguments).of_suffix
          ((List.drop_suffix 1 _).trans ((Spans.skipDots tokens).suffix.trans (List.suffix_cons _ _)))
      split at h
      · exact hsingle hword h
      · obtain ⟨-, rfl⟩ := Prod.mk.inj (Option.some.inj h)
        exact hdots

theorem finishes_arguments {types : List TypeExpr} (ih : Finishes budget)
    (h : parseArguments (budget + 1) tokens = some (types, rest)) : EndsPlain tokens rest := by
  simp only [parseArguments, Option.bind_eq_bind, Option.pure_def, Option.bind_eq_some_iff] at h
  obtain ⟨⟨first, after⟩, hfirst, h⟩ := h
  have hsuffix := ((bracketed budget).type hfirst).suffix
  split at h
  · obtain ⟨-, rfl⟩ := Prod.mk.inj (Option.some.inj h)
    exact (endsPlain_mark ‹_›).of_suffix hsuffix
  · obtain ⟨comma, hcomma, h⟩ := Option.bind_eq_some_iff.mp h
    have hcomma' := (Takes.expectMark (by decide) hcomma).suffix.trans hsuffix
    split at h
    · obtain ⟨-, rfl⟩ := Prod.mk.inj (Option.some.inj h)
      exact (endsPlain_mark ‹_›).of_suffix hcomma'
    · obtain ⟨⟨_, last⟩, hothers, h⟩ := Option.bind_eq_some_iff.mp h
      obtain ⟨-, rfl⟩ := Prod.mk.inj (Option.some.inj h)
      exact (ih.arguments hothers).of_suffix hcomma'

theorem finishes_elements {types : List TypeExpr} (ih : Finishes budget)
    (h : parseElements (budget + 1) tokens = some (types, rest)) : EndsPlain tokens rest := by
  simp only [parseElements, Option.bind_eq_bind, Option.pure_def] at h
  split at h
  · obtain ⟨-, rfl⟩ := Prod.mk.inj (Option.some.inj h)
    exact endsPlain_mark ‹_›
  · obtain ⟨⟨first, after⟩, hfirst, h⟩ := Option.bind_eq_some_iff.mp h
    have hsuffix := ((bracketed budget).element hfirst).suffix
    split at h
    · obtain ⟨-, rfl⟩ := Prod.mk.inj (Option.some.inj h)
      exact (endsPlain_mark ‹_›).of_suffix hsuffix
    · simp only [Option.bind_eq_some_iff] at h
      obtain ⟨comma, hcomma, ⟨_, last⟩, hothers, h⟩ := h
      obtain ⟨-, rfl⟩ := Prod.mk.inj (Option.some.inj h)
      exact (ih.elements hothers).of_suffix ((Takes.expectMark (by decide) hcomma).suffix.trans hsuffix)

theorem finishes_entries {entries : List Entry} (ih : Finishes budget)
    (h : parseEntries (budget + 1) tokens = some (entries, rest)) : EndsPlain tokens rest := by
  simp only [parseEntries, Option.bind_eq_bind, Option.pure_def] at h
  split at h
  · obtain ⟨-, rfl⟩ := Prod.mk.inj (Option.some.inj h)
    exact endsPlain_mark ‹_›
  split at h
  · exact (ih.entries h).of_suffix (List.drop_suffix 1 tokens)
  · obtain ⟨⟨entry, after⟩, hentry, h⟩ := Option.bind_eq_some_iff.mp h
    split at h
    · obtain ⟨⟨_, last⟩, hothers, h⟩ := Option.bind_eq_some_iff.mp h
      obtain ⟨-, rfl⟩ := Prod.mk.inj (Option.some.inj h)
      exact (ih.entries hothers).of_suffix ((bracketed budget).entry hentry).suffix
    · cases h

theorem finishes (budget : Nat) : Finishes budget := by
  induction budget with
  | zero =>
    constructor <;> simp [parseType, parseUnion, parseAlternatives, parseIntersection, skipIntersected, parseOperand,
      skipResult, parsePostfix, parsePrimary, parseArguments, parseElements, parseEntries]
  | succ budget ih => exact ⟨finishes_type ih, finishes_union ih, finishes_alternatives ih, finishes_intersection ih,
      finishes_intersected ih, finishes_operand ih, finishes_result ih, finishes_indices ih, finishes_primary ih,
      finishes_arguments ih, finishes_elements ih, finishes_entries ih⟩

end Last

end HookGen.Source
