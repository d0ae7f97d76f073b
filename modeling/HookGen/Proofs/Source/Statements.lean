import HookGen.Proofs.Source.Rereading
import HookGen.Proofs.Text.Words

/-!
Declarations that are read again from the same tokens: exported, and in front of another exported declaration or of the
end of a file.
-/

namespace HookGen.Source

variable {token word : Token} {start start' tokens ts us body rest rest' : List Token} {type : TypeExpr}
  {declaration again : Declaration} {declarations : List Declaration} {isExported : Bool} {budget budget' : Nat}

section Values

-- What a file goes on with behind a declaration: nothing, or another one that is exported on a line of its own.
def AtDeclaration (tokens : List Token) : Prop :=
  ∃ token rest, tokens = token :: rest ∧ (token.kind = .finish ∨ token.isWord "export" ∧ token.startsLine)

-- A declaration of the same type under the same name, exported and without type parameters.
structure Declaration.Again (again declaration : Declaration) : Prop where
  name : again.name = declaration.name
  value : again.value = declaration.value
  plain : again.hasTypeParameters = false
  exported : again.isExported

-- Tokens behind which no other word can be taken for one of theirs.
def Settled (ts : List Token) : Prop := ∀ token ∈ ts.getLast?, token.isWord "infer" = false

theorem Settled.of_append (ts : List Token) (h : Settled (ts ++ us)) : Settled us := by
  intro token hmem
  refine h token ?_
  rw [List.getLast?_append, Option.mem_def.mp hmem]
  rfl

theorem AtDeclaration.replaces (h : AtDeclaration rest') (hts : Settled ts) : Replaces ts rest rest' := by
  obtain ⟨token, others, rfl, htoken⟩ := h
  have hstops : token.Stops := htoken.imp_right .inr
  exact ⟨hstops.not_mark (by decide), .inr ⟨⟨token, others, rfl, hstops⟩, .inr hts⟩⟩

theorem AtDeclaration.endsAlias (h : AtDeclaration rest') : startsWithMark ";" rest' = false ∧ endsAlias rest' := by
  obtain ⟨token, others, rfl, hfinish | ⟨hword, hline⟩⟩ := h
  · simp [Source.endsAlias, Token.isMark, hfinish]
  · have hboth : token.kind = .word ∧ token.text = "export" := Token.isWord_iff.mp hword
    simp [Source.endsAlias, Token.isMark, hboth.1, hline]

theorem parseAliasValue_replace (h : parseAliasValue (ts ++ rest) = some (type, rest))
    (hplain : startsWithMark "<" (ts ++ rest) = false) (hrest : Replaces ts rest rest') :
    parseAliasValue (ts ++ rest') = some (type, rest') ∧ startsWithMark "<" (ts ++ rest') = false := by
  simp only [parseAliasValue, skipAngles, hplain, Bool.false_eq_true, if_false, Option.bind_eq_bind, Option.bind_some,
    Option.bind_eq_some_iff] at h
  obtain ⟨value, hequals, htype⟩ := h
  obtain ⟨equals, hvalue, hmark⟩ := exists_of_expectMark hequals
  obtain ⟨front, rfl⟩ := ((bracketed _).type htype).suffix
  obtain rfl : ts = equals :: front := List.append_cancel_right (by simpa using hvalue)
  have hangle : equals.isMark "<" = false := Token.not_isMark hmark (by decide)
  have htype' := (rereading _).type .line front rest' (budgetFor (front ++ rest')) htype (hrest.drop 1)
    (by simp only [budgetFor, List.length_append]; omega)
  dsimp only at htype'
  simp [parseAliasValue, skipAngles, hangle, expectMark, hmark, htype']

-- An alias with its semicolon, or one that ends with its line and the comments there.
theorem parseAlias_cases (h : parseAlias isExported start tokens = some (declaration, rest)) :
    ∃ name behind value next after, tokens = name :: behind ∧ parseAliasValue behind = some (value, next :: after) ∧
      (next.isMark ";" ∧ rest = after ∧ declaration =
        ⟨name.text, value, (sourceText (consumed start after)).trim, false, startsWithMark "<" behind, isExported⟩ ∨
      next.isMark ";" = false ∧ endsAlias (next :: after) ∧ rest = next :: after ∧ declaration =
        ⟨name.text, value, (sourceText (consumed start (next :: after)) ++
          (trailingComments next.lead).flatMap Trivia.text).trim, false, startsWithMark "<" behind, isExported⟩) := by
  cases tokens with
  | nil => cases h
  | cons name behind =>
    simp only [parseAlias, Option.bind_eq_bind, Option.pure_def, Option.bind_eq_some_iff] at h
    obtain ⟨⟨value, after⟩, hvalue, h⟩ := h
    cases after with
    | nil => cases h
    | cons next after =>
      refine ⟨name, behind, value, next, after, rfl, hvalue, ?_⟩
      dsimp only at h
      split at h
      · rename_i hend
        obtain ⟨hdeclaration, hrest⟩ := Prod.mk.inj (Option.some.inj h)
        exact .inl ⟨hend, hrest.symm, hdeclaration.symm⟩
      split at h
      · rename_i hend hends
        obtain ⟨hdeclaration, hrest⟩ := Prod.mk.inj (Option.some.inj h)
        exact .inr ⟨by simpa using hend, hends, hrest.symm, hdeclaration.symm⟩
      · cases h

theorem parseAlias_replace (ts : List Token) (h : parseAlias isExported start (ts ++ rest) = some (declaration, rest))
    (hplain : declaration.hasTypeParameters = false) (hts : Settled ts) (hrest : AtDeclaration rest')
    (start' : List Token) :
    ∃ again, parseAlias true start' (ts ++ rest') = some (again, rest') ∧ again.Again declaration := by
  obtain ⟨name, behind, value, next, after, htokens, hvalue, ⟨hend, rfl, rfl⟩ | ⟨-, -, rfl, rfl⟩⟩ := parseAlias_cases h
  · obtain ⟨front, rfl⟩ := parseAliasValue_suffix hvalue
    obtain rfl : ts = name :: (front ++ [next]) := List.append_cancel_right (by simpa using htokens)
    obtain ⟨hvalue', hplain'⟩ := parseAliasValue_replace hvalue hplain
      (show Replaces front (next :: rest) (next :: rest') from .cons (not_point_of_mark hend (by decide)))
    refine ⟨⟨name.text, value, (sourceText (consumed start' rest')).trim, false, false, true⟩, ?_, rfl, rfl, rfl, rfl⟩
    simp [parseAlias, hvalue', hplain', hend]
  · obtain ⟨front, rfl⟩ := parseAliasValue_suffix hvalue
    obtain rfl : ts = name :: front := List.append_cancel_right (by simpa using htokens)
    obtain ⟨hvalue', hplain'⟩ := parseAliasValue_replace hvalue hplain
      (hrest.replaces (.of_append [name] hts))
    obtain ⟨hend, hends⟩ := hrest.endsAlias
    obtain ⟨first, others, rfl, -⟩ := hrest
    refine ⟨⟨name.text, value, (sourceText (consumed start' (first :: others)) ++
      (trailingComments first.lead).flatMap Trivia.text).trim, false, false, true⟩, ?_, rfl, rfl, rfl, rfl⟩
    have hend' : first.isMark ";" = false := hend
    simp [parseAlias, hvalue', hplain', hend', hends]

theorem skipHead_replace (body : List Token) (budget' : Nat)
    (h : parseInterface.skipHead budget (ts ++ rest) = some (body ++ rest)) (hbody : body ≠ [])
    (hbudget : ts.length < budget') (rest' : List Token) :
    parseInterface.skipHead budget' (ts ++ rest') = some (body ++ rest') := by
  induction budget generalizing ts budget' with
  | zero => simp [parseInterface.skipHead] at h
  | succ budget ih =>
    obtain ⟨budget', rfl⟩ : ∃ n, budget' = n + 1 := ⟨budget' - 1, by omega⟩
    cases ts with
    | nil =>
      have hlength := (skipHead_suffix h).length_le
      rw [List.length_append, List.nil_append] at hlength
      exact absurd (List.length_eq_zero_iff.mp (by omega)) hbody
    | cons token ts =>
      rw [List.length_cons] at hbudget
      rw [List.cons_append, parseInterface.skipHead] at h ⊢
      split at h
      · rename_i hopen
        obtain rfl : token :: ts = body := List.append_cancel_right (by simpa using h)
        rw [if_pos hopen]
        rfl
      rename_i hopen
      rw [if_neg hopen]
      split at h
      · rename_i hangle
        obtain ⟨after, hgroup, hhead⟩ := Option.bind_eq_some_iff.mp h
        have hafter := (List.suffix_append body rest).trans (skipHead_suffix hhead)
        obtain ⟨front, back, hts, rfl⟩ := exists_split (token :: ts) (skipGroup_suffix hgroup) hafter
        have hwhole (tail : List Token) : token :: (ts ++ tail) = front ++ (back ++ tail) := by
          rw [← List.cons_append, hts, List.append_assoc]
        rw [hwhole] at hgroup ⊢
        obtain ⟨first, front, rfl⟩ : ∃ first others, front = first :: others := by
          refine List.exists_cons_of_ne_nil ?_
          rintro rfl
          have hempty := skipGroup_replace [] hgroup []
          simp [skipGroup] at hempty
        have hlength := congrArg List.length hts
        simp only [List.length_cons, List.length_append] at hlength
        rw [if_pos hangle, skipGroup_replace _ hgroup, Option.bind_some]
        exact ih budget' hhead (by omega)
      rename_i hangle
      rw [if_neg hangle]
      split at h
      · cases h
      · rename_i hfinish
        rw [if_neg hfinish]
        exact ih budget' h (by omega)

theorem parseInterface_cases (h : parseInterface isExported start tokens = some (declaration, rest)) :
    ∃ name behind open' inside entries, tokens = name :: behind ∧
      parseInterface.skipHead (behind.length + 1) behind = some (open' :: inside) ∧ open'.isMark "\x7b" ∧
      parseEntries (budgetFor (open' :: inside)) inside = some (entries, rest) ∧ declaration =
        ⟨name.text, .object entries, (sourceText (consumed start rest)).trim, true, startsWithMark "<" behind,
          isExported⟩ := by
  cases tokens with
  | nil => cases h
  | cons name behind =>
    simp only [parseInterface, Option.bind_eq_bind, Option.pure_def, Option.bind_eq_some_iff] at h
    obtain ⟨body, hhead, inside, hopen, ⟨entries, last⟩, hentries, h⟩ := h
    obtain ⟨open', rfl, hmark⟩ := exists_of_expectMark hopen
    obtain ⟨rfl, rfl⟩ := Prod.mk.inj (Option.some.inj h)
    exact ⟨name, behind, open', inside, entries, rfl, hhead, hmark, hentries, rfl⟩

theorem parseInterface_replace (ts : List Token)
    (h : parseInterface isExported start (ts ++ rest) = some (declaration, rest))
    (hplain : declaration.hasTypeParameters = false) (rest' start' : List Token) :
    ∃ again, parseInterface true start' (ts ++ rest') = some (again, rest') ∧ again.Again declaration := by
  obtain ⟨name, behind, open', inside, entries, htokens, hhead, hmark, hentries, rfl⟩ := parseInterface_cases h
  obtain ⟨back, rfl⟩ := ((bracketed _).entries hentries).suffix
  obtain ⟨front, rfl⟩ := ((List.suffix_append back rest).trans (List.suffix_cons open' _)).trans (skipHead_suffix hhead)
  obtain rfl : ts = name :: front := List.append_cancel_right (by simpa using htokens)
  have hhead' := skipHead_replace (open' :: back) ((front ++ rest').length + 1) hhead
    (List.cons_ne_nil _ _) (by rw [List.length_append]; omega) rest'
  have hentries' := (rereading _).entries _ (budgetFor (open' :: back ++ rest')) hentries
    (by simp only [budgetFor, List.length_append, List.length_cons]; omega) rest'
  have hplain' : startsWithMark "<" (front ++ rest') = false := by
    cases front with
    | nil =>
      have hlength := (skipHead_suffix hhead).length_le
      simp only [List.nil_append, List.length_cons, List.length_append] at hlength
      omega
    | cons => exact hplain
  refine ⟨⟨name.text, .object entries, (sourceText (consumed start' rest')).trim, true, false, true⟩,
      ?_, rfl, rfl, rfl, rfl⟩
  rw [List.cons_append, parseInterface, hhead', hplain']
  rw [List.cons_append] at hentries' ⊢
  simp [expectMark, hmark, hentries']

end Values

section Statements

-- A declaration that is read from its keyword on, as part of a statement that begins at `start`.
def Declares (isExported : Bool) (start tokens : List Token) (declaration : Declaration) (rest : List Token) : Prop :=
  startsAlias tokens ∧ parseAlias isExported start (tokens.drop 1) = some (declaration, rest) ∨
    startsInterface tokens ∧ parseInterface isExported start (tokens.drop 1) = some (declaration, rest)

-- A statement that declares a type, with what stands in front of the keyword.
inductive Stated (declaration : Declaration) (rest : List Token) : List Token → Prop
  | plain {tokens : List Token} (h : Declares false tokens tokens declaration rest) : Stated declaration rest tokens
  | exported (word : Token) {tokens : List Token} (hword : word.isWord "export") (hline : breaksLine tokens = false)
    (h : Declares true (word :: tokens) tokens declaration rest) : Stated declaration rest (word :: tokens)
  | default (word : Token) {other : Token} {tokens : List Token} (hword : word.isWord "export")
    (hother : other.isWord "default") (hline : other.startsLine = false)
    (h : Declares true (word :: other :: tokens) tokens declaration rest) :
    Stated declaration rest (word :: other :: tokens)

theorem keyword_of_startsAlias (h : startsAlias tokens) :
    ∃ keyword others, tokens = keyword :: others ∧ keyword.isWord "type" := by
  cases tokens with
  | nil => cases h
  | cons keyword others =>
    simp only [startsAlias, Bool.and_eq_true] at h
    exact ⟨keyword, others, rfl, h.1.1.1⟩

theorem keyword_of_startsInterface (h : startsInterface tokens) :
    ∃ keyword others, tokens = keyword :: others ∧ keyword.isWord "interface" := by
  cases tokens with
  | nil => cases h
  | cons keyword others =>
    simp only [startsInterface, Bool.and_eq_true] at h
    exact ⟨keyword, others, rfl, h.1⟩

theorem not_startsAlias (h : token.isWord "type" = false) : startsAlias (token :: tokens) = false := by
  simp [startsAlias, h]

theorem not_startsInterface (h : token.isWord "interface" = false) : startsInterface (token :: tokens) = false := by
  simp [startsInterface, h]

theorem Declares.not_startsAlias (h : startsInterface tokens) : startsAlias tokens = false := by
  obtain ⟨keyword, others, rfl, hkeyword⟩ := keyword_of_startsInterface h
  exact Source.not_startsAlias (Token.not_isWord hkeyword (by decide))

-- The branches for an alias and for an interface, in front of others.
theorem of_declares {other : Option (Option Declaration × List Token)}
    (h : Declares isExported start tokens declaration rest) :
    (if startsAlias tokens then (parseAlias isExported start (tokens.drop 1)).map fun found => (some found.1, found.2)
      else if startsInterface tokens then
        (parseInterface isExported start (tokens.drop 1)).map fun found => (some found.1, found.2)
      else other) = some (some declaration, rest) := by
  obtain ⟨hstarts, hread⟩ | ⟨hstarts, hread⟩ := h
  · rw [if_pos hstarts, hread]
    rfl
  · rw [if_neg (by simp [Declares.not_startsAlias hstarts]), if_pos hstarts, hread]
    rfl

theorem declares_of {other : Option (Option Declaration × List Token)}
    (h : (if startsAlias tokens then (parseAlias isExported start (tokens.drop 1)).map fun found =>
        (some found.1, found.2)
      else if startsInterface tokens then
        (parseInterface isExported start (tokens.drop 1)).map fun found => (some found.1, found.2)
      else other) = some (some declaration, rest)) :
    Declares isExported start tokens declaration rest ∨
      startsAlias tokens = false ∧ startsInterface tokens = false ∧ other = some (some declaration, rest) := by
  have hfound {read : Option (Declaration × List Token)}
      (h : (read.map fun found => (some found.1, found.2)) = some (some declaration, rest)) :
      read = some (declaration, rest) := by
    obtain ⟨⟨found, last⟩, hread, h⟩ := Option.map_eq_some_iff.mp h
    obtain ⟨hdeclaration, rfl⟩ := Prod.mk.inj h
    obtain rfl : found = declaration := Option.some.inj hdeclaration
    exact hread
  split at h
  · rename_i hstarts
    exact .inl (.inl ⟨hstarts, hfound h⟩)
  split at h
  · rename_i hstarts
    exact .inl (.inr ⟨hstarts, hfound h⟩)
  · rename_i halias hinterface
    exact .inr ⟨by simpa using halias, by simpa using hinterface, h⟩

theorem stated_of_parseStatement (h : parseStatement tokens = some (some declaration, rest)) :
    Stated declaration rest tokens := by
  have hskipped {after : Option (List Token)}
      (h : (after.map fun rest => ((none : Option Declaration), rest)) = some (some declaration, rest)) : False := by
    obtain ⟨_, -, h⟩ := Option.map_eq_some_iff.mp h
    cases h
  obtain hplain | ⟨-, -, hothers⟩ := declares_of h
  · exact .plain hplain
  split at hothers
  · rename_i hexport
    obtain ⟨word, exported, rfl⟩ : ∃ word exported, tokens = word :: exported := by
      refine List.exists_cons_of_ne_nil ?_
      rintro rfl
      cases hexport
    simp only [Bool.and_eq_true, Bool.not_eq_true', startsWithWord_cons, List.drop_succ_cons, List.drop_zero] at hexport
    obtain hexported | ⟨-, -, hbehind⟩ := declares_of hothers
    · exact .exported word hexport.1 hexport.2 hexported
    simp only [List.drop_succ_cons, List.drop_zero] at hbehind
    by_cases hdefault : startsWithWord "default" exported
    · obtain ⟨other, tokens, rfl⟩ : ∃ other tokens, exported = other :: tokens := by
        refine List.exists_cons_of_ne_nil ?_
        rintro rfl
        cases hdefault
      simp only [hdefault, Bool.true_and, List.drop_succ_cons, List.drop_zero] at hbehind
      obtain hdeclares | ⟨-, -, hlast⟩ := declares_of hbehind
      · exact .default word hexport.1 hdefault hexport.2 hdeclares
      · exact absurd hlast hskipped
    · simp only [hdefault, Bool.false_and, Bool.false_eq_true, if_false] at hbehind
      exact absurd hbehind hskipped
  · exact absurd hothers hskipped

theorem parseStatement_of_stated (h : Stated declaration rest tokens) :
    parseStatement tokens = some (some declaration, rest) := by
  have hnone {word : Token} {text : Text} (hword : word.isWord text) (htext : text ≠ "type" ∧ text ≠ "interface")
      (tokens : List Token) : startsAlias (word :: tokens) = false ∧ startsInterface (word :: tokens) = false :=
    ⟨not_startsAlias (Token.not_isWord hword htext.1), not_startsInterface (Token.not_isWord hword htext.2)⟩
  cases h with
  | plain h => exact of_declares h
  | @exported word tokens hword hline h =>
    obtain ⟨halias, hinterface⟩ := hnone hword (by decide) tokens
    rw [parseStatement]
    simp only [halias, hinterface, Bool.false_eq_true, if_false, startsWithWord_cons, hword, List.drop_succ_cons,
      List.drop_zero, hline, Bool.not_false, Bool.and_true, if_true]
    exact of_declares h
  | @default word other tokens hword hother hline h =>
    obtain ⟨halias, hinterface⟩ := hnone hword (by decide) (other :: tokens)
    obtain ⟨halias', hinterface'⟩ := hnone hother (by decide) tokens
    rw [parseStatement]
    simp only [halias, hinterface, halias', hinterface', Bool.false_eq_true, if_false, startsWithWord_cons, hword,
      hother, List.drop_succ_cons, List.drop_zero, breaksLine_cons, hline, Bool.not_false, Bool.and_true,
      Bool.true_and, if_true]
    exact of_declares h

-- Tokens whose last one nothing else on a new line belongs to, and that is not cut by trimming.
structure Sealed (ts : List Token) : Prop where
  settled : Settled ts
  solid : ∀ token ∈ ts.getLast?, token.text.getLast?.any Text.isSolid

theorem Sealed.of_mark {closing : Text} (h : ∃ token ∈ ts.getLast?, token.isMark closing)
    (hclosing : closing.getLast?.any Text.isSolid) : Sealed ts := by
  obtain ⟨token, hlast, hmark⟩ := h
  have hboth : token.kind = .mark ∧ token.text = closing := Token.isMark_iff.mp hmark
  constructor
  · intro other hother
    obtain rfl := Option.mem_unique hlast hother
    simp [Token.isWord, hboth.1]
  · intro other hother
    obtain rfl := Option.mem_unique hlast hother
    rwa [hboth.2]

theorem last_of_skipOpen {angles : Bool} {closing : Text} (inner : List Text)
    (h : skipOpen angles (inner ++ [closing]) (ts ++ rest) = some rest) :
    ∃ token ∈ ts.getLast?, token.isMark closing := by
  induction ts generalizing inner with
  | nil =>
    cases inner with
    | nil => exact absurd (length_lt_of_skipOpen h) (Nat.lt_irrefl _)
    | cons => exact absurd (length_lt_of_skipOpen h) (Nat.lt_irrefl _)
  | cons token ts ih =>
    have hbehind (inner : List Text) (h : skipOpen angles (inner ++ [closing]) (ts ++ rest) = some rest) :
        ∃ last ∈ (token :: ts).getLast?, last.isMark closing := by
      obtain ⟨last, hlast, hmark⟩ := ih inner h
      have hne : ts ≠ [] := by
        rintro rfl
        cases hlast
      exact ⟨last, by rwa [List.getLast?_cons_of_ne_nil hne], hmark⟩
    cases inner with
    | nil =>
      rw [List.nil_append, List.cons_append, skipOpen] at h
      split at h
      · rename_i hmark
        rw [skipOpen] at h
        obtain rfl := eq_nil_of_append_eq _ (Option.some.inj h)
        exact ⟨token, rfl, hmark⟩
      split at h
      · cases h
      split at h
      · rename_i other _
        exact hbehind [other] h
      · exact hbehind [] h
    | cons first inner =>
      rw [List.cons_append, List.cons_append, skipOpen] at h
      split at h
      · exact hbehind inner h
      split at h
      · cases h
      split at h
      · rename_i other _
        exact hbehind (other :: first :: inner) h
      · exact hbehind (first :: inner) h

-- The text of a declaration: its tokens, and the comments behind them if it ends with its line.
def Sourced (declaration : Declaration) (run ts rest : List Token) : Prop :=
  Sealed ts ∧ declaration.source = (sourceText run).trim ∨ endsAlias rest ∧
    ∃ next ∈ rest.head?, declaration.source = (sourceText run ++ (trailingComments next.lead).flatMap Trivia.text).trim

theorem Declares.sourced (h : Declares isExported start (ts ++ rest) declaration rest) :
    Sourced declaration (consumed start rest) ts rest := by
  obtain ⟨hstarts, h⟩ | ⟨hstarts, h⟩ := h
  · obtain ⟨keyword, others, heq, -⟩ := keyword_of_startsAlias hstarts
    rw [heq, List.drop_succ_cons, List.drop_zero] at h
    obtain ⟨name, behind, value, next, after, rfl, hvalue, ⟨hend, rfl, rfl⟩ | ⟨-, hends, rfl, rfl⟩⟩ :=
        parseAlias_cases h
    · obtain ⟨front, rfl⟩ := parseAliasValue_suffix hvalue
      obtain rfl : ts = keyword :: name :: (front ++ [next]) := List.append_cancel_right (by simpa using heq)
      exact .inl ⟨.of_mark ⟨next, by rw [← List.cons_append, ← List.cons_append, List.getLast?_concat]; rfl, hend⟩
          (by decide), rfl⟩
    · exact .inr ⟨hends, next, rfl, rfl⟩
  · obtain ⟨keyword, others, heq, -⟩ := keyword_of_startsInterface hstarts
    rw [heq, List.drop_succ_cons, List.drop_zero] at h
    obtain ⟨name, behind, open', inside, entries, rfl, hhead, hmark, hentries, rfl⟩ := parseInterface_cases h
    have hcloses := (bracketed _).entries hentries
    obtain ⟨back, rfl⟩ := hcloses.suffix
    obtain ⟨front, rfl⟩ := (List.suffix_cons open' _).trans (skipHead_suffix hhead)
    obtain rfl : ts = keyword :: name :: (front ++ back) := List.append_cancel_right (by simpa using heq)
    obtain ⟨token, hlast, hclosing⟩ := last_of_skipOpen [] ((hcloses.closed []).trans (by simp [skipOpen]))
    refine .inl ⟨.of_mark ⟨token, ?_, hclosing⟩ (by decide), rfl⟩
    have hback : back ≠ [] := by
      rintro rfl
      cases hlast
    rw [← List.cons_append, ← List.cons_append, List.getLast?_append_of_ne_nil _ hback]
    exact hlast

theorem length_lt_of_parseAliasValue (h : parseAliasValue tokens = some (type, rest)) :
    rest.length < tokens.length := by
  simp only [parseAliasValue, Option.bind_eq_bind, Option.bind_eq_some_iff] at h
  obtain ⟨middle, hangles, value, hequals, htype⟩ := h
  have hread := (Takes.expectMark (by decide) hequals).andThen ((bracketed _).type htype).toSpans
  exact hread.shorter.trans_le (Spans.skipAngles hangles).suffix.length_le

theorem exists_cons_append (h : rest <:+ tokens) (hlength : rest.length < tokens.length) :
    ∃ token us, tokens = token :: us ++ rest := by
  obtain ⟨front, rfl⟩ := h
  cases front with
  | nil => exact absurd hlength (Nat.lt_irrefl _)
  | cons token us => exact ⟨token, us, rfl⟩

-- What is declared has a keyword, a name and more in front of the rest.
theorem Declares.exists_tokens (h : Declares isExported start tokens declaration rest) :
    ∃ keyword name next us, tokens = keyword :: name :: next :: us ++ rest ∧
      (keyword.isWord "type" ∨ keyword.isWord "interface") := by
  obtain ⟨hstarts, h⟩ | ⟨hstarts, h⟩ := h
  · obtain ⟨keyword, others, rfl, hkeyword⟩ := keyword_of_startsAlias hstarts
    obtain ⟨name, behind, value, last, after, rfl, hvalue, hrest⟩ := parseAlias_cases h
    have hsuffix : rest <:+ last :: after := by
      obtain ⟨-, rfl, -⟩ | ⟨-, -, rfl, -⟩ := hrest
      · exact List.suffix_cons last rest
      · exact List.suffix_rfl
    obtain ⟨next, us, rfl⟩ := exists_cons_append (hsuffix.trans (parseAliasValue_suffix hvalue))
      (hsuffix.length_le.trans_lt (length_lt_of_parseAliasValue hvalue))
    exact ⟨keyword, name, next, us, rfl, .inl hkeyword⟩
  · obtain ⟨keyword, others, rfl, hkeyword⟩ := keyword_of_startsInterface hstarts
    obtain ⟨name, behind, open', inside, entries, rfl, hhead, hmark, hentries, -⟩ := parseInterface_cases h
    have hsuffix := ((bracketed _).entries hentries).suffix
    have hhead := skipHead_suffix hhead
    obtain ⟨next, us, rfl⟩ := exists_cons_append ((hsuffix.trans (List.suffix_cons open' _)).trans hhead)
      ((Nat.lt_succ_of_le hsuffix.length_le).trans_le hhead.length_le)
    exact ⟨keyword, name, next, us, rfl, .inr hkeyword⟩

theorem Sealed.cons (h : Sealed ts) (hne : ts ≠ []) (token : Token) : Sealed (token :: ts) := by
  constructor
  · rw [Settled, List.getLast?_cons_of_ne_nil hne]
    exact h.settled
  · rw [List.getLast?_cons_of_ne_nil hne]
    exact h.solid

theorem Sourced.cons {run : List Token} (h : Sourced declaration run ts rest) (hne : ts ≠ []) (token : Token) :
    Sourced declaration run (token :: ts) rest :=
  h.imp_left fun hsealed => ⟨hsealed.1.cons hne token, hsealed.2⟩

-- What stands in front of the rest of a statement: the declaration, and up to two words before it.
theorem Stated.cases_append (h : Stated declaration rest (ts ++ rest)) :
    Declares false (ts ++ rest) (ts ++ rest) declaration rest ∨
    (∃ word us, ts = word :: us ∧ us ≠ [] ∧ word.isWord "export" ∧ breaksLine (us ++ rest) = false ∧
      Declares true (word :: us ++ rest) (us ++ rest) declaration rest) ∨
    ∃ word other us, ts = word :: other :: us ∧ us ≠ [] ∧ word.isWord "export" ∧ other.isWord "default" ∧
      other.startsLine = false ∧ Declares true (word :: other :: us ++ rest) (us ++ rest) declaration rest := by
  generalize htokens : ts ++ rest = tokens at h
  cases h with
  | plain h => exact .inl (htokens ▸ h)
  | @exported word tokens hword hline h =>
    obtain ⟨keyword, name, next, us, rfl, -⟩ := h.exists_tokens
    obtain rfl : ts = word :: keyword :: name :: next :: us := List.append_cancel_right (by simpa using htokens)
    exact .inr (.inl ⟨word, _, rfl, List.cons_ne_nil _ _, hword, hline, h⟩)
  | @default word other tokens hword hother hline h =>
    obtain ⟨keyword, name, next, us, rfl, -⟩ := h.exists_tokens
    obtain rfl : ts = word :: other :: keyword :: name :: next :: us :=
        List.append_cancel_right (by simpa using htokens)
    exact .inr (.inr ⟨word, other, _, rfl, List.cons_ne_nil _ _, hword, hother, hline, h⟩)

theorem Stated.sourced (h : Stated declaration rest (ts ++ rest)) : Sourced declaration ts ts rest := by
  have hsource := consumed_append_self ts rest
  obtain h | ⟨word, us, rfl, hne, -, -, h⟩ | ⟨word, other, us, rfl, hne, -, -, -, h⟩ := h.cases_append
  · have hsourced := h.sourced
    rwa [hsource] at hsourced
  · have hsourced := h.sourced.cons hne word
    rwa [hsource] at hsourced
  · have hsourced := (h.sourced.cons hne other).cons (List.cons_ne_nil _ _) word
    rwa [hsource] at hsourced

theorem Declares.isExported_eq (h : Declares isExported start tokens declaration rest) :
    declaration.isExported = isExported := by
  obtain ⟨-, h⟩ | ⟨-, h⟩ := h
  · obtain ⟨_, _, _, _, _, -, -, ⟨-, -, rfl⟩ | ⟨-, -, -, rfl⟩⟩ := parseAlias_cases h <;> rfl
  · obtain ⟨_, _, _, _, _, -, -, -, -, rfl⟩ := parseInterface_cases h
    rfl

-- What is declared is declared again, whatever stands in front of it.
theorem Declares.replace (h : Declares isExported start (ts ++ rest) declaration rest)
    (hplain : declaration.hasTypeParameters = false) (hts : Settled ts) (hrest : AtDeclaration rest') :
    ∃ keyword us, ts = keyword :: us ∧ ∀ lead start', ∃ again,
      Declares true start' ({ keyword with lead } :: us ++ rest') again rest' ∧ again.Again declaration := by
  obtain ⟨keyword, name, next, us, htokens, -⟩ := h.exists_tokens
  obtain rfl : ts = keyword :: name :: next :: us := List.append_cancel_right htokens
  have hbehind : Settled (name :: next :: us) := hts.of_append [keyword]
  refine ⟨keyword, name :: next :: us, rfl, fun lead start' => ?_⟩
  obtain ⟨hstarts, h⟩ | ⟨hstarts, h⟩ := h
  · obtain ⟨again, hread, hagain⟩ := parseAlias_replace (name :: next :: us) h hplain hbehind hrest start'
    exact ⟨again, .inl ⟨hstarts, hread⟩, hagain⟩
  · obtain ⟨again, hread, hagain⟩ := parseInterface_replace (name :: next :: us) h hplain rest' start'
    exact ⟨again, .inr ⟨hstarts, hread⟩, hagain⟩

-- The first word of a statement.
theorem Stated.exists_first (h : Stated declaration rest (ts ++ rest)) : ∃ first others, ts = first :: others ∧
    (first.isWord "export" ∧ declaration.isExported ∨
      (first.isWord "type" ∨ first.isWord "interface") ∧ declaration.isExported = false) := by
  obtain h | ⟨word, us, rfl, -, hword, -, h⟩ | ⟨word, other, us, rfl, -, hword, -, -, h⟩ := h.cases_append
  · obtain ⟨keyword, name, next, us, heq, hkeyword⟩ := h.exists_tokens
    obtain rfl : ts = keyword :: name :: next :: us := List.append_cancel_right heq
    exact ⟨keyword, _, rfl, .inr ⟨hkeyword, h.isExported_eq⟩⟩
  · exact ⟨word, us, rfl, .inl ⟨hword, h.isExported_eq⟩⟩
  · exact ⟨word, other :: us, rfl, .inl ⟨hword, h.isExported_eq⟩⟩

-- The tokens of a declaration behind the word `export`, which is put in front if it is not there.
def exporting (isExported : Bool) (lead : List Trivia) : List Token → List Token
  | [] => []
  | first :: others =>
    if isExported then { first with lead } :: others
    else ⟨lead, .word, "export"⟩ :: { first with lead := [.blank " "] } :: others

theorem Stated.replace (h : Stated declaration rest (ts ++ rest)) (hplain : declaration.hasTypeParameters = false)
    (hts : Settled ts) (hrest : AtDeclaration rest') (lead : List Trivia) :
    ∃ again, parseStatement (exporting declaration.isExported lead ts ++ rest') = some (some again, rest') ∧
      again.Again declaration := by
  obtain h | ⟨word, us, rfl, -, hword, hline, h⟩ | ⟨word, other, us, rfl, -, hword, hother, hline, h⟩ := h.cases_append
  · obtain ⟨keyword, us, rfl, hreplace⟩ := h.replace hplain hts hrest
    obtain ⟨again, hdeclares, hagain⟩ := hreplace [.blank " "] _
    rw [h.isExported_eq]
    exact ⟨again, parseStatement_of_stated (.exported ⟨lead, .word, "export"⟩ rfl rfl hdeclares), hagain⟩
  · obtain ⟨keyword, us, rfl, hreplace⟩ := h.replace hplain (hts.of_append [word]) hrest
    obtain ⟨again, hdeclares, hagain⟩ := hreplace keyword.lead _
    rw [h.isExported_eq]
    exact ⟨again, parseStatement_of_stated (.exported { word with lead } hword hline hdeclares), hagain⟩
  · obtain ⟨keyword, us, rfl, hreplace⟩ := h.replace hplain (hts.of_append [word, other]) hrest
    obtain ⟨again, hdeclares, hagain⟩ := hreplace keyword.lead _
    rw [h.isExported_eq]
    exact ⟨again, parseStatement_of_stated (.default { word with lead } hword hother hline hdeclares), hagain⟩

end Statements

end HookGen.Source
