import HookGen.Proofs.Source.Lexing
import HookGen.Proofs.Source.Reading
import HookGen.Source.Declaration

/-!
Reading a source that is one exported alias.
-/

namespace HookGen.Source

variable {t : Text} {ts : List Token} {type : TypeExpr}

-- A source that is not for an interpreter is cut from its beginning.
theorem tokens_of_lexes (h : Lexes [] t ts) (hvisible : Visible t) (hplain : Text.startsWith "#!" t = false) :
    tokens t = ts ++ [⟨[], .finish, []⟩] := by
  have hblank : t.takeWhile isSpace = [] := by
    obtain ⟨c, u, rfl, hc⟩ := hvisible
    simp [hc]
  obtain ⟨next, hnext⟩ := h false [] bounded_nil
  rw [List.append_nil, tokensFrom_nil] at hnext
  simp [tokens, hblank, hplain, hnext]

-- The tokens of an exported alias up to its value, with blanks between them.
def aliasHead (name : Text) : List Token :=
  [⟨[], .word, "export"⟩, ⟨[.blank " "], .word, "type"⟩, ⟨[.blank " "], .word, name⟩, ⟨[.blank " "], .mark, "="⟩]

theorem lexes_aliasHead {name : Text} (hname : isWord name) (h : Lexes [.blank " "] t ts) (hvisible : Visible t) :
    Lexes [] ("export type " ++ name ++ " = " ++ t) (aliasHead name ++ ts) := by
  have hbounded {u : Text} : Bounded ((" " : Text) ++ u) := bounded_cons (by decide)
  have hblank {u : Text} {us : List Token} (hu : Lexes [.blank " "] u us) (hvisible : Visible u) :
      Lexes [] ((" " : Text) ++ u) us := .blank (by decide) (by decide) hu hvisible
  have hequals : Lexes [.blank " "] (.char '=' :: ((" " : Text) ++ t)) (⟨[.blank " "], .mark, "="⟩ :: ts) :=
    (hblank h hvisible).mark fun regexAllowed rest _ =>
        lexeme_equals (by simp [Text.ofString, Text.ofChars]) regexAllowed
  have hdeclared : Lexes [.blank " "] name [⟨[.blank " "], .word, name⟩] := .word hname
  have hnamed := hdeclared.append (hblank hequals ⟨_, _, rfl, by decide⟩) hbounded
  have hkeyword : Lexes [.blank " "] "type" [⟨[.blank " "], .word, "type"⟩] := .word (by decide)
  have htyped := hkeyword.append (hblank hnamed (Visible.of_isWord hname).append) hbounded
  have hword : Lexes [] "export" [⟨[], .word, "export"⟩] := .word (by decide)
  have hall := hword.append (hblank htyped (Visible.of_isWord (by decide)).append) hbounded
  simpa [aliasHead, Text.ofString, Text.ofChars] using hall

theorem tokens_alias {name : Text} (hname : isWord name) (h : Lexes [.blank " "] (t ++ ";") ts)
    (hvisible : Visible (t ++ ";")) : tokens ("export type " ++ name ++ " = " ++ t ++ ";") =
      aliasHead name ++ (ts ++ [⟨[], .finish, []⟩]) := by
  rw [List.append_assoc _ t, tokens_of_lexes (lexes_aliasHead hname h hvisible) ⟨_, _, rfl, by decide⟩ rfl,
    List.append_assoc]

theorem parseAliasValue_eq (hequals : token.isMark "=") (rest : List Token) :
    parseAliasValue (token :: rest) = parseType (budgetFor rest) .line rest := by
  have hangle : token.isMark "<" = false := Token.not_isMark hequals (by decide)
  simp [parseAliasValue, skipAngles, hangle, expectMark, hequals]

theorem ReadsType.reads_alias {ending finish : Token} (h : ReadsType type ts) (hend : ending.isMark ";")
    (hfinish : finish.kind = .finish) : parseType (budgetFor (ts ++ [ending, finish])) .line (ts ++ [ending, finish]) =
      some (type, [ending, finish]) := by
  have hplain : finish.isMark "=>" = false := by simp [Token.isMark, hfinish]
  have harrow : Arrowless [ending, finish] :=
    arrowless_mark hend (by decide) (arrowless_cons.mpr ⟨hplain, arrowless_nil⟩)
  have hbudget : 8 * ts.length + 4 ≤ budgetFor (ts ++ [ending, finish]) := by
    simp only [budgetFor, List.length_append, List.length_cons, List.length_nil]
    omega
  exact h.reads _ .line _ hbudget (.mark ';' hend (by decide)) harrow

-- The statement of an exported alias is read by its value.
theorem parseStatement_aliasHead (name : Text) (rest : List Token) : parseStatement (aliasHead name ++ rest) =
    (parseAlias true (aliasHead name ++ rest) ((aliasHead name ++ rest).drop 2)).map fun found =>
      (some found.1, found.2) := rfl

theorem parseStatements_alias {ending finish : Token} {budget : Nat} (name : Text)
    (h : parseType (budgetFor ts) .line ts = some (type, [ending, finish])) (hend : ending.isMark ";")
    (hfinish : finish.kind = .finish) (hbudget : 2 ≤ budget) :
    ∃ source, parseStatements budget (aliasHead name ++ ts) = some [⟨name, type, source, false, false, true⟩] := by
  obtain ⟨budget, rfl⟩ : ∃ n, budget = n + 2 := ⟨budget - 2, by omega⟩
  have hequals : Token.isMark "=" ⟨[.blank " "], .mark, "="⟩ := rfl
  have hvalue := (parseAliasValue_eq hequals ts).trans h
  have halias (start : List Token) : parseAlias true start ((aliasHead name ++ ts).drop 2) =
      some (⟨name, type, (sourceText (consumed start [finish])).trim, false, false, true⟩, [finish]) := by
    have hangle : Token.isMark "<" ⟨[.blank " "], .mark, "="⟩ = false := rfl
    simp [aliasHead, parseAlias, hvalue, hend, hangle]
  have hstart : startsWithKind .finish (aliasHead name ++ ts) = false := rfl
  have hothers : parseStatements (budget + 1) [finish] = some [] := by simp [parseStatements, hfinish]
  refine ⟨(sourceText (consumed (aliasHead name ++ ts) [finish])).trim, ?_⟩
  rw [parseStatements, hstart, parseStatement_aliasHead, halias]
  simp [hothers]

theorem parseDeclarations_of_tokens {source name : Text} {ending finish : Token}
    (htokens : tokens source = aliasHead name ++ ts)
    (h : parseType (budgetFor ts) .line ts = some (type, [ending, finish])) (hend : ending.isMark ";")
    (hfinish : finish.kind = .finish) :
    ∃ source', parseDeclarations source = some [⟨name, type, source', false, false, true⟩] := by
  have hlength : 2 ≤ (tokens source).length + 1 := by
    rw [htokens, aliasHead, List.cons_append, List.length_cons]
    omega
  obtain ⟨source', hparsed⟩ := parseStatements_alias name h hend hfinish hlength
  rw [← htokens] at hparsed
  refine ⟨source', ?_⟩
  simp only [parseDeclarations, hparsed]
  rfl

theorem parseDeclarations_alias {name : Text} (hname : isWord name) (h : ReadsType type ts)
    (hlexes : Lexes [.blank " "] t ts) (hvisible : Visible t) :
    ∃ source, parseDeclarations ("export type " ++ name ++ " = " ++ t ++ ";") =
      some [⟨name, type, source, false, false, true⟩] := by
  have hend : Lexes [] ";" [⟨[], .mark, ";"⟩] := .singleMark rfl .nil
  have htokens := tokens_alias hname (hlexes.append hend (bounded_cons (by decide))) hvisible.append
  rw [List.append_assoc ts] at htokens
  exact parseDeclarations_of_tokens htokens (h.reads_alias rfl rfl) rfl rfl

end HookGen.Source
