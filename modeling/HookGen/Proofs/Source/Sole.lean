import HookGen.Proofs.Source.Alias
import HookGen.Proofs.Source.Restating

/-!
Sources that begin with an exported alias and declare nothing else: their only declaration has the value that is read
behind the equals sign.
-/

namespace HookGen.Source

variable {ts us rest start : List Token} {budget : Nat} {name source : Text} {isExported : Bool}
  {declaration : Declaration} {declarations : List Declaration}

section Names

-- A declared name is the text of a token.
theorem name_of_parseAlias (h : parseAlias isExported start us = some (declaration, rest)) :
    ∃ token ∈ us, token.text = declaration.name := by
  cases us with
  | nil => cases h
  | cons token us =>
    simp only [parseAlias, Option.bind_eq_bind, Option.bind_eq_some_iff] at h
    obtain ⟨⟨value, after⟩, -, h⟩ := h
    refine ⟨token, List.mem_cons_self .., ?_⟩
    cases after with
    | nil => cases h
    | cons next after =>
      dsimp only at h
      split at h
      · obtain ⟨rfl, -⟩ := Prod.mk.inj (Option.some.inj h)
        rfl
      · split at h
        · obtain ⟨rfl, -⟩ := Prod.mk.inj (Option.some.inj h)
          rfl
        · cases h

theorem name_of_parseInterface (h : parseInterface isExported start us = some (declaration, rest)) :
    ∃ token ∈ us, token.text = declaration.name := by
  cases us with
  | nil => cases h
  | cons token us =>
    simp only [parseInterface, Option.bind_eq_bind, Option.bind_eq_some_iff, Option.pure_def] at h
    obtain ⟨_, -, _, -, _, -, h⟩ := h
    obtain ⟨rfl, -⟩ := Prod.mk.inj (Option.some.inj h)
    exact ⟨token, List.mem_cons_self .., rfl⟩

theorem Declares.exists_name (h : Declares isExported start us declaration rest) :
    ∃ token ∈ us, token.text = declaration.name := by
  obtain ⟨-, h⟩ | ⟨-, h⟩ := h
  · obtain ⟨token, hmem, hname⟩ := name_of_parseAlias h
    exact ⟨token, List.mem_of_mem_drop hmem, hname⟩
  · obtain ⟨token, hmem, hname⟩ := name_of_parseInterface h
    exact ⟨token, List.mem_of_mem_drop hmem, hname⟩

theorem Stated.exists_name (h : Stated declaration rest us) : ∃ token ∈ us, token.text = declaration.name := by
  cases h with
  | plain h => exact h.exists_name
  | exported word hword hline h =>
    obtain ⟨token, hmem, hname⟩ := h.exists_name
    exact ⟨token, List.mem_cons_of_mem _ hmem, hname⟩
  | default word hword hother hline h =>
    obtain ⟨token, hmem, hname⟩ := h.exists_name
    exact ⟨token, List.mem_cons_of_mem _ (List.mem_cons_of_mem _ hmem), hname⟩

theorem exists_name (h : parseStatements budget us = some declarations) (hmem : declaration ∈ declarations) :
    ∃ token ∈ us, token.text = declaration.name := by
  obtain ⟨front, ts, rest, rfl, -, hstated⟩ := exists_stated h hmem
  obtain ⟨token, hmem, hname⟩ := hstated.exists_name
  exact ⟨token, List.mem_append_right _ hmem, hname⟩

end Names

section Values

-- Behind an alias the other statements are read.
theorem exists_of_parseStatements (h : parseStatements budget (aliasHead name ++ ts) = some declarations) :
    ∃ type after source others, parseType (budgetFor ts) .line ts = some (type, after) ∧
      declarations = ⟨name, type, source, false, false, true⟩ :: others ∧
      ∃ last n, last <:+ ts ∧ parseStatements n last = some others := by
  cases budget with
  | zero => cases h
  | succ budget =>
    have hequals : Token.isMark "=" ⟨[.blank " "], .mark, "="⟩ := rfl
    have hangle : Token.isMark "<" ⟨[.blank " "], .mark, "="⟩ = false := rfl
    have hstart : startsWithKind .finish (aliasHead name ++ ts) = false := rfl
    simp only [parseStatements, hstart, Bool.false_eq_true, if_false, parseStatement_aliasHead, Option.bind_eq_bind,
      Option.bind_eq_some_iff, Option.pure_def, Option.map_eq_some_iff] at h
    obtain ⟨_, ⟨⟨first, last⟩, halias, rfl⟩, others, hothers, h⟩ := h
    obtain rfl := Option.some.inj h
    have hdrop : (aliasHead name ++ ts).drop 2 = ⟨[.blank " "], .word, name⟩ :: ⟨[.blank " "], .mark, "="⟩ :: ts := rfl
    simp only [hdrop, parseAlias, parseAliasValue_eq hequals, Option.bind_eq_bind, Option.bind_eq_some_iff,
      Option.pure_def, startsWithMark_cons, hangle] at halias
    obtain ⟨⟨type, after⟩, hvalue, halias⟩ := halias
    have hsuffix := ((bracketed _).type hvalue).suffix
    refine ⟨type, after, ?_⟩
    cases after with
    | nil => cases halias
    | cons next after =>
      dsimp only at halias
      split at halias
      · obtain ⟨rfl, rfl⟩ := Prod.mk.inj (Option.some.inj halias)
        exact ⟨_, others, hvalue, rfl, after, budget, (List.suffix_cons next after).trans hsuffix, hothers⟩
      · split at halias
        · obtain ⟨rfl, rfl⟩ := Prod.mk.inj (Option.some.inj halias)
          exact ⟨_, others, hvalue, rfl, _, budget, hsuffix, hothers⟩
        · cases halias

-- Under a name that does not occur in its value an alias is the only declaration only if nothing is declared behind it.
theorem parseType_of_parseDeclarations (hfresh : ∀ token ∈ ts, token.text ≠ name)
    (htokens : tokens source = aliasHead name ++ ts) (h : parseDeclarations source = some [declaration]) :
    ∃ after, parseType (budgetFor ts) .line ts = some (declaration.value, after) := by
  obtain ⟨parsed, hparsed, hfold⟩ := Option.map_eq_some_iff.mp h
  rw [htokens] at hparsed
  obtain ⟨type, after, source', others, hvalue, rfl, last, n, hlast, hothers⟩ := exists_of_parseStatements hparsed
  have hnamed {other : Declaration} (hmem : other ∈ ⟨name, type, source', false, false, true⟩ :: others) :
      other.name = declaration.name := by
    have hkept := mem_name_foldl [] (.inr (List.mem_map_of_mem hmem))
    rw [hfold] at hkept
    exact List.mem_singleton.mp hkept
  cases others with
  | nil =>
    obtain rfl := (List.cons.inj hfold).1
    exact ⟨after, hvalue⟩
  | cons other others =>
    obtain ⟨token, hmem, htext⟩ := exists_name hothers (List.mem_cons_self ..)
    have hsame := (hnamed (List.mem_cons_of_mem _ (List.mem_cons_self ..))).trans (hnamed (List.mem_cons_self ..)).symm
    exact absurd (htext.trans hsame) (hfresh token (hlast.subset hmem))

-- Some name occurs nowhere in a given run.
theorem exists_fresh (ts : List Token) : ∃ name, isWord name ∧ ∀ token ∈ ts, token.text ≠ name := by
  refine ⟨.char 'T' :: List.replicate (fullText ts).length (.char 'T'), ?_, fun token hmem hname => ?_⟩
  · have hstart : isWordStart (.char 'T') := by decide
    have hpart : isWordPart (.char 'T') := by decide
    simp [isWord, hstart, hpart]
  · have hlength : token.text.length ≤ (fullText ts).length := by
      obtain ⟨front, back, rfl⟩ := List.append_of_mem hmem
      simp only [fullText_append, fullText_cons, List.length_append]
      omega
    rw [hname, List.length_cons, List.length_replicate] at hlength
    omega

end Values

end HookGen.Source
