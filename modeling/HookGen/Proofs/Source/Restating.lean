import HookGen.Proofs.Source.Edges
import HookGen.Proofs.Source.Moving
import HookGen.Proofs.Source.Statements
import Mathlib.Data.List.Chain

/-!
The statement of a declaration, cut out of its source. Behind the word `export` it declares the same again, in front of
other such statements.
-/

namespace HookGen.Source

variable {source s t u u' v w : Text} {operand next isExported : Bool} {first token : Token} {declaration : Declaration}
  {declarations : List Declaration} {front others ts rest tokens : List Token} {trivia : List Trivia} {budget : Nat}

section Cutting

-- Whether a token ends its line well: no other word belongs to it, and nothing of it is trimmed away.
def EndsWell (token next : Token) : Prop :=
  next.startsLine ∨ next.kind = .finish → token.isWord "infer" = false ∧ token.text.getLast?.any Text.isSolid

instance (token next : Token) : Decidable (EndsWell token next) :=
  inferInstanceAs (Decidable (_ ∨ _ → _ ∧ _))

-- A source that goes on behind its end: no literal and no comment is open there, and every line ends well.
structure Continuable (source : Text) : Prop where
  closed : (Source.tokens source).dropLast <+: Source.tokens (source ++ "\n;")
  longer : (Source.tokens source).length < (Source.tokens (source ++ "\n;")).length
  lines : (Source.tokens source).IsChain EndsWell

-- A run of a source that goes on is read from its text in front of a semicolon behind the rest.
theorem Continuable.exists_reads (h : Continuable source) (htokens : Source.tokens source = front ++ (ts ++ rest))
    (hts : ts ≠ []) (hrest : rest ≠ []) : ∃ operand next v, Reads operand (sourceText ts ++ (v ++ "\n;")) (bare ts) next
      (v ++ "\n;") ∧ rest = tokensFrom [] next v ∧ Ended next v := by
  obtain ⟨back, hback⟩ := h.closed
  have hlonger := h.longer
  rw [← hback] at hlonger
  rw [htokens, List.dropLast_append_of_ne_nil (by simp [hts]), List.dropLast_append_of_ne_nil hrest] at hback hlonger
  simp only [List.length_append, List.length_dropLast] at hlonger
  obtain ⟨first, ts, rfl⟩ := List.exists_cons_of_ne_nil hts
  -- the run is read from the same text in both sources
  have hreads (source : Text) (rest : List Token) (h : Source.tokens source = front ++ (first :: ts ++ rest))
      (hrest : rest ≠ []) : ∃ operand v, Reads operand (sourceText (first :: ts) ++ v) (bare (first :: ts))
        (operandBehind false (first :: ts)) v ∧ rest = tokensFrom [] (operandBehind false (first :: ts)) v ∧
          source = fullText front ++ (fullText (first :: ts) ++ v) := by
    obtain ⟨lead, t, heq⟩ := exists_tokens_eq source
    obtain ⟨lead, operand, t, heq⟩ := exists_tokensFrom_of_append (heq.symm.trans h) (by simp)
    obtain ⟨next, v, hread, hback⟩ := exists_reads_bare heq (List.cons_ne_nil first ts) hrest
    obtain rfl : next = operandBehind false (first :: ts) := hread.operandBehind
    have htext := congrArg fullText h
    rw [fullText_tokens, fullText_append, fullText_append, hback, fullText_tokensFrom] at htext
    exact ⟨operand, v, hread, hback, htext⟩
  obtain ⟨-, v, -, hv, hsource⟩ := hreads _ _ htokens hrest
  have hmore : rest.dropLast ++ back ≠ [] := by
    intro hnil
    obtain ⟨-, rfl⟩ := List.append_eq_nil_iff.mp hnil
    simp at hlonger
    omega
  obtain ⟨operand, after, hread, hafter, hwhole⟩ := hreads (source ++ "\n;") (rest.dropLast ++ back)
    (by rw [← hback]; simp) hmore
  obtain rfl : after = v ++ "\n;" := by
    rw [hsource, List.append_assoc, List.append_assoc, List.append_cancel_left_eq, List.append_cancel_left_eq] at hwhole
    exact hwhole.symm
  refine ⟨operand, _, v, hread, hv, ?_⟩
  have hpos := List.length_pos_iff.mpr hrest
  rw [Ended, ← hafter, List.length_append, List.length_dropLast]
  omega

-- Whether a regular expression could stand there only matters in front of a slash.
theorem lexeme_eq_of_not_isSlash {regexAllowed : Bool} {c : CodePoint} {kind : Kind} {lead : List Trivia}
    (h : lexeme regexAllowed c (w ++ t) = (.token kind, w.length)) (hslash : ¬ Token.IsSlash ⟨lead, kind, c :: w⟩)
    (regexAllowed' : Bool) : lexeme regexAllowed' c (w ++ t) = (.token kind, w.length) := by
  have hc : c ≠ .char '/' := by
    rintro rfl
    refine hslash ?_
    rw [lexeme.eq_def, if_neg (by decide), if_pos rfl] at h
    split at h
    · cases h
    · cases h
    · split at h
      · exact .inl (Lexeme.token.inj (Prod.mk.inj h).1).symm
      · obtain ⟨hkind, hlength⟩ := Prod.mk.inj h
        obtain rfl := Lexeme.token.inj hkind
        obtain rfl := List.length_eq_zero_iff.mp hlength.symm
        exact .inr rfl
  rw [lexeme.eq_def, if_neg hc] at h ⊢
  exact h

-- A run behind its first token is read from its text wherever the token stands, if it is no slash.
theorem tokensFrom_of_bare (h : Reads operand (sourceText (first :: others) ++ u) (bare (first :: others)) next u)
    (hslash : ¬ first.IsSlash) : (∀ c ∈ (sourceText (first :: others) ++ u).head?, isSpace c = false) ∧
      ∀ lead operand', tokensFrom lead operand' (sourceText (first :: others) ++ u) =
        { first with lead } :: others ++ tokensFrom [] next u := by
  obtain ⟨lead, kind, text⟩ := first
  generalize hsource : sourceText (⟨lead, kind, text⟩ :: others) ++ u = source at h
  cases h with
  | @token _ _ c _ v _ w _ _ _ hskips hlexeme hrest =>
    have htext : source = c :: (w ++ v) := by
      rw [← hsource, hrest.text]
      simp [sourceText, fullText]
    subst htext
    refine ⟨fun d hd => Option.some.inj hd ▸ not_isSpace_of_lexeme hlexeme, fun lead operand' => ?_⟩
    have hlexeme' := lexeme_eq_of_not_isSlash hlexeme hslash (!operand')
    rw [tokensFrom_of_lexeme hlexeme', List.cons_append, ← tokensFrom_of_reads hrest]
    rfl

theorem exists_tokensFrom_export (lead : List Trivia) (operand : Bool) (h : ∀ c ∈ t.head?, isSpace c = false) :
    ∃ next, tokensFrom lead operand ("export " ++ t) = ⟨lead, .word, "export"⟩ :: tokensFrom [.blank " "] next t := by
  have hword : Lexes lead "export" [⟨lead, .word, "export"⟩] := .word (by decide)
  obtain ⟨next, hnext⟩ := hword operand (" " ++ t) (bounded_cons (by decide))
  rw [tokensFrom_blank (by decide) (by decide) h] at hnext
  exact ⟨next, hnext⟩

-- A statement that is cut out is read behind the word `export`.
theorem tokensFrom_exporting (h : Reads operand t (bare (first :: others)) next u) (hword : first.kind = .word)
    (hu : Follows u u') (isExported : Bool) (lead : List Trivia) (operand' : Bool) :
    tokensFrom lead operand' ((if isExported then sourceText (first :: others)
      else "export " ++ sourceText (first :: others)) ++ u') =
        exporting isExported lead (first :: others) ++ tokensFrom [] next u' := by
  have hreads := h.replace hu
  rw [fullText_bare] at hreads
  obtain ⟨hhead, hrun⟩ := tokensFrom_of_bare hreads (Token.not_isSlash_of_word hword)
  cases isExported with
  | true => simpa [exporting] using hrun lead operand'
  | false =>
    obtain ⟨middle, hexport⟩ := exists_tokensFrom_export lead operand' hhead
    simp only [Bool.false_eq_true, if_false, exporting, List.append_assoc]
    rw [hexport, hrun]
    rfl

end Cutting

section Trimming

theorem trim_append (hs : s.Trimmed) (t : Text) : (s ++ t).trim = s ++ t.rdropWhile CodePoint.isBlank := by
  obtain ⟨c, s, rfl⟩ := List.exists_cons_of_ne_nil hs.ne_nil
  have hfirst : c.isBlank = false := by simpa [Text.isSolid] using hs.1
  have hfront (t : Text) : Text.trim (c :: t) = (c :: t).rdropWhile CodePoint.isBlank := by
    rw [Text.trim, List.dropWhile_cons_of_neg (by simp [hfirst])]
    rfl
  have hkept : (c :: s).rdropWhile CodePoint.isBlank = c :: s := (hfront s).symm.trans hs.trim
  rw [List.cons_append, hfront, ← List.cons_append, rdropWhile_append, hkept]
  split
  · rename_i hnil
    rw [hnil, List.append_nil]
  · rfl

theorem sourceText_concat (front : List Token) (token : Token) :
    ∃ t, sourceText (front ++ [token]) = t ++ token.text := by
  cases front with
  | nil => exact ⟨[], by simp [sourceText]⟩
  | cons first front => exact ⟨sourceText (first :: front) ++ token.leadText, by simp [sourceText]⟩

theorem trimmed_sourceText_of_sealed (hfirst : first.text.head?.any Text.isSolid) (h : Sealed (first :: others)) :
    (sourceText (first :: others)).Trimmed := by
  have hne : first.text ≠ [] := by
    intro hnil
    rw [hnil] at hfirst
    cases hfirst
  refine ⟨by rwa [sourceText, List.head?_append_of_ne_nil _ hne], ?_⟩
  obtain ⟨front, last, heq⟩ := List.eq_nil_or_concat' (first :: others) |>.resolve_left (List.cons_ne_nil _ _)
  have hsolid := h.solid last (by rw [heq, List.getLast?_concat]; rfl)
  obtain ⟨t, ht⟩ := sourceText_concat front last
  have hlast : last.text ≠ [] := by
    intro hnil
    rw [hnil] at hsolid
    cases hsolid
  rwa [heq, ht, List.getLast?_append_of_ne_nil _ hlast]

-- The text of a declaration is that of its tokens, and of the comments behind them if it ends with its line.
theorem Sourced.exists_tail (h : Sourced declaration (first :: others) (first :: others) rest)
    (hfirst : first.text.head?.any Text.isSolid)
    (hlines : ∀ token ∈ (first :: others).getLast?, ∀ next ∈ rest.head?, EndsWell token next) :
    Sealed (first :: others) ∧ ∃ tail, declaration.source = sourceText (first :: others) ++ tail ∧
      (tail = [] ∨ ∃ next ∈ rest.head?, tail = trailingText next.lead) := by
  obtain ⟨hsealed, hsource⟩ | ⟨hends, next, hnext, hsource⟩ := h
  · have htrimmed := trimmed_sourceText_of_sealed hfirst hsealed
    exact ⟨hsealed, [], by rw [hsource, htrimmed.trim, List.append_nil], .inl rfl⟩
  · have hline : next.startsLine ∨ next.kind = .finish := by
      obtain ⟨others, rfl⟩ := List.head?_eq_some_iff.mp hnext
      simpa [endsAlias] using hends
    have hsealed : Sealed (first :: others) :=
      ⟨fun token hmem => (hlines token hmem next hnext hline).1,
        fun token hmem => (hlines token hmem next hnext hline).2⟩
    have htrimmed := trimmed_sourceText_of_sealed hfirst hsealed
    exact ⟨hsealed, trailingText next.lead, by rw [hsource, trim_append htrimmed]; rfl, .inr ⟨next, hnext, rfl⟩⟩

end Trimming

section Restating

-- What a module goes on with at the beginning of a line.
structure Resumes (w : Text) : Prop where
  visible : ∀ c ∈ w.head?, isSpace c = false
  declares : ∀ trivia operand, trivia.any Trivia.breaksLine → AtDeclaration (tokensFrom trivia operand w)

-- A text that declares the same again in front of a line break.
structure Restates (s : Text) (declaration : Declaration) : Prop where
  visible : ∀ t, ∀ c ∈ (s ++ t).head?, isSpace c = false
  reads : ∀ lead operand n w, n ≠ [] → (∀ c ∈ n, c = .char '\n') → Resumes w → ∃ others trivia next again,
    tokensFrom lead operand (s ++ (n ++ w)) = ⟨lead, .word, "export"⟩ :: others ∧ trivia.any Trivia.breaksLine ∧
    parseStatement (⟨lead, .word, "export"⟩ :: others) = some (some again, tokensFrom trivia next w) ∧
    again.Again declaration

theorem exists_stated (h : parseStatements budget tokens = some declarations) (hmem : declaration ∈ declarations) :
    ∃ front ts rest, tokens = front ++ (ts ++ rest) ∧ rest ≠ [] ∧ Stated declaration rest (ts ++ rest) := by
  induction budget generalizing tokens declarations with
  | zero => simp [parseStatements] at h
  | succ budget ih =>
    rw [parseStatements] at h
    split at h
    · cases h
      cases hmem
    · simp only [Option.bind_eq_bind, Option.bind_eq_some_iff, Option.pure_def] at h
      obtain ⟨⟨declared, rest⟩, hstatement, others, hothers, h⟩ := h
      cases h
      obtain ⟨⟨ts, rfl⟩, -⟩ := readsKeeping_parseStatement (P := fun _ => True) hstatement
      obtain hmem | hmem := List.mem_append.mp hmem
      · have hne : rest ≠ [] := by
          rintro rfl
          simp [parseStatements_nil] at hothers
        obtain rfl := Option.mem_toList.mp hmem
        exact ⟨[], ts, rest, rfl, hne, stated_of_parseStatement hstatement⟩
      · obtain ⟨front, us, rest', rfl, hne, hstated⟩ := ih hothers hmem
        exact ⟨ts ++ front, us, rest', by simp, hne, hstated⟩

-- The comments that belong to a statement do not change what a line break behind them ends.
theorem exists_skips_tail {tail n : Text} (h : rest = tokensFrom [] next v) (hended : Ended next v)
    (htail : tail = [] ∨ ∃ token ∈ rest.head?, tail = trailingText token.lead) (hn : n ≠ [])
    (hlines : ∀ c ∈ n, c = .char '\n') (hw : ∀ c ∈ w.head?, isSpace c = false) :
    Follows (v ++ "\n;") (tail ++ (n ++ w)) ∧
      ∃ trivia, Skips (!next) (tail ++ (n ++ w)) trivia w ∧ trivia.any Trivia.breaksLine := by
  obtain ⟨c, n, rfl⟩ := List.exists_cons_of_ne_nil hn
  obtain rfl := hlines c (List.mem_cons_self ..)
  have hbehind (t : Text) : Follows (t ++ "\n;") (.char '\n' :: n ++ w) :=
    .line (by simp [Text.ofString, Text.ofChars]) _
  obtain rfl | ⟨token, htoken, rfl⟩ := htail
  · exact ⟨hbehind v, skips_lines _ (fun c hc => hlines c hc ▸ by decide) (List.mem_cons_self ..) hw⟩
  · obtain ⟨trivia, u, hskips, hu⟩ := exists_skips next v
    have hlead : token.lead = trivia := by
      rw [h, tokensFrom_of_skips hskips] at htoken
      obtain rfl | ⟨c, w, v, kind, rfl, hlexeme⟩ := hu
      · rw [tokensFrom_nil] at htoken
        exact Option.some.inj htoken ▸ rfl
      · rw [tokensFrom_of_lexeme hlexeme] at htoken
        exact Option.some.inj htoken ▸ rfl
    obtain ⟨more, hmore⟩ := trailingText_prefix trivia
    refine ⟨?_, hlead ▸ hskips.trailing hended hn hlines hw⟩
    have hfollows := (hbehind (more ++ u)).append (trailingText trivia)
    rwa [hlead, hskips.text, ← hmore, List.append_assoc (trailingText trivia), List.append_assoc (trailingText trivia)]

-- Every declaration of a source that goes on is declared again by its own text.
theorem restates (hsource : Continuable source) (h : parseDeclarations source = some declarations)
    (hmem : declaration ∈ declarations) (hplain : declaration.hasTypeParameters = false) :
    Restates (if declaration.isExported then declaration.source else "export " ++ declaration.source) declaration := by
  obtain ⟨parsed, hparsed, rfl⟩ := Option.map_eq_some_iff.mp h
  have hdeclared := (mem_of_mem_foldl hmem).resolve_left List.not_mem_nil
  obtain ⟨front, ts, rest, htokens, hrest, hstated⟩ := exists_stated hparsed hdeclared
  obtain ⟨first, others, rfl, hfirst⟩ := hstated.exists_first
  have hkeyword : first.kind = .word ∧ first.text.head?.any Text.isSolid := by
    obtain ⟨h, -⟩ | ⟨h | h, -⟩ := hfirst
    all_goals
      obtain ⟨hkind, htext⟩ := Token.isWord_iff.mp h
      exact ⟨hkind, by rw [htext]; decide⟩
  have hlines : ∀ token ∈ (first :: others).getLast?, ∀ next ∈ rest.head?, EndsWell token next :=
    (List.isChain_append.mp (htokens ▸ hsource.lines).right_of_append).2.2
  obtain ⟨hsealed, tail, htext, htail⟩ := hstated.sourced.exists_tail hkeyword.2 hlines
  obtain ⟨operand, next, v, hread, hv, hended⟩ := hsource.exists_reads htokens (List.cons_ne_nil _ _) hrest
  have hwhole : (if declaration.isExported then declaration.source else "export " ++ declaration.source) =
      (if declaration.isExported then sourceText (first :: others)
        else "export " ++ sourceText (first :: others)) ++ tail := by
    rw [htext]
    split <;> simp
  -- with or without it in the source, the text begins with the word
  have hexport (t : Text) (lead : List Trivia) : ∃ t' others',
      (if declaration.isExported then sourceText (first :: others)
        else "export " ++ sourceText (first :: others)) ++ t = .char 'e' :: t' ∧
      exporting declaration.isExported lead (first :: others) = ⟨lead, .word, "export"⟩ :: others' := by
    obtain ⟨h, hexported⟩ | ⟨-, hexported⟩ := hfirst
    · obtain ⟨hkind, hname⟩ := Token.isWord_iff.mp h
      rw [if_pos hexported, hexported]
      exact ⟨_, others, by rw [sourceText, hname]; rfl, by simp [exporting, hkind, hname]⟩
    · rw [if_neg (by simp [hexported]), hexported]
      exact ⟨_, _, rfl, rfl⟩
  rw [hwhole]
  refine ⟨fun t c hc => ?_, fun lead operand' n w hn hbreaks hw => ?_⟩
  · obtain ⟨t', -, heq, -⟩ := hexport (tail ++ t) []
    rw [List.append_assoc, heq] at hc
    obtain rfl := Option.some.inj hc
    decide
  · obtain ⟨hfollows, trivia, hskips, hany⟩ := exists_skips_tail hv hended htail hn hbreaks hw.visible
    have hrest' := tokensFrom_of_skips hskips []
    rw [List.nil_append] at hrest'
    have hlexed := tokensFrom_exporting hread hkeyword.1 hfollows declaration.isExported lead operand'
    obtain ⟨again, hparsed, hagain⟩ := hstated.replace hplain hsealed.settled (hw.declares trivia next hany) lead
    obtain ⟨-, others', -, hexporting⟩ := hexport [] lead
    rw [hrest', hexporting] at hlexed
    rw [hexporting] at hparsed
    rw [List.append_assoc]
    exact ⟨_, trivia, next, again, hlexed, hany, hparsed, hagain⟩

end Restating

section Stacking

-- Texts on lines of their own, one after the other.
inductive Stacked : List Text → Text → Prop
  | nil : Stacked [] []
  | cons {n : Text} {ss : List Text} {w : Text} (s : Text) (hn : n ≠ []) (hlines : ∀ c ∈ n, c = .char '\n')
    (h : Stacked ss w) : Stacked (s :: ss) (s ++ (n ++ w))

theorem length_lt_of_parseStatement (h : parseStatement tokens = some (some declaration, rest)) :
    rest.length < tokens.length := by
  obtain ⟨⟨ts, rfl⟩, -⟩ := readsKeeping_parseStatement (P := fun _ => True) h
  obtain ⟨first, others, rfl, -⟩ := (stated_of_parseStatement h).exists_first
  simp only [List.length_append, List.length_cons]
  omega

theorem Stacked.resumes {ss : List Text} (h : Stacked ss t) (hs : List.Forall₂ Restates ss declarations) :
    Resumes t := by
  induction h generalizing declarations with
  | nil => exact ⟨nofun, fun trivia operand _ => ⟨_, [], tokensFrom_nil trivia operand, .inl rfl⟩⟩
  | cons s hn hlines h ih =>
    obtain - | ⟨hs, hss⟩ := hs
    refine ⟨hs.visible _, fun trivia operand hany => ?_⟩
    obtain ⟨others, -, -, -, hread, -⟩ := hs.reads trivia operand _ _ hn hlines (ih hss)
    exact ⟨_, others, hread, .inr ⟨rfl, hany⟩⟩

-- Statements that declare the same again do so one behind the other.
theorem Stacked.parse {ss : List Text} (h : Stacked ss t) (hs : List.Forall₂ Restates ss declarations)
    (lead : List Trivia) (operand : Bool) (hbudget : (tokensFrom lead operand t).length < budget) :
    ∃ again, parseStatements budget (tokensFrom lead operand t) = some again ∧
      List.Forall₂ Declaration.Again again declarations := by
  induction h generalizing declarations lead operand budget with
  | nil =>
    obtain ⟨budget, rfl⟩ : ∃ n, budget = n + 1 := ⟨budget - 1, by omega⟩
    cases hs
    exact ⟨[], by simp [tokensFrom_nil, parseStatements], .nil⟩
  | cons s hn hlines h ih =>
    obtain ⟨budget, rfl⟩ : ∃ n, budget = n + 1 := ⟨budget - 1, by omega⟩
    cases hs with
    | cons hs hss =>
      obtain ⟨others, trivia, next, again, hread, -, hparsed, hagain⟩ :=
          hs.reads lead operand _ _ hn hlines (h.resumes hss)
      have hshorter := length_lt_of_parseStatement hparsed
      rw [hread] at hbudget ⊢
      obtain ⟨rest, hrest, hagains⟩ := ih hss trivia next (Nat.lt_of_lt_of_le hshorter (Nat.le_of_lt_succ hbudget))
      refine ⟨again :: rest, ?_, .cons hagain hagains⟩
      simp [parseStatements, hparsed, hrest]

end Stacking

end HookGen.Source
