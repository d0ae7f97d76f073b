import HookGen.Proofs.Source.Relexing

/-!
How a text is read token by token: what is skipped in front of a token, the token, and what is left behind it.
A run of tokens of a source is read from its text as well when something else stands in front of it.
-/

namespace HookGen.Source

variable {regexAllowed operand next : Bool} {c : CodePoint} {n : Nat} {t u v w after : Text}
  {trivia lead : List Trivia} {token : Token} {run front back : List Token}

section Lexemes

theorem exists_token (hspace : isSpace c = false) (hslash : c ≠ .char '/') (regexAllowed : Bool) (t : Text) :
    ∃ kind n, lexeme regexAllowed c t = (.token kind, n) := by
  rw [lexeme.eq_def, if_neg (by simp [hspace]), if_neg hslash]
  repeat' split
  all_goals exact ⟨_, _, rfl⟩

theorem lexeme_blank_iff :
    lexeme regexAllowed c t = (.blank, n) ↔ isSpace c ∧ (t.takeWhile isSpace).length = n := by
  cases hspace : isSpace c with
  | true => rw [lexeme.eq_def, if_pos hspace]; simp
  | false =>
    refine iff_of_false (fun h => ?_) (by simp)
    by_cases hslash : c = .char '/'
    · rw [lexeme.eq_def, if_neg (by simp [hspace]), if_pos hslash] at h
      repeat' split at h
      all_goals cases h
    · obtain ⟨kind, m, heq⟩ := exists_token hspace hslash regexAllowed t
      rw [heq] at h
      cases h

theorem lexeme_line (regexAllowed : Bool) (t : Text) : lexeme regexAllowed '/' (.char '/' :: t) =
    (.comment, ((.char '/' :: t : Text).takeWhile (!endsLine ·)).length) := rfl

theorem lexeme_block (regexAllowed : Bool) (t : Text) :
    lexeme regexAllowed '/' (.char '*' :: t) = (.comment, blockCommentLength t + 1) := rfl

-- A comment is one of a line or one between two marks.
theorem exists_of_lexeme_comment (h : lexeme regexAllowed c t = (.comment, n)) : c = .char '/' ∧
    ((∃ u, t = .char '/' :: u ∧ (t.takeWhile (!endsLine ·)).length = n) ∨
      ∃ u, t = .char '*' :: u ∧ blockCommentLength u + 1 = n) := by
  cases hspace : isSpace c with
  | true =>
    rw [lexeme.eq_def, if_pos hspace] at h
    cases h
  | false =>
    by_cases hslash : c = .char '/'
    · refine ⟨hslash, ?_⟩
      rw [lexeme.eq_def, if_neg (by simp [hspace]), if_pos hslash] at h
      split at h
      · exact .inl ⟨_, rfl, (Prod.mk.inj h).2⟩
      · exact .inr ⟨_, rfl, (Prod.mk.inj h).2⟩
      · split at h <;> cases h
    · obtain ⟨kind, m, heq⟩ := exists_token hspace hslash regexAllowed t
      rw [heq] at h
      cases h

theorem lexeme_length_le (regexAllowed : Bool) (c : CodePoint) (t : Text) : (lexeme regexAllowed c t).2 ≤ t.length := by
  match hlexeme : lexeme regexAllowed c t with
  | (.token kind, n) => exact (reaches_of_lexeme hlexeme).le
  | (.blank, n) => exact (lexeme_blank_iff.mp hlexeme).2 ▸ (List.takeWhile_prefix _).length_le
  | (.comment, n) =>
    obtain ⟨-, ⟨u, rfl, rfl⟩ | ⟨u, rfl, rfl⟩⟩ := exists_of_lexeme_comment hlexeme
    · exact (List.takeWhile_prefix _).length_le
    · exact Nat.succ_le_succ (blockCommentLength_le u)

-- What begins a text is a lexeme, and the rest stands behind it.
theorem exists_lexeme (regexAllowed : Bool) (c : CodePoint) (t : Text) :
    ∃ kind w u, t = w ++ u ∧ lexeme regexAllowed c (w ++ u) = (kind, w.length) := by
  have hle := lexeme_length_le regexAllowed c t
  refine ⟨(lexeme regexAllowed c t).1, t.take (lexeme regexAllowed c t).2, t.drop (lexeme regexAllowed c t).2,
    (List.take_append_drop _ t).symm, ?_⟩
  rw [List.take_append_drop, List.length_take_of_le hle]

end Lexemes

section Reading

-- Blanks and comments at the beginning of a text, up to a rest.
inductive Skips (regexAllowed : Bool) : Text → List Trivia → Text → Prop
  | done (t : Text) : Skips regexAllowed t [] t
  | blank {c : CodePoint} {w t u : Text} {trivia : List Trivia}
    (hlexeme : lexeme regexAllowed c (w ++ t) = (.blank, w.length)) (hrest : Skips regexAllowed t trivia u) :
    Skips regexAllowed (c :: (w ++ t)) (.blank (c :: w) :: trivia) u
  | comment {c : CodePoint} {w t u : Text} {trivia : List Trivia}
    (hlexeme : lexeme regexAllowed c (w ++ t) = (.comment, w.length)) (hrest : Skips regexAllowed t trivia u) :
    Skips regexAllowed (c :: (w ++ t)) (.comment (c :: w) :: trivia) u

-- A run of tokens at the beginning of a text, up to a rest.
inductive Reads : Bool → Text → List Token → Bool → Text → Prop
  | done (operand : Bool) (t : Text) : Reads operand t [] operand t
  | token {operand next : Bool} {c : CodePoint} {t u v w : Text} {kind : Kind} {lead : List Trivia} {run : List Token}
    (hlead : Skips (!operand) t lead (c :: (w ++ u))) (hlexeme : lexeme (!operand) c (w ++ u) = (.token kind, w.length))
    (hrest : Reads (Token.endsOperand ⟨lead, kind, c :: w⟩) u run next v) :
    Reads operand t (⟨lead, kind, c :: w⟩ :: run) next v

-- The text of a run of tokens, with what stands in front of the first.
def fullText (run : List Token) : Text := run.flatMap fun token => token.leadText ++ token.text

-- Whether an operand can end with the last token of a run, or with what stands in front of the run if it has none.
def operandBehind (operand : Bool) (run : List Token) : Bool := run.foldl (fun _ token => token.endsOperand) operand

theorem fullText_nil : fullText [] = [] := rfl

theorem fullText_cons (token : Token) (run : List Token) :
    fullText (token :: run) = token.leadText ++ token.text ++ fullText run := rfl

theorem fullText_append (front back : List Token) : fullText (front ++ back) = fullText front ++ fullText back :=
  List.flatMap_append

theorem Skips.text (h : Skips regexAllowed t trivia u) : t = trivia.flatMap Trivia.text ++ u := by
  induction h with
  | done => rfl
  | @blank c w t u trivia _ _ ih => simp [ih, Trivia.text]
  | @comment c w t u trivia _ _ ih => simp [ih, Trivia.text]

theorem Reads.text (h : Reads operand t run next u) : t = fullText run ++ u := by
  induction h with
  | done => rfl
  | @token _ _ c _ _ _ w _ lead _ hlead _ _ ih => simp [hlead.text, fullText_cons, Token.leadText, ← ih]

theorem Reads.operandBehind (h : Reads operand t run next u) : next = operandBehind operand run := by
  induction h with
  | done => rfl
  | token _ _ _ ih => exact ih

theorem Reads.ne_nil (h : Reads operand t run next u) : ∀ token ∈ run, token.text ≠ [] := by
  induction h with
  | done => nofun
  | token _ _ _ ih => exact List.forall_mem_cons.mpr ⟨by simp, ih⟩

theorem tokensFrom_of_skips (h : Skips (!operand) t trivia u) (lead : List Trivia) :
    tokensFrom lead operand t = tokensFrom (lead ++ trivia) operand u := by
  induction h generalizing lead with
  | done => rw [List.append_nil]
  | blank hlexeme _ ih =>
    rw [tokensFrom.eq_def lead]
    simp only [hlexeme, List.take_left, List.drop_left]
    rw [ih, List.append_assoc, List.singleton_append]
  | comment hlexeme _ ih =>
    rw [tokensFrom.eq_def lead]
    simp only [hlexeme, List.take_left, List.drop_left]
    rw [ih, List.append_assoc, List.singleton_append]

theorem tokensFrom_of_reads (h : Reads operand t run next u) :
    tokensFrom [] operand t = run ++ tokensFrom [] next u := by
  induction h with
  | done => rfl
  | token hlead hlexeme _ ih => rw [tokensFrom_of_skips hlead, List.nil_append, tokensFrom_of_lexeme hlexeme, ih]; rfl

-- Either the text ends, or a token is read.
theorem exists_skips (operand : Bool) (t : Text) : ∃ trivia u, Skips (!operand) t trivia u ∧
    (u = [] ∨ ∃ c w v kind, u = c :: (w ++ v) ∧ lexeme (!operand) c (w ++ v) = (.token kind, w.length)) := by
  induction hlength : t.length using Nat.strong_induction_on generalizing t with
  | _ length ih =>
    subst hlength
    cases t with
    | nil => exact ⟨[], [], .done [], .inl rfl⟩
    | cons c t =>
      obtain ⟨kind, w, u, rfl, hlexeme⟩ := exists_lexeme (!operand) c t
      have hshorter : u.length < (c :: (w ++ u)).length := by simp only [List.length_cons, List.length_append]; omega
      cases kind with
      | blank =>
        obtain ⟨trivia, v, hskips, hend⟩ := ih u.length hshorter u rfl
        exact ⟨_, v, .blank hlexeme hskips, hend⟩
      | comment =>
        obtain ⟨trivia, v, hskips, hend⟩ := ih u.length hshorter u rfl
        exact ⟨_, v, .comment hlexeme hskips, hend⟩
      | token kind => exact ⟨[], _, .done _, .inr ⟨c, w, u, kind, rfl, hlexeme⟩⟩

theorem reads_of_tokensFrom (h : tokensFrom [] operand t = run ++ back) (hback : back ≠ []) :
    ∃ next u, Reads operand t run next u ∧ back = tokensFrom [] next u := by
  induction run generalizing operand t with
  | nil => exact ⟨operand, t, .done operand t, h.symm⟩
  | cons token run ih =>
    obtain ⟨trivia, u, hskips, hend⟩ := exists_skips operand t
    rw [tokensFrom_of_skips hskips, List.nil_append] at h
    obtain rfl | ⟨c, w, v, kind, rfl, hlexeme⟩ := hend
    · rw [tokensFrom_nil] at h
      have hnil := (List.append_eq_nil_iff.mp (List.cons.inj h).2.symm).2
      exact absurd hnil hback
    · rw [tokensFrom_of_lexeme hlexeme] at h
      obtain ⟨rfl, hrest⟩ := List.cons.inj h
      obtain ⟨next, rest, hreads, heq⟩ := ih hrest
      exact ⟨next, rest, .token hskips hlexeme hreads, heq⟩

-- The tokens of a text are the text again.
theorem fullText_tokensFrom (lead : List Trivia) (operand : Bool) (t : Text) :
    fullText (tokensFrom lead operand t) = lead.flatMap Trivia.text ++ t := by
  fun_induction tokensFrom lead operand t with
  | case1 lead operand => simp [fullText_cons, fullText_nil, Token.leadText]
  | case2 lead operand c rest read text hread ih => simp [ih, text, Trivia.text, List.take_append_drop]
  | case3 lead operand c rest read text hread ih => simp [ih, text, Trivia.text, List.take_append_drop]
  | case4 lead operand c rest read text kind hread token ih =>
    simp [fullText_cons, ih, Token.leadText, token, text, List.take_append_drop]

theorem tokensFrom_ne_nil (lead : List Trivia) (operand : Bool) (t : Text) : tokensFrom lead operand t ≠ [] := by
  fun_induction tokensFrom lead operand t <;> simp_all

end Reading

section Runs

-- In front of `after` a text is read as a run of tokens, and what is read behind them begins with `after`.
def ReadAs (operand : Bool) (t after : Text) (run : List Token) : Prop :=
  tokensFrom [] operand (t ++ after) = run ++ tokensFrom [] (operandBehind operand run) after

instance (operand : Bool) (t after : Text) (run : List Token) : Decidable (ReadAs operand t after run) :=
  inferInstanceAs (Decidable (tokensFrom [] operand (t ++ after) =
    run ++ tokensFrom [] (operandBehind operand run) after))

-- A run of tokens without what stands in front of it.
def bare : List Token → List Token
  | [] => []
  | token :: rest => { token with lead := [] } :: rest

theorem fullText_bare (run : List Token) : fullText (bare run) = sourceText run := by
  cases run <;> rfl

theorem readAs_iff : ReadAs operand t after run ↔ Reads operand (t ++ after) run (operandBehind operand run) after := by
  refine ⟨fun h => ?_, tokensFrom_of_reads⟩
  obtain ⟨next, u, hreads, heq⟩ := reads_of_tokensFrom h (tokensFrom_ne_nil [] _ after)
  have htext := congrArg fullText heq
  rw [fullText_tokensFrom, fullText_tokensFrom, List.flatMap_nil, List.nil_append, List.nil_append] at htext
  obtain rfl : u = after := htext.symm
  exact hreads.operandBehind ▸ hreads

-- Whatever stands in front of the first token belongs to it.
theorem tokensFrom_lead (lead : List Trivia) (operand : Bool) (t : Text) : ∃ token rest,
    tokensFrom [] operand t = token :: rest ∧
      tokensFrom lead operand t = { token with lead := lead ++ token.lead } :: rest := by
  obtain ⟨trivia, u, hskips, rfl | ⟨c, w, v, kind, rfl, hlexeme⟩⟩ := exists_skips operand t
  · simp only [tokensFrom_of_skips hskips, tokensFrom_nil]
    exact ⟨_, _, rfl, rfl⟩
  · simp only [tokensFrom_of_skips hskips, tokensFrom_of_lexeme hlexeme]
    exact ⟨_, _, rfl, rfl⟩

-- Without what stands in front of it a run at the beginning of a stream is read from its text.
theorem exists_reads_bare (h : tokensFrom lead operand t = run ++ back) (hrun : run ≠ []) (hback : back ≠ []) :
    ∃ next after, Reads operand (sourceText run ++ after) (bare run) next after ∧ back = tokensFrom [] next after := by
  obtain ⟨token, run, rfl⟩ := List.exists_cons_of_ne_nil hrun
  obtain ⟨first, rest, hfirst, hlead⟩ := tokensFrom_lead lead operand t
  obtain ⟨rfl, rfl⟩ := List.cons.inj (hlead.symm.trans h)
  have hwhole : tokensFrom [] operand t = (first :: run) ++ back := hfirst
  obtain ⟨next, after, hreads, rfl⟩ := reads_of_tokensFrom hwhole hback
  cases hreads with
  | token hskips hlexeme hrest =>
    have hbare := Reads.token (.done _) hlexeme hrest
    refine ⟨next, after, ?_, rfl⟩
    rw [← fullText_bare]
    exact hbare.text ▸ hbare

theorem readAs_of_tokensFrom (h : tokensFrom lead operand t = run ++ back) (hback : back ≠ []) :
    ∃ after, ReadAs operand (sourceText run) after (bare run) := by
  cases run with
  | nil => exact ⟨[], rfl⟩
  | cons token run =>
    obtain ⟨next, after, hreads, -⟩ := exists_reads_bare h (List.cons_ne_nil token run) hback
    exact ⟨after, readAs_iff.mpr (hreads.operandBehind ▸ hreads)⟩

theorem exists_tokensFrom_of_append (h : tokensFrom lead operand t = front ++ back) (hback : back ≠ []) :
    ∃ lead operand t, tokensFrom lead operand t = back := by
  cases front with
  | nil => exact ⟨lead, operand, t, h⟩
  | cons token front =>
    obtain ⟨first, rest, hfirst, hlead⟩ := tokensFrom_lead lead operand t
    obtain ⟨-, rfl⟩ := List.cons.inj (hlead.symm.trans h)
    have hfront : tokensFrom [] operand t = (first :: front) ++ back := hfirst
    obtain ⟨next, u, -, heq⟩ := reads_of_tokensFrom hfront hback
    exact ⟨[], next, u, heq.symm⟩

theorem exists_tokens_eq (source : Text) : ∃ lead t, tokens source = tokensFrom lead false t := by
  rw [tokens]
  split
  · exact ⟨_, _, rfl⟩
  · exact ⟨[], source, rfl⟩

theorem fullText_tokens (source : Text) : fullText (tokens source) = source := by
  have hfront {p : CodePoint → Bool} (t : Text) : t.takeWhile p ++ t.drop (t.takeWhile p).length = t :=
    List.prefix_iff_eq_append.mp (List.takeWhile_prefix p)
  rw [tokens]
  split
  · simp [fullText_tokensFrom, Trivia.text, hfront, -List.drop_drop]
  · simp [fullText_tokensFrom]

-- Every run of tokens of a source is read from its text somewhere.
theorem exists_readAs {source : Text} (h : run <:+: (tokens source).dropLast) :
    ∃ operand after, ReadAs operand (sourceText run) after (bare run) := by
  obtain ⟨front, back, heq⟩ := h
  obtain ⟨lead, t, htokens⟩ := exists_tokens_eq source
  have hne : tokens source ≠ [] := htokens ▸ tokensFrom_ne_nil lead false t
  have hback : back ++ [(tokens source).getLast hne] ≠ [] := by simp
  have hall : tokensFrom lead false t = front ++ (run ++ (back ++ [(tokens source).getLast hne])) := by
    have hlast := List.dropLast_append_getLast hne
    rw [← heq] at hlast
    rw [← htokens]
    simpa using hlast.symm
  obtain ⟨lead, operand, u, hrun⟩ := exists_tokensFrom_of_append hall (by simp)
  obtain ⟨after, hread⟩ := readAs_of_tokensFrom hrun hback
  exact ⟨operand, after, hread⟩

theorem head?_sourceText (h : ∀ token ∈ run, token.text.Trimmed) :
    (sourceText run).head? = run.head?.bind (·.text.head?) := by
  cases run with
  | nil => rfl
  | cons token rest =>
    rw [sourceText, List.head?_append_of_ne_nil _ (h token (List.mem_cons_self ..)).ne_nil]
    rfl

theorem getLast?_sourceText (h : ∀ token ∈ run, token.text.Trimmed) :
    (sourceText run).getLast? = run.getLast?.bind (·.text.getLast?) := by
  obtain rfl | ⟨before, last, rfl⟩ := run.eq_nil_or_concat
  · rfl
  · rw [List.concat_eq_append] at h ⊢
    have hlast := (h last (by simp)).ne_nil
    cases before with
    | nil => simp [sourceText]
    | cons first before =>
      rw [List.getLast?_concat, List.cons_append, sourceText, List.flatMap_append, List.flatMap_singleton,
        ← List.append_assoc, ← List.append_assoc, List.getLast?_append_of_ne_nil _ hlast]
      rfl

theorem trimmed_sourceText (hne : run ≠ []) (h : ∀ token ∈ run, token.text.Trimmed) : (sourceText run).Trimmed := by
  refine ⟨?_, ?_⟩
  · rw [head?_sourceText h, List.head?_eq_some_head hne]
    exact (h _ (List.head_mem hne)).1
  · rw [getLast?_sourceText h, List.getLast?_eq_some_getLast hne]
    exact (h _ (List.getLast_mem hne)).2

end Runs

end HookGen.Source
