import HookGen.Proofs.Source.Streams

/-!
Which runs of tokens are read again when the blanks between them are collapsed. Tokens stay what they are if their
own blanks are collapsed already; of the comments, those of a line take in what comes to stand behind them.
-/

namespace HookGen.Source

open Text

variable {regexAllowed operand next next' behindBlank : Bool} {c : CodePoint} {n : Nat}
  {s t u u' v w after : Text} {trivia trivia' : List Trivia} {token : Token} {run raw : List Token} {kind : Kind}

-- What a token is, whatever stands in front of it.
def Token.sign (token : Token) : Kind × Text := (token.kind, token.text)

-- A comment up to the end of its line.
def Trivia.isLine : Trivia → Bool
  | .blank _ => false
  | .comment text => startsWith "//" text

section Texts

-- The text of a run in which the blanks and comments in front of each token are collapsed.
def collapsedText (run : List Token) : Text := run.flatMap fun token => collapse token.leadText ++ token.text

theorem collapsedText_cons (token : Token) (run : List Token) :
    collapsedText (token :: run) = collapse token.leadText ++ token.text ++ collapsedText run := rfl

theorem collapse_fullText (h : ∀ token ∈ run, token.text.Trimmed ∧ collapse token.text = token.text) :
    collapse (fullText run) = collapsedText run := by
  induction run with
  | nil => rfl
  | cons token run ih =>
    obtain ⟨⟨htrimmed, hcollapse⟩, hrest⟩ := List.forall_mem_cons.mp h
    have hlast : (token.leadText ++ token.text).getLast?.all isSolid := by
      rw [List.getLast?_append_of_ne_nil _ htrimmed.ne_nil]
      exact htrimmed.last
    rw [fullText_cons, collapsedText_cons, collapse_append (.inl hlast), collapse_append (.inr htrimmed.head),
      hcollapse, ih hrest]

theorem alike_collapse (h : Alike n u u') (s : Text) : Alike n (s ++ u) (collapse s ++ u') := by
  induction s generalizing n with
  | nil => exact h
  | cons c s ih =>
    cases n with
    | zero => trivial
    | succ n =>
      by_cases hc : c.isBlank
      · rw [collapse_blank hc]
        exact .inl (by simp [Ends, isDelimiter, isSpace, CodePoint.toNat])
      · rw [collapse_solid (by simpa [isSolid] using hc)]
        exact .inr ⟨c, s ++ u, collapse s ++ u', rfl, rfl, ih h.of_succ⟩

theorem alike_collapsedText (n : Nat) (run : List Token) (after : Text) :
    Alike n (fullText run ++ after) (collapsedText run ++ after) := by
  induction run with
  | nil => exact .refl n after
  | cons token run ih =>
    simp only [fullText_cons, collapsedText_cons, List.append_assoc]
    exact alike_collapse (ih.append token.text) token.leadText

end Texts

section Skipping

theorem not_isSpace_of_lexeme (h : lexeme regexAllowed c t = (.token kind, n)) : isSpace c = false := by
  rw [Bool.eq_false_iff]
  intro hspace
  rw [lexeme_blank_iff.mpr ⟨hspace, rfl⟩] at h
  cases h

-- A text that begins with a token.
def AtToken (regexAllowed : Bool) (t : Text) : Prop :=
  ∃ c u kind n, t = c :: u ∧ lexeme regexAllowed c u = (.token kind, n)

theorem atToken_of_lexeme (h : lexeme regexAllowed c t = (.token kind, n)) : AtToken regexAllowed (c :: t) :=
  ⟨c, t, kind, n, rfl, h⟩

theorem AtToken.head (h : AtToken regexAllowed t) : ∀ c ∈ t.head?, isSpace c = false := by
  obtain ⟨c, u, kind, n, rfl, hlexeme⟩ := h
  rintro d hd
  obtain rfl := Option.some.inj hd
  exact not_isSpace_of_lexeme hlexeme

theorem Skips.length_le (h : Skips regexAllowed t trivia u) : u.length ≤ t.length := by
  simp [h.text]

theorem Skips.ne_nil (h : Skips regexAllowed t trivia u) (hu : u ≠ []) : t ≠ [] := by
  rintro rfl
  exact hu (List.length_eq_zero_iff.mp (Nat.le_zero.mp h.length_le))

-- Spaces go together with those behind them.
theorem Skips.behind_spaces (h : Skips regexAllowed t trivia u) (hu : ∀ c ∈ u.head?, isSpace c = false)
    (hs : ∀ c ∈ s, isSpace c) : ∃ trivia', Skips regexAllowed (s ++ t) trivia' u := by
  cases s with
  | nil => exact ⟨trivia, h⟩
  | cons c s =>
    obtain ⟨hc, hs⟩ := List.forall_mem_cons.mp hs
    have hapart (ht : ∀ c ∈ t.head?, isSpace c = false) : ∃ trivia', Skips regexAllowed (c :: s ++ t) trivia' u :=
      ⟨_, .blank (lexeme_blank_iff.mpr ⟨hc, length_takeWhile_append_iff.mpr ⟨hs, by simpa using ht⟩⟩) h⟩
    cases h with
    | done => exact hapart hu
    | @blank d w t u trivia hlexeme hrest =>
      obtain ⟨hd, hw⟩ := lexeme_blank_iff.mp hlexeme
      obtain ⟨hw, ht⟩ := length_takeWhile_append_iff.mp hw
      have hall : ∀ c ∈ s ++ d :: w, isSpace c := List.forall_mem_append.mpr ⟨hs, List.forall_mem_cons.mpr ⟨hd, hw⟩⟩
      have hblank : Skips regexAllowed (c :: ((s ++ d :: w) ++ t)) _ u :=
        .blank (lexeme_blank_iff.mpr ⟨hc, length_takeWhile_append_iff.mpr ⟨hall, ht⟩⟩) hrest
      rw [List.append_assoc, List.cons_append] at hblank
      exact ⟨_, hblank⟩
    | @comment d w t u trivia hlexeme hrest =>
      refine hapart fun c hc => ?_
      obtain rfl := Option.some.inj hc
      rw [(exists_of_lexeme_comment hlexeme).1]
      decide

theorem spaces_collapseFrom (h : lexeme regexAllowed c (w ++ t) = (.blank, w.length)) :
    ∀ d ∈ collapseFrom behindBlank (c :: w), isSpace d := by
  obtain ⟨hc, hw⟩ := lexeme_blank_iff.mp h
  have hall : ∀ d ∈ c :: w, isSpace d := List.forall_mem_cons.mpr ⟨hc, (length_takeWhile_append_iff.mp hw).1⟩
  intro d hd
  obtain ⟨-, hd⟩ | rfl := mem_collapseFrom hd
  · exact hall d hd
  · decide

-- The character behind the first tells what ends a comment.
theorem comment_cases (h : lexeme regexAllowed c (w ++ t) = (.comment, w.length)) : c = .char '/' ∧
    ((∃ body, w = .char '/' :: body) ∨
      ∃ body, w = .char '*' :: body ∧ blockCommentLength (body ++ t) = body.length) := by
  obtain ⟨hc, ⟨u, heq, hlength⟩ | ⟨u, heq, hlength⟩⟩ := exists_of_lexeme_comment h
  · rw [heq, List.takeWhile_cons_of_pos (by decide)] at hlength
    cases w with
    | nil => cases hlength
    | cons d body => exact ⟨hc, .inl ⟨body, by rw [(List.cons.inj heq).1]⟩⟩
  · cases w with
    | nil => cases hlength
    | cons d body =>
      obtain ⟨rfl, rfl⟩ := List.cons.inj heq
      exact ⟨hc, .inr ⟨body, rfl, Nat.succ.inj hlength⟩⟩

-- A comment between two marks ends where it did when it is collapsed.
theorem lexeme_collapse_block (h : blockCommentLength (w ++ t) = w.length) (ht : t ≠ []) (rest : Text) :
    lexeme regexAllowed '/' (.char '*' :: collapseFrom false w ++ rest) =
      (.comment, (.char '*' :: collapseFrom false w : Text).length) := by
  rw [List.cons_append, lexeme_block, blockCommentLength_collapseFrom false h ht, List.length_cons]

theorem collapseFrom_block (behindBlank : Bool) (w t : Text) :
    collapseFrom behindBlank (.char '/' :: .char '*' :: w ++ t) =
      .char '/' :: (.char '*' :: collapseFrom false w ++
        collapseFrom ((w.getLast?.map CodePoint.isBlank).getD false) t) := by
  rw [List.cons_append, List.cons_append, collapseFrom_solid _ (by decide), collapse_solid (by decide), collapse,
    collapseFrom_append, List.cons_append]

-- Comments between two marks are still skipped when everything in front of a token is collapsed.
theorem Skips.collapsed (h : Skips regexAllowed t trivia u) (hlines : ∀ x ∈ trivia, ¬ x.isLine) (hu : u ≠ [])
    (hu' : ∀ c ∈ u'.head?, isSpace c = false) (behindBlank : Bool) :
    ∃ trivia', Skips regexAllowed (collapseFrom behindBlank (trivia.flatMap Trivia.text) ++ u') trivia' u' := by
  induction h generalizing behindBlank with
  | done => exact ⟨[], .done u'⟩
  | @blank c w t u trivia hlexeme hrest ih =>
    rw [List.flatMap_cons, Trivia.text, collapseFrom_append, List.append_assoc]
    obtain ⟨trivia', hskips⟩ := ih (List.forall_mem_cons.mp hlines).2 hu _
    exact hskips.behind_spaces hu' (spaces_collapseFrom hlexeme)
  | @comment c w t u trivia hlexeme hrest ih =>
    obtain ⟨hline, hquiet⟩ := List.forall_mem_cons.mp hlines
    obtain ⟨rfl, ⟨body, rfl⟩ | ⟨body, rfl, hlength⟩⟩ := comment_cases hlexeme
    · exact absurd rfl hline
    obtain ⟨trivia', hskips⟩ := ih hquiet hu ((body.getLast?.map CodePoint.isBlank).getD false)
    rw [List.flatMap_cons, Trivia.text, collapseFrom_block, List.cons_append, List.append_assoc]
    exact ⟨_, .comment (lexeme_collapse_block hlength (hrest.ne_nil hu) _) hskips⟩

-- From one place there is only one way to a token.
theorem Skips.step {kind : Lexeme} (h : Skips regexAllowed (c :: (w ++ t)) trivia u) (hu : AtToken regexAllowed u)
    (hlexeme : lexeme regexAllowed c (w ++ t) = (kind, w.length)) (hkind : ∀ token, kind ≠ .token token) :
    ∃ trivia', Skips regexAllowed t trivia' u := by
  have hsame {kind' : Lexeme} {w' t' : Text} (htext : w' ++ t' = w ++ t)
      (hlexeme' : lexeme regexAllowed c (w' ++ t') = (kind', w'.length)) : t' = t := by
    rw [htext, hlexeme] at hlexeme'
    exact (List.append_inj htext (Prod.mk.inj hlexeme').2.symm).2
  generalize htext : w ++ t = whole at h
  cases h with
  | done =>
    obtain ⟨d, v, token, n, heq, hat⟩ := hu
    obtain ⟨rfl, rfl⟩ := List.cons.inj heq
    rw [← htext, hlexeme] at hat
    exact absurd (Prod.mk.inj hat).1 (hkind token)
  | blank hlexeme' hrest => exact ⟨_, hsame htext.symm hlexeme' ▸ hrest⟩
  | comment hlexeme' hrest => exact ⟨_, hsame htext.symm hlexeme' ▸ hrest⟩

theorem Skips.of_behind_spaces (h : Skips regexAllowed (s ++ t) trivia u) (hu : AtToken regexAllowed u)
    (hs : ∀ c ∈ s, isSpace c) : ∃ trivia', Skips regexAllowed t trivia' u := by
  cases s with
  | nil => exact ⟨trivia, h⟩
  | cons c s =>
    obtain ⟨hc, hs⟩ := List.forall_mem_cons.mp hs
    -- the blank ends where the spaces of the rest do
    have hsplit : s ++ t = (s ++ t.takeWhile isSpace) ++ t.dropWhile isSpace := by
      rw [List.append_assoc, List.takeWhile_append_dropWhile]
    have hall : ∀ c ∈ s ++ t.takeWhile isSpace, isSpace c :=
      List.forall_mem_append.mpr ⟨hs, fun c => List.mem_takeWhile_imp⟩
    have hend : ∀ c ∈ (t.dropWhile isSpace).head?, ¬ isSpace c := by
      intro c hc
      have hstop := List.head?_dropWhile_not isSpace t
      rw [hc] at hstop
      simp [hstop]
    rw [List.cons_append, hsplit] at h
    obtain ⟨trivia', hrest⟩ := h.step hu (lexeme_blank_iff.mpr ⟨hc, length_takeWhile_append_iff.mpr ⟨hall, hend⟩⟩)
      (by simp)
    rw [← List.takeWhile_append_dropWhile (p := isSpace) (l := t)]
    exact hrest.behind_spaces hu.head fun c => List.mem_takeWhile_imp

theorem Skips.eq_of_atToken (h : Skips regexAllowed t trivia u) (ht : AtToken regexAllowed t) : u = t := by
  obtain ⟨c, w, kind, n, rfl, hlexeme⟩ := ht
  generalize htext : c :: w = whole at h
  cases h with
  | done => rfl
  | blank hblank =>
    obtain ⟨rfl, rfl⟩ := List.cons.inj htext
    rw [hlexeme] at hblank
    cases hblank
  | comment hcomment =>
    obtain ⟨rfl, rfl⟩ := List.cons.inj htext
    rw [hlexeme] at hcomment
    cases hcomment

-- A comment of a line takes in everything up to the end of the line.
theorem not_skips_line (h : Skips regexAllowed (.char '/' :: .char '/' :: t) trivia v) (hv : AtToken regexAllowed v)
    (hlines : ∀ s, s <:+ .char '/' :: t → v.length ≤ s.length → ∀ c ∈ s.head?, endsLine c = false) : False := by
  generalize hwhole : (.char '/' :: t : Text) = whole at h hlines
  have hsplit := List.takeWhile_append_dropWhile (p := (!endsLine ·)) (l := whole)
  have hlexeme : lexeme regexAllowed '/' whole = (.comment, (whole.takeWhile (!endsLine ·)).length) := by
    rw [← hwhole, lexeme_line]
  rw [← hsplit] at h
  obtain ⟨trivia', hrest⟩ := h.step hv (by rw [hsplit, hlexeme]) (by simp)
  have hlength := hrest.length_le
  cases hbehind : whole.dropWhile (!endsLine ·) with
  | nil =>
    obtain ⟨c, u, kind, n, rfl, -⟩ := hv
    simp [hbehind] at hlength
  | cons d rest =>
    have hstop := List.head?_dropWhile_not (!endsLine ·) whole
    rw [hbehind] at hlength hstop
    have hd := hlines (d :: rest) (hbehind ▸ List.dropWhile_suffix _) hlength d rfl
    simp [hd] at hstop

-- If a token is reached when everything in front of it is collapsed, there is no comment of a line that would
-- take it in.
theorem Skips.quiet (h : Skips regexAllowed t trivia u) (hu : u ≠ []) (hu' : AtToken regexAllowed u')
    (hcollapsed : Skips regexAllowed (collapseFrom behindBlank (trivia.flatMap Trivia.text) ++ u') trivia' v)
    (hv : AtToken regexAllowed v)
    (hlines : ∀ s, s <:+ collapseFrom behindBlank (trivia.flatMap Trivia.text) ++ u' → v.length ≤ s.length →
      ∀ c ∈ s.head?, endsLine c = false) : (∀ x ∈ trivia, ¬ x.isLine) ∧ v = u' := by
  induction h generalizing behindBlank trivia' with
  | done => exact ⟨nofun, hcollapsed.eq_of_atToken hu'⟩
  | @blank c w t u trivia hlexeme hrest ih =>
    rw [List.flatMap_cons, Trivia.text, collapseFrom_append, List.append_assoc] at hcollapsed hlines
    obtain ⟨trivia', hbehind⟩ := hcollapsed.of_behind_spaces hv (spaces_collapseFrom hlexeme)
    obtain ⟨hquiet, heq⟩ := ih hu hbehind fun s hs => hlines s (hs.trans (List.suffix_append _ _))
    exact ⟨List.forall_mem_cons.mpr ⟨by simp [Trivia.isLine], hquiet⟩, heq⟩
  | @comment c w t u trivia hlexeme hrest ih =>
    obtain ⟨rfl, ⟨body, rfl⟩ | ⟨body, rfl, hlength⟩⟩ := comment_cases hlexeme
    · exfalso
      rw [List.flatMap_cons, Trivia.text, List.cons_append, List.cons_append, collapseFrom_solid _ (by decide),
        collapse_solid (by decide), List.cons_append, List.cons_append] at hcollapsed hlines
      exact not_skips_line hcollapsed hv fun s hs => hlines s (hs.trans (List.suffix_cons _ _))
    · rw [List.flatMap_cons, Trivia.text, collapseFrom_block, List.cons_append, List.append_assoc] at hcollapsed hlines
      obtain ⟨trivia', hbehind⟩ := hcollapsed.step hv (lexeme_collapse_block hlength (hrest.ne_nil hu) _) (by simp)
      obtain ⟨hquiet, heq⟩ := ih hu hbehind fun s hs => hlines s
        ((hs.trans (List.suffix_append _ _)).trans (List.suffix_cons _ _))
      exact ⟨List.forall_mem_cons.mpr ⟨Bool.false_ne_true, hquiet⟩, heq⟩

end Skipping

section Reading

-- The regular expressions in front of other tokens are closed.
def Closed (run : List Token) : Prop :=
  ∀ token ∈ run.dropLast, token.kind = .regex → ClosesRegex false token.text.tail

-- No token has a comment of a line in front of it.
def Quiet (run : List Token) : Prop := ∀ token ∈ run, ∀ x ∈ token.lead, ¬ x.isLine

theorem Closed.tail (h : Closed (token :: run)) : Closed run := by
  cases run with
  | nil => nofun
  | cons second run => exact (List.forall_mem_cons.mp h).2

theorem fullText_append_ne_nil (hne : ∀ token ∈ run, token.text ≠ []) (hrun : run ≠ []) (after : Text) :
    fullText run ++ after ≠ [] := by
  obtain ⟨token, rest, rfl⟩ := List.exists_cons_of_ne_nil hrun
  simp [fullText_cons, hne token (List.mem_cons_self ..)]

-- A token in front of a run that is collapsed.
theorem lexeme_collapsedText {lead : List Trivia}
    (hlexeme : lexeme regexAllowed c (w ++ (fullText run ++ after)) = (.token kind, w.length))
    (hne : ∀ token ∈ run, token.text ≠ []) (hclosed : Closed (⟨lead, kind, c :: w⟩ :: run)) :
    lexeme regexAllowed c (w ++ (collapsedText run ++ after)) = (.token kind, w.length) := by
  by_cases hrun : run = []
  · subst hrun
    exact hlexeme
  · have hregex : kind = .regex → ClosesRegex false w := by
      obtain ⟨second, rest, rfl⟩ := List.exists_cons_of_ne_nil hrun
      exact (List.forall_mem_cons.mp hclosed).1
    exact stable_lexeme (not_isSpace_of_lexeme hlexeme) regexAllowed (fullText_append_ne_nil hne hrun after)
      (alike_collapsedText 2 run after) hregex hlexeme

theorem Reads.collapsed (h : Reads operand t run next after) (hquiet : Quiet run) (hclosed : Closed run) :
    ∃ run', run'.map Token.sign = run.map Token.sign ∧ Reads operand (collapsedText run ++ after) run' next after := by
  induction h with
  | done operand t => exact ⟨[], rfl, .done operand t⟩
  | @token operand next c t u v w kind lead run hlead hlexeme hrest ih =>
    obtain ⟨hlines, hquiet⟩ := List.forall_mem_cons.mp hquiet
    obtain ⟨run', hsigns, hreads⟩ := ih hquiet hclosed.tail
    rw [hrest.text] at hlexeme
    have hlexeme' := lexeme_collapsedText hlexeme hrest.ne_nil hclosed
    obtain ⟨trivia', hskips⟩ := hlead.collapsed hlines (by simp) (atToken_of_lexeme hlexeme').head false
    refine ⟨⟨trivia', kind, c :: w⟩ :: run', by rw [List.map_cons, List.map_cons, hsigns]; rfl, ?_⟩
    have htoken := Reads.token hskips hlexeme' hreads
    simpa [collapsedText_cons, collapse, Token.leadText] using htoken

theorem mem_of_suffix_append (h : s <:+ t ++ after) (hlength : after.length < s.length) : ∀ c ∈ s.head?, c ∈ t := by
  obtain ⟨front, rfl⟩ := List.suffix_of_suffix_length_le (List.suffix_append t after) h hlength.le
  obtain ⟨first, heq⟩ := h
  rw [← List.append_assoc] at heq
  obtain rfl := List.append_cancel_right heq
  intro c hc
  cases front with
  | nil => simp at hlength
  | cons d front =>
    obtain rfl := Option.some.inj hc
    simp

-- The other way round, what is read shows that nothing was taken in by a comment.
theorem Reads.quiet (h : Reads operand t raw next after)
    (hcollapsed : Reads operand (collapsedText raw ++ after) run next' after)
    (hsigns : run.map Token.sign = raw.map Token.sign) (hclosed : Closed raw)
    (hlines : ∀ c ∈ collapsedText raw, endsLine c = false) : Quiet raw := by
  induction h generalizing run next' with
  | done => nofun
  | @token operand next c t u after w kind lead raw hlead hlexeme hrest ih =>
    have hwhole (w : Text) : collapsedText (⟨lead, kind, c :: w⟩ :: raw) ++ after =
        collapse (lead.flatMap Trivia.text) ++ (c :: (w ++ (collapsedText raw ++ after))) := by
      simp [collapsedText_cons, Token.leadText]
    rw [hwhole] at hcollapsed
    generalize hbehind : c :: (w ++ (collapsedText raw ++ after)) = behind at hcollapsed
    generalize htext : collapse (lead.flatMap Trivia.text) ++ behind = text at hcollapsed
    cases hcollapsed with
    | done => cases hsigns
    | @token _ _ c' _ u' _ w' kind' lead' run hlead' hlexeme' hrest' =>
      obtain ⟨hsign, htail⟩ := List.cons.inj hsigns
      obtain ⟨rfl, hsame⟩ := Prod.mk.inj hsign
      obtain ⟨rfl, rfl⟩ := List.cons.inj hsame
      subst htext hbehind
      rw [hrest.text] at hlexeme
      have hat := lexeme_collapsedText hlexeme hrest.ne_nil hclosed
      have hshort : after.length < (c' :: (w' ++ u')).length := by
        rw [hrest'.text]
        simp only [List.length_cons, List.length_append]
        omega
      obtain ⟨hquiet, heq⟩ := hlead.quiet (by simp) (atToken_of_lexeme hat) hlead' (atToken_of_lexeme hlexeme')
        fun s hs hlength d hd => hlines d (mem_of_suffix_append (hwhole w' ▸ hs) (hshort.trans_le hlength) d hd)
      obtain rfl := List.append_cancel_left (List.cons.inj heq).2
      refine List.forall_mem_cons.mpr ⟨hquiet, ih hrest' htail hclosed.tail fun d hd => hlines d ?_⟩
      exact List.mem_append_right _ hd

theorem Reads.mem_behind (h : Reads operand t run next after) (hrun : run ≠ []) :
    t ≠ [] ∧ ∀ c ∈ t.head?, c ∈ fullText run := by
  have hne : fullText run ≠ [] := by simpa using fullText_append_ne_nil h.ne_nil hrun []
  rw [h.text, List.head?_append_of_ne_nil _ hne]
  exact ⟨by simp [hne], fun c => List.mem_of_head?⟩

-- No line ends in the text of a run.
theorem Reads.closed (h : Reads operand t run next after) (hlines : ∀ c ∈ fullText run, endsLine c = false) :
    Closed run := by
  induction h with
  | done => nofun
  | @token operand next c t u after w kind lead run _ hlexeme hrest ih =>
    have hbehind : ∀ c ∈ fullText run, endsLine c = false := fun d hd => hlines d (List.mem_append_right _ hd)
    cases run with
    | nil => nofun
    | cons second run =>
      obtain ⟨hne, hmem⟩ := hrest.mem_behind (List.cons_ne_nil second run)
      refine List.forall_mem_cons.mpr ⟨?_, ih hbehind⟩
      rintro rfl
      exact closesRegex_of_lexeme hlexeme hne fun d hd => hbehind d (hmem d hd)

theorem isBlank_of_endsLine (h : endsLine c) : c.isBlank := by
  simp only [endsLine, Bool.or_eq_true, decide_eq_true_eq] at h
  obtain ((rfl | rfl) | h) | h := h
  · decide
  · decide
  · simp [CodePoint.isBlank, blankRanges, h]
  · simp [CodePoint.isBlank, blankRanges, h]

theorem endsLine_eq_false (hblank : ∀ c ∈ t, c.isBlank → c = .char ' ') : ∀ c ∈ t, endsLine c = false := by
  intro c hc
  by_contra hends
  rw [Bool.not_eq_false] at hends
  obtain rfl := hblank c hc (isBlank_of_endsLine hends)
  exact absurd hends (by decide)

theorem last_ne_space (hlexeme : lexeme regexAllowed c (w ++ u) = (.token kind, w.length)) (hu : u ≠ [])
    (hline : ∀ d ∈ u.head?, endsLine d = false) : (c :: w).getLast? ≠ some (.char ' ') := by
  intro hlast
  obtain rfl | ⟨body, d, rfl⟩ := w.eq_nil_or_concat
  · obtain rfl := Option.some.inj hlast
    exact absurd (not_isSpace_of_lexeme hlexeme) (by decide)
  · rw [List.concat_eq_append] at hlexeme hlast
    obtain rfl := Option.some.inj ((getLast?_ends c d body).symm.trans hlast)
    have hreaches := reaches_of_lexeme hlexeme
    rw [List.append_assoc, List.singleton_append, List.length_append] at hreaches
    exact Reaches.ne_of_space hu hline hreaches

-- If the blanks of a text are all the same space, no token begins or ends with one.
theorem Reads.trimmed (h : Reads operand t run next after)
    (hblank : ∀ c ∈ fullText run, c.isBlank → c = .char ' ') (hlast : (fullText run).getLast?.all isSolid) :
    ∀ token ∈ run, token.text.Trimmed := by
  induction h with
  | done => nofun
  | @token operand next c t u after w kind lead run _ hlexeme hrest ih =>
    have hsolid {d : CodePoint} (hd : d ∈ c :: w) (hne : d ≠ .char ' ') : isSolid d := by
      rw [isSolid, Bool.not_eq_true', Bool.eq_false_iff]
      exact fun hd' => hne (hblank d (List.mem_append_left _ (List.mem_append_right _ hd)) hd')
    have hfirst : isSolid c := by
      refine hsolid (List.mem_cons_self ..) ?_
      rintro rfl
      exact absurd (not_isSpace_of_lexeme hlexeme) (by decide)
    have hbehind : ∀ d ∈ fullText run, d.isBlank → d = .char ' ' := fun d hd => hblank d (List.mem_append_right _ hd)
    have hend : ∀ d ∈ (c :: w).getLast?, isSolid d := by
      intro d hd
      by_cases hrun : run = []
      · subst hrun
        rw [fullText_cons, fullText_nil, List.append_nil, List.getLast?_append_of_ne_nil _ (List.cons_ne_nil c w), hd]
          at hlast
        exact hlast
      · -- what stands behind the token is another one, on the same line
        obtain ⟨hne, hmem⟩ := hrest.mem_behind hrun
        refine hsolid (List.mem_of_getLast? hd) ?_
        rintro rfl
        exact last_ne_space hlexeme hne (fun d hd => endsLine_eq_false hbehind d (hmem d hd)) hd
    have hlast' : (fullText run).getLast?.all isSolid := by
      by_cases hempty : fullText run = []
      · rw [hempty]
        rfl
      · rwa [fullText_cons, List.getLast?_append_of_ne_nil _ hempty] at hlast
    refine List.forall_mem_cons.mpr ⟨⟨by simpa using hfirst, ?_⟩, ih hbehind hlast'⟩
    rw [List.getLast?_eq_some_getLast (List.cons_ne_nil c w)]
    exact hend _ (List.getLast?_eq_some_getLast (List.cons_ne_nil c w))

end Reading

end HookGen.Source
