import HookGen.Proofs.Source.Collapsing
import HookGen.Source.Declaration
import Mathlib.Data.List.DropRight

/-!
Tokens that are cut out of a text and put in front of another one. They stay what they are if a line break or what stood
behind them before stands there again.
-/

namespace HookGen.Source

variable {regexAllowed operand next inClass : Bool} {c : CodePoint} {n : Nat} {t t' u u' v w : Text}
  {trivia : List Trivia} {run : List Token} {kind : Kind}

section Lexemes

-- What can stand behind a text in place of what stood there: a line break, or what begins alike.
inductive Follows : Text → Text → Prop
  | line {r : Text} (hr : r ≠ []) (s : Text) : Follows r (.char '\n' :: s)
  | same {s s' : Text} (c : CodePoint) (h : Alike 1 s s') : Follows (c :: s) (c :: s')

namespace Follows

theorem refl (hu : u ≠ []) : Follows u u := by
  obtain ⟨c, t, rfl⟩ := List.exists_cons_of_ne_nil hu
  exact .same c (.refl 1 t)

theorem ne_nil (h : Follows u u') : u ≠ [] ∧ u' ≠ [] := by
  cases h with
  | line hu t => exact ⟨hu, List.cons_ne_nil _ t⟩
  | same c h => exact ⟨List.cons_ne_nil c _, List.cons_ne_nil c _⟩

theorem alike (h : Follows u u') : Alike 2 u u' := by
  cases h with
  | line hu t => exact .inl fun c hc => by obtain rfl := Option.some.inj hc; decide
  | same c h => exact .inr ⟨c, _, _, rfl, rfl, h⟩

theorem append (h : Follows u u') (t : Text) : Follows (t ++ u) (t ++ u') := by
  cases t with
  | nil => exact h
  | cons c t => exact .same c (h.alike.of_succ.append t)

-- Where nothing but the first character matters.
theorem head {p : CodePoint → Prop} (h : Follows u u') (hline : p '\n') (hu : ∀ c ∈ u.head?, p c) :
    ∀ c ∈ u'.head?, p c := by
  cases h with
  | line _ t => simpa using hline
  | same c h => exact hu

end Follows

-- A regular expression ends with its line at the latest.
theorem regexLength_replace (h : regexLength inClass (w ++ u) = w.length) (hu : Follows u u') :
    regexLength inClass (w ++ u') = w.length := by
  obtain ⟨hne, hne'⟩ := hu.ne_nil
  induction inClass, w using regexLength.induct with
  | case1 inClass =>
    have hzero {t : Text} (ht : t ≠ []) : regexLength inClass t = 0 ↔ ∀ c ∈ t.head?, endsLine c := by
      obtain ⟨c, t, rfl⟩ := List.exists_cons_of_ne_nil ht
      cases hends : endsLine c with
      | false => simp [hends, (regexLength_pos hends inClass t).ne']
      | true =>
        have hescape : c ≠ .char '\\' := by
          rintro rfl
          exact absurd hends (by decide)
        rw [regexLength.eq_def]
        simp [hends, hescape]
    rw [List.nil_append, List.length_nil, hzero hne] at h
    rw [List.nil_append, List.length_nil, hzero hne']
    exact hu.head (by decide) h
  | case2 inClass c rest ih =>
    rw [List.cons_append, List.cons_append, regexLength_escape] at h ⊢
    rw [ih (Nat.add_right_cancel h)]
    rfl
  | case3 inClass =>
    obtain ⟨c, t, rfl⟩ := List.exists_cons_of_ne_nil hne
    rw [List.singleton_append, regexLength_escape] at h
    simp at h
  | case4 inClass c rest hescape hends =>
    rw [List.cons_append, regexLength.eq_def] at h
    simp [hescape, hends] at h
  | case7 inClass c rest hescape hends hopen hclose hslash =>
    obtain ⟨rfl, hclass⟩ := hslash
    obtain rfl : inClass = false := by simpa using hclass
    rw [List.cons_append, regexLength_slash, List.length_cons, Nat.add_right_cancel_iff, length_takeWhile_append_iff]
        at h ⊢
    exact ⟨h.1, hu.head (by decide) h.2⟩
  | case5 inClass rest hescape hends ih =>
    rw [List.cons_append, regexLength.eq_def] at h ⊢
    simp_all
  | case6 inClass rest hescape hends hopen ih =>
    rw [List.cons_append, regexLength.eq_def] at h ⊢
    simp_all
  | case8 inClass c rest hescape hends hopen hclose hslash ih =>
    have hstep (t : Text) : regexLength inClass (c :: t) = regexLength inClass t + 1 := by
      rw [regexLength.eq_def]
      dsimp only
      rw [if_neg hescape, if_neg hends, if_neg hopen, if_neg hclose, if_neg hslash]
    rw [List.cons_append, hstep, List.length_cons, Nat.add_right_cancel_iff] at h ⊢
    exact ih h

theorem lexeme_regex_iff : lexeme regexAllowed c t = (.token .regex, n) ↔ c = .char '/' ∧ regexAllowed ∧
    t.head? ≠ some (.char '/') ∧ t.head? ≠ some (.char '*') ∧ regexLength false t = n := by
  by_cases hslash : c = .char '/'
  · subst hslash
    rw [lexeme.eq_def, if_neg (by decide), if_pos rfl]
    split
    · simp
    · simp
    · rename_i hline hblock
      have hline' : t.head? ≠ some (.char '/') := fun heq => by
        obtain ⟨u, rfl⟩ := List.head?_eq_some_iff.mp heq
        exact hline u rfl
      have hblock' : t.head? ≠ some (.char '*') := fun heq => by
        obtain ⟨u, rfl⟩ := List.head?_eq_some_iff.mp heq
        exact hblock u rfl
      cases regexAllowed <;> simp [hline', hblock']
  · refine iff_of_false (fun h => ?_) fun h => hslash h.1
    rw [lexeme.eq_def, if_neg hslash] at h
    -- none of the other branches gives a regular expression
    iterate 10 refine of_ite_eq h (fun _ h => by cases h) fun h => ?_
    cases h

theorem lexeme_replace (h : lexeme regexAllowed c (w ++ u) = (.token kind, w.length)) (hu : Follows u u') :
    lexeme regexAllowed c (w ++ u') = (.token kind, w.length) := by
  by_cases hregex : kind = .regex
  · subst hregex
    obtain ⟨hc, hallowed, hline, hblock, hlength⟩ := lexeme_regex_iff.mp h
    have hhead {d : CodePoint} (hd : d ≠ .char '\n') (hne : (w ++ u).head? ≠ some d) :
        (w ++ u').head? ≠ some d := fun heq =>
      (hu.append w).head (p := (· ≠ d)) hd.symm (fun e he heq => hne (heq ▸ he)) d heq rfl
    exact lexeme_regex_iff.mpr
        ⟨hc, hallowed, hhead (by decide) hline, hhead (by decide) hblock, regexLength_replace hlength hu⟩
  · exact stable_lexeme (not_isSpace_of_lexeme h) regexAllowed hu.ne_nil.1 hu.alike (fun heq => absurd heq hregex) h

theorem blockCommentLength_append_of_closed (h : blockCommentLength (w ++ u) = w.length) (hu : u ≠ []) :
    w.getLast? = some (.char '/') ∧ ∀ t, blockCommentLength (w ++ t) = w.length := by
  induction w with
  | nil =>
    obtain ⟨e, u, rfl⟩ := List.exists_cons_of_ne_nil hu
    exact absurd h (blockCommentLength_pos e u).ne'
  | cons c w ih =>
    by_cases hend : c = .char '*' ∧ (w ++ u).head? = some (.char '/')
    · obtain ⟨rfl, hslash⟩ := hend
      obtain ⟨v, hv⟩ := List.head?_eq_some_iff.mp hslash
      rw [List.cons_append, hv] at h
      match w, h with
      | [d], _ =>
        obtain ⟨rfl, -⟩ := List.cons.inj hv
        exact ⟨rfl, fun t => rfl⟩
    · rw [List.cons_append, blockCommentLength_other hend, List.length_cons, Nat.add_right_cancel_iff] at h
      obtain ⟨hlast, hlength⟩ := ih h
      have hne : w ≠ [] := by
        rintro rfl
        cases hlast
      refine ⟨by rw [List.getLast?_cons_of_ne_nil hne, hlast], fun t => ?_⟩
      rw [List.cons_append, blockCommentLength_other, hlength, List.length_cons]
      rwa [List.head?_append_of_ne_nil _ hne] at hend ⊢

-- A comment that is closed, or ends with its line.
theorem lexeme_comment_replace (h : lexeme regexAllowed c (w ++ u) = (.comment, w.length)) (hu : Follows u u') :
    lexeme regexAllowed c (w ++ u') = (.comment, w.length) := by
  obtain ⟨rfl, ⟨body, rfl⟩ | ⟨body, rfl, hlength⟩⟩ := comment_cases h
  · rw [List.cons_append, lexeme_line] at h ⊢
    have hbody (t : Text) := length_takeWhile_append_iff (w := .char '/' :: body) (t := t) (p := (!endsLine ·))
    obtain ⟨hall, hhead⟩ := (hbody u).mp (Prod.mk.inj h).2
    exact Prod.ext rfl ((hbody u').mpr ⟨hall, hu.head (by decide) hhead⟩)
  · rw [List.cons_append, lexeme_block, (blockCommentLength_append_of_closed hlength hu.ne_nil.1).2]
    rfl

theorem lexeme_blank_replace (h : lexeme regexAllowed c (w ++ u) = (.blank, w.length)) (hu : u.head? = u'.head?) :
    lexeme regexAllowed c (w ++ u') = (.blank, w.length) := by
  rw [lexeme_blank_iff, length_takeWhile_append_iff] at h ⊢
  rwa [← hu]

end Lexemes

section Runs

-- What is skipped in front of a text is skipped in front of any text that begins alike.
theorem Skips.replace (h : Skips regexAllowed t trivia (c :: u)) (hu : Alike 1 u u') :
    Skips regexAllowed (trivia.flatMap Trivia.text ++ c :: u') trivia (c :: u') := by
  generalize hwhole : c :: u = whole at h
  induction h with
  | done => exact .done _
  | @blank d w t whole trivia hlexeme hrest ih =>
    have hskips := ih hwhole
    have hhead : t.head? = (trivia.flatMap Trivia.text ++ c :: u').head? := by
      rw [hrest.text, ← hwhole]
      cases trivia.flatMap Trivia.text <;> rfl
    simpa [Trivia.text] using Skips.blank (lexeme_blank_replace hlexeme hhead) hskips
  | @comment d w t whole trivia hlexeme hrest ih =>
    have hskips := ih hwhole
    have hfollows : Follows t (trivia.flatMap Trivia.text ++ c :: u') := by
      rw [hrest.text, ← hwhole]
      exact (Follows.same c hu).append _
    simpa [Trivia.text] using Skips.comment (lexeme_comment_replace hlexeme hfollows) hskips

-- A run of tokens stays what it is in front of other text.
theorem Reads.replace (h : Reads operand t run next u) (hu : Follows u u') :
    Reads operand (fullText run ++ u') run next u' := by
  induction h with
  | done => exact .done _ _
  | @token operand next c t v u w kind lead run hlead hlexeme hrest ih =>
    have hreads := ih hu
    have hfollows : Follows v (fullText run ++ u') := hrest.text ▸ hu.append _
    have hskips := hlead.replace (hfollows.alike.of_succ.append w)
    have htoken := Reads.token hskips (lexeme_replace hlexeme hfollows) hreads
    simpa [fullText_cons, Token.leadText] using htoken

end Runs

section Trailing

-- The text of the comments behind a statement, without the blanks at its end.
def trailingText (lead : List Trivia) : Text :=
  ((trailingComments lead).flatMap Trivia.text).rdropWhile CodePoint.isBlank

theorem rdropWhile_append {α : Type} (p : α → Bool) (front back : List α) : (front ++ back).rdropWhile p =
    if back.rdropWhile p = [] then front.rdropWhile p else front ++ back.rdropWhile p := by
  rw [List.rdropWhile, List.reverse_append, List.dropWhile_append, apply_ite List.reverse, List.reverse_append,
    List.reverse_reverse]
  simp [List.rdropWhile]

theorem trailingText_cons (x : Trivia) (lead : List Trivia) : trailingText (x :: lead) =
    if x.breaksLine then [] else if trailingText lead = [] then x.text.rdropWhile CodePoint.isBlank
      else x.text ++ trailingText lead := by
  rw [trailingText, trailingComments]
  split
  · rfl
  · rw [List.flatMap_cons, rdropWhile_append]
    rfl

theorem trailingText_prefix (lead : List Trivia) : trailingText lead <+: lead.flatMap Trivia.text := by
  refine (List.rdropWhile_prefix _ _).trans ?_
  induction lead with
  | nil => exact List.nil_prefix
  | cons x lead ih =>
    rw [trailingComments]
    split
    · exact List.nil_prefix
    · exact (List.prefix_append_right_inj _).mpr ih

-- Spaces with a line break among them.
theorem skips_lines (regexAllowed : Bool) (ht : ∀ c ∈ t, isSpace c) (hline : .char '\n' ∈ t)
    (hu : ∀ c ∈ u.head?, isSpace c = false) :
    ∃ trivia, Skips regexAllowed (t ++ u) trivia u ∧ trivia.any Trivia.breaksLine := by
  obtain ⟨c, t, rfl⟩ := List.exists_cons_of_ne_nil (List.ne_nil_of_mem hline)
  obtain ⟨hc, ht⟩ := List.forall_mem_cons.mp ht
  have hlexeme : lexeme regexAllowed c (t ++ u) = (.blank, t.length) :=
    lexeme_blank_iff.mpr ⟨hc, length_takeWhile_append_iff.mpr ⟨ht, by simpa using hu⟩⟩
  exact ⟨_, .blank hlexeme (.done u), by simpa [Trivia.breaksLine] using hline⟩

-- A comment at the end of a text is closed, or it takes in whatever is put behind it.
theorem blockCommentLength_cases (h : blockCommentLength w = w.length) :
    (w.getLast? = some (.char '/') ∧ ∀ t, blockCommentLength (w ++ t) = w.length) ∨
      ∀ t, t.head? ≠ some (.char '/') → blockCommentLength t = t.length →
        blockCommentLength (w ++ t) = (w ++ t).length := by
  induction w with
  | nil => exact .inr fun t _ ht => ht
  | cons c w ih =>
    by_cases hend : c = .char '*' ∧ w.head? = some (.char '/')
    · obtain ⟨rfl, hslash⟩ := hend
      obtain ⟨v, rfl⟩ := List.head?_eq_some_iff.mp hslash
      have hlength : 2 = v.length + 2 := h
      obtain rfl : v = [] := List.length_eq_zero_iff.mp (by omega)
      exact .inl ⟨rfl, fun t => rfl⟩
    · rw [blockCommentLength_other hend, List.length_cons, Nat.add_right_cancel_iff] at h
      obtain ⟨hlast, hclosed⟩ | hopen := ih h
      · have hne : w ≠ [] := by
          rintro rfl
          cases hlast
        refine .inl ⟨by rw [List.getLast?_cons_of_ne_nil hne, hlast], fun t => ?_⟩
        rw [List.cons_append, blockCommentLength_other, hclosed, List.length_cons]
        rwa [List.head?_append_of_ne_nil _ hne]
      · refine .inr fun t hhead ht => ?_
        rw [List.cons_append, blockCommentLength_other, hopen t hhead ht, List.length_cons]
        rintro ⟨rfl, hslash⟩
        cases w with
        | nil => exact hhead hslash
        | cons => exact hend ⟨rfl, hslash⟩

theorem length_tokensFrom_of_skips (h : Skips (!operand) t trivia u) :
    (tokensFrom [] operand t).length = (tokensFrom [] operand u).length := by
  obtain ⟨token, rest, hfirst, hlead⟩ := tokensFrom_lead trivia operand u
  rw [tokensFrom_of_skips h, List.nil_append, hlead, hfirst]
  rfl

-- A text behind which a semicolon on a line of its own is read.
def Ended (operand : Bool) (t : Text) : Prop := 2 ≤ (tokensFrom [] operand (t ++ "\n;")).length

theorem ended_nil (operand : Bool) : Ended operand [] := by
  rw [Ended]
  cases operand <;> decide +kernel

theorem Ended.of_skips (h : Ended operand t) (hskips : Skips (!operand) (t ++ "\n;") trivia (u ++ "\n;")) :
    Ended operand u := by
  rw [Ended, ← length_tokensFrom_of_skips hskips]
  exact h

theorem Ended.behind_blank (h : Ended operand (c :: (w ++ t)))
    (hlexeme : lexeme (!operand) c (w ++ t) = (.blank, w.length)) (ht : t ≠ []) : Ended operand t := by
  have hblank := Skips.blank (lexeme_blank_replace hlexeme (List.head?_append_of_ne_nil t ht).symm) (.done (t ++ "\n;"))
  exact h.of_skips (by simpa using hblank)

theorem Ended.behind_comment (h : Ended operand (c :: (w ++ t)))
    (hlexeme : lexeme (!operand) c (w ++ t) = (.comment, w.length)) (ht : t ≠ []) : Ended operand t := by
  obtain ⟨d, t, rfl⟩ := List.exists_cons_of_ne_nil ht
  have hends : Alike 1 ([] : Text) "\n;" := .inl fun c hc => by obtain rfl := Option.some.inj hc; decide
  have hfollows : Follows (d :: t) (d :: t ++ "\n;") := .same d (by simpa using hends.append t)
  exact h.of_skips (by simpa using Skips.comment (lexeme_comment_replace hlexeme hfollows) (.done _))

-- A comment behind which a semicolon is read is closed, or ends with its line.
theorem closed_of_ended {body : Text} (h : lexeme (!operand) '/' (.char '*' :: body ++ t) = (.comment, body.length + 1))
    (hended : Ended operand (.char '/' :: (.char '*' :: body ++ t))) :
    body.getLast? = some (.char '/') ∧ ∀ t, blockCommentLength (body ++ t) = body.length := by
  rw [List.cons_append, lexeme_block] at h
  have hlength : blockCommentLength (body ++ t) = body.length := Nat.succ.inj (Prod.mk.inj h).2
  by_cases ht : t = []
  · subst ht
    rw [List.append_nil] at hlength
    refine (blockCommentLength_cases hlength).resolve_right fun hopen => ?_
    have hall : Skips (!operand) (.char '/' :: (.char '*' :: (body ++ ("\n;" : Text)) ++ [])) _ [] :=
      .comment (by rw [List.append_nil, lexeme_block, hopen "\n;" (by decide) rfl, List.length_cons]) (.done [])
    have hone := length_tokensFrom_of_skips hall
    rw [tokensFrom_nil, List.append_nil] at hone
    rw [Ended, List.append_nil, List.cons_append, List.cons_append, hone] at hended
    exact absurd hended (by decide)
  · exact blockCommentLength_append_of_closed hlength ht

theorem rdropWhile_line (body : Text) : (.char '/' :: .char '/' :: body : Text).rdropWhile CodePoint.isBlank =
    .char '/' :: .char '/' :: body.rdropWhile CodePoint.isBlank := by
  have happend := rdropWhile_append CodePoint.isBlank ("//" : Text) body
  split at happend
  · rename_i hnil
    rw [hnil]
    exact happend
  · exact happend

theorem Skips.ne_of_trailing (h : Skips regexAllowed t trivia u) (hne : trailingText trivia ≠ []) : t ≠ [] := by
  rintro rfl
  have hnil := (List.append_eq_nil_iff.mp h.text.symm).1
  exact hne (List.prefix_nil.mp (hnil ▸ trailingText_prefix trivia))

-- The comments behind a statement can be read in front of a line break.
theorem Skips.trailing (h : Skips (!operand) t trivia u) (hended : Ended operand t) {n : Text} (hn : n ≠ [])
    (hlines : ∀ c ∈ n, c = .char '\n') (hv : ∀ c ∈ v.head?, isSpace c = false) :
    ∃ trivia', Skips (!operand) (trailingText trivia ++ (n ++ v)) trivia' v ∧ trivia'.any Trivia.breaksLine := by
  have hspaces : ∀ c ∈ n, isSpace c := fun c hc => hlines c hc ▸ by decide
  obtain ⟨first, n, rfl⟩ := List.exists_cons_of_ne_nil hn
  obtain rfl := hlines first (List.mem_cons_self ..)
  have hbreak := skips_lines (!operand) hspaces (List.mem_cons_self ..) hv
  -- what is left behind a blank or a comment follows it as what stood there before
  have hfollows {t u : Text} {trivia : List Trivia} (hrest : Skips (!operand) t trivia u)
      (hne : trailingText trivia ≠ []) :
      Follows t (trailingText trivia ++ (.char '\n' :: n ++ v)) ∧
        t.head? = (trailingText trivia ++ (.char '\n' :: n ++ v)).head? := by
    obtain ⟨rest, hprefix⟩ := trailingText_prefix trivia
    rw [hrest.text, ← hprefix, List.append_assoc]
    obtain ⟨c, kept, hkept⟩ := List.exists_cons_of_ne_nil hne
    rw [hkept]
    have hends : Alike 1 (rest ++ u) (.char '\n' :: n ++ v) :=
        .inl fun c hc => by obtain rfl := Option.some.inj hc; decide
    exact ⟨.same c (hends.append kept), rfl⟩
  induction h with
  | done => exact hbreak
  | @blank c w t u trivia hlexeme hrest ih =>
    rw [trailingText_cons]
    split
    · exact hbreak
    obtain ⟨hc, hw⟩ := lexeme_blank_iff.mp hlexeme
    have hall : ∀ d ∈ c :: w, isSpace d := List.forall_mem_cons.mpr ⟨hc, (length_takeWhile_append_iff.mp hw).1⟩
    split
    · have hkept : ∀ d ∈ (Trivia.blank (c :: w)).text.rdropWhile CodePoint.isBlank ++ .char '\n' :: n, isSpace d :=
        List.forall_mem_append.mpr ⟨fun d hd => hall d ((List.rdropWhile_prefix _ _).subset hd), hspaces⟩
      have hbreak' := skips_lines (!operand) hkept (List.mem_append_right _ (List.mem_cons_self ..)) hv
      rwa [List.append_assoc] at hbreak'
    · rename_i hne
      have ht := hrest.ne_of_trailing hne
      obtain ⟨trivia', hskips, hany⟩ := ih (hended.behind_blank hlexeme ht)
      have hblank := Skips.blank (lexeme_blank_replace hlexeme (hfollows hrest hne).2) hskips
      rw [Trivia.text, List.append_assoc]
      exact ⟨_, hblank, by simp [hany]⟩
  | @comment c w t u trivia hlexeme hrest ih =>
    rw [trailingText_cons, if_neg (by simp [Trivia.breaksLine])]
    split
    · obtain ⟨trivia', hskips, hany⟩ := hbreak
      obtain ⟨rfl, ⟨body, rfl⟩ | ⟨body, rfl, -⟩⟩ := comment_cases hlexeme
      · have hwhole (t : Text) (body : Text) :=
          length_takeWhile_append_iff (w := .char '/' :: body) (t := t) (p := (!endsLine ·))
        rw [List.cons_append, lexeme_line] at hlexeme
        have hbody := ((hwhole t body).mp (Prod.mk.inj hlexeme).2).1
        have hkept : ∀ c ∈ (.char '/' :: body.rdropWhile CodePoint.isBlank : Text), !endsLine c :=
          fun c hc => hbody c ((List.cons_subset_cons _ (List.rdropWhile_prefix _ _).subset) hc)
        have hcomment :
            lexeme (!operand) '/' (.char '/' :: body.rdropWhile CodePoint.isBlank ++ (.char '\n' :: n ++ v)) =
            (.comment, (.char '/' :: body.rdropWhile CodePoint.isBlank : Text).length) :=
          Prod.ext rfl ((hwhole _ _).mpr ⟨hkept, by simp [endsLine]⟩)
        rw [Trivia.text, rdropWhile_line]
        exact ⟨_, .comment hcomment hskips, by simp [hany]⟩
      · obtain ⟨hlast, hclosed⟩ := closed_of_ended hlexeme hended
        have hcomment : lexeme (!operand) '/' (.char '*' :: body ++ (.char '\n' :: n ++ v)) =
            (.comment, (.char '*' :: body : Text).length) := by
          rw [List.cons_append, lexeme_block, hclosed]
          rfl
        have hkept : (.char '/' :: .char '*' :: body : Text).rdropWhile CodePoint.isBlank =
            .char '/' :: .char '*' :: body := by
          obtain ⟨inner, rfl⟩ := List.getLast?_eq_some_iff.mp hlast
          exact List.rdropWhile_concat_neg (p := CodePoint.isBlank) (.char '/' :: .char '*' :: inner) _ (by decide)
        rw [Trivia.text, hkept]
        exact ⟨_, .comment hcomment hskips, by simp [hany]⟩
    · rename_i hne
      have ht := hrest.ne_of_trailing hne
      obtain ⟨trivia', hskips, hany⟩ := ih (hended.behind_comment hlexeme ht)
      have hcomment := Skips.comment (lexeme_comment_replace hlexeme (hfollows hrest hne).1) hskips
      rw [Trivia.text, List.append_assoc]
      exact ⟨_, hcomment, by simp [hany]⟩

end Trailing

end HookGen.Source
