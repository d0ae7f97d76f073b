import HookGen.Proofs.Source.Lengths

/-!
Where a text is cut into tokens does not depend on what stands far behind: a token in front of more is the same in
front of anything that begins alike.
-/

namespace HookGen.Source

variable {c : CodePoint} {t u w r r' : Text} {f : Text → Nat}

section Lexemes

-- A token that is read in front of more is read in front of anything that begins alike, if no regular expression is
-- cut off by the end of its line.
def Stable (g : Text → Lexeme × Nat) : Prop :=
  ∀ ⦃w r r' : Text⦄ ⦃kind : Kind⦄, r ≠ [] → Alike 2 r r' → (kind = .regex → ClosesRegex false w) →
    g (w ++ r) = (.token kind, w.length) → g (w ++ r') = (.token kind, w.length)

theorem Stable.of_local (kind : Kind) (hf : Local f) : Stable fun t => (.token kind, f t) := by
  intro w r r' kind' hr halike _ h
  obtain ⟨hkind, hlength⟩ := Prod.mk.inj h
  exact Prod.ext hkind (hf hr halike hlength)

theorem Stable.regex : Stable fun t => (.token .regex, regexLength false t) := by
  intro w r r' kind _ halike hcloses h
  obtain ⟨hkind, hlength⟩ := Prod.mk.inj h
  obtain rfl := Lexeme.token.inj hkind
  exact Prod.ext rfl ((hcloses rfl).local halike hlength)

-- Comments are no tokens.
theorem Stable.comment (f : Text → Nat) : Stable fun t => (.comment, f t) := by
  intro w r r' kind _ _ _ h
  cases (Prod.mk.inj h).1

theorem Stable.ite {p : Prop} [Decidable p] {g g' : Text → Lexeme × Nat} (hg : Stable g) (hg' : Stable g') :
    Stable fun t => if p then g t else g' t := by
  by_cases hp : p
  · simpa only [if_pos hp] using hg
  · simpa only [if_neg hp] using hg'

-- A condition on the character behind, which then belongs to what is read.
theorem Stable.ite_head {p : Text → Prop} [DecidablePred p] {g g' : Text → Lexeme × Nat} (hnil : ¬ p [])
    (hdelimiter : ∀ c t, isDelimiter c → ¬ p (c :: t)) (hhead : ∀ c t t', p (c :: t) → p (c :: t'))
    (hpos : ∀ c t, p (c :: t) → 0 < (g (c :: t)).2) (hg : Stable g) (hg' : Stable g') :
    Stable fun t => if p t then g t else g' t := by
  intro w r r' kind hr halike hcloses h
  dsimp only at h ⊢
  cases w with
  | cons d w =>
    rw [List.cons_append] at h ⊢
    by_cases hd : p (d :: (w ++ r))
    · rw [if_pos hd] at h
      rw [if_pos (hhead _ _ _ hd)]
      exact @hg (d :: w) r r' kind hr halike hcloses h
    · rw [if_neg hd] at h
      rw [if_neg (hd ∘ hhead _ _ _)]
      exact @hg' (d :: w) r r' kind hr halike hcloses h
  | nil =>
    rw [List.nil_append] at h ⊢
    have hbehind : ¬ p r := by
      intro hp
      rw [if_pos hp] at h
      obtain ⟨d, t, rfl⟩ := List.exists_cons_of_ne_nil hr
      have hzero := hpos d t hp
      rw [h] at hzero
      cases hzero
    have hbehind' : ¬ p r' := by
      obtain hends | ⟨d, t, t', rfl, rfl, -⟩ := halike
      · obtain rfl | ⟨d, t, rfl, hd⟩ := hends.cases
        · exact hnil
        · exact hdelimiter d t hd
      · exact hbehind ∘ hhead _ _ _
    rw [if_neg hbehind] at h
    rw [if_neg hbehind']
    exact @hg' [] r r' kind hr halike hcloses h

theorem startsWith_points : Text.startsWith ".." t ↔ ∃ u, t = .char '.' :: .char '.' :: u := by
  rw [Text.startsWith, List.isPrefixOf_iff_prefix]
  exact exists_congr fun u => eq_comm

-- Two more points belong to a point.
theorem stable_points (p : Prop) [Decidable p] : Stable fun t =>
    if p ∧ Text.startsWith ".." t then (.token .mark, 2) else (.token .mark, 0) := by
  intro w r r' kind hr halike _ h
  dsimp only at h ⊢
  split at h
  · rename_i hpoints
    obtain ⟨hkind, hlength⟩ := Prod.mk.inj h
    obtain ⟨u, hu⟩ := startsWith_points.mp hpoints.2
    obtain ⟨d, e, rfl⟩ : ∃ d e, w = [d, e] := by
      match w, hlength with
      | [d, e], _ => exact ⟨d, e, rfl⟩
    simp only [List.cons_append, List.cons.injEq] at hu
    obtain ⟨rfl, rfl, -⟩ := hu
    rw [if_pos ⟨hpoints.1, startsWith_points.mpr ⟨r', rfl⟩⟩, hkind]
    rfl
  · rename_i hpoints
    obtain ⟨hkind, hlength⟩ := Prod.mk.inj h
    obtain rfl := List.length_eq_zero_iff.mp hlength.symm
    rw [if_neg, hkind]
    · rfl
    rintro ⟨hp, hpoints'⟩
    obtain ⟨u, rfl⟩ := startsWith_points.mp hpoints'
    have hpoint : isDelimiter '.' = false := by decide
    -- neither of the two points is a delimiter, so they are behind the first point here too
    obtain hends | ⟨d, t, t', rfl, heq, hnext⟩ := halike
    · simp [hends (.char '.') rfl] at hpoint
    obtain ⟨rfl, rfl⟩ := List.cons.inj heq
    obtain hends | ⟨d, t, t', rfl, heq, -⟩ := hnext
    · simp [hends (.char '.') rfl] at hpoint
    obtain ⟨rfl, rfl⟩ := List.cons.inj heq
    exact hpoints ⟨hp, startsWith_points.mpr ⟨t, rfl⟩⟩

theorem stable_slash (re : Bool) : Stable (lexeme re '/') := by
  have hlexeme : lexeme re '/' = fun t =>
      if t.head? = some (.char '/') then (.comment, (t.takeWhile (!endsLine ·)).length)
      else if t.head? = some (.char '*') then (.comment, blockCommentLength t.tail + 1)
      else if re then (.token .regex, regexLength false t) else (.token .mark, 0) := by
    funext t
    rw [lexeme.eq_def, if_neg (by decide), if_pos rfl]
    split
    · rfl
    · rfl
    · rename_i hslash hstar
      have hslash' : t.head? ≠ some (.char '/') := by
        intro heq
        obtain ⟨u, rfl⟩ := List.head?_eq_some_iff.mp heq
        exact hslash u rfl
      have hstar' : t.head? ≠ some (.char '*') := by
        intro heq
        obtain ⟨u, rfl⟩ := List.head?_eq_some_iff.mp heq
        exact hstar u rfl
      rw [if_neg hslash', if_neg hstar']
  rw [hlexeme]
  have hdelimiter {d : CodePoint} (hd : isDelimiter d = false) (c : CodePoint) (t : Text) (hc : isDelimiter c) :
      ¬ (c :: t).head? = some d := fun heq => ne_of_isDelimiter hc hd (Option.some.inj heq)
  refine .ite_head (by simp) (hdelimiter (by decide)) (by simp) ?_ (.comment _)
    (.ite_head (by simp) (hdelimiter (by decide)) (by simp) ?_ (.comment _) (.ite .regex (.of_local _ local_const)))
  · intro c t hc
    obtain rfl : c = .char '/' := by simpa using hc
    rw [List.takeWhile_cons_of_pos (by decide)]
    exact Nat.succ_pos _
  · exact fun c t _ => Nat.succ_pos _

theorem wordLength_pos {d : CodePoint} (hd : isWordPart d) (t : Text) : 0 < wordLength false (d :: t) := by
  rw [wordLength_part hd]
  exact Nat.succ_pos _

-- What begins with anything but a space ends where it does in front of all that is alike.
theorem stable_lexeme (hc : isSpace c = false) (re : Bool) : Stable (lexeme re c) := by
  by_cases hslash : c = .char '/'
  · rw [hslash]
    exact stable_slash re
  have hlexeme : lexeme re c = fun t =>
      if c = '"' ∨ c = '\'' then (.token .string, literalLength [.quoted c] t)
      else if c = '\x60' then (.token .template, literalLength [.template] t)
      else if c = '0' ∧ t.head?.any (CodePoint.isIn ['x', 'X', 'o', 'O', 'b', 'B']) then
        (.token .number, basedNumberLength t)
      else if c.isAsciiDigit then (.token .number, numberLength false t)
      else if c = '.' ∧ t.head?.any CodePoint.isAsciiDigit then (.token .number, numberLength false t)
      else if isWordStart c then (.token .word, wordLength false t)
      else if c = '\\' then (.token .word, wordLength false t)
      else if c = '#' ∧ t.head?.any isWordStart then (.token .word, wordLength false t)
      else if c = '=' ∧ t.head? = some (.char '>') then (.token .mark, 1)
      else if (c = '+' ∨ c = '-') ∧ t.head? = some c then (.token .mark, 1)
      else if c = '.' ∧ Text.startsWith ".." t then (.token .mark, 2)
      else (.token .mark, 0) := by
    funext t
    rw [lexeme.eq_def, if_neg (by simp [hc]), if_neg hslash]
    simp only [ite_or]
  have hliteral (modes : List Mode) : Local (literalLength modes) := fun _ _ _ hr _ h =>
    literalLength_append_of_closed h hr _
  have hbased : Local basedNumberLength := local_takeWhile fun c hc => by simp [isWordPart_of_isDelimiter hc]
  -- none of the characters that are looked for is a delimiter
  have hpart {p : CodePoint → Bool} (hp : ∀ d, p d → isWordPart d) {q : Prop} (d : CodePoint) (t : Text)
      (hd : isDelimiter d) : ¬(q ∧ ((d :: t).head?.any p) = true) := by
    rintro ⟨-, h⟩
    have hword := hp d (by simpa using h)
    rw [isWordPart_of_isDelimiter hd] at hword
    cases hword
  have hbase (d : CodePoint) (hd : d.isIn ['x', 'X', 'o', 'O', 'b', 'B']) : isWordPart d := by
    cases d with
    | surrogate offset => cases hd
    | char d =>
      simp only [CodePoint.isIn, List.contains_eq_mem, List.mem_cons, List.not_mem_nil, or_false,
        decide_eq_true_eq] at hd
      rcases hd with rfl | rfl | rfl | rfl | rfl | rfl <;> decide
  have hdigit (d : CodePoint) (hd : d.isAsciiDigit) : isWordPart d := isWordPart_of_isAsciiDigit hd
  have hstart (d : CodePoint) (hd : isWordStart d) : isWordPart d := (Bool.and_eq_true_iff.mp hd).1
  have hsame {e : CodePoint} {q : Prop} (he : q → isDelimiter e = false) (d : CodePoint)
      (t : Text) (hd : isDelimiter d) :
      ¬(q ∧ (d :: t).head? = some e) := fun h => ne_of_isDelimiter hd (he h.1) (Option.some.inj h.2)
  have hsign (h : c = .char '+' ∨ c = .char '-') : isDelimiter c = false := by rcases h with rfl | rfl <;> decide
  rw [hlexeme]
  refine .ite (.of_local _ (hliteral _)) (.ite (.of_local _ (hliteral _))
    (.ite_head (by simp) (hpart hbase) (by simp) ?_ (.of_local _ hbased)
    (.ite (.of_local _ (local_numberLength _))
    (.ite_head (by simp) (hpart hdigit) (by simp) ?_ (.of_local _ (local_numberLength _))
    (.ite (.of_local _ (local_wordLength _)) (.ite (.of_local _ (local_wordLength _))
    (.ite_head (by simp) (hpart hstart) (by simp) ?_ (.of_local _ (local_wordLength _))
    (.ite_head (by simp) (hsame fun _ => by decide) (by simp) ?_ (.of_local _ local_const)
    (.ite_head (by simp) (hsame hsign) (by simp) ?_ (.of_local _ local_const) (stable_points _))))))))))
  · rintro d t ⟨-, hd⟩
    rw [basedNumberLength, List.takeWhile_cons_of_pos (hbase d (by simpa using hd))]
    exact Nat.succ_pos _
  · rintro d t ⟨-, hd⟩
    rw [numberLength, if_pos]
    · exact Nat.succ_pos _
    · simp [hdigit d (by simpa using hd)]
  · rintro d t ⟨-, hd⟩
    exact wordLength_pos (hstart d (by simpa using hd)) t
  · exact fun _ _ _ => Nat.one_pos
  · exact fun _ _ _ => Nat.one_pos

-- How long a token can be.
inductive Reaches (c : CodePoint) (t : Text) : Kind → Nat → Prop
  | regex : Reaches c t .regex (regexLength false t)
  | string (hquote : c = .char '"' ∨ c = .char '\'') : Reaches c t .string (literalLength [.quoted c] t)
  | template : Reaches c t .template (literalLength [.template] t)
  | based : Reaches c t .number (basedNumberLength t)
  | number : Reaches c t .number (numberLength false t)
  | word : Reaches c t .word (wordLength false t)
  | mark {u : Text} (hmark : u <+: t) (hspace : .char ' ' ∉ u) : Reaches c t .mark u.length

-- The branches of a conditional, where `split` would look into all that follow.
theorem of_ite_eq {α : Type} {p P : Prop} [Decidable p] {x y z : α} (h : (if p then x else y) = z)
    (hx : p → x = z → P) (hy : y = z → P) : P := by
  by_cases hp : p
  · exact hx hp ((if_pos hp).symm.trans h)
  · exact hy ((if_neg hp).symm.trans h)

theorem reaches_of_lexeme {re : Bool} {kind : Kind} {n : Nat} (h : lexeme re c t = (.token kind, n)) :
    Reaches c t kind n := by
  have hmark {d : CodePoint} (hd : d ≠ .char ' ') (hhead : t.head? = some d) : Reaches c t .mark 1 := by
    obtain ⟨u, rfl⟩ := List.head?_eq_some_iff.mp hhead
    exact .mark (u := [d]) ⟨u, rfl⟩ fun hmem => hd (List.mem_singleton.mp hmem).symm
  have hone : Reaches c t .mark 0 := .mark (u := []) List.nil_prefix List.not_mem_nil
  rw [lexeme.eq_def] at h
  refine of_ite_eq h (fun _ h => by cases h) fun h => ?_
  refine of_ite_eq h (fun _ h => ?_) fun h => ?_
  · split at h
    · cases h
    · cases h
    · exact of_ite_eq h (fun _ h => by cases h; exact .regex) fun h => by cases h; exact hone
  refine of_ite_eq h (fun hquote h => by cases h; exact .string hquote) fun h => ?_
  refine of_ite_eq h (fun _ h => by cases h; exact .template) fun h => ?_
  refine of_ite_eq h (fun _ h => by cases h; exact .based) fun h => ?_
  refine of_ite_eq h (fun _ h => by cases h; exact .number) fun h => ?_
  refine of_ite_eq h (fun _ h => by cases h; exact .word) fun h => ?_
  refine of_ite_eq h (fun _ h => by cases h; exact .word) fun h => ?_
  refine of_ite_eq h (fun hnext h => by cases h; exact hmark (by simp) hnext.2) fun h => ?_
  refine of_ite_eq h (fun hnext h => ?_) fun h => ?_
  · cases h
    refine hmark ?_ hnext.2
    rintro rfl
    simp at hnext
  refine of_ite_eq h (fun hpoints h => ?_) fun h => by cases h; exact hone
  cases h
  obtain ⟨u, rfl⟩ := startsWith_points.mp hpoints.2
  exact .mark (u := [.char '.', .char '.']) ⟨u, rfl⟩ (by simp)

theorem Reaches.le {kind : Kind} {n : Nat} (h : Reaches c t kind n) : n ≤ t.length := by
  cases h with
  | regex => exact regexLength_le false t
  | string => exact literalLength_le _ t
  | template => exact literalLength_le _ t
  | based => exact (List.takeWhile_prefix _).length_le
  | number => exact numberLength_le false t
  | word => exact wordLength_le false t
  | mark hmark => exact hmark.length_le

-- No token ends with a space, unless the text or its line ends there.
theorem Reaches.ne_of_space {kind : Kind} (hr : r ≠ []) (hline : ∀ c ∈ r.head?, endsLine c = false) :
    ¬ Reaches c (w ++ .char ' ' :: r) kind (w.length + 1) := by
  intro h
  generalize ht : w ++ .char ' ' :: r = t at h
  generalize hn : w.length + 1 = n at h
  cases h with
  | regex =>
    subst ht
    have hcloses : ClosesRegex false (w ++ [.char ' ']) := closesRegex_of_append (by simpa using hn.symm) hr hline
    exact hcloses.getLast?_ne.2 (by simp)
  | string hquote =>
    have hspace : Mode.quoted (.char ' ') ∉ [Mode.quoted c] := by
      rintro hmem
      obtain rfl := Mode.quoted.inj (List.mem_singleton.mp hmem)
      simp at hquote
    exact endsSolid_literalLength hspace hr (ht ▸ hn.symm)
  | template => exact endsSolid_literalLength (by simp) hr (ht ▸ hn.symm)
  | based => exact endsSolid_takeWhile (p := isWordPart) (by decide) hr (ht ▸ hn.symm)
  | number => exact endsSolid_numberLength false hr (ht ▸ hn.symm)
  | word => exact endsSolid_wordLength false hr (ht ▸ hn.symm)
  | @mark u hmark hspace =>
    subst ht
    have hprefix : w ++ [.char ' '] <+: w ++ .char ' ' :: r := ⟨r, by simp⟩
    obtain rfl := List.prefix_of_prefix_length_le hprefix hmark (by simp [hn]) |>.eq_of_length (by simp [hn])
    exact hspace (by simp)

theorem closesRegex_of_lexeme {re : Bool} (h : lexeme re c (w ++ r) = (.token .regex, w.length)) (hr : r ≠ [])
    (hline : ∀ c ∈ r.head?, endsLine c = false) : ClosesRegex false w := by
  have hreaches := reaches_of_lexeme h
  generalize hn : w.length = n at hreaches
  cases hreaches with
  | regex => exact closesRegex_of_append hn.symm hr hline

end Lexemes

end HookGen.Source
