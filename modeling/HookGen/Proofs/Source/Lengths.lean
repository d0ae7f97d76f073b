import HookGen.Proofs.Source.Lexing
import HookGen.Proofs.Text.Words
import Mathlib.Data.List.Basic

/-!
How long the parts of a source are that tokens and comments are made of. What has come to its end in front of more
ends at the same place in front of anything that begins alike, up to a delimiter, and what ends it is no space.
-/

namespace HookGen.Source

variable {c : CodePoint} {t u w r r' : Text} {f : Text → Nat} {modes : List Mode}

section Beginnings

-- What belongs to no token in front of it: a space, or one of the marks that stand behind a type.
def isDelimiter (c : CodePoint) : Bool := isSpace c || c.isIn [')', '[', ';']

-- A text that is empty or begins with a delimiter.
def Ends (t : Text) : Prop := ∀ c ∈ t.head?, isDelimiter c

-- A text that has the first `n` characters of another one, unless it ends or has a delimiter before.
def Alike : Nat → Text → Text → Prop
  | 0, _, _ => True
  | n + 1, r, r' => Ends r' ∨ ∃ c t t', r = c :: t ∧ r' = c :: t' ∧ Alike n t t'

theorem Alike.refl (n : Nat) (t : Text) : Alike n t t := by
  induction n generalizing t with
  | zero => trivial
  | succ n ih =>
    cases t with
    | nil => exact .inl (by simp [Ends])
    | cons c t => exact .inr ⟨c, t, t, rfl, rfl, ih t⟩

theorem Alike.of_succ {n : Nat} (h : Alike (n + 1) r r') : Alike n r r' := by
  induction n generalizing r r' with
  | zero => trivial
  | succ n ih =>
    obtain hends | ⟨c, t, t', rfl, rfl, h⟩ := h
    · exact .inl hends
    · exact .inr ⟨c, t, t', rfl, rfl, ih h⟩

theorem Alike.append {n : Nat} (h : Alike n r r') (t : Text) : Alike n (t ++ r) (t ++ r') := by
  induction t generalizing n with
  | nil => exact h
  | cons c t ih =>
    cases n with
    | zero => trivial
    | succ n => exact .inr ⟨c, t ++ r, t ++ r', rfl, rfl, ih h.of_succ⟩

theorem isDelimiter_of_isSpace (h : isSpace c) : isDelimiter c := by
  simp [isDelimiter, h]

theorem isWordPart_of_isDelimiter (h : isDelimiter c) : isWordPart c = false := by
  simp only [isDelimiter, Bool.or_eq_true] at h
  obtain hspace | hmark := h
  · simp [isWordPart, hspace]
  · cases c with
    | surrogate offset => cases hmark
    | char c =>
      simp only [CodePoint.isIn, List.contains_eq_mem, List.mem_cons, List.not_mem_nil, or_false, decide_eq_true_eq]
          at hmark
      rcases hmark with rfl | rfl | rfl <;> decide

theorem ne_of_isDelimiter {d : CodePoint} (h : isDelimiter c) (hd : isDelimiter d = false) : c ≠ d := by
  rintro rfl
  rw [h] at hd
  cases hd

-- What no delimiter has, and the first character does not have, the first character of what is alike does not have.
theorem Alike.head {n : Nat} {p : CodePoint → Prop} (h : Alike (n + 1) r r') (hdelimiter : ∀ c, isDelimiter c → ¬ p c)
    (hr : ∀ c ∈ r.head?, ¬ p c) : ∀ c ∈ r'.head?, ¬ p c := by
  obtain hends | ⟨c, t, t', rfl, rfl, -⟩ := h
  · exact fun c hc => hdelimiter c (hends c hc)
  · exact hr

theorem Ends.cases (h : Ends t) : t = [] ∨ ∃ c u, t = c :: u ∧ isDelimiter c := by
  cases t with
  | nil => exact .inl rfl
  | cons c t => exact .inr ⟨c, t, rfl, h c rfl⟩

end Beginnings

section Lengths

-- A length that is reached in front of more is reached in front of anything that begins alike.
def Local (f : Text → Nat) : Prop :=
  ∀ ⦃w r r' : Text⦄, r ≠ [] → Alike 2 r r' → f (w ++ r) = w.length → f (w ++ r') = w.length

-- Nor does it end behind a space.
def EndsSolid (f : Text → Nat) : Prop :=
  ∀ ⦃w r : Text⦄, r ≠ [] → f (w ++ .char ' ' :: r) ≠ w.length + 1

theorem local_const {n : Nat} : Local fun _ => n := fun _ _ _ _ _ h => h

theorem length_takeWhile_append_iff {p : CodePoint → Bool} :
    ((w ++ t).takeWhile p).length = w.length ↔ (∀ c ∈ w, p c) ∧ ∀ c ∈ t.head?, ¬ p c := by
  induction w with
  | nil =>
    cases t with
    | nil => simp
    | cons c t => cases hc : p c <;> simp [hc]
  | cons c w ih => cases hc : p c <;> simp [hc, ih]

theorem local_takeWhile {p : CodePoint → Bool} (hp : ∀ c, isDelimiter c → ¬ p c) :
    Local fun t => (t.takeWhile p).length := by
  intro w r r' _ halike h
  rw [length_takeWhile_append_iff] at h ⊢
  exact ⟨h.1, halike.head hp h.2⟩

theorem endsSolid_takeWhile {p : CodePoint → Bool} (hp : p ' ' = false) :
    EndsSolid fun t => (t.takeWhile p).length := by
  intro w r _ h
  have hall := (length_takeWhile_append_iff (w := w ++ [.char ' ']) (t := r) (p := p)).mp (by simpa using h)
  simpa [hp] using hall.1 (.char ' ') (by simp)

theorem literalLength_pos (hmodes : modes ≠ []) (c : CodePoint) (rest : Text) :
    0 < literalLength modes (c :: rest) := by
  rw [literalLength.eq_def]
  split
  · exact absurd rfl hmodes
  · rename_i heq
    cases heq
  all_goals
    rename_i heq
    obtain ⟨rfl, rfl⟩ := List.cons.inj heq
    repeat' split
    all_goals omega

-- A literal that ends in front of more is closed: it ends there whatever comes behind it.
theorem literalLength_append_of_closed (h : literalLength modes (w ++ r) = w.length) (hr : r ≠ []) (t : Text) :
    literalLength modes (w ++ t) = w.length := by
  obtain ⟨e, r, rfl⟩ := List.exists_cons_of_ne_nil hr
  induction modes, w using literalLength.induct with
  | case2 modes hmodes =>
    have hpos := literalLength_pos (fun heq => hmodes heq) e r
    rw [List.nil_append] at h
    rw [h] at hpos
    cases hpos
  | case5 outer c rest hescape ih =>
    rw [List.cons_append, literalLength.eq_def] at h ⊢
    simp_all
  | case6 quote outer c rest hescape hquote ih =>
    rw [List.cons_append, literalLength.eq_def] at h ⊢
    simp_all
  | case9 outer rest hescape ih =>
    rw [List.cons_append, literalLength.eq_def] at h ⊢
    simp_all
  | case11 outer rest hbrace hescape htick ih =>
    cases rest with
    | nil =>
      have hpos := literalLength_pos (List.cons_ne_nil Mode.template outer) e r
      rw [List.singleton_append, literalLength.eq_def] at h
      by_cases he : e = .char '{'
      · simp [he] at h
      · simp_all
    | cons d rest =>
      have hd : d ≠ .char '{' := fun heq => hbrace rest (by rw [heq])
      rw [List.cons_append, literalLength.eq_def] at h ⊢
      simp_all
  | case12 outer c rest hescape htick hdollar ih =>
    rw [List.cons_append, literalLength.eq_def] at h ⊢
    simp_all
  | _ => simp_all [literalLength]

theorem endsSolid_literalLength (hmodes : .quoted (.char ' ') ∉ modes) : EndsSolid (literalLength modes) := by
  intro w r hr h
  obtain ⟨e, r, rfl⟩ := List.exists_cons_of_ne_nil hr
  induction modes, w using literalLength.induct with
  | case1 => simp [literalLength] at h
  | case2 modes hne =>
    have hpos := literalLength_pos (fun heq => hne heq) e r
    cases modes with
    | nil => exact hne rfl
    | cons mode outer =>
      cases mode with
      | quoted quote =>
        have hquote : .char ' ' ≠ quote := fun heq => hmodes (heq ▸ List.mem_cons_self ..)
        simp [literalLength, hquote] at h
        omega
      | template =>
        simp [literalLength] at h
        omega
      | expression depth =>
        rw [List.nil_append, literalLength.eq_def] at h
        simp at h
        omega
  | case4 quote outer =>
    have hpos := literalLength_pos (List.cons_ne_nil (Mode.quoted quote) outer) e r
    simp [literalLength] at h
    omega
  | case5 outer c rest hescape ih =>
    rw [List.cons_append, literalLength.eq_def] at h
    simp_all
  | case6 quote outer c rest hescape hquote ih =>
    rw [List.cons_append, literalLength.eq_def] at h
    simp_all
  | case8 outer =>
    have hpos := literalLength_pos (List.cons_ne_nil Mode.template outer) e r
    simp [literalLength] at h
    omega
  | case9 outer rest hescape ih =>
    rw [List.cons_append, literalLength.eq_def] at h
    simp_all
  | case11 outer rest hbrace hescape htick ih =>
    have hd : ∀ t, rest ++ .char ' ' :: e :: r ≠ .char '{' :: t := by
      cases rest with
      | nil => simp
      | cons d rest =>
        rintro t heq
        exact hbrace rest (by rw [(List.cons.inj heq).1])
    rw [List.cons_append, literalLength.eq_def] at h
    simp_all
  | case12 outer c rest hescape htick hdollar ih =>
    rw [List.cons_append, literalLength.eq_def] at h
    simp_all
  | case17 depth outer c rest hopen hclose htick hquote ih =>
    have hspace : .char ' ' ≠ c := by rintro rfl; simp at hquote
    simp_all [literalLength]
  | _ => simp_all [literalLength]

-- A length that is zero because of the first character is zero in front of a delimiter as well.
theorem zero_of_alike {n : Nat} (halike : Alike (n + 1) r r') (hr : r ≠ []) (hnil : f [] = 0)
    (hdelimiter : ∀ c t, isDelimiter c → f (c :: t) = 0) (hfirst : ∀ c t t', f (c :: t) = 0 → f (c :: t') = 0)
    (h : f r = 0) : f r' = 0 := by
  obtain hends | ⟨c, t, t', rfl, rfl, -⟩ := halike
  · obtain rfl | ⟨c, t, rfl, hc⟩ := hends.cases
    · exact hnil
    · exact hdelimiter c t hc
  · exact hfirst c t t' h

theorem local_numberLength (afterLetter : Bool) : Local (numberLength afterLetter) := by
  intro w r r' hr halike h
  induction w generalizing afterLetter with
  | nil =>
    refine zero_of_alike halike hr rfl (fun c t hc => ?_) (fun c t t' h => ?_) h
    · have hsign : c.isIn ['+', '-'] = false := by
        cases c with
        | surrogate offset => rfl
        | char c =>
          have hplus := ne_of_isDelimiter hc (by decide : isDelimiter '+' = false)
          have hminus := ne_of_isDelimiter hc (by decide : isDelimiter '-' = false)
          simpa [CodePoint.isIn] using And.intro hplus hminus
      rw [numberLength, if_neg]
      simp [isWordPart_of_isDelimiter hc, ne_of_isDelimiter hc (by decide : isDelimiter '.' = false), hsign]
    · rw [numberLength] at h ⊢
      split at h
      · cases h
      · rename_i hends
        rw [if_neg hends]
  | cons c w ih =>
    rw [List.cons_append, numberLength] at h ⊢
    split at h
    · rename_i hgoesOn
      simp only [if_pos hgoesOn, List.length_cons, Nat.add_right_cancel_iff] at h ⊢
      exact ih _ h
    · cases h

theorem endsSolid_numberLength (afterLetter : Bool) : EndsSolid (numberLength afterLetter) := by
  intro w r hr h
  induction w generalizing afterLetter with
  | nil => simp [numberLength, isWordPart, CodePoint.toNat, CodePoint.isIn] at h
  | cons c w ih =>
    rw [List.cons_append, numberLength] at h
    split at h
    · exact ih _ (Nat.succ.inj h)
    · cases h

theorem wordLength_open (t : Text) : wordLength true (c :: t) = wordLength (c != .char '\x7d') t + 1 := by
  rw [wordLength.eq_def]
  simp

theorem wordLength_part (hc : isWordPart c) (t : Text) : wordLength false (c :: t) = wordLength false t + 1 := by
  rw [wordLength.eq_def]
  simp [hc]

theorem wordLength_braced (t : Text) :
    wordLength false (.char '\\' :: .char 'u' :: .char '\x7b' :: t) = wordLength true t + 3 := by
  rw [wordLength.eq_def]
  simp [isWordPart, isPunctuation, CodePoint.isIn]

theorem wordLength_escape (ht : t.head? ≠ some (.char '\x7b')) :
    wordLength false (.char '\\' :: .char 'u' :: t) = wordLength false t + 2 := by
  rw [wordLength.eq_def]
  cases t with
  | nil => simp [isWordPart, isPunctuation, CodePoint.isIn]
  | cons c t => simp_all [isWordPart, isPunctuation, CodePoint.isIn]

theorem wordLength_stray (ht : t.head? ≠ some (.char 'u')) : wordLength false (.char '\\' :: t) = 0 := by
  rw [wordLength.eq_def]
  cases t with
  | nil => simp [isWordPart, isPunctuation, CodePoint.isIn]
  | cons c t => simp_all [isWordPart, isPunctuation, CodePoint.isIn]

theorem wordLength_other (hpart : ¬ isWordPart c) (hc : c ≠ .char '\\') (t : Text) : wordLength false (c :: t) = 0 := by
  rw [wordLength.eq_def]
  simp [hpart, hc]

-- What is no delimiter and does not come first does not come first in what is alike either.
theorem Alike.head_ne {n : Nat} {d : CodePoint} (h : Alike (n + 1) r r') (hd : isDelimiter d = false)
    (hr : r.head? ≠ some d) : r'.head? ≠ some d := by
  have hne := h.head (p := (· = d)) (fun c hc => ne_of_isDelimiter hc hd) fun c hc heq => hr (heq ▸ hc)
  exact fun heq => hne d heq rfl

-- Behind an escape that is not followed by a brace a word goes on, or ends.
theorem head_append_ne {d : CodePoint} (hw : ∀ t, w ≠ d :: t) (ht : w = [] → t.head? ≠ some d) :
    (w ++ t).head? ≠ some d := by
  cases w with
  | nil => exact ht rfl
  | cons c w =>
    rintro heq
    exact hw w (by rw [Option.some.inj heq])

theorem wordLength_eq_zero (hr : r ≠ []) (halike : Alike 2 r r') (h : wordLength false r = 0) :
    wordLength false r' = 0 := by
  obtain hends | ⟨c, t, t', rfl, rfl, hnext⟩ := halike
  · obtain rfl | ⟨c, t, rfl, hc⟩ := hends.cases
    · rfl
    · exact wordLength_other (by simp [isWordPart_of_isDelimiter hc]) (ne_of_isDelimiter hc (by decide)) t
  · by_cases hpart : isWordPart c
    · rw [wordLength_part hpart] at h
      cases h
    by_cases hescape : c = .char '\\'
    · subst hescape
      refine wordLength_stray (hnext.head_ne (by decide) fun hhead => ?_)
      obtain ⟨u, rfl⟩ := List.head?_eq_some_iff.mp hhead
      by_cases hbrace : u.head? = some (.char '\x7b')
      · obtain ⟨v, rfl⟩ := List.head?_eq_some_iff.mp hbrace
        rw [wordLength_braced] at h
        cases h
      · rw [wordLength_escape hbrace] at h
        cases h
    · exact wordLength_other hpart hescape t'

theorem local_wordLength (braced : Bool) : Local (wordLength braced) := by
  intro w r r' hr halike h
  induction braced, w using wordLength.induct with
  | case1 braced =>
    cases braced with
    | false => exact wordLength_eq_zero hr halike h
    | true =>
      obtain ⟨e, r, rfl⟩ := List.exists_cons_of_ne_nil hr
      rw [List.nil_append, wordLength_open] at h
      cases h
  | case2 c rest ih =>
    rw [List.cons_append, wordLength_open, List.length_cons, Nat.add_right_cancel_iff] at h ⊢
    exact ih h
  | case3 braced c rest hbraced hpart ih =>
    obtain rfl : braced = false := by simpa using hbraced
    rw [List.cons_append, wordLength_part hpart, List.length_cons, Nat.add_right_cancel_iff] at h ⊢
    exact ih h
  | case4 braced hbraced rest hpart ih =>
    obtain rfl : braced = false := by simpa using hbraced
    simp only [List.cons_append, wordLength_braced, List.length_cons] at h ⊢
    rw [ih (by omega)]
  | case5 braced hbraced rest hbrace hpart ih =>
    obtain rfl : braced = false := by simpa using hbraced
    have hbehind : rest = [] → r.head? ≠ some (.char '\x7b') := by
      rintro rfl heq
      obtain ⟨t, rfl⟩ := List.head?_eq_some_iff.mp heq
      simp [wordLength_braced] at h
    simp only [List.cons_append, List.length_cons] at h ⊢
    rw [wordLength_escape (head_append_ne hbrace hbehind)] at h
    rw [wordLength_escape (head_append_ne hbrace fun hrest => halike.head_ne (by decide) (hbehind hrest)),
      ih (by omega)]
  | case6 braced rest hbraced hbrace hescape hpart =>
    exfalso
    obtain rfl : braced = false := by simpa using hbraced
    refine absurd h ?_
    rw [List.cons_append]
    by_cases hhead : rest = [] ∧ r.head? = some (.char 'u')
    · obtain ⟨rfl, hhead⟩ := hhead
      obtain ⟨t, rfl⟩ := List.head?_eq_some_iff.mp hhead
      by_cases hbrace : t.head? = some (.char '\x7b')
      · obtain ⟨u, rfl⟩ := List.head?_eq_some_iff.mp hbrace
        simp [wordLength_braced]
      · simp [wordLength_escape hbrace]
    · rw [wordLength_stray (head_append_ne hescape fun hrest heq => hhead ⟨hrest, heq⟩)]
      simp
  | case7 braced c rest hbraced hpart hescape =>
    obtain rfl : braced = false := by simpa using hbraced
    rw [List.cons_append, wordLength_other hpart hescape] at h
    cases h

theorem endsSolid_wordLength (braced : Bool) : EndsSolid (wordLength braced) := by
  intro w r hr h
  obtain ⟨e, r, rfl⟩ := List.exists_cons_of_ne_nil hr
  induction braced, w using wordLength.induct with
  | case1 braced =>
    cases braced with
    | false =>
      rw [List.nil_append, wordLength_other (by decide) (by decide)] at h
      cases h
    | true =>
      rw [List.nil_append, wordLength_open, show (CodePoint.char ' ' != .char '\x7d') = true from rfl,
        wordLength_open] at h
      cases h
  | case2 c rest ih =>
    rw [List.cons_append, wordLength_open, List.length_cons, Nat.add_right_cancel_iff] at h
    exact ih h
  | case3 braced c rest hbraced hpart ih =>
    obtain rfl : braced = false := by simpa using hbraced
    rw [List.cons_append, wordLength_part hpart, List.length_cons, Nat.add_right_cancel_iff] at h
    exact ih h
  | case4 braced hbraced rest hpart ih =>
    obtain rfl : braced = false := by simpa using hbraced
    simp only [List.cons_append, wordLength_braced, List.length_cons] at h
    exact ih (by omega)
  | case5 braced hbraced rest hbrace hpart ih =>
    obtain rfl : braced = false := by simpa using hbraced
    simp only [List.cons_append, List.length_cons] at h
    rw [wordLength_escape (head_append_ne hbrace fun _ => by simp)] at h
    exact ih (by omega)
  | case6 braced rest hbraced hbrace hescape hpart =>
    obtain rfl : braced = false := by simpa using hbraced
    rw [List.cons_append, wordLength_stray (head_append_ne hescape fun _ => by simp)] at h
    cases h
  | case7 braced c rest hbraced hpart hescape =>
    obtain rfl : braced = false := by simpa using hbraced
    rw [List.cons_append, wordLength_other hpart hescape] at h
    cases h

-- A regular expression that has begun and comes to its end: its slash, and flags behind it.
inductive ClosesRegex : Bool → Text → Prop
  | slash {t : Text} (h : ∀ c ∈ t, isWordPart c) : ClosesRegex false (.char '/' :: t)
  | escape {inClass : Bool} {t : Text} (c : CodePoint) (h : ClosesRegex inClass t) :
    ClosesRegex inClass (.char '\\' :: c :: t)
  | step {inClass next : Bool} {c : CodePoint} {t : Text} (h : ClosesRegex next t)
    (hstep : ∀ u, regexLength inClass (c :: u) = regexLength next u + 1) : ClosesRegex inClass (c :: t)

theorem regexLength_escape (inClass : Bool) (c : CodePoint) (t : Text) :
    regexLength inClass (.char '\\' :: c :: t) = regexLength inClass t + 2 := by
  rw [regexLength.eq_def]
  simp

theorem regexLength_slash (t : Text) : regexLength false (.char '/' :: t) = (t.takeWhile isWordPart).length + 1 := by
  rw [regexLength.eq_def]
  simp [endsLine, CodePoint.toNat]

theorem regexLength_pos (hc : endsLine c = false) (inClass : Bool) (t : Text) : 0 < regexLength inClass (c :: t) := by
  rw [regexLength.eq_def]
  dsimp only
  split
  · cases t <;> simp
  · rw [if_neg (by simp [hc])]
    repeat' split
    all_goals exact Nat.succ_pos _

theorem ClosesRegex.of_step {inClass next : Bool} (hstep : ∀ u, regexLength inClass (c :: u) = regexLength next u + 1)
    (ih : regexLength next (w ++ r) = w.length → ClosesRegex next w)
    (h : regexLength inClass (c :: w ++ r) = (c :: w).length) : ClosesRegex inClass (c :: w) := by
  rw [List.cons_append, hstep] at h
  exact .step (ih (Nat.succ.inj h)) hstep

-- Unless its line ends, a regular expression in front of more has come to its end.
theorem closesRegex_of_append {inClass : Bool} (h : regexLength inClass (w ++ r) = w.length) (hr : r ≠ [])
    (hline : ∀ c ∈ r.head?, endsLine c = false) : ClosesRegex inClass w := by
  obtain ⟨e, r, rfl⟩ := List.exists_cons_of_ne_nil hr
  have hend := hline e rfl
  induction inClass, w using regexLength.induct with
  | case1 inClass =>
    have hpos := regexLength_pos hend inClass r
    rw [List.nil_append] at h
    rw [h] at hpos
    cases hpos
  | case2 inClass c rest ih =>
    rw [List.cons_append, List.cons_append, regexLength_escape] at h
    exact .escape c (ih (Nat.add_right_cancel h))
  | case3 inClass =>
    rw [List.singleton_append, regexLength_escape] at h
    simp at h
  | case4 inClass c rest hescape hends =>
    rw [List.cons_append, regexLength.eq_def] at h
    simp [hescape, hends] at h
  | case5 inClass rest hescape hends ih =>
    refine .of_step (fun t => ?_) ih h
    rw [regexLength.eq_def]
    simp [hends]
  | case6 inClass rest hescape hends hopen ih =>
    refine .of_step (fun t => ?_) ih h
    rw [regexLength.eq_def]
    simp [hends]
  | case7 inClass c rest hescape hends hopen hclose hslash =>
    obtain ⟨rfl, hclass⟩ := hslash
    obtain rfl : inClass = false := by simpa using hclass
    rw [List.cons_append, regexLength_slash] at h
    exact .slash (length_takeWhile_append_iff.mp (Nat.succ.inj h)).1
  | case8 inClass c rest hescape hends hopen hclose hslash ih =>
    refine .of_step (fun t => ?_) ih h
    rw [regexLength.eq_def]
    dsimp only
    rw [if_neg hescape, if_neg hends, if_neg hopen, if_neg hclose, if_neg hslash]

-- It takes the word behind it for flags, and nothing else.
theorem ClosesRegex.length_append {inClass : Bool} (h : ClosesRegex inClass w) (t : Text) :
    regexLength inClass (w ++ t) = w.length + (t.takeWhile isWordPart).length := by
  induction h with
  | slash h =>
    rw [List.cons_append, regexLength_slash, List.takeWhile_append_of_pos h, List.length_append, List.length_cons]
    omega
  | escape c _ ih =>
    rw [List.cons_append, List.cons_append, regexLength_escape, ih, List.length_cons, List.length_cons]
    omega
  | step _ hstep ih =>
    rw [List.cons_append, hstep, ih, List.length_cons]
    omega

theorem ClosesRegex.local {inClass : Bool} (h : ClosesRegex inClass w) (halike : Alike 2 r r')
    (hlength : regexLength inClass (w ++ r) = w.length) : regexLength inClass (w ++ r') = w.length := by
  have hflags {t : Text} : (t.takeWhile isWordPart).length = 0 ↔ ∀ c ∈ t.head?, ¬ isWordPart c := by
    simpa using length_takeWhile_append_iff (w := []) (t := t) (p := isWordPart)
  rw [h.length_append, Nat.add_eq_left, hflags] at hlength ⊢
  exact halike.head (fun c hc => by simp [isWordPart_of_isDelimiter hc]) hlength

theorem ClosesRegex.getLast?_ne {inClass : Bool} (h : ClosesRegex inClass w) :
    w ≠ [] ∧ w.getLast? ≠ some (.char ' ') := by
  induction h with
  | @slash t h =>
    refine ⟨by simp, fun hlast => ?_⟩
    obtain hmem | hmem := List.mem_cons.mp (List.mem_of_getLast? hlast)
    · cases hmem
    · exact absurd (h _ hmem) (by decide)
  | @escape _ t c _ ih =>
    exact ⟨by simp, List.getLast?_append_of_ne_nil [.char '\\', c] ih.1 ▸ ih.2⟩
  | @step _ _ c t _ _ ih =>
    exact ⟨by simp, List.getLast?_append_of_ne_nil [c] ih.1 ▸ ih.2⟩

section Bounds

theorem literalLength_le (modes : List Mode) (t : Text) : literalLength modes t ≤ t.length := by
  fun_induction literalLength modes t <;> simp_all

theorem wordLength_le (braced : Bool) (t : Text) : wordLength braced t ≤ t.length := by
  fun_induction wordLength braced t <;> simp_all

theorem numberLength_le (afterLetter : Bool) (t : Text) : numberLength afterLetter t ≤ t.length := by
  fun_induction numberLength afterLetter t <;> simp_all

theorem regexLength_le (inClass : Bool) (t : Text) : regexLength inClass t ≤ t.length := by
  fun_induction regexLength inClass t <;> simp_all [(List.takeWhile_prefix _).length_le]

theorem blockCommentLength_le (t : Text) : blockCommentLength t ≤ t.length := by
  fun_induction blockCommentLength t <;> simp_all

end Bounds

end Lengths

section Comments

theorem blockCommentLength_pos (c : CodePoint) (t : Text) : 0 < blockCommentLength (c :: t) := by
  rw [blockCommentLength.eq_def]
  split <;> simp_all

theorem blockCommentLength_other (h : ¬ (c = .char '*' ∧ t.head? = some (.char '/'))) :
    blockCommentLength (c :: t) = blockCommentLength t + 1 := by
  rw [blockCommentLength]
  rintro u rfl rfl
  exact h ⟨rfl, rfl⟩

-- A comment that comes to its end does so as well with its blanks collapsed.
theorem blockCommentLength_collapseFrom (behindBlank : Bool) (h : blockCommentLength (w ++ r) = w.length) (hr : r ≠ [])
    (t : Text) : blockCommentLength (Text.collapseFrom behindBlank w ++ t) =
      (Text.collapseFrom behindBlank w).length := by
  induction w generalizing behindBlank with
  | nil =>
    obtain ⟨e, r, rfl⟩ := List.exists_cons_of_ne_nil hr
    exact absurd h (blockCommentLength_pos e r).ne'
  | cons c w ih =>
    by_cases hend : c = .char '*' ∧ (w ++ r).head? = some (.char '/')
    · obtain ⟨rfl, hslash⟩ := hend
      obtain ⟨u, hu⟩ := List.head?_eq_some_iff.mp hslash
      rw [List.cons_append, hu] at h
      match w, h with
      | [d], _ =>
        obtain ⟨rfl, -⟩ := List.cons.inj hu
        rfl
    · rw [List.cons_append, blockCommentLength_other hend, List.length_cons, Nat.add_right_cancel_iff] at h
      rw [Text.collapseFrom]
      split
      · split
        · exact ih true h
        · rw [List.cons_append, blockCommentLength_other (by simp), ih true h, List.length_cons]
      · -- the character behind stays what it is, or becomes a space
        obtain ⟨d, w, rfl⟩ : ∃ d w', w = d :: w' := by
          refine List.exists_cons_of_ne_nil fun hnil => ?_
          subst hnil
          obtain ⟨e, r, rfl⟩ := List.exists_cons_of_ne_nil hr
          exact absurd h (blockCommentLength_pos e r).ne'
        rw [List.cons_append, blockCommentLength_other, ih false h, List.length_cons]
        rintro ⟨rfl, hslash⟩
        refine hend ⟨rfl, ?_⟩
        rw [Text.collapseFrom] at hslash
        split at hslash
        · simp at hslash
        · exact hslash

end Comments

end HookGen.Source
