import Mathlib
import HookGen.Proofs.Json.Literal

/-!
The value of a string literal by the grammar of the language, which counts in 16-bit units, and that
decoding computes it. Whatever the text, decoding fails only at an escape in braces whose number is
too large.
-/

namespace HookGen.StringLiteral

variable {c quote : CodePoint} {t rest digits : Text} {n width : Nat}

-- The units of a code point: a pair of surrogates from U+10000 on.
def units (c : CodePoint) : List UInt16 :=
  if c.toNat < 0x10000 then
    [c.toNat.toUInt16]
  else
    [(0xD800 + (c.toNat - 0x10000) / 0x400).toUInt16, (0xDC00 + (c.toNat - 0x10000) % 0x400).toUInt16]

def IsHigh (unit : UInt16) : Prop := 0xD800 ≤ unit.toNat ∧ unit.toNat < 0xDC00

def IsLow (unit : UInt16) : Prop := 0xDC00 ≤ unit.toNat ∧ unit.toNat < 0xE000

instance (unit : UInt16) : Decidable (IsHigh unit) := inferInstanceAs (Decidable (_ ∧ _))

instance (unit : UInt16) : Decidable (IsLow unit) := inferInstanceAs (Decidable (_ ∧ _))

-- Units read as code points: a high surrogate and a low one behind it are one, any other surrogate stays.
def ofUnits : List UInt16 → Text
  | high :: low :: rest =>
    if IsHigh high ∧ IsLow low then
      (CodePoint.ofNat? (0x10000 + (high.toNat - 0xD800) * 0x400 + (low.toNat - 0xDC00))).toList ++ ofUnits rest
    else
      (CodePoint.ofNat? high.toNat).toList ++ ofUnits (low :: rest)
  | [unit] => (CodePoint.ofNat? unit.toNat).toList
  | [] => []

section Grammar

-- Hexadecimal digits, at least one, with their number.
inductive Hexadecimal : Text → Nat → Prop
  | digit {c : CodePoint} {value : Nat} (hc : c.hexValue? = some value) : Hexadecimal [c] value
  | more {digits : Text} {n : Nat} {c : CodePoint} {value : Nat} (h : Hexadecimal digits n)
      (hc : c.hexValue? = some value) : Hexadecimal (digits ++ [c]) (n * 16 + value)

-- The characters with an escape of one character, and what they stand for.
def singleEscapes : List (Char × UInt16) :=
  [('b', 0x08), ('t', 0x09), ('n', 0x0A), ('v', 0x0B), ('f', 0x0C), ('r', 0x0D), ('"', 0x22), ('\'', 0x27),
    ('\\', 0x5C)]

-- The letters behind which an escape has a fixed number of hexadecimal digits.
def fixedEscapes : List (Char × Nat) := [('x', 2), ('u', 4)]

-- What ends a line.
def lineEnds : List Text := ["\n", "\r", "\r\n", "\u2028", "\u2029"]

-- An escaped character that stands for itself.
def IsOrdinary (c : CodePoint) : Prop :=
  (∀ escape ∈ singleEscapes, c ≠ .char escape.1) ∧ c.isAsciiDigit = false ∧ c ≠ 'x' ∧ c ≠ 'u' ∧ [c] ∉ lineEnds

-- The units that the text between two quotes stands for, by the grammar without its octal escapes.
inductive Spells (quote : CodePoint) : Text → List UInt16 → Prop
  | nil : Spells quote [] []
  | plain {c : CodePoint} {t : Text} {us : List UInt16} (hquote : c ≠ quote) (hescape : c ≠ '\\') (hline : c ≠ '\n')
      (hreturn : c ≠ '\r') (h : Spells quote t us) : Spells quote (c :: t) (units c ++ us)
  | single {e : Char} {unit : UInt16} {t : Text} {us : List UInt16} (he : (e, unit) ∈ singleEscapes)
      (h : Spells quote t us) : Spells quote (.char '\\' :: .char e :: t) (unit :: us)
  | null {t : Text} {us : List UInt16} (hdigit : ∀ d ∈ t.head?, d.isAsciiDigit = false) (h : Spells quote t us) :
      Spells quote (.char '\\' :: .char '0' :: t) (0 :: us)
  | fixed {letter : Char} {width n : Nat} {digits t : Text} {us : List UInt16}
      (hletter : (letter, width) ∈ fixedEscapes) (hn : Hexadecimal digits n)
      (hwidth : digits.length = width) (h : Spells quote t us) :
      Spells quote (.char '\\' :: .char letter :: (digits ++ t)) (n.toUInt16 :: us)
  | braced {c : CodePoint} {digits t : Text} {us : List UInt16} (hn : Hexadecimal digits c.toNat)
      (h : Spells quote t us) :
      Spells quote (.char '\\' :: .char 'u' :: .char '\x7b' :: (digits ++ .char '\x7d' :: t)) (units c ++ us)
  | ordinary {c : CodePoint} {t : Text} {us : List UInt16} (hc : IsOrdinary c) (h : Spells quote t us) :
      Spells quote (.char '\\' :: c :: t) (units c ++ us)
  | continued {lineEnd t : Text} {us : List UInt16} (hend : lineEnd ∈ lineEnds)
      (hreturn : lineEnd = "\r" → t.head? ≠ some (.char '\n')) (h : Spells quote t us) :
      Spells quote (.char '\\' :: (lineEnd ++ t)) us

-- A literal of the grammar, with the units of its value.
def IsLiteral (t : Text) (us : List UInt16) : Prop :=
  ∃ quote body, (quote = .char '"' ∨ quote = .char '\'') ∧ t = quote :: (body ++ [quote]) ∧ Spells quote body us

-- Whether a text ends in a backslash that no other one escapes.
def endsEscaping (t : Text) : Bool := t.foldl (fun opened c => !opened && c = .char '\\') false

-- An escape in braces whose number is beyond the last code point.
def Overflows (t : Text) : Prop :=
  ∃ before digits n after, t = before ++ .char '\\' :: .char 'u' :: .char '\x7b' :: (digits ++ .char '\x7d' :: after) ∧
    endsEscaping before = false ∧ Hexadecimal digits n ∧ 0x10FFFF < n

end Grammar

section Units

theorem toNat_lt (c : CodePoint) : c.toNat < 0x110000 := by
  cases c with
  | char ch => have := Json.char_toNat_lt ch; simp only [CodePoint.toNat]; omega
  | surrogate offset => simp only [CodePoint.toNat]; omega

theorem toNat_toUInt16 (h : n < 0x10000) : n.toUInt16.toNat = n := by
  rw [Nat.toUInt16_eq, UInt16.toNat_ofNat', Nat.mod_eq_of_lt h]

-- A unit that does not begin a pair is a code point of its own.
theorem ofUnits_cons {unit : UInt16} {us : List UInt16} (h : IsHigh unit → ∀ low ∈ us.head?, ¬ IsLow low) :
    ofUnits (unit :: us) = (CodePoint.ofNat? unit.toNat).toList ++ ofUnits us := by
  cases us with
  | nil => simp [ofUnits]
  | cons low rest => rw [ofUnits, if_neg fun hpair => h hpair.1 low rfl hpair.2]

theorem units_char_of_lt {ch : Char} (h : ch.toNat < 0x10000) : units (.char ch) = [ch.toNat.toUInt16] :=
  if_pos h

theorem units_char_of_le {ch : Char} (h : 0x10000 ≤ ch.toNat) : units (.char ch) =
    [(0xD800 + (ch.toNat - 0x10000) / 0x400).toUInt16, (0xDC00 + (ch.toNat - 0x10000) % 0x400).toUInt16] :=
  if_neg (Nat.not_lt.mpr h)

theorem ofUnits_units_char (ch : Char) (us : List UInt16) :
    ofUnits (units (.char ch) ++ us) = .char ch :: ofUnits us := by
  have hscalar := Json.char_toNat_lt ch
  have hback : CodePoint.ofNat? ch.toNat = some (.char ch) := Json.ofNat?_toNat (.char ch)
  cases Nat.lt_or_ge ch.toNat 0x10000 with
  | inl hsmall =>
    rw [units_char_of_lt hsmall, List.singleton_append, ofUnits_cons, toNat_toUInt16 hsmall, hback]
    · rfl
    · intro hhigh
      rw [IsHigh, toNat_toUInt16 hsmall] at hhigh
      omega
  | inr hlarge =>
    have hhigh := toNat_toUInt16 (show 0xD800 + (ch.toNat - 0x10000) / 0x400 < 0x10000 by omega)
    have hlow := toNat_toUInt16 (show 0xDC00 + (ch.toNat - 0x10000) % 0x400 < 0x10000 by omega)
    have hvalue : 0x10000 + (0xD800 + (ch.toNat - 0x10000) / 0x400 - 0xD800) * 0x400 +
        (0xDC00 + (ch.toNat - 0x10000) % 0x400 - 0xDC00) = ch.toNat := by omega
    rw [units_char_of_le hlarge, List.cons_append, List.singleton_append, ofUnits, if_pos, hhigh, hlow, hvalue, hback]
    · rfl
    · rw [IsHigh, IsLow, hhigh, hlow]
      omega

theorem units_surrogate (offset : Fin 2048) : units (.surrogate offset) = [(0xD800 + offset.val).toUInt16] := by
  rw [units, if_pos (by simp only [CodePoint.toNat]; omega)]
  rfl

theorem toNat_unit_surrogate (offset : Fin 2048) : (0xD800 + offset.val).toUInt16.toNat = 0xD800 + offset.val :=
  toNat_toUInt16 (by omega)

-- The units of a character do not begin with a low surrogate.
theorem head_units_not_low (ch : Char) (us : List UInt16) : ∀ low ∈ (units (.char ch) ++ us).head?, ¬ IsLow low := by
  have hscalar := Json.char_toNat_lt ch
  intro low hlow
  cases Nat.lt_or_ge ch.toNat 0x10000 with
  | inl hsmall =>
    rw [units_char_of_lt hsmall] at hlow
    obtain rfl := Option.some.inj hlow
    rw [IsLow, toNat_toUInt16 hsmall]
    omega
  | inr hlarge =>
    rw [units_char_of_le hlarge] at hlow
    obtain rfl := Option.some.inj hlow
    rw [IsLow, toNat_toUInt16 (by omega)]
    omega

-- Joining pairs of code points is reading their units again.
theorem ofUnits_flatMap_units (t : Text) : ofUnits (t.flatMap units) = joinPairs t := by
  fun_induction joinPairs t with
  | case1 high low rest hpair ih =>
    have hvalue : CodePoint.ofNat? (0x10000 + (0xD800 + high.val - 0xD800) * 0x400 + (0xD800 + low.val - 0xDC00)) =
        some (pairValue high low) := by
      have hnumber : 0x10000 + (0xD800 + high.val - 0xD800) * 0x400 + (0xD800 + low.val - 0xDC00) =
          0x10000 + high.val * 1024 + (low.val - 1024) := by omega
      rw [hnumber, CodePoint.ofNat?, dif_neg (by omega), if_pos (by omega), pairValue]
    simp only [List.flatMap_cons, units_surrogate, List.singleton_append]
    rw [ofUnits, if_pos, toNat_unit_surrogate, toNat_unit_surrogate, hvalue, ih]
    · rfl
    · rw [IsHigh, IsLow, toNat_unit_surrogate, toNat_unit_surrogate]
      omega
  | case2 high low rest hpair ih =>
    rw [List.flatMap_cons, units_surrogate, List.singleton_append, ofUnits_cons, ih, toNat_unit_surrogate,
      show 0xD800 + high.val = CodePoint.toNat (.surrogate high) from rfl, Json.ofNat?_toNat]
    · rfl
    · intro hhigh unit hunit hlow
      rw [List.flatMap_cons, units_surrogate] at hunit
      obtain rfl := Option.some.inj hunit
      rw [IsHigh, toNat_unit_surrogate] at hhigh
      rw [IsLow, toNat_unit_surrogate] at hlow
      omega
  | case3 c rest hrest ih =>
    cases c with
    | char ch => rw [List.flatMap_cons, ofUnits_units_char, ih]
    | surrogate offset =>
      rw [List.flatMap_cons, units_surrogate, List.singleton_append, ofUnits_cons, ih, toNat_unit_surrogate,
        show 0xD800 + offset.val = CodePoint.toNat (.surrogate offset) from rfl, Json.ofNat?_toNat]
      · rfl
      · intro _ unit hunit
        cases rest with
        | nil => cases hunit
        | cons next others =>
          cases next with
          | char ch => exact head_units_not_low ch _ unit hunit
          | surrogate low => exact absurd rfl (hrest offset low others rfl)
  | case4 => rfl

end Units

section Hexadecimal

theorem hexNumber_append {value : Nat} (digits : Text) (hc : c.hexValue? = some value) :
    hexNumber (digits ++ [c]) = hexNumber digits * 16 + value := by
  simp [hexNumber, hc]

theorem Hexadecimal.isHexDigit (h : Hexadecimal digits n) : ∀ c ∈ digits, c.isHexDigit := by
  induction h with
  | digit hc => simp [CodePoint.isHexDigit, hc]
  | more _ hc ih =>
    intro d hd
    obtain hd | hd := List.mem_append.mp hd
    · exact ih d hd
    · rw [List.mem_singleton.mp hd, CodePoint.isHexDigit, hc]
      rfl

theorem Hexadecimal.ne_nil (h : Hexadecimal digits n) : digits ≠ [] := by
  cases h <;> simp

theorem Hexadecimal.hexNumber (h : Hexadecimal digits n) : hexNumber digits = n := by
  induction h with
  | digit hc => simp [StringLiteral.hexNumber, hc]
  | more _ hc ih => rw [hexNumber_append _ hc, ih]

theorem hexadecimal_hexNumber (hne : digits ≠ []) (h : ∀ c ∈ digits, c.isHexDigit) :
    Hexadecimal digits (hexNumber digits) := by
  induction digits using List.reverseRecOn with
  | nil => exact absurd rfl hne
  | append_singleton digits c ih =>
    obtain ⟨value, hc⟩ := Option.isSome_iff_exists.mp (h c (by simp))
    cases digits with
    | nil => simpa [StringLiteral.hexNumber, hc] using Hexadecimal.digit hc
    | cons d others =>
      rw [hexNumber_append _ hc]
      exact .more (ih (by simp) fun x hx => h x (List.mem_append_left _ hx)) hc

theorem hexValue?_lt {value : Nat} (h : c.hexValue? = some value) : value < 16 := by
  cases c with
  | surrogate offset => cases h
  | char ch =>
    have hzero : '0'.toNat = 48 := rfl
    have hsmall : 'a'.toNat = 97 := rfl
    have hlarge : 'A'.toNat = 65 := rfl
    simp only [CodePoint.hexValue?, Char.le_def, UInt32.le_iff_toNat_le, ← Char.toNat_val] at h hzero hsmall hlarge
    split at h
    · have : ch.val.toNat ≤ 57 := (by assumption : _ ∧ _).2
      grind
    · split at h
      · have : ch.val.toNat ≤ 102 := (by assumption : _ ∧ _).2
        grind
      · split at h
        · have : ch.val.toNat ≤ 70 := (by assumption : _ ∧ _).2
          grind
        · cases h

theorem Hexadecimal.lt (h : Hexadecimal digits n) : n < 16 ^ digits.length := by
  induction h with
  | digit hc => simpa using hexValue?_lt hc
  | more _ hc ih =>
    have := hexValue?_lt hc
    rw [List.length_append, List.length_singleton, Nat.pow_succ]
    omega

theorem Hexadecimal.notMem (h : Hexadecimal digits n) (hc : c.isHexDigit = false) : c ∉ digits :=
  fun hmem => Bool.false_ne_true (hc.symm.trans (h.isHexDigit c hmem))

end Hexadecimal

section Escapes

theorem fixedHex?_append (h : Hexadecimal digits n) (hwidth : digits.length = width) (rest : Text) :
    fixedHex? width (digits ++ rest) = some n := by
  rw [fixedHex?, List.take_left' hwidth, if_pos ⟨hwidth, List.all_eq_true.mpr h.isHexDigit⟩, h.hexNumber]

theorem exists_of_fixedHex? (hpositive : 0 < width) (h : fixedHex? width t = some n) :
    ∃ digits rest, t = digits ++ rest ∧ digits.length = width ∧ Hexadecimal digits n := by
  rw [fixedHex?] at h
  split at h
  · rename_i hdigits
    obtain rfl := Option.some.inj h
    have hne : t.take width ≠ [] := List.ne_nil_of_length_pos (hpositive.trans_eq hdigits.1.symm)
    exact ⟨t.take width, t.drop width, (List.take_append_drop width t).symm, hdigits.1,
      hexadecimal_hexNumber hne (List.all_eq_true.mp hdigits.2)⟩
  · cases h

theorem bracedHex?_append (h : Hexadecimal digits n) (rest : Text) :
    bracedHex? (digits ++ .char '\x7d' :: rest) = some (n, digits.length + 1) := by
  have htake : (digits ++ .char '\x7d' :: rest).takeWhile CodePoint.isHexDigit = digits := by
    rw [List.takeWhile_append_of_pos h.isHexDigit, List.takeWhile_cons_of_neg (by decide), List.append_nil]
  rw [bracedHex?, htake, List.drop_left, if_neg, h.hexNumber]
  simp [h.ne_nil]

theorem exists_of_bracedHex? {used : Nat} (h : bracedHex? t = some (n, used)) :
    ∃ digits rest, t = digits ++ .char '\x7d' :: rest ∧ digits.length + 1 = used ∧ Hexadecimal digits n := by
  obtain ⟨after, hafter⟩ := List.takeWhile_prefix CodePoint.isHexDigit (l := t)
  have hdrop : t.drop (t.takeWhile CodePoint.isHexDigit).length = after :=
    (congrArg (List.drop _) hafter.symm).trans List.drop_left
  rw [bracedHex?, hdrop] at h
  split at h
  · cases h
  · rename_i hbraced
    obtain ⟨hdigits, hbrace⟩ := not_or.mp hbraced
    obtain ⟨rfl, rfl⟩ := Prod.mk.inj (Option.some.inj h)
    cases after with
    | nil => exact absurd nofun hbrace
    | cons c rest =>
      obtain rfl : c = .char '\x7d' := Option.some.inj (not_not.mp hbrace)
      refine ⟨_, rest, hafter.symm, rfl, hexadecimal_hexNumber (by simpa using hdigits) ?_⟩
      exact fun c hc => List.mem_takeWhile_imp hc

-- What an escape with a number reads after its letter.
inductive Numbered (c : CodePoint) (t : Text) : Nat → Nat → Prop
  | fixed {letter : Char} {width n : Nat} {digits rest : Text} (hletter : (letter, width) ∈ fixedEscapes)
      (hc : c = .char letter) (h : Hexadecimal digits n) (hwidth : digits.length = width)
      (ht : t = digits ++ rest) : Numbered c t n width
  | braced {n : Nat} {digits rest : Text} (hc : c = 'u') (h : Hexadecimal digits n)
      (ht : t = .char '\x7b' :: (digits ++ .char '\x7d' :: rest)) : Numbered c t n (digits.length + 2)

theorem readEscape_fixed {letter : Char} (hletter : (letter, width) ∈ fixedEscapes) (h : Hexadecimal digits n)
    (hwidth : digits.length = width) (rest : Text) :
    readEscape (.char letter) (digits ++ rest) = (.numeric n, width) := by
  have hfixed := fixedHex?_append h hwidth rest
  simp only [fixedEscapes, List.mem_cons, Prod.mk.injEq, List.not_mem_nil, or_false] at hletter
  obtain ⟨rfl, rfl⟩ | ⟨rfl, rfl⟩ := hletter
  · unfold readEscape
    rw [if_neg (by decide), if_pos rfl, hfixed]
  · rw [readEscape, if_pos rfl, hfixed]
    -- the first digit is no brace
    rintro others heq
    cases digits with
    | nil => exact h.ne_nil rfl
    | cons d digits =>
      obtain rfl : d = .char '\x7b' := (List.cons.inj heq).1
      exact h.notMem (by decide) (List.mem_cons_self ..)

theorem readEscape_braced (h : Hexadecimal digits n) (rest : Text) :
    readEscape 'u' (.char '\x7b' :: (digits ++ .char '\x7d' :: rest)) = (.numeric n, digits.length + 2) := by
  rw [readEscape, if_pos rfl]
  simp only [bracedHex?_append h rest]

theorem readEscape_character (hdigits : c ≠ 'u' ∧ c ≠ 'x') (hline : isLineTerminator c = false) (rest : Text) :
    readEscape c rest = (.character (simpleEscape c), 0) := by
  have hreturn : c ≠ '\r' := by
    rintro rfl
    cases hline
  unfold readEscape
  rw [if_neg hdigits.1, if_neg hdigits.2, if_neg fun h => hreturn h.1, hline, if_neg Bool.false_ne_true]

theorem readEscape_lineEnd {lineEnd : Text} (hend : c :: lineEnd ∈ lineEnds)
    (hreturn : c :: lineEnd = "\r" → rest.head? ≠ some (.char '\n')) :
    readEscape c (lineEnd ++ rest) = (.lineContinuation, lineEnd.length) := by
  have hsingle (hc : c ≠ 'u' ∧ c ≠ 'x') (hend : isLineTerminator c) (h : c = '\r' → rest.head? ≠ some (.char '\n')) :
      readEscape c rest = (.lineContinuation, 0) := by
    unfold readEscape
    rw [if_neg hc.1, if_neg hc.2, if_neg fun hpair => h hpair.1 hpair.2, if_pos hend]
  simp only [lineEnds, List.mem_cons, List.not_mem_nil, or_false] at hend
  obtain hend | hend | hend | hend | hend := hend
  all_goals obtain ⟨rfl, rfl⟩ := List.cons.inj hend
  · exact hsingle (by decide) (by decide) nofun
  · exact hsingle (by decide) (by decide) fun _ => hreturn rfl
  · rfl
  · exact hsingle (by decide) (by decide) nofun
  · exact hsingle (by decide) (by decide) nofun

theorem numbered_iff {used : Nat} : Numbered c t n used ↔ readEscape c t = (.numeric n, used) := by
  constructor
  · rintro (⟨hletter, rfl, h, hwidth, rfl⟩ | ⟨rfl, h, rfl⟩)
    · exact readEscape_fixed hletter h hwidth _
    · exact readEscape_braced h _
  · intro h
    unfold readEscape at h
    split at h
    · rename_i hu
      subst hu
      split at h
      · split at h
        · rename_i hbraced
          obtain ⟨digits, rest, rfl, rfl, hdigits⟩ := exists_of_bracedHex? hbraced
          obtain ⟨⟨⟩, rfl⟩ := Prod.mk.inj h
          exact .braced rfl hdigits rfl
        · cases h
      · split at h
        · rename_i hfixed
          obtain ⟨digits, rest, rfl, hwidth, hdigits⟩ := exists_of_fixedHex? (by decide) hfixed
          obtain ⟨⟨⟩, rfl⟩ := Prod.mk.inj h
          exact .fixed (by decide) rfl hdigits hwidth rfl
        · cases h
    · split at h
      · rename_i hx
        subst hx
        split at h
        · rename_i hfixed
          obtain ⟨digits, rest, rfl, hwidth, hdigits⟩ := exists_of_fixedHex? (by decide) hfixed
          obtain ⟨⟨⟩, rfl⟩ := Prod.mk.inj h
          exact .fixed (by decide) rfl hdigits hwidth rfl
        · cases h
      · repeat' split at h
        all_goals cases h

-- Only a carriage return has a line feed read behind it.
theorem readEscape_unnumbered (h : ∀ n used, readEscape c t ≠ (.numeric n, used)) :
    (readEscape c t).2 = 0 ∨ (readEscape c t).2 = 1 ∧ t.head? = some (.char '\n') := by
  unfold readEscape at h ⊢
  repeat' split
  all_goals simp_all

-- No backslash belongs to an escape but its own and the one that it escapes.
theorem readEscape_used (c : CodePoint) (t : Text) :
    ∃ consumed rest, t = consumed ++ rest ∧ consumed.length = (readEscape c t).2 ∧ .char '\\' ∉ consumed := by
  by_cases hnumbered : ∃ n used, readEscape c t = (.numeric n, used)
  · obtain ⟨n, used, hread⟩ := hnumbered
    rw [hread]
    cases numbered_iff.mpr hread with
    | fixed _ _ h hwidth ht => exact ⟨_, _, ht, hwidth, h.notMem (by decide)⟩
    | @braced _ digits rest _ h ht =>
      refine ⟨.char '\x7b' :: (digits ++ [.char '\x7d']), rest, by simp [ht], by simp, ?_⟩
      simp [h.notMem (c := .char '\\') (by decide)]
  · obtain hused | ⟨hused, hhead⟩ := readEscape_unnumbered fun n used hread => hnumbered ⟨n, used, hread⟩
    · exact ⟨[], t, rfl, hused.symm, by simp⟩
    · cases t with
      | nil => cases hhead
      | cons d rest =>
        obtain rfl := Option.some.inj hhead
        exact ⟨[.char '\n'], rest, rfl, hused.symm, by simp⟩

theorem exists_toNat_eq (h : n ≤ 0x10FFFF) : ∃ d : CodePoint, d.toNat = n := by
  by_cases hsurrogate : 0xD800 ≤ n ∧ n < 0xE000
  · exact ⟨.surrogate ⟨n - 0xD800, by omega⟩, by simp only [CodePoint.toNat]; omega⟩
  · refine ⟨.char (Char.ofNat n), ?_⟩
    have hvalid : n.isValidChar := by simp only [Nat.isValidChar]; omega
    rw [CodePoint.toNat, Char.ofNat, dif_pos hvalid]
    rfl

theorem value_numeric (c : CodePoint) : (Escape.numeric c.toNat).value = .ok [c] := by
  rw [Escape.value, Json.ofNat?_toNat]

theorem value_numeric_error : (∃ e, (Escape.numeric n).value = .error e) ↔ 0x10FFFF < n := by
  constructor
  · rintro ⟨e, h⟩
    by_contra hle
    obtain ⟨d, rfl⟩ := exists_toNat_eq (Nat.le_of_not_lt hle)
    rw [value_numeric] at h
    cases h
  · intro h
    rw [Escape.value, CodePoint.ofNat?, dif_neg (by omega), if_neg (by omega)]
    exact ⟨_, rfl⟩

theorem Hexadecimal.lt_of_fixed {letter : Char} (h : Hexadecimal digits n) (hletter : (letter, width) ∈ fixedEscapes)
    (hwidth : digits.length = width) : n < 0x10000 := by
  have hlt := h.lt
  simp only [fixedEscapes, List.mem_cons, Prod.mk.injEq, List.not_mem_nil, or_false] at hletter
  obtain ⟨_, rfl⟩ | ⟨_, rfl⟩ := hletter
  all_goals
    rw [hwidth] at hlt
    omega

-- An escape has a value unless its number is too large, which takes an escape in braces.
theorem readEscape_value_error : (∃ e, (readEscape c t).1.value = .error e) ↔
    ∃ digits n rest, c = 'u' ∧ t = .char '\x7b' :: (digits ++ .char '\x7d' :: rest) ∧ Hexadecimal digits n ∧
      0x10FFFF < n := by
  constructor
  · rintro ⟨e, h⟩
    obtain ⟨n, used, hread⟩ : ∃ n used, readEscape c t = (.numeric n, used) := by
      cases hread : readEscape c t with
      | mk escape used =>
        rw [hread] at h
        cases escape with
        | numeric n => exact ⟨n, used, rfl⟩
        | lineContinuation => cases h
        | character s => cases h
    rw [hread] at h
    have hlarge := value_numeric_error.mp ⟨e, h⟩
    cases numbered_iff.mpr hread with
    | fixed hletter _ hdigits hwidth _ =>
      have hsmall := hdigits.lt_of_fixed hletter hwidth
      omega
    | braced hc hdigits ht => exact ⟨_, _, _, hc, ht, hdigits, hlarge⟩
  · rintro ⟨digits, n, rest, rfl, rfl, hdigits, hlarge⟩
    rw [readEscape_braced hdigits]
    exact value_numeric_error.mpr hlarge

end Escapes

section Value

theorem decodeEscapes_of_value {escape : Escape} {value s : Text} (c : CodePoint) (consumed : Text)
    (hread : readEscape c (consumed ++ t) = (escape, consumed.length)) (hvalue : escape.value = .ok value)
    (h : decodeEscapes t = .ok s) : decodeEscapes (.char '\\' :: c :: (consumed ++ t)) = .ok (value ++ s) := by
  rw [decodeEscapes, hread, hvalue]
  simp only [List.drop_left, h]
  rfl

theorem units_simpleEscape {e : Char} {unit : UInt16} (he : (e, unit) ∈ singleEscapes) (rest : Text) :
    ∃ s, readEscape (.char e) rest = (.character s, 0) ∧ units s = [unit] := by
  simp only [singleEscapes, List.mem_cons, Prod.mk.injEq, List.not_mem_nil, or_false] at he
  obtain ⟨rfl, rfl⟩ | ⟨rfl, rfl⟩ | ⟨rfl, rfl⟩ | ⟨rfl, rfl⟩ | ⟨rfl, rfl⟩ | ⟨rfl, rfl⟩ | ⟨rfl, rfl⟩ | ⟨rfl, rfl⟩ |
    ⟨rfl, rfl⟩ := he
  all_goals exact ⟨_, rfl, by decide⟩

theorem mem_lineEnds (h : isLineTerminator c) : [c] ∈ lineEnds := by
  simp only [isLineTerminator, Bool.or_eq_true, decide_eq_true_eq, or_assoc] at h
  obtain rfl | rfl | h | h := h
  · decide
  · decide
  · rw [Json.eq_char_of_toNat h (by decide)]
    decide
  · rw [Json.eq_char_of_toNat h (by decide)]
    decide

theorem IsOrdinary.readEscape (hc : IsOrdinary c) (rest : Text) : readEscape c rest = (.character c, 0) := by
  obtain ⟨hsingle, hdigit, hx, hu, hline⟩ := hc
  have hsimple : simpleEscape c = c := by
    have hzero : c ≠ .char '0' := by
      rintro rfl
      cases hdigit
    unfold simpleEscape
    rw [if_neg (hsingle ('n', 0x0A) (by decide)), if_neg (hsingle ('t', 0x09) (by decide)),
      if_neg (hsingle ('r', 0x0D) (by decide)), if_neg (hsingle ('b', 0x08) (by decide)),
      if_neg (hsingle ('f', 0x0C) (by decide)), if_neg (hsingle ('v', 0x0B) (by decide)), if_neg hzero]
  rw [readEscape_character ⟨hu, hx⟩ (Bool.eq_false_iff.mpr fun h => hline (mem_lineEnds h)), hsimple]

-- The text of a literal decodes to the code points whose units the grammar gives it.
theorem Spells.decodeEscapes {us : List UInt16} (h : Spells quote t us) :
    ∃ s, decodeEscapes t = .ok s ∧ s.flatMap units = us := by
  induction h with
  | nil => exact ⟨[], by rw [StringLiteral.decodeEscapes], rfl⟩
  | @plain c _ _ _ hescape _ _ _ ih =>
    obtain ⟨s, hs, rfl⟩ := ih
    exact ⟨c :: s, by rw [Json.decodeEscapes_cons hescape, hs]; rfl, List.flatMap_cons ..⟩
  | @single e _ t _ he _ ih =>
    obtain ⟨s, hs, rfl⟩ := ih
    obtain ⟨d, hread, hunits⟩ := units_simpleEscape he t
    refine ⟨d :: s, decodeEscapes_of_value _ [] hread rfl hs, ?_⟩
    rw [List.flatMap_cons, hunits, List.singleton_append]
  | @null t _ _ _ ih =>
    obtain ⟨s, hs, rfl⟩ := ih
    exact ⟨_, decodeEscapes_of_value '0' [] rfl rfl hs, rfl⟩
  | @fixed _ _ n _ t _ hletter hn hwidth _ ih =>
    obtain ⟨s, hs, rfl⟩ := ih
    have hsmall := hn.lt_of_fixed hletter hwidth
    obtain ⟨d, rfl⟩ := exists_toNat_eq (show n ≤ 0x10FFFF by omega)
    subst hwidth
    refine ⟨d :: s, decodeEscapes_of_value _ _ (readEscape_fixed hletter hn rfl t) (value_numeric d) hs, ?_⟩
    rw [List.flatMap_cons, units, if_pos hsmall, List.singleton_append]
  | @braced c digits t _ hn _ ih =>
    obtain ⟨s, hs, rfl⟩ := ih
    have hread : readEscape 'u' ((.char '\x7b' :: (digits ++ [.char '\x7d'])) ++ t) =
        (.numeric c.toNat, (.char '\x7b' :: (digits ++ [.char '\x7d']) : Text).length) := by
      simpa using readEscape_braced hn t
    have hdecode := decodeEscapes_of_value 'u' _ hread (value_numeric c) hs
    exact ⟨c :: s, by simpa using hdecode, List.flatMap_cons ..⟩
  | @ordinary c t _ hc _ ih =>
    obtain ⟨s, hs, rfl⟩ := ih
    exact ⟨c :: s, decodeEscapes_of_value c [] (hc.readEscape t) rfl hs, List.flatMap_cons ..⟩
  | @continued lineEnd t _ hend hreturn _ ih =>
    obtain ⟨s, hs, rfl⟩ := ih
    cases lineEnd with
    | nil => exact absurd hend (by decide)
    | cons c lineEnd =>
      exact ⟨s, decodeEscapes_of_value c lineEnd (readEscape_lineEnd hend hreturn) rfl hs, rfl⟩

theorem isQuoted_of_quote {body : Text} (hquote : quote = .char '"' ∨ quote = .char '\'') :
    isQuoted (quote :: (body ++ [quote])) := by
  have hlast : (quote :: (body ++ [quote])).getLast? = some quote := by
    rw [← List.cons_append, List.getLast?_concat]
  rw [isQuoted, hlast]
  obtain rfl | rfl := hquote <;> simp [CodePoint.isIn]

theorem inner_of_quote (quote : CodePoint) (body : Text) : inner (quote :: (body ++ [quote])) = body := by
  simp [StringLiteral.inner]

-- A literal decodes to its value.
theorem IsLiteral.decode {us : List UInt16} (h : IsLiteral t us) : decode t = .ok (ofUnits us) := by
  obtain ⟨quote, body, hquote, rfl, hbody⟩ := h
  obtain ⟨s, hs, rfl⟩ := hbody.decodeEscapes
  rw [StringLiteral.decode, if_pos (isQuoted_of_quote hquote), inner_of_quote, hs, ofUnits_flatMap_units]
  rfl

end Value

section Failure

-- A text that begins like an escape in braces of too large a number, behind its backslash.
def OverflowsAt (c : CodePoint) (t : Text) : Prop :=
  ∃ digits n rest, c = 'u' ∧ t = .char '\x7b' :: (digits ++ .char '\x7d' :: rest) ∧ Hexadecimal digits n ∧ 0x10FFFF < n

theorem not_overflows_nil : ¬ Overflows [] := by
  rintro ⟨before, digits, n, after, h, -⟩
  simp at h

theorem not_overflows_backslash : ¬ Overflows [.char '\\'] := by
  rintro ⟨before, digits, n, after, h, -⟩
  have := congrArg List.length h
  simp at this
  omega

theorem endsEscaping_cons (h : c ≠ '\\') : endsEscaping (c :: t) = endsEscaping t := by
  simp [endsEscaping, h]

theorem endsEscaping_escape : endsEscaping (.char '\\' :: c :: t) = endsEscaping t := by
  simp [endsEscaping]

theorem overflows_cons (h : c ≠ '\\') : Overflows (c :: t) ↔ Overflows t := by
  constructor
  · rintro ⟨before, digits, n, after, heq, hbefore, hn⟩
    cases before with
    | nil => exact absurd (List.cons.inj heq).1 h
    | cons d before =>
      obtain ⟨rfl, rfl⟩ := List.cons.inj heq
      exact ⟨before, digits, n, after, rfl, endsEscaping_cons h ▸ hbefore, hn⟩
  · rintro ⟨before, digits, n, after, rfl, hbefore, hn⟩
    exact ⟨c :: before, digits, n, after, rfl, (endsEscaping_cons h).trans hbefore, hn⟩

theorem overflows_append (h : .char '\\' ∉ t) : Overflows (t ++ rest) ↔ Overflows rest := by
  induction t with
  | nil => rfl
  | cons c t ih =>
    obtain ⟨hc, ht⟩ := List.ne_and_not_mem_of_not_mem_cons h
    exact (overflows_cons hc.symm).trans (ih ht)

theorem overflows_escape : Overflows (.char '\\' :: c :: t) ↔ OverflowsAt c t ∨ Overflows t := by
  constructor
  · rintro ⟨before, digits, n, after, heq, hbefore, hn⟩
    match before with
    | [] =>
      obtain ⟨rfl, rfl⟩ := List.cons.inj (List.cons.inj heq).2
      exact .inl ⟨digits, n, after, rfl, rfl, hn⟩
    | [d] =>
      obtain ⟨rfl, -⟩ := List.cons.inj heq
      cases hbefore
    | d :: e :: before =>
      obtain ⟨rfl, hrest⟩ := List.cons.inj heq
      obtain ⟨rfl, rfl⟩ := List.cons.inj hrest
      exact .inr ⟨before, digits, n, after, rfl, endsEscaping_escape.symm.trans hbefore, hn⟩
  · rintro (⟨digits, n, rest, rfl, rfl, hn⟩ | ⟨before, digits, n, after, rfl, hbefore, hn⟩)
    · exact ⟨[], digits, n, rest, rfl, rfl, hn⟩
    · exact ⟨.char '\\' :: c :: before, digits, n, after, rfl, endsEscaping_escape.trans hbefore, hn⟩

-- What belongs to the escape has no backslash, so that the rest overflows where it did.
theorem overflows_drop (c : CodePoint) (t : Text) : Overflows t ↔ Overflows (t.drop (readEscape c t).2) := by
  obtain ⟨consumed, rest, ht, hused, hconsumed⟩ := readEscape_used c t
  have hdrop : t.drop (readEscape c t).2 = rest := by
    rw [← hused]
    exact (congrArg (List.drop _) ht).trans List.drop_left
  rw [hdrop, ht]
  exact overflows_append hconsumed

theorem decodeEscapes_error : (∃ e, decodeEscapes t = .error e) ↔ Overflows t := by
  fun_induction decodeEscapes t with
  | case1 => exact ⟨nofun, fun h => absurd h not_overflows_nil⟩
  | case2 c rest escape ih =>
    rw [overflows_escape, overflows_drop c rest, ← ih, OverflowsAt, ← readEscape_value_error]
    cases hvalue : escape.1.value with
    | error e => exact ⟨fun _ => .inl ⟨e, rfl⟩, fun _ => ⟨e, rfl⟩⟩
    | ok value =>
      cases decodeEscapes (rest.drop escape.2) with
      | error e => exact ⟨fun _ => .inr ⟨e, rfl⟩, fun _ => ⟨e, rfl⟩⟩
      | ok s => exact ⟨nofun, by rintro (⟨_, ⟨⟩⟩ | ⟨_, ⟨⟩⟩)⟩
  | case3 c rest hrest ih =>
    have hoverflows : Overflows (c :: rest) ↔ Overflows rest := by
      by_cases hc : c = .char '\\'
      · cases rest with
        | nil => exact hc ▸ iff_of_false not_overflows_backslash not_overflows_nil
        | cons d rest => exact absurd rfl (hrest d rest hc)
      · exact overflows_cons hc
    rw [hoverflows, ← ih]
    cases decodeEscapes rest with
    | error e => exact ⟨fun _ => ⟨e, rfl⟩, fun _ => ⟨e, rfl⟩⟩
    | ok s => exact ⟨nofun, nofun⟩

theorem decode_error : (∃ e, decode t = .error e) ↔ Overflows (if isQuoted t then inner t else t) := by
  rw [← decodeEscapes_error, decode]
  cases decodeEscapes (if isQuoted t then inner t else t) <;> simp [Except.map]

end Failure

-- A literal of the grammar decodes to its value, and of all texts only those do not decode in which
-- an escape in braces names no code point.
theorem decode_value (t : Text) :
    (∀ us, IsLiteral t us → decode t = .ok (ofUnits us)) ∧
      ((∃ e, decode t = .error e) ↔ Overflows (if isQuoted t then inner t else t)) :=
  ⟨fun _ => IsLiteral.decode, decode_error⟩

section Sample

-- A pair of surrogates on two lines, and an escape of each form.
def sampleLiteral : Text := "'\\uD83D\\\r\n\\uDE00\\x41\\0\\u\x7b1F600\x7d\\'\"\\q'"

def sampleUnits : List UInt16 := [0xD83D, 0xDE00, 0x41, 0, 0xD83D, 0xDE00, 0x27, 0x22, 0x71]

theorem sampleLiteral_isLiteral : IsLiteral sampleLiteral sampleUnits := by
  refine ⟨'\'', sampleLiteral.tail.dropLast, .inr rfl, by decide, ?_⟩
  have hhigh : Hexadecimal "D83D" 0xD83D := hexadecimal_hexNumber (by decide) (by decide)
  have hlow : Hexadecimal "DE00" 0xDE00 := hexadecimal_hexNumber (by decide) (by decide)
  have hletter : Hexadecimal "41" 0x41 := hexadecimal_hexNumber (by decide) (by decide)
  have hface : Hexadecimal "1F600" (CodePoint.toNat (.char (Char.ofNat 0x1F600))) :=
    hexadecimal_hexNumber (by decide) (by decide)
  have hend : Spells '\'' ("'\"\\q" : Text).tail [0x22, 0x71] :=
    .plain (by decide) (by decide) (by decide) (by decide) (.ordinary (by unfold IsOrdinary; decide) .nil)
  have hrest : Spells '\'' "\\u\x7b1F600\x7d\\'\"\\q" [0xD83D, 0xDE00, 0x27, 0x22, 0x71] :=
    .braced hface (.single (by decide) hend)
  have hmiddle : Spells '\'' "\\uDE00\\x41\\0\\u\x7b1F600\x7d\\'\"\\q" sampleUnits.tail :=
    .fixed (by decide) hlow rfl (.fixed (by decide) hletter rfl (.null (by decide) hrest))
  exact .fixed (by decide) hhigh rfl (.continued (show ("\r\n" : Text) ∈ lineEnds by decide) (by decide) hmiddle)

theorem sampleLiteral_decode_value : decode sampleLiteral = .ok "😀A\x00😀'\"q" ∧
    ∃ e, decode "\"\\u\x7b110000\x7d\"" = .error e := by
  have hvalue : ofUnits sampleUnits = "😀A\x00😀'\"q" := by decide +kernel
  refine ⟨hvalue ▸ (decode_value sampleLiteral).1 _ sampleLiteral_isLiteral, (decode_value _).2.mpr ?_⟩
  exact ⟨[], "110000", 0x110000, [], by decide, rfl, hexadecimal_hexNumber (by decide) (by decide), by decide⟩

end Sample

end HookGen.StringLiteral
