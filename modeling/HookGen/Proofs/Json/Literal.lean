import HookGen.Proofs.Json.Strings
import HookGen.Proofs.Source.Lexing
import HookGen.Text.StringLiteral

/-!
A printed string as a literal of a declaration: it is one literal, and its value is the text that was
printed. Only characters below the space have an escape with a number, so no number is out of range.
-/

namespace HookGen.Json

open Source StringLiteral

variable {c : CodePoint} {t rest : Text}

-- How a code point is written where only what has to be escaped is: by a letter, by its number or as it is.
inductive Escaped (c : CodePoint) : Text → Prop
  | letter (e : CodePoint) (h : ∀ rest, readEscape e rest = (.character c, 0)) (hline : e ≠ '\n') : Escaped c ['\\', e]
  | unit (h : c.toNat < 0x20) : Escaped c (escapeUnit c.toNat)
  | raw (hquote : c ≠ '"') (hescape : c ≠ '\\') (hline : c ≠ '\n') : Escaped c [c]

theorem escaped_escapeCodePoint (c : CodePoint) : Escaped c (escapeCodePoint false c) := by
  have hprinted := printed_escapeCodePoint false c
  generalize escapeCodePoint false c = escaped at hprinted
  cases hprinted with
  | letter e h =>
    simp only [lettered, List.mem_cons, List.not_mem_nil, or_false, Prod.mk.injEq] at h
    rcases h with ⟨rfl, rfl⟩ | ⟨rfl, rfl⟩ | ⟨rfl, rfl⟩ | ⟨rfl, rfl⟩ | ⟨rfl, rfl⟩ | ⟨rfl, rfl⟩ | ⟨rfl, rfl⟩
    all_goals exact .letter _ (fun _ => rfl) (by decide)
  | unit hescaped => exact .unit (hescaped.resolve_right Bool.false_ne_true)
  | raw hquote hescape hcontrol =>
    refine .raw hquote hescape ?_
    rintro rfl
    exact hcontrol (by decide)
  | pair hascii => cases hascii

section Value

theorem hexNumber_four {a b c d : Nat} (ha : a < 16) (hb : b < 16) (hc : c < 16) (hd : d < 16) :
    hexNumber [hexDigit a, hexDigit b, hexDigit c, hexDigit d] = ((a * 16 + b) * 16 + c) * 16 + d := by
  simp [hexNumber, hexValue?_hexDigit ha, hexValue?_hexDigit hb, hexValue?_hexDigit hc, hexValue?_hexDigit hd]

theorem fixedHex?_ofNatHex {n : Nat} (h : n < 0x10000) (rest : Text) :
    fixedHex? 4 (Text.ofNatHex 4 n ++ rest) = some n := by
  have hvalue (m : Nat) (hm : m < 16) : (hexDigit m).isHexDigit := by
    rw [CodePoint.isHexDigit, hexValue?_hexDigit hm]
    rfl
  have hnumber := hexNumber_four (show n / 4096 < 16 by omega) (show n / 256 % 16 < 16 by omega)
    (show n / 16 % 16 < 16 by omega) (show n % 16 < 16 by omega)
  rw [ofNatHex_four h]
  simp only [fixedHex?, List.cons_append, List.nil_append, List.take_succ_cons, List.take_zero,
    List.length_cons, List.length_nil, List.all_cons, List.all_nil, hvalue (n / 4096) (by omega),
    hvalue (n / 256 % 16) (by omega), hvalue (n / 16 % 16) (by omega), hvalue (n % 16) (by omega), hnumber,
    Bool.and_self, and_self, if_true, Option.some.injEq]
  omega

theorem hexDigit_ne {n : Nat} {c : CodePoint} (hn : n < 16) (hc : c.isHexDigit = false) : hexDigit n ≠ c := by
  rintro rfl
  rw [CodePoint.isHexDigit, hexValue?_hexDigit hn] at hc
  cases hc

theorem readEscape_ofNatHex {n : Nat} (h : n < 0x10000) (rest : Text) :
    readEscape 'u' (Text.ofNatHex 4 n ++ rest) = (.numeric n, 4) := by
  have hfixed := fixedHex?_ofNatHex h rest
  rw [ofNatHex_four h, List.cons_append] at hfixed ⊢
  rw [readEscape, if_pos rfl, hfixed]
  exact fun digits heq => absurd (List.cons.inj heq).1 (hexDigit_ne (by omega) (by decide))

theorem decodeEscapes_cons (h : c ≠ '\\') : decodeEscapes (c :: rest) = (decodeEscapes rest).map (c :: ·) := by
  rw [decodeEscapes]
  · cases decodeEscapes rest <;> rfl
  · rintro d others rfl
    exact absurd rfl h

theorem Escaped.decodeEscapes (h : Escaped c t) (rest : Text) :
    decodeEscapes (t ++ rest) = (StringLiteral.decodeEscapes rest).map (c :: ·) := by
  cases h with
  | letter e h _ =>
    rw [List.cons_append, List.singleton_append, StringLiteral.decodeEscapes, h rest]
    simp only [List.drop_zero]
    cases StringLiteral.decodeEscapes rest <;> rfl
  | unit h =>
    have hdrop : (Text.ofNatHex 4 c.toNat ++ rest).drop 4 = rest :=
      List.drop_left' (by rw [ofNatHex_four (by omega)]; rfl)
    have hvalue : (Escape.numeric c.toNat).value = .ok [c] := by
      rw [Escape.value, ofNat?_toNat]
    rw [escapeUnit_eq, List.cons_append, List.cons_append, StringLiteral.decodeEscapes,
      readEscape_ofNatHex (by omega) rest, hvalue, hdrop]
    cases StringLiteral.decodeEscapes rest <;> rfl
  | raw _ hescape _ => exact decodeEscapes_cons hescape

theorem decodeEscapes_flatMap (t : Text) : decodeEscapes (t.flatMap (escapeCodePoint false)) = .ok t := by
  induction t with
  | nil => rw [List.flatMap_nil, decodeEscapes]
  | cons c t ih =>
    rw [List.flatMap_cons, (escaped_escapeCodePoint c).decodeEscapes, ih]
    rfl

theorem isQuoted_quote (asciiOnly : Bool) (t : Text) : isQuoted (quote asciiOnly t) := by
  have hends : quote asciiOnly t = .char '"' :: (t.flatMap (escapeCodePoint asciiOnly) ++ [.char '"']) := by
    simp [quote, Text.ofString, Text.ofChars]
  have hlast : (quote asciiOnly t).getLast? = some (.char '"') := by
    rw [hends, ← List.cons_append, List.getLast?_concat]
  rw [isQuoted, hlast, hends]
  simp [CodePoint.isIn]

theorem inner_quote (asciiOnly : Bool) (t : Text) :
    inner (quote asciiOnly t) = t.flatMap (escapeCodePoint asciiOnly) := by
  simp [StringLiteral.inner, quote, Text.ofString, Text.ofChars]

-- A text in which no high surrogate has a low one right behind it.
def Unpaired (t : Text) : Prop :=
  ∀ high low : Fin 2048, [.surrogate high, .surrogate low] <:+: t → ¬ (high.val < 1024 ∧ 1024 ≤ low.val)

theorem Unpaired.tail (h : Unpaired (c :: t)) : Unpaired t :=
  fun high low hpair => h high low (hpair.trans (List.suffix_cons c t).isInfix)

theorem unpaired_of_scalar (h : ∀ offset, .surrogate offset ∉ t) : Unpaired t :=
  fun high _ hpair => absurd (hpair.subset (List.mem_cons_self ..)) (h high)

theorem joinPairs_of_unpaired (h : Unpaired t) : joinPairs t = t := by
  fun_induction joinPairs t with
  | case1 high low rest hpair ih => exact absurd hpair (h high low ⟨[], rest, rfl⟩)
  | case2 high low rest _ ih => rw [ih h.tail]
  | case3 c rest _ ih => rw [ih h.tail]
  | case4 => rfl

-- The value of a printed string is the text that was printed.
theorem decode_quote (h : Unpaired t) : decode (quote false t) = .ok t := by
  rw [decode, isQuoted_quote, if_pos rfl, inner_quote, decodeEscapes_flatMap, Except.map,
    joinPairs_of_unpaired h]

end Value

section Lexeme

theorem closes_cons {d : CodePoint} (hquote : c ≠ '"') (hescape : c ≠ '\\') :
    closes '"' (c :: d :: t) = closes '"' (d :: t) := by
  rw [closes, if_neg hescape]
  simp [hquote]

theorem Escaped.closes {d : CodePoint} (h : Escaped c t) (rest : Text) :
    closes '"' (t ++ d :: rest) = Source.closes '"' (d :: rest) := by
  cases h with
  | letter e _ _ => rw [List.cons_append, List.singleton_append, Source.closes, if_pos rfl]
  | unit h =>
    rw [escapeUnit_eq, ofNatHex_four (by omega), List.cons_append, List.cons_append, Source.closes, if_pos rfl]
    simp only [List.cons_append, List.nil_append]
    iterate 4 rw [closes_cons (hexDigit_ne (by omega) (by decide)) (hexDigit_ne (by omega) (by decide))]
  | raw hquote hescape _ => exact closes_cons hquote hescape

theorem closes_flatMap (t : Text) : closes '"' (t.flatMap (escapeCodePoint false) ++ [.char '"']) := by
  induction t with
  | nil => decide
  | cons c t ih =>
    obtain ⟨d, rest, heq⟩ : ∃ d rest, t.flatMap (escapeCodePoint false) ++ [.char '"'] = d :: rest :=
      List.exists_cons_of_ne_nil (by simp)
    rw [List.flatMap_cons, List.append_assoc, heq, (escaped_escapeCodePoint c).closes, ← heq]
    exact ih

theorem isString_quote (t : Text) : isString (quote false t) := by
  have hends : quote false t = .char '"' :: (t.flatMap (escapeCodePoint false) ++ [.char '"']) := by
    simp [quote, Text.ofString, Text.ofChars]
  rw [hends, isString, closes_flatMap]
  decide

theorem Escaped.newline_notMem (h : Escaped c t) : .char '\n' ∉ t := by
  cases h with
  | letter e _ hline => simpa using hline.symm
  | unit h =>
    rw [escapeUnit_eq, ofNatHex_four (by omega)]
    simp only [List.mem_cons, List.not_mem_nil, or_false, not_or]
    exact ⟨by decide, by decide, (hexDigit_ne (by omega) (by decide)).symm,
      (hexDigit_ne (by omega) (by decide)).symm, (hexDigit_ne (by omega) (by decide)).symm,
      (hexDigit_ne (by omega) (by decide)).symm⟩
  | raw _ _ hline => simpa using hline.symm

-- A printed string stands on one line.
theorem newline_notMem_quote (t : Text) : .char '\n' ∉ quote false t := by
  simp only [quote, List.mem_append, List.mem_flatMap, not_or, not_exists, not_and]
  exact ⟨⟨by decide, fun c _ => (escaped_escapeCodePoint c).newline_notMem⟩, by decide⟩

end Lexeme

end HookGen.Json
