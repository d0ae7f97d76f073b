import HookGen.Json.Printer
import HookGen.Json.Reader
import Mathlib.Init

/-!
Reading back a printed string. Where everything beyond ASCII is escaped, a high surrogate with a low one
behind it comes back as one code point.
-/

namespace HookGen.Json

open Text

-- The hexadecimal digit of a number below sixteen.
def hexDigit (n : Nat) : CodePoint := .char (Nat.digitChar n)

theorem hexValue?_hexDigit {n : Nat} (h : n < 16) : (hexDigit n).hexValue? = some n := by
  have hall : ∀ n < 16, (hexDigit n).hexValue? = some n := by decide
  exact hall n h

theorem ofChars_toDigits {n : Nat} (h : n < 16) : ofChars (Nat.toDigits 16 n) = [hexDigit n] := by
  rw [Nat.toDigits_of_lt_base h]
  rfl

theorem ofChars_toDigits_of_le {n : Nat} (h : 16 ≤ n) :
    ofChars (Nat.toDigits 16 n) = ofChars (Nat.toDigits 16 (n / 16)) ++ [hexDigit (n % 16)] := by
  rw [Nat.toDigits_of_base_le (by omega) h]
  simp [ofChars, hexDigit]

-- A unit of sixteen bits has four digits.
theorem ofNatHex_four {n : Nat} (h : n < 0x10000) : ofNatHex 4 n =
    [hexDigit (n / 4096), hexDigit (n / 256 % 16), hexDigit (n / 16 % 16), hexDigit (n % 16)] := by
  have hzero : hexDigit 0 = '0' := rfl
  unfold ofNatHex zeros
  by_cases h1 : n < 16
  · rw [ofChars_toDigits h1, show n / 4096 = 0 by omega, show n / 256 % 16 = 0 by omega,
      show n / 16 % 16 = 0 by omega, show n % 16 = n by omega, hzero]
    rfl
  · rw [ofChars_toDigits_of_le (by omega)]
    by_cases h2 : n / 16 < 16
    · rw [ofChars_toDigits h2, show n / 4096 = 0 by omega, show n / 256 % 16 = 0 by omega,
        show n / 16 % 16 = n / 16 by omega, hzero]
      rfl
    · rw [ofChars_toDigits_of_le (by omega)]
      by_cases h3 : n / 16 / 16 < 16
      · rw [ofChars_toDigits h3, show n / 4096 = 0 by omega,
          show n / 256 % 16 = n / 16 / 16 by omega, hzero]
        rfl
      · rw [ofChars_toDigits_of_le (by omega), ofChars_toDigits (by omega),
          show n / 4096 = n / 16 / 16 / 16 by omega, show n / 256 = n / 16 / 16 by omega]
        rfl

theorem readHex4_ofNatHex {n : Nat} (h : n < 0x10000) (next : CodePoint) (rest : Text) :
    readHex4 (ofNatHex 4 n ++ next :: rest) = some (n, next :: rest) := by
  rw [ofNatHex_four h]
  simp only [List.cons_append, List.nil_append, readHex4,
    hexValue?_hexDigit (show n / 4096 < 16 by omega),
    hexValue?_hexDigit (show n / 256 % 16 < 16 by omega),
    hexValue?_hexDigit (show n / 16 % 16 < 16 by omega),
    hexValue?_hexDigit (show n % 16 < 16 by omega), Option.bind_eq_bind, Option.bind_some,
    Option.pure_def, Option.some.injEq, Prod.mk.injEq, and_true]
  omega

theorem escapeUnit_eq (n : Nat) : escapeUnit n = .char '\\' :: .char 'u' :: ofNatHex 4 n := rfl

theorem leadingUnit?_escapeUnit {n : Nat} (h : n < 0x10000) {rest : Text} (hrest : rest ≠ []) :
    leadingUnit? (escapeUnit n ++ rest) = some n := by
  obtain ⟨next, rest, rfl⟩ := List.exists_cons_of_ne_nil hrest
  rw [escapeUnit_eq, List.cons_append, List.cons_append, leadingUnit?, readHex4_ofNatHex h]
  rfl

-- Put a read code point in front of what is read behind it.
def prepend (t : Text) (read : Except Stop (Text × Text)) : Except Stop (Text × Text) :=
  read.map fun result => (t ++ result.1, result.2)

-- An escaped unit is read with the unit behind it where they make up a pair.
theorem readString_escapeUnit (opening : Nat) {n : Nat} (h : n < 0x10000) {rest : Text}
    (hrest : rest ≠ []) : readString opening (escapeUnit n ++ rest) =
      match (leadingUnit? rest).bind (joinSurrogates? n) with
      | some c => prepend [c] (readString opening (rest.drop 6))
      | none => prepend (CodePoint.ofNat? n).toList (readString opening rest) := by
  obtain ⟨next, rest, rfl⟩ := List.exists_cons_of_ne_nil hrest
  have hlength : (ofNatHex 4 n).length = 4 := by rw [ofNatHex_four h]; rfl
  have hdrop : (ofNatHex 4 n ++ next :: rest).drop 4 = next :: rest :=
    List.drop_left' hlength
  have hskip : (ofNatHex 4 n ++ next :: rest).drop 10 = (next :: rest).drop 6 := by
    rw [show 10 = 4 + 6 from rfl, ← List.drop_drop, hdrop]
  rw [escapeUnit_eq, List.cons_append, List.cons_append, readString, readHex4_ofNatHex h]
  simp only [hdrop, hskip]
  split
  · simp only [*, prepend]
    cases readString opening ((next :: rest).drop 6) <;> rfl
  · simp only [*, prepend]
    cases readString opening (next :: rest) <;> rfl

theorem eq_char_of_toNat {c : CodePoint} {n : Nat} (h : c.toNat = n) (hn : n < 0xD800) :
    c = .char (Char.ofNat n) := by
  cases c with
  | char ch =>
    change ch.toNat = n at h
    rw [← h, Char.ofNat_toNat]
  | surrogate offset =>
    simp only [CodePoint.toNat] at h
    omega

theorem char_toNat_lt (ch : Char) : ch.toNat < 0xD800 ∨ 0xDFFF < ch.toNat ∧ ch.toNat < 0x110000 :=
  ch.valid

theorem ofNat?_toNat (c : CodePoint) : CodePoint.ofNat? c.toNat = some c := by
  cases c with
  | char ch =>
    have hvalid := char_toNat_lt ch
    have hnat : CodePoint.toNat (.char ch) = ch.toNat := rfl
    rw [hnat, CodePoint.ofNat?, dif_neg (by omega), if_pos (by omega), Char.ofNat_toNat]
  | surrogate offset =>
    have hlt := offset.isLt
    have hnat : CodePoint.toNat (.surrogate offset) = 0xD800 + offset.val := rfl
    rw [hnat, CodePoint.ofNat?, dif_pos (by omega)]
    simp

theorem readString_raw (opening : Nat) {c : CodePoint} (rest : Text) (hquote : c ≠ '"')
    (hescape : c ≠ '\\') (hcontrol : ¬ c.toNat < 0x20) :
    readString opening (c :: rest) = prepend [c] (readString opening rest) := by
  rw [readString, if_neg hcontrol]
  · cases readString opening rest <;> rfl
  · exact fun h => hquote h
  · exact fun h _ => hescape h
  · exact fun _ h _ => hescape h
  · exact fun _ _ h _ => hescape h

-- The two halves of a code point beyond sixteen bits.
theorem joinSurrogates?_halves {ch : Char} (h : 0x10000 ≤ ch.toNat) :
    joinSurrogates? (0xD800 + (ch.toNat - 0x10000) / 1024) (0xDC00 + (ch.toNat - 0x10000) % 1024) =
      some (.char ch) := by
  have hvalid := char_toNat_lt ch
  have hsum : 0x10000 + (0xD800 + (ch.toNat - 0x10000) / 1024 - 0xD800) * 1024 +
      (0xDC00 + (ch.toNat - 0x10000) % 1024 - 0xDC00) = ch.toNat := by omega
  rw [joinSurrogates?, if_pos (by omega), hsum, Char.ofNat_toNat]

theorem length_escapeUnit {n : Nat} (h : n < 0x10000) : (escapeUnit n).length = 6 := by
  rw [escapeUnit_eq, ofNatHex_four h]
  rfl

@[simp] theorem toNat_char (ch : Char) : CodePoint.toNat (.char ch) = ch.toNat := rfl

theorem readString_pair (opening : Nat) {high low : Nat} {c : CodePoint} (hhigh : high < 0x10000)
    (hlow : low < 0x10000) {rest : Text} (hrest : rest ≠ [])
    (hpair : joinSurrogates? high low = some c) :
    readString opening (escapeUnit high ++ (escapeUnit low ++ rest)) =
      prepend [c] (readString opening rest) := by
  rw [readString_escapeUnit opening hhigh (by simp [escapeUnit_eq]),
    leadingUnit?_escapeUnit hlow hrest, Option.bind_some, hpair]
  simp only [List.drop_left' (length_escapeUnit hlow)]

-- An escape of one unit that makes up no pair with what follows.
theorem readString_unit (opening : Nat) {c : CodePoint} (h : c.toNat < 0x10000) {rest : Text}
    (hrest : rest ≠ []) (hpair : (leadingUnit? rest).bind (joinSurrogates? c.toNat) = none) :
    readString opening (escapeUnit c.toNat ++ rest) = prepend [c] (readString opening rest) := by
  rw [readString_escapeUnit opening h hrest, hpair, ofNat?_toNat]
  rfl

theorem bind_joinSurrogates? {n : Nat} (h : ¬ (0xD800 ≤ n ∧ n < 0xDC00)) (low : Option Nat) :
    low.bind (joinSurrogates? n) = none := by
  cases low with
  | none => rfl
  | some low => rw [Option.bind_some, joinSurrogates?, if_neg (by omega)]

-- The characters that are escaped by a letter or as themselves, each with what stands behind the backslash.
def lettered : List (CodePoint × CodePoint) := [
  ('"', '"'), ('\\', '\\'), ('\n', 'n'), ('\r', 'r'), ('\t', 't'), (.char (Char.ofNat 8), 'b'),
  (.char (Char.ofNat 12), 'f')]

-- How a code point is printed: by a letter, by its number, as it is, or by the numbers of two surrogates.
inductive Printed (asciiOnly : Bool) (c : CodePoint) : Text → Prop
  | letter (e : CodePoint) (h : (c, e) ∈ lettered) : Printed asciiOnly c ['\\', e]
  | unit (hescaped : c.toNat < 0x20 ∨ asciiOnly = true) (hunit : c.toNat < 0x10000) :
    Printed asciiOnly c (escapeUnit c.toNat)
  | raw (hquote : c ≠ '"') (hescape : c ≠ '\\') (hcontrol : ¬ c.toNat < 0x20) : Printed asciiOnly c [c]
  | pair (hascii : asciiOnly = true) (hbeyond : 0x10000 ≤ c.toNat) : Printed asciiOnly c
    (escapeUnit (0xD800 + (c.toNat - 0x10000) / 1024) ++ escapeUnit (0xDC00 + (c.toNat - 0x10000) % 1024))

-- The conditions are gone through one by one: to split the whole chain of them is slow.
theorem printed_escapeCodePoint (asciiOnly : Bool) (c : CodePoint) :
    Printed asciiOnly c (escapeCodePoint asciiOnly c) := by
  unfold escapeCodePoint
  by_cases hquote : c = '"'
  · rw [if_pos hquote]
    exact .letter '"' (by simp [lettered, hquote])
  by_cases hescape : c = '\\'
  · rw [if_neg hquote, if_pos hescape]
    exact .letter '\\' (by simp [lettered, hescape])
  by_cases hline : c = '\n'
  · rw [if_neg hquote, if_neg hescape, if_pos hline]
    exact .letter 'n' (by simp [lettered, hline])
  by_cases hreturn : c = '\r'
  · rw [if_neg hquote, if_neg hescape, if_neg hline, if_pos hreturn]
    exact .letter 'r' (by simp [lettered, hreturn])
  by_cases htab : c = '\t'
  · rw [if_neg hquote, if_neg hescape, if_neg hline, if_neg hreturn, if_pos htab]
    exact .letter 't' (by simp [lettered, htab])
  rw [if_neg hquote, if_neg hescape, if_neg hline, if_neg hreturn, if_neg htab]
  by_cases hback : c.toNat = 8
  · rw [if_pos hback]
    exact .letter 'b' (by simp [lettered, eq_char_of_toNat hback (by decide)])
  by_cases hfeed : c.toNat = 12
  · rw [if_neg hback, if_pos hfeed]
    exact .letter 'f' (by simp [lettered, eq_char_of_toNat hfeed (by decide)])
  rw [if_neg hback, if_neg hfeed]
  by_cases hcontrol : c.toNat < 0x20
  · rw [if_pos hcontrol]
    exact .unit (.inl hcontrol) (by omega)
  rw [if_neg hcontrol]
  by_cases hplain : (!asciiOnly || c.toNat < 0x7F) = true
  · rw [if_pos hplain]
    exact .raw hquote hescape hcontrol
  have hascii : asciiOnly = true := by
    cases asciiOnly
    · exact absurd rfl hplain
    · rfl
  rw [if_neg hplain]
  by_cases hunit : c.toNat < 0x10000
  · rw [if_pos hunit]
    exact .unit (.inr hascii) hunit
  · rw [if_neg hunit]
    exact .pair hascii (by omega)

-- A printed code point is read back, unless it is an escaped surrogate with its other half behind it.
theorem readString_escapeCodePoint (opening : Nat) (asciiOnly : Bool) (c : CodePoint) {rest : Text}
    (hrest : rest ≠ [])
    (hpair : ∀ offset, c = .surrogate offset → asciiOnly = true →
      (leadingUnit? rest).bind (joinSurrogates? (0xD800 + offset.val)) = none) :
    readString opening (escapeCodePoint asciiOnly c ++ rest) =
      prepend [c] (readString opening rest) := by
  have hprinted := printed_escapeCodePoint asciiOnly c
  generalize escapeCodePoint asciiOnly c = escaped at hprinted
  cases hprinted with
  | letter e h =>
    have hall : ∀ pair ∈ lettered, pair.2 ≠ 'u' ∧ simpleEscape? pair.2 = some pair.1 := by decide
    obtain ⟨hletter, hsimple⟩ := hall _ h
    rw [List.cons_append, List.singleton_append, readString]
    · simp only [hsimple]
      cases readString opening rest <;> rfl
    · exact fun h => hletter h
  | unit hescaped hunit =>
    refine readString_unit opening hunit hrest ?_
    cases c with
    | surrogate offset =>
      have hlarge : ¬ (CodePoint.surrogate offset).toNat < 0x20 := by
        rw [CodePoint.toNat]
        omega
      exact hpair offset rfl (hescaped.resolve_left hlarge)
    | char ch =>
      have hvalid := char_toNat_lt ch
      exact bind_joinSurrogates? (by rw [toNat_char]; omega) _
  | raw hquote hescape hcontrol => exact readString_raw opening rest hquote hescape hcontrol
  | pair _ hbeyond =>
    cases c with
    | surrogate offset =>
      have hlt := offset.isLt
      simp only [CodePoint.toNat] at hbeyond
      omega
    | char ch =>
      rw [toNat_char] at hbeyond ⊢
      rw [List.append_assoc]
      have hvalid := char_toNat_lt ch
      exact readString_pair opening (by omega) (by omega) hrest (joinSurrogates?_halves hbeyond)

-- What follows a high surrogate makes up a pair with it only if it is a surrogate itself.
theorem leadingUnit?_escapeCodePoint (n : Nat) (ch : Char) {rest : Text} (hrest : rest ≠ []) :
    (leadingUnit? (escapeCodePoint true (.char ch) ++ rest)).bind (joinSurrogates? n) = none := by
  have hvalid := char_toNat_lt ch
  have hunit {m : Nat} {more : Text} (hm : m < 0x10000) (hlow : ¬ (0xDC00 ≤ m ∧ m < 0xE000))
      (hmore : more ≠ []) :
      (leadingUnit? (escapeUnit m ++ more)).bind (joinSurrogates? n) = none := by
    rw [leadingUnit?_escapeUnit hm hmore, Option.bind_some, joinSurrogates?, if_neg (by omega)]
  have hprinted := printed_escapeCodePoint true (.char ch)
  generalize escapeCodePoint true (.char ch) = escaped at hprinted
  cases hprinted with
  | letter e h =>
    have hall : ∀ pair ∈ lettered, pair.2 ≠ 'u' := by decide
    rw [List.cons_append, List.singleton_append, leadingUnit?]
    · rfl
    · exact fun _ heq => hall _ h (List.cons.inj (List.cons.inj heq).2).1
  | unit _ h =>
    rw [toNat_char] at h ⊢
    exact hunit h (by omega) hrest
  | raw _ hescape =>
    rw [List.singleton_append, leadingUnit?]
    · rfl
    · exact fun _ heq => hescape (List.cons.inj heq).1
  | pair _ hbeyond =>
    rw [toNat_char] at hbeyond ⊢
    rw [List.append_assoc]
    exact hunit (by omega) (by omega) (by simp [hrest])

-- The text with each high surrogate that has a low one behind it as one code point.
def rejoin : Text → Text
  | .surrogate a :: .surrogate b :: rest =>
    match joinSurrogates? (0xD800 + a.val) (0xD800 + b.val) with
    | some c => c :: rejoin rest
    | none => .surrogate a :: rejoin (.surrogate b :: rest)
  | c :: rest => c :: rejoin rest
  | [] => []

-- What a text is once it was printed and read.
def readBack (asciiOnly : Bool) (t : Text) : Text := if asciiOnly then rejoin t else t

theorem escapeCodePoint_surrogate (offset : Fin 2048) :
    escapeCodePoint true (.surrogate offset) = escapeUnit (0xD800 + offset.val) := by
  have hlt := offset.isLt
  have hnat : CodePoint.toNat (.surrogate offset) = 0xD800 + offset.val := rfl
  unfold escapeCodePoint
  rw [hnat, if_neg (by simp), if_neg (by simp), if_neg (by simp), if_neg (by simp),
    if_neg (by simp), if_neg (by omega), if_neg (by omega), if_neg (by omega), if_neg, if_pos (by omega)]
  simp only [Bool.not_true, Bool.false_or, decide_eq_true_eq]
  omega

theorem readString_quoted (opening : Nat) (asciiOnly : Bool) (t rest : Text) :
    readString opening (t.flatMap (escapeCodePoint asciiOnly) ++ .char '"' :: rest) =
      .ok (readBack asciiOnly t, rest) := by
  have hend : readString opening (.char '"' :: rest) = .ok ([], rest) := by rw [readString]
  cases asciiOnly with
  | false =>
    induction t with
    | nil => exact hend
    | cons c t ih =>
      rw [List.flatMap_cons, List.append_assoc,
        readString_escapeCodePoint opening false c (by simp) (by simp), ih]
      rfl
  | true =>
    change _ = Except.ok (rejoin t, rest)
    fun_induction rejoin t with
    | case1 a b t c hpair ih =>
      have ha := a.isLt
      have hb := b.isLt
      rw [List.flatMap_cons, List.flatMap_cons, List.append_assoc, List.append_assoc,
        escapeCodePoint_surrogate, escapeCodePoint_surrogate,
        readString_pair opening (by omega) (by omega) (by simp) hpair, ih]
      rfl
    | case2 a b t hpair ih =>
      have hb := b.isLt
      rw [List.flatMap_cons, List.append_assoc,
        readString_escapeCodePoint opening true _ (by simp), ih]
      · rfl
      · intro offset hoffset _
        cases hoffset
        rw [List.flatMap_cons, List.append_assoc, escapeCodePoint_surrogate,
          leadingUnit?_escapeUnit (by omega) (by simp), Option.bind_some, hpair]
    | case3 c t hc ih =>
      rw [List.flatMap_cons, List.append_assoc,
        readString_escapeCodePoint opening true c (by simp), ih]
      · rfl
      · intro offset hoffset _
        cases t with
        | nil => rfl
        | cons second t =>
          cases second with
          | surrogate b => exact absurd rfl (hc offset b t hoffset)
          | char ch =>
            rw [List.flatMap_cons, List.append_assoc]
            exact leadingUnit?_escapeCodePoint _ ch (by simp)
    | case4 => exact hend

theorem hexDigit_ne_return {n : Nat} (h : n < 16) : hexDigit n ≠ .char '\r' := by
  have hall : ∀ n < 16, hexDigit n ≠ .char '\r' := by decide
  exact hall n h

theorem notMem_escapeUnit {n : Nat} (h : n < 0x10000) : .char '\r' ∉ escapeUnit n := by
  rw [escapeUnit_eq, ofNatHex_four h]
  simp only [List.mem_cons, List.not_mem_nil, or_false, not_or]
  exact ⟨by decide, by decide, (hexDigit_ne_return (by omega)).symm,
    (hexDigit_ne_return (by omega)).symm, (hexDigit_ne_return (by omega)).symm,
    (hexDigit_ne_return (by omega)).symm⟩

-- A printed string has no carriage return: it is written as an escape.
theorem notMem_escapeCodePoint (asciiOnly : Bool) (c : CodePoint) :
    .char '\r' ∉ escapeCodePoint asciiOnly c := by
  have hprinted := printed_escapeCodePoint asciiOnly c
  generalize escapeCodePoint asciiOnly c = escaped at hprinted
  cases hprinted with
  | letter e h =>
    have hall : ∀ pair ∈ lettered, .char '\r' ∉ ([.char '\\', pair.2] : Text) := by decide
    exact hall _ h
  | unit _ h => exact notMem_escapeUnit h
  | raw _ _ hcontrol =>
    intro hmem
    rw [← List.mem_singleton.mp hmem] at hcontrol
    exact hcontrol (by decide)
  | pair =>
    have hmax : c.toNat < 0x110000 := by
      cases c with
      | char ch => exact (char_toNat_lt ch).elim (fun h => by rw [toNat_char]; omega) (·.2)
      | surrogate offset =>
        have hlt := offset.isLt
        simp only [CodePoint.toNat]
        omega
    intro hmem
    rcases List.mem_append.mp hmem with h | h
    · exact notMem_escapeUnit (by omega) h
    · exact notMem_escapeUnit (by omega) h

theorem notMem_quote (asciiOnly : Bool) (t : Text) : .char '\r' ∉ quote asciiOnly t := by
  unfold quote
  simp only [List.mem_append, List.mem_flatMap, not_or, not_exists, not_and]
  exact ⟨⟨by decide, fun c _ => notMem_escapeCodePoint asciiOnly c⟩, by decide⟩

end HookGen.Json
