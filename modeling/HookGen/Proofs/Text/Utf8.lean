import HookGen.Text.Utf8
import Mathlib.Init

/-!
Every text without surrogates is encoded, and decoding gives back what was encoded.
-/

namespace HookGen.Utf8

variable {n a b c low high value : Nat} {rest : Bytes}

theorem toNat_toUInt8 (h : n < 256) : n.toUInt8.toNat = n := by
  simp [Nat.toUInt8, UInt8.toNat_ofNat', Nat.mod_eq_of_lt h]

theorem readTail_one (ha : low ≤ a ∧ a ≤ high) (hhigh : high < 256)
    (hn : value * 64 + (a - 0x80) = n) :
    readTail 1 low high value (a.toUInt8 :: rest) = (.ok n, 1) := by
  rw [readTail, toNat_toUInt8 (by omega), if_pos ha, hn]
  rfl

theorem readTail_two (ha : low ≤ a ∧ a ≤ high) (hhigh : high < 256) (hb : 0x80 ≤ b ∧ b ≤ 0xBF)
    (hn : (value * 64 + (a - 0x80)) * 64 + (b - 0x80) = n) :
    readTail 2 low high value (a.toUInt8 :: b.toUInt8 :: rest) = (.ok n, 2) := by
  rw [readTail, toNat_toUInt8 (by omega), if_pos ha, readTail_one hb (by omega) hn]

theorem readTail_three (ha : low ≤ a ∧ a ≤ high) (hhigh : high < 256) (hb : 0x80 ≤ b ∧ b ≤ 0xBF)
    (hc : 0x80 ≤ c ∧ c ≤ 0xBF)
    (hn : ((value * 64 + (a - 0x80)) * 64 + (b - 0x80)) * 64 + (c - 0x80) = n) :
    readTail 3 low high value (a.toUInt8 :: b.toUInt8 :: c.toUInt8 :: rest) = (.ok n, 3) := by
  rw [readTail, toNat_toUInt8 (by omega), if_pos ha, readTail_two hb (by omega) hc hn]

theorem readFirst_two (hmin : 0x80 ≤ n) (hmax : n < 0x800) :
    readFirst (0xC0 + n / 64).toUInt8 ((0x80 + n % 64).toUInt8 :: rest) = (.ok n, 1) := by
  rw [readFirst, toNat_toUInt8 (by omega), if_neg (by omega), if_neg (by omega),
    if_pos (by omega)]
  exact readTail_one (by omega) (by omega) (by omega)

-- The second byte is bounded where the first one alone would allow a shorter form or a surrogate.
theorem readFirst_three (hmin : 0x800 ≤ n) (hmax : n < 0x10000) (hscalar : n < 0xD800 ∨ 0xDFFF < n) :
    readFirst (0xE0 + n / 4096).toUInt8
      ((0x80 + n / 64 % 64).toUInt8 :: (0x80 + n % 64).toUInt8 :: rest) = (.ok n, 2) := by
  rw [readFirst, toNat_toUInt8 (by omega), if_neg (by omega), if_neg (by omega),
    if_neg (by omega)]
  split
  · exact readTail_two (by omega) (by omega) (by omega) (by omega)
  · split
    · exact readTail_two (by omega) (by omega) (by omega) (by omega)
    · rw [if_pos (by omega)]
      exact readTail_two (by omega) (by omega) (by omega) (by omega)

theorem readFirst_four (hmin : 0x10000 ≤ n) (hmax : n < 0x110000) :
    readFirst (0xF0 + n / 262144).toUInt8 ((0x80 + n / 4096 % 64).toUInt8 ::
      (0x80 + n / 64 % 64).toUInt8 :: (0x80 + n % 64).toUInt8 :: rest) = (.ok n, 3) := by
  rw [readFirst, toNat_toUInt8 (by omega), if_neg (by omega), if_neg (by omega),
    if_neg (by omega), if_neg (by omega), if_neg (by omega), if_neg (by omega)]
  split
  · exact readTail_three (by omega) (by omega) (by omega) (by omega) (by omega)
  · split
    · exact readTail_three (by omega) (by omega) (by omega) (by omega) (by omega)
    · rw [if_pos (by omega)]
      exact readTail_three (by omega) (by omega) (by omega) (by omega) (by omega)

-- The bytes of a scalar value are read as one code point.
theorem readFirst_encodeNat (hmax : n < 0x110000) (hscalar : n < 0xD800 ∨ 0xDFFF < n)
    (rest : Bytes) : ∃ first tail, encodeNat n = first :: tail ∧
      readFirst first (tail ++ rest) = (.ok n, tail.length) := by
  unfold encodeNat
  split
  · rename_i h
    refine ⟨_, _, rfl, ?_⟩
    rw [readFirst, toNat_toUInt8 (by omega), if_pos h]
    rfl
  · split
    · exact ⟨_, _, rfl, readFirst_two (by omega) (by omega)⟩
    · split
      · exact ⟨_, _, rfl, readFirst_three (by omega) (by omega) hscalar⟩
      · exact ⟨_, _, rfl, readFirst_four (by omega) hmax⟩

theorem toNat_scalar (c : Char) : c.toNat < 0x110000 ∧ (c.toNat < 0xD800 ∨ 0xDFFF < c.toNat) := by
  have hvalid := c.valid
  simp only [UInt32.isValidChar, Nat.isValidChar] at hvalid
  change (c.toNat < 0xD800 ∨ 0xDFFF < c.toNat ∧ c.toNat < 0x110000) at hvalid
  omega

theorem decodeFrom_encodeNat (position : Nat) (c : Char) (rest : Bytes) :
    ∃ next, decodeFrom position (encodeNat c.toNat ++ rest) =
      (decodeFrom next rest).map (.char c :: ·) := by
  obtain ⟨hmax, hscalar⟩ := toNat_scalar c
  obtain ⟨first, tail, hbytes, hread⟩ := readFirst_encodeNat hmax hscalar rest
  refine ⟨position + tail.length + 1, ?_⟩
  rw [hbytes, List.cons_append, decodeFrom]
  simp only [hread, List.drop_left, Char.ofNat_toNat]
  cases decodeFrom (position + tail.length + 1) rest <;> rfl

theorem decodeFrom_of_encodeFrom {t : Text} {start position : Nat} {bytes : Bytes}
    (h : encodeFrom start t = .ok bytes) : decodeFrom position bytes = .ok t := by
  induction t generalizing start position bytes with
  | nil =>
    cases h
    rw [decodeFrom]
  | cons c rest ih =>
    cases c with
    | surrogate offset => simp [encodeFrom] at h
    | char c =>
      rw [encodeFrom] at h
      cases htail : encodeFrom (start + 1) rest with
      | error e => simp [htail, bind, Except.bind] at h
      | ok tail =>
        simp only [htail, bind, Except.bind, pure, Except.pure, Except.ok.injEq] at h
        obtain ⟨next, hnext⟩ := decodeFrom_encodeNat position c tail
        rw [← h, hnext, ih htail]
        rfl

theorem decode_of_encode {t : Text} {bytes : Bytes} (h : encode t = .ok bytes) :
    decode bytes = .ok t := decodeFrom_of_encodeFrom h

-- A text without surrogates.
def IsScalar (t : Text) : Prop := ∀ c ∈ t, isSurrogate c = false

instance (t : Text) : Decidable (IsScalar t) := inferInstanceAs (Decidable (∀ c ∈ t, _))

theorem isScalar_ofString (s : String) : IsScalar (Text.ofString s) := by
  intro c hc
  obtain ⟨ch, _, rfl⟩ := List.mem_map.mp hc
  rfl

theorem IsScalar.append {t t' : Text} (h : IsScalar t) (h' : IsScalar t') :
    IsScalar (t ++ t' : Text) := by
  intro c hc
  rcases List.mem_append.mp hc with hmem | hmem
  · exact h c hmem
  · exact h' c hmem

theorem isScalar_flatten {pieces : List Text} (h : ∀ piece ∈ pieces, IsScalar piece) :
    IsScalar pieces.flatten := by
  intro c hc
  obtain ⟨piece, hpiece, hmem⟩ := List.mem_flatten.mp hc
  exact h piece hpiece c hmem

theorem encodeFrom_of_isScalar {t : Text} (h : IsScalar t) (position : Nat) :
    ∃ bytes, encodeFrom position t = .ok bytes := by
  induction t generalizing position with
  | nil => exact ⟨[], rfl⟩
  | cons c rest ih =>
    obtain ⟨hc, hrest⟩ := List.forall_mem_cons.mp h
    cases c with
    | surrogate offset => simp [isSurrogate] at hc
    | char c =>
      obtain ⟨bytes, hbytes⟩ := ih hrest (position + 1)
      exact ⟨encodeNat c.toNat ++ bytes, by rw [encodeFrom, hbytes]; rfl⟩

theorem encode_of_isScalar {t : Text} (h : IsScalar t) : ∃ bytes, encode t = .ok bytes :=
  encodeFrom_of_isScalar h 0

-- The bytes of one code point, of which a surrogate has none.
def encodeCodePoint : CodePoint → Bytes
  | .char c => encodeNat c.toNat
  | .surrogate _ => []

-- A text is encoded code point by code point, if it has no surrogates.
theorem encodeFrom_eq_ok {t : Text} {position : Nat} {bytes : Bytes} :
    encodeFrom position t = .ok bytes ↔ IsScalar t ∧ t.flatMap encodeCodePoint = bytes := by
  induction t generalizing position bytes with
  | nil => simp [encodeFrom, IsScalar]
  | cons c rest ih =>
    cases c with
    | surrogate offset => simp [encodeFrom, IsScalar, isSurrogate]
    | char c =>
      rw [encodeFrom]
      cases htail : encodeFrom (position + 1) rest with
      | error e =>
        have hrest : ¬ IsScalar rest := fun h => by
          obtain ⟨_, hok⟩ := encodeFrom_of_isScalar h (position + 1)
          simp [hok] at htail
        simp only [bind, Except.bind, reduceCtorEq, false_iff, not_and]
        exact fun h => absurd (fun c hc => h c (List.mem_cons_of_mem _ hc)) hrest
      | ok tail =>
        obtain ⟨hrest, rfl⟩ := ih.mp htail
        have hscalar : IsScalar (.char c :: rest) := List.forall_mem_cons.mpr ⟨rfl, hrest⟩
        simp [bind, Except.bind, pure, Except.pure, hscalar, encodeCodePoint]

theorem encode_eq_ok {t : Text} {bytes : Bytes} :
    encode t = .ok bytes ↔ IsScalar t ∧ t.flatMap encodeCodePoint = bytes := encodeFrom_eq_ok

theorem encode_append {t t' : Text} {bytes bytes' : Bytes} (h : encode t = .ok bytes)
    (h' : encode t' = .ok bytes') : encode (t ++ t' : Text) = .ok (bytes ++ bytes') := by
  obtain ⟨hscalar, rfl⟩ := encode_eq_ok.mp h
  obtain ⟨hscalar', rfl⟩ := encode_eq_ok.mp h'
  exact encode_eq_ok.mpr ⟨hscalar.append hscalar', List.flatMap_append⟩

end HookGen.Utf8
