import HookGen.Proofs.Json.RoundTrip
import HookGen.Proofs.Text.Utf8

/-!
Printed values that have a form in bytes. Where everything beyond ASCII is escaped, all values without
numbers have one, whatever their texts are.
-/

namespace HookGen.Json

variable {style : Style} {depth : Nat}

theorem isScalar_escapeUnit (n : Nat) : Utf8.IsScalar (escapeUnit n) := by
  refine (Utf8.isScalar_ofString "\\u").append (.append ?_ ?_)
  · intro c hc
    rw [List.eq_of_mem_replicate hc]
    rfl
  · intro c hc
    obtain ⟨ch, _, rfl⟩ := List.mem_map.mp hc
    rfl

theorem isScalar_ite {p : Prop} [Decidable p] {t t' : Text} (h : Utf8.IsScalar t) (h' : Utf8.IsScalar t') :
    Utf8.IsScalar (if p then t else t') := by
  split
  · exact h
  · exact h'

theorem isScalar_escapeCodePoint (asciiOnly : Bool) (ch : Char) :
    Utf8.IsScalar (escapeCodePoint asciiOnly (.char ch)) := by
  have hself : Utf8.IsScalar [.char ch] := by simp [Utf8.IsScalar, Utf8.isSurrogate]
  unfold escapeCodePoint
  iterate 7 refine isScalar_ite (Utf8.isScalar_ofString _) ?_
  refine isScalar_ite (isScalar_escapeUnit _) (isScalar_ite hself (isScalar_ite (isScalar_escapeUnit _) ?_))
  exact (isScalar_escapeUnit _).append (isScalar_escapeUnit _)

theorem isScalar_quote (asciiOnly : Bool) {t : Text} (h : Utf8.IsScalar t) :
    Utf8.IsScalar (quote asciiOnly t) := by
  refine ((Utf8.isScalar_ofString "\"").append ?_).append (Utf8.isScalar_ofString "\"")
  intro c hc
  obtain ⟨part, hpart, hmem⟩ := List.mem_flatMap.mp hc
  cases part with
  | char ch => exact isScalar_escapeCodePoint asciiOnly ch c hmem
  | surrogate offset => exact absurd (h _ hpart) (by simp [Utf8.isSurrogate])

theorem isScalar_newline (style : Style) (depth : Nat) : Utf8.IsScalar (newline style depth) := by
  unfold newline
  split
  · simp [Utf8.IsScalar]
  · refine (Utf8.isScalar_ofString "\n").append fun c hc => ?_
    rw [List.eq_of_mem_replicate hc]
    rfl

theorem isScalar_separator (style : Style) (depth : Nat) : Utf8.IsScalar (separator style depth) := by
  unfold separator
  split
  · exact Utf8.isScalar_ofString _
  · exact (Utf8.isScalar_ofString ",").append (isScalar_newline style depth)

-- Surrogates are beyond ASCII, so that they are escaped as well.
theorem isScalar_escapeSurrogate (offset : Fin 2048) :
    Utf8.IsScalar (escapeCodePoint true (.surrogate offset)) := by
  unfold escapeCodePoint
  iterate 7 refine isScalar_ite (Utf8.isScalar_ofString _) ?_
  refine isScalar_ite (isScalar_escapeUnit _) ?_
  have hbeyond : ¬ (CodePoint.surrogate offset).toNat < 0x7F := by
    rw [CodePoint.toNat]
    omega
  rw [if_neg (by simpa using hbeyond)]
  exact isScalar_ite (isScalar_escapeUnit _) ((isScalar_escapeUnit _).append (isScalar_escapeUnit _))

theorem isScalar_quote_ascii (t : Text) : Utf8.IsScalar (quote true t) := by
  refine ((Utf8.isScalar_ofString "\"").append ?_).append (Utf8.isScalar_ofString "\"")
  intro c hc
  obtain ⟨part, -, hmem⟩ := List.mem_flatMap.mp hc
  cases part with
  | char ch => exact isScalar_escapeCodePoint true ch c hmem
  | surrogate offset => exact isScalar_escapeSurrogate offset c hmem

theorem isScalar_cons {c : Char} {t : Text} (h : Utf8.IsScalar t) : Utf8.IsScalar (.char c :: t : Text) :=
  List.forall_mem_cons.mpr ⟨rfl, h⟩

mutual

theorem isScalar_textAt (hascii : style.asciiOnly = true) : ∀ (value : Json) (depth : Nat), NumberFree value →
    Utf8.IsScalar (textAt style depth value)
  | .null, depth, _ => by
    simpa [textAt, piecesAt, atom?] using Utf8.isScalar_ofString "null"
  | .bool flag, depth, _ => by
    cases flag with
    | true => simpa [textAt, piecesAt, atom?] using Utf8.isScalar_ofString "true"
    | false => simpa [textAt, piecesAt, atom?] using Utf8.isScalar_ofString "false"
  | .str t, depth, _ => by
    simpa [textAt, piecesAt, atom?, hascii] using isScalar_quote_ascii t
  | .arr [], depth, _ => by
    simpa [textAt, piecesAt, atom?] using Utf8.isScalar_ofString "[]"
  | .arr (element :: rest), depth, h => by
    rw [textAt_arr]
    exact isScalar_cons ((isScalar_newline _ _).append ((isScalar_textAt hascii element (depth + 1) h.1).append
      ((isScalar_elementsText hascii rest (depth + 1) h.2).append ((isScalar_newline _ _).append
        (Utf8.isScalar_ofString "]")))))
  | .obj [], depth, _ => by
    simpa [textAt, piecesAt, atom?] using Utf8.isScalar_ofString "\x7b\x7d"
  | .obj (field :: rest), depth, h => by
    rw [textAt_obj]
    exact isScalar_cons ((isScalar_newline _ _).append
      ((isScalar_fieldsText hascii (field :: rest) (depth + 1) h).append
      ((isScalar_newline _ _).append (Utf8.isScalar_ofString "\x7d"))))

theorem isScalar_elementsText (hascii : style.asciiOnly = true) : ∀ (elements : List Json) (depth : Nat),
    NumberFreeElements elements → Utf8.IsScalar (elementsText style depth elements)
  | [], depth, _ => by simp [elementsText, elementPieces, Utf8.IsScalar]
  | element :: rest, depth, h => by
    rw [elementsText_cons]
    exact (isScalar_separator _ _).append ((isScalar_textAt hascii element depth h.1).append
      (isScalar_elementsText hascii rest depth h.2))

theorem isScalar_fieldsText (hascii : style.asciiOnly = true) : ∀ (fields : List (Text × Json)) (depth : Nat),
    NumberFreeFields fields → Utf8.IsScalar (fieldsText style depth fields)
  | [], depth, _ => by simp [fieldsText, fieldPieces, Utf8.IsScalar]
  | (name, value) :: rest, depth, h => by
    have hname : Utf8.IsScalar (quote style.asciiOnly name) := by
      rw [hascii]
      exact isScalar_quote_ascii name
    have hbetween : Utf8.IsScalar (if rest.isEmpty then [] else separator style depth) :=
      isScalar_ite (by simp [Utf8.IsScalar]) (isScalar_separator _ _)
    rw [fieldsText_cons]
    exact hname.append (isScalar_cons (isScalar_cons ((isScalar_textAt hascii value depth h.1).append
      (hbetween.append (isScalar_fieldsText hascii rest depth h.2)))))

end

end HookGen.Json
