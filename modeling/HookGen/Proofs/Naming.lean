import HookGen.Naming
import HookGen.Proofs.Path

/-!
Plain names, and the characters of names that are made from others.
-/

namespace HookGen

-- A name of letters, digits and underscores in any script, of dollar signs and of hyphens.
structure IsPlain (name : Text) : Prop where
  ne_nil : name ≠ []
  plain : ∀ c ∈ name, c.isWord || c.isIn ['$', '-']

theorem isPlain_iff {name : Text} : IsPlain name ↔ name ≠ [] ∧ ∀ c ∈ name, c.isWord || c.isIn ['$', '-'] :=
  ⟨fun h => ⟨h.ne_nil, h.plain⟩, fun h => ⟨h.1, h.2⟩⟩

instance (name : Text) : Decidable (IsPlain name) := decidable_of_iff _ isPlain_iff.symm

namespace IsPlain

variable {name : Text}

theorem notMem (h : IsPlain name) {c : CodePoint} (hc : (c.isWord || c.isIn ['$', '-']) = false) : c ∉ name :=
  fun hmem => Bool.false_ne_true (hc.symm.trans (h.plain c hmem))

theorem isName (h : IsPlain name) : IsName name where
  ne_nil := h.ne_nil
  ne_point := by
    rintro rfl
    exact h.notMem (c := .char '.') (by decide) (by decide)
  ne_points := by
    rintro rfl
    exact h.notMem (c := .char '.') (by decide) (by decide)
  no_slash := h.notMem (by decide)

theorem no_newline (h : IsPlain name) : .char '\n' ∉ name := h.notMem (by decide)

end IsPlain

namespace Naming

theorem isWord_of_isAsciiLetter {c : CodePoint} (h : c.isAsciiLetter) : c.isWord := by
  have hsmall : c.toNat < 128 := by
    cases c with
    | surrogate offset => cases h
    | char c =>
      simp only [CodePoint.isAsciiLetter, Bool.or_eq_true, Bool.and_eq_true, decide_eq_true_eq, Char.le_def,
        UInt32.le_iff_toNat_le] at h
      have hz : 'z'.val.toNat < 128 := by decide
      have hZ : 'Z'.val.toNat < 128 := by decide
      change c.val.toNat < 128
      omega
  rw [CodePoint.isWord, if_pos hsmall, h]
  rfl

theorem isWord_of_isAsciiDigit {c : CodePoint} (h : c.isAsciiDigit) : c.isWord := by
  have hsmall : c.toNat < 128 := by
    cases c with
    | surrogate offset => cases h
    | char c =>
      simp only [CodePoint.isAsciiDigit, Bool.and_eq_true, decide_eq_true_eq, Char.le_def,
        UInt32.le_iff_toNat_le] at h
      have h9 : '9'.val.toNat < 128 := by decide
      change c.val.toNat < 128
      omega
  rw [CodePoint.isWord, if_pos hsmall, h]
  simp

-- Identifiers are plain.
theorem isPlain_of_isIdentifier {name : Text} (h : isIdentifier name) : IsPlain name := by
  have hmark {c : CodePoint} (hc : c.isIn ['_', '$']) : c.isWord || c.isIn ['$', '-'] := by
    cases c with
    | surrogate offset => cases hc
    | char c =>
      simp only [CodePoint.isIn, List.contains_cons, List.contains_nil, Bool.or_false, Bool.or_eq_true,
        beq_iff_eq] at hc
      rcases hc with rfl | rfl <;> decide
  have hstart {c : CodePoint} (hc : startsIdentifier c) : c.isWord || c.isIn ['$', '-'] := by
    rcases Bool.or_eq_true_iff.mp hc with hletter | hc
    · rw [isWord_of_isAsciiLetter hletter, Bool.true_or]
    · exact hmark hc
  cases name with
  | nil => cases h
  | cons first rest =>
    simp only [isIdentifier, Bool.and_eq_true, List.all_eq_true] at h
    refine ⟨by simp, List.forall_mem_cons.mpr ⟨hstart h.1, fun c hc => ?_⟩⟩
    rcases Bool.or_eq_true_iff.mp (h.2 c hc) with hc | hdigit
    · exact hstart hc
    · rw [isWord_of_isAsciiDigit hdigit, Bool.true_or]

theorem continues_of_mem_safeType {name : Text} {c : CodePoint} (h : c ∈ safeType name) :
    continuesIdentifier c := by
  have hcleaned : ∀ c ∈ name.map (fun c => if continuesIdentifier c then c else CodePoint.char '_'),
      continuesIdentifier c := by
    simp only [List.mem_map]
    rintro _ ⟨d, -, rfl⟩
    split
    · assumption
    · decide
  have hunderscore : ∀ c ∈ Text.ofString "_", continuesIdentifier c := by decide
  unfold safeType at h
  dsimp only at h
  split at h
  · exact hunderscore c h
  · rename_i first rest heq
    split at h
    · rcases List.mem_append.mp h with h | h
      · exact hunderscore c h
      · exact hcleaned c h
    · exact hcleaned c h

-- What is at the start of a type name is no digit.
theorem exists_safeType (name : Text) :
    ∃ first rest, safeType name = first :: rest ∧ first.isAsciiDigit = false := by
  unfold safeType
  dsimp only
  split
  · exact ⟨_, _, rfl, by decide⟩
  · rename_i first rest heq
    split
    · exact ⟨_, _, rfl, by decide⟩
    · rename_i hdigit
      exact ⟨first, rest, heq, by simpa using hdigit⟩

theorem newline_notMem_typeName (name : Text) : .char '\n' ∉ typeName name := fun h =>
  absurd (continues_of_mem_safeType h) (by decide)

end Naming

end HookGen
