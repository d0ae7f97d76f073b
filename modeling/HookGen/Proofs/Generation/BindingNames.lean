import HookGen.Proofs.Generation.RelationNames

/-!
Names of bindings that are made from names of database functions. A name that cannot be one is changed so that it
can, unless all that is wrong with it is a line feed at its end.
-/

namespace HookGen

namespace Naming

open Relations

variable {name word : Text}

-- An identifier with a line feed behind it.
def IsBroken (name : Text) : Prop := ∃ word, isIdentifier word ∧ name = word ++ "\n"

-- Words that are not reserved, and cannot name a binding in a module all the same.
def restrictedWords : List Text := ["eval", "arguments"].map Text.ofString

-- A name that a constant of a module can have.
structure BindsConstant (name : Text) : Prop where
  usable : IsUsable name
  notRestricted : name ∉ restrictedWords

section Words

theorem continues_of_isIdentifier (h : isIdentifier name) : ∀ c ∈ name, continuesIdentifier c := by
  cases name with
  | nil => cases h
  | cons first rest =>
    simp only [isIdentifier, Bool.and_eq_true, List.all_eq_true] at h
    exact List.forall_mem_cons.mpr ⟨(startsIdentifier_iff.mp h.1).1, h.2⟩

theorem IsBroken.not_isIdentifier (h : IsBroken name) : ¬ isIdentifier name := by
  obtain ⟨word, -, rfl⟩ := h
  intro hbroken
  exact absurd (continues_of_isIdentifier hbroken (.char '\n') (by simp [Text.ofString, Text.ofChars])) (by decide)

theorem IsBroken.not_isReserved (h : IsBroken name) : ¬ isReserved name := by
  have hwords : ∀ word ∈ reservedWords, isIdentifier word := by decide
  exact fun hreserved => h.not_isIdentifier (hwords name (List.contains_iff_mem.mp hreserved))

theorem isValid_iff : isValid name ↔ (isIdentifier name ∨ IsBroken name) ∧ ¬ isReserved name := by
  have hbroken : (name.getLast? == some (CodePoint.char '\n') && isIdentifier name.dropLast) = true ↔
      IsBroken name := by
    rw [Bool.and_eq_true, beq_iff_eq]
    constructor
    · rintro ⟨hlast, hword⟩
      exact ⟨name.dropLast, hword, (List.dropLast_append_getLast? _ hlast).symm⟩
    · rintro ⟨word, hword, rfl⟩
      have hend : Text.ofString "\n" = [CodePoint.char '\n'] := rfl
      rw [hend, List.getLast?_concat, List.dropLast_concat]
      exact ⟨rfl, hword⟩
  rw [isValid, Bool.and_eq_true, Bool.or_eq_true, hbroken, Bool.not_eq_true', Bool.not_eq_true]

end Words

section Safe

-- What no identifier has becomes an underscore, and an underscore comes in front of a digit.
theorem underscore_mem_safeType (h : ¬ isIdentifier name) : .char '_' ∈ safeType name := by
  by_cases hall : ∀ c ∈ name, continuesIdentifier c
  · have hcleaned : name.map (fun c => if continuesIdentifier c then c else CodePoint.char '_') = name :=
      (List.map_congr_left fun c hc => if_pos (hall c hc)).trans (List.map_id _)
    simp only [safeType, hcleaned]
    cases name with
    | nil => decide
    | cons c rest =>
      obtain ⟨hfirst, hrest⟩ := List.forall_mem_cons.mp hall
      have hdigit : c.isAsciiDigit := by
        by_contra hdigit
        exact h (by simpa [isIdentifier, startsIdentifier_iff.mpr ⟨hfirst, hdigit⟩] using hrest)
      dsimp only
      rw [if_pos hdigit]
      exact List.mem_append_left _ (List.mem_singleton_self _)
  · obtain ⟨c, hc, hout⟩ : ∃ c ∈ name, ¬ continuesIdentifier c := by simpa using hall
    have hcleaned : CodePoint.char '_' ∈
        name.map (fun c => if continuesIdentifier c then c else CodePoint.char '_') :=
      List.mem_map.mpr ⟨c, hc, if_neg hout⟩
    unfold safeType
    dsimp only
    split
    · decide
    · split
      · exact List.mem_append_right _ hcleaned
      · exact hcleaned

theorem usable_safeType (h : ¬ isIdentifier name) : IsUsable (safeType name) := by
  have hunderscore := underscore_mem_safeType h
  have hwords : ∀ word ∈ reservedWords, .char '_' ∉ word := by decide
  obtain ⟨first, rest, heq, hdigit⟩ := exists_safeType name
  have hhead : ∀ c ∈ (safeType name).head?, ¬ c.isAsciiDigit := by
    rw [heq]
    rintro c ⟨⟩
    exact ne_true_of_eq_false hdigit
  exact isUsable_iff.mpr ⟨List.ne_nil_of_mem hunderscore, fun c hc => continues_of_mem_safeType hc, hhead,
    fun hreserved => hwords _ hreserved hunderscore⟩

-- The three ways a name is made usable.
theorem safeFunction_cases (name : Text) :
    (isValid name ∧ safeFunction name = name) ∨
    (name ∈ reservedWords ∧ safeFunction name = name ++ "Rpc") ∨
    (¬ isValid name ∧ ¬ isIdentifier name ∧ name ∉ reservedWords ∧ safeFunction name = safeType name) := by
  by_cases hvalid : isValid name
  · exact .inl ⟨hvalid, if_pos hvalid⟩
  rw [safeFunction, safeFunctionWith, if_neg hvalid]
  by_cases hreserved : isReserved name
  · exact .inr (.inl ⟨List.contains_iff_mem.mp hreserved, if_pos hreserved⟩)
  · refine .inr (.inr ⟨hvalid, fun hname => hvalid (isValid_iff.mpr ⟨.inl hname, hreserved⟩), ?_, if_neg hreserved⟩)
    exact fun hmem => hreserved (List.contains_iff_mem.mpr hmem)

theorem usable_safeFunction_iff (name : Text) : IsUsable (safeFunction name) ↔ ¬ IsBroken name := by
  have hsuffixed : ∀ word ∈ reservedWords, IsUsable (word ++ "Rpc") := by decide +kernel
  rcases safeFunction_cases name with ⟨hvalid, heq⟩ | ⟨hreserved, heq⟩ | ⟨hvalid, hname, hreserved, heq⟩
  · obtain ⟨hname, hreserved⟩ := isValid_iff.mp hvalid
    rw [heq, IsUsable, and_iff_left hreserved]
    exact ⟨fun hname hbroken => hbroken.not_isIdentifier hname, hname.resolve_right⟩
  · rw [heq]
    exact iff_of_true (hsuffixed name hreserved) fun hbroken =>
      hbroken.not_isReserved (List.contains_iff_mem.mpr hreserved)
  · rw [heq]
    refine iff_of_true (usable_safeType hname) fun hbroken => hvalid (isValid_iff.mpr ⟨.inr hbroken, ?_⟩)
    exact hbroken.not_isReserved

theorem safeFunction_mem_restrictedWords_iff (name : Text) :
    safeFunction name ∈ restrictedWords ↔ name ∈ restrictedWords := by
  have hsuffixed : ∀ word ∈ reservedWords, word ++ "Rpc" ∉ restrictedWords ∧ word ∉ restrictedWords := by decide +kernel
  have hrestricted : ∀ word ∈ restrictedWords, .char '_' ∉ word ∧ isValid word := by decide
  rcases safeFunction_cases name with ⟨-, heq⟩ | ⟨hreserved, heq⟩ | ⟨hvalid, hname, -, heq⟩
  · rw [heq]
  · rw [heq]
    exact iff_of_false (hsuffixed name hreserved).1 (hsuffixed name hreserved).2
  · rw [heq]
    exact iff_of_false (fun hmem => (hrestricted _ hmem).1 (underscore_mem_safeType hname))
      fun hmem => hvalid (hrestricted name hmem).2

end Safe

-- What a name is made into is an identifier that is not reserved, exactly unless the name is an identifier with a line
-- feed behind it, and a name that is one already stays. So the plain function of a database function has a name that
-- a constant can have, exactly unless its name in camel case has such an end, or is one of the restricted words.
theorem safeFunction_usable_iff (name : Text) (routine : Routine) :
    (IsUsable (safeFunction name) ↔ ¬ IsBroken name) ∧ (IsUsable name → safeFunction name = name) ∧
    (BindsConstant (directFunction routine.name) ↔
      ¬ IsBroken (camel routine.name) ∧ camel routine.name ∉ restrictedWords) := by
  refine ⟨usable_safeFunction_iff name, fun h => ?_, ?_⟩
  · exact if_pos (isValid_iff.mpr ⟨.inl h.1, h.2⟩)
  · rw [directFunction, ← usable_safeFunction_iff, ← safeFunction_mem_restrictedWords_iff]
    exact ⟨fun h => ⟨h.usable, h.notRestricted⟩, fun h => ⟨h.1, h.2⟩⟩

-- What a name with a digit in front is made into stays from then on.
theorem safeFunction_usable_digit : IsUsable "_2fa" ∧ safeFunction "_2fa" = "_2fa" :=
  have husable : IsUsable "_2fa" := by decide
  ⟨husable, (safeFunction_usable_iff "_2fa" ⟨"2fa-check", []⟩).2.1 husable⟩

-- A line feed at the end is not seen, neither in a name nor in that of a database function.
theorem lineFeed_not_usable : safeFunction "a\n" = "a\n" ∧ ¬ IsUsable (safeFunction "a\n") ∧
    ¬ BindsConstant (directFunction (Routine.mk "a\n" []).name) := by
  have hname : safeFunction "a\n" = "a\n" := by decide
  have hdirect : directFunction (Routine.mk "a\n" []).name = "a\n" := by decide
  have hunusable : ¬ IsUsable "a\n" := by decide
  exact ⟨hname, hname ▸ hunusable, fun h => hunusable (hdirect ▸ h.usable)⟩

end Naming

end HookGen
