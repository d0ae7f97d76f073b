import HookGen.Proofs.Disk.Writable

/-!
Which paths have a form in bytes: those of which each name has one. Whether a path below a directory has
one therefore depends on the names behind the directory only.
-/

namespace HookGen

theorem Text.mem_join {c : CodePoint} {separator : Text} {pieces : List Text}
    (h : c ∈ Text.join separator pieces) : c ∈ separator ∨ ∃ piece ∈ pieces, c ∈ piece := by
  induction pieces with
  | nil => simp [Text.join] at h
  | cons first rest ih =>
    cases rest with
    | nil =>
      rw [Text.join_singleton] at h
      exact .inr ⟨first, by simp, h⟩
    | cons second rest =>
      rw [Text.join_cons_cons, List.mem_append, List.mem_append] at h
      rcases h with (hfirst | hseparator) | hrest
      · exact .inr ⟨first, by simp, hfirst⟩
      · exact .inl hseparator
      · obtain hseparator | ⟨piece, hpiece, hc⟩ := ih hrest
        · exact .inl hseparator
        · exact .inr ⟨piece, List.mem_cons_of_mem first hpiece, hc⟩

theorem Text.mem_join_of_mem {c : CodePoint} {separator piece : Text} {pieces : List Text}
    (hpiece : piece ∈ pieces) (hc : c ∈ piece) : c ∈ Text.join separator pieces := by
  induction pieces with
  | nil => cases hpiece
  | cons first rest ih =>
    cases rest with
    | nil => rwa [Text.join_singleton, ← List.mem_singleton.mp hpiece]
    | cons second rest =>
      rw [Text.join_cons_cons, List.mem_append, List.mem_append]
      rcases List.mem_cons.mp hpiece with rfl | hrest
      · exact .inl (.inl hc)
      · exact .inr (ih hrest)

namespace Disk

variable {place names : List Text}

-- A code point that can be part of a path.
def hasForm : CodePoint → Bool
  | .char c => c.toNat != 0
  | .surrogate offset => isEscapedByte offset

theorem unencodable?_eq_none {t : Text} {position : Nat} :
    unencodable? position t = none ↔ ∀ offset, .surrogate offset ∈ t → isEscapedByte offset := by
  induction t generalizing position with
  | nil => simp [unencodable?]
  | cons c rest ih =>
    cases c with
    | char ch =>
      rw [unencodable?, ih]
      simp
    | surrogate offset =>
      rw [unencodable?]
      by_cases hescaped : isEscapedByte offset = true
      · rw [if_pos hescaped, ih]
        simp only [List.mem_cons, CodePoint.surrogate.injEq]
        constructor
        · rintro h other (rfl | hrest)
          · exact hescaped
          · exact h other hrest
        · exact fun h other hrest => h other (.inr hrest)
      · rw [if_neg hescaped]
        simp only [reduceCtorEq, false_iff]
        exact fun h => hescaped (h offset (by simp))

theorem checkText_eq_ok {t : Text} : checkText t = .ok () ↔ ∀ c ∈ t, hasForm c := by
  have hiff : checkText t = .ok () ↔ unencodable? 0 t = none ∧ ∀ c ∈ t, c.toNat ≠ 0 := by
    rw [checkText]
    cases unencodable? 0 t with
    | some error => simp
    | none => cases hzero : t.any (·.toNat == 0) <;> simp_all
  rw [hiff, unencodable?_eq_none]
  constructor
  · rintro ⟨hsurrogates, hzeros⟩ c hc
    cases c with
    | char ch => simpa [hasForm, CodePoint.toNat] using hzeros _ hc
    | surrogate offset => exact hsurrogates offset hc
  · refine fun h => ⟨fun offset => h _, fun c hc => ?_⟩
    cases c with
    | char ch => simpa [hasForm, CodePoint.toNat] using h _ hc
    | surrogate offset => simp [CodePoint.toNat]

-- The path of a place has a form in bytes if each of its names has one.
theorem checkText_ofPlace : checkText (Path.ofPlace place).text = .ok () ↔
    ∀ name ∈ place, ∀ c ∈ name, hasForm c := by
  rw [Path.ofPlace, Path.text_root, checkText_eq_ok]
  constructor
  · intro h name hname c hc
    exact h c (List.mem_append_right _ (Text.mem_join_of_mem hname hc))
  · intro h c hc
    have hslash : c ∈ Text.ofString "/" → hasForm c := by
      intro hmem
      rw [List.mem_singleton.mp hmem]
      decide
    rcases List.mem_append.mp hc with hmem | hmem
    · exact hslash hmem
    · rcases Text.mem_join hmem with hmem | ⟨name, hname, hmem⟩
      · exact hslash hmem
      · exact h name hname c hmem

theorem checkText_append (h : checkText (Path.ofPlace place).text = .ok ()) :
    checkText (Path.ofPlace (place ++ names)).text = .ok () ↔ ∀ name ∈ names, ∀ c ∈ name, hasForm c := by
  rw [checkText_ofPlace] at h ⊢
  simp only [List.mem_append, or_imp, forall_and]
  exact and_iff_right h

end Disk

end HookGen
