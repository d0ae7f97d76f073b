import HookGen.Text.Basic
import Mathlib.Data.List.Nodup

/-!
Sorting texts.
-/

namespace HookGen.Text

variable {t other : Text} {ts : List Text}

@[simp] theorem mem_insertSorted : t ∈ insertSorted other ts ↔ t = other ∨ t ∈ ts := by
  induction ts with
  | nil => simp [insertSorted]
  | cons first rest ih =>
    rw [insertSorted]
    split
    · rw [List.mem_cons]
    · simp only [List.mem_cons, ih]
      exact or_left_comm

@[simp] theorem mem_sort : t ∈ sort ts ↔ t ∈ ts := by
  induction ts with
  | nil => simp [sort]
  | cons first rest ih => rw [sort, mem_insertSorted, ih, List.mem_cons]

@[simp] theorem mem_sortDistinct : t ∈ sortDistinct ts ↔ t ∈ ts := by
  rw [sortDistinct, mem_sort, List.mem_eraseDups]

theorem nodup_eraseDups (ts : List Text) : ts.eraseDups.Nodup := by
  cases ts with
  | nil => simp
  | cons first rest =>
    rw [List.eraseDups_cons, List.nodup_cons, List.mem_eraseDups]
    exact ⟨by simp, nodup_eraseDups _⟩
  termination_by ts.length
  decreasing_by
    rw [List.length_cons]
    exact Nat.lt_succ_of_le (List.length_filter_le ..)

theorem perm_insertSorted (t : Text) (ts : List Text) : (insertSorted t ts).Perm (t :: ts) := by
  induction ts with
  | nil => exact .refl _
  | cons first rest ih =>
    rw [insertSorted]
    split
    · exact .refl _
    · exact (ih.cons first).trans (.swap ..)

theorem perm_sort (ts : List Text) : (sort ts).Perm ts := by
  induction ts with
  | nil => exact .refl _
  | cons first rest ih => exact (perm_insertSorted ..).trans (ih.cons first)

theorem nodup_sortDistinct (ts : List Text) : (sortDistinct ts).Nodup :=
  (perm_sort _).nodup_iff.mpr (nodup_eraseDups ts)

theorem perm_sortDistinct (h : ts.Nodup) : (sortDistinct ts).Perm ts :=
  (List.perm_ext_iff_of_nodup (nodup_sortDistinct ts) h).mpr fun _ => mem_sortDistinct

end HookGen.Text
