import HookGen.Proofs.Path
import HookGen.Text.Blank

/-!
The words of a text, and the text that is made of them with one space between any two.
-/

namespace HookGen

namespace Text

variable {s t : Text} {c : CodePoint} {ts : List Text}

def isSolid (c : CodePoint) : Bool := !c.isBlank

-- A text that has no blank at either end.
def Trimmed (t : Text) : Prop := t.head?.any isSolid ∧ t.getLast?.any isSolid

theorem Trimmed.trim (h : Trimmed t) : t.trim = t := by
  have hdrop {s : Text} (hs : s.head?.any isSolid) : s.dropWhile CodePoint.isBlank = s := by
    cases s with
    | nil => rfl
    | cons c s => exact List.dropWhile_cons_of_neg (by simpa [isSolid] using hs)
  rw [Text.trim, hdrop h.1, hdrop (by rw [List.head?_reverse]; exact h.2), List.reverse_reverse]

theorem Trimmed.append (hs : Trimmed s) (separator : Text) (ht : Trimmed t) : Trimmed (s ++ separator ++ t) := by
  cases s with
  | nil => exact absurd hs.1 (by simp)
  | cons c s =>
    refine ⟨hs.1, ?_⟩
    obtain ⟨d, hd⟩ : ∃ d, t.getLast? = some d := by
      cases hlast : t.getLast? with
      | none => exact absurd ht.2 (by simp [hlast])
      | some d => exact ⟨d, rfl⟩
    rw [List.getLast?_append, hd, Option.some_or, ← hd]
    exact ht.2

theorem trimmed_of_all (hne : t ≠ []) (h : ∀ c ∈ t, isSolid c) : Trimmed t := by
  obtain ⟨c, rest, rfl⟩ := List.exists_cons_of_ne_nil hne
  refine ⟨h c (List.mem_cons_self ..), ?_⟩
  rw [List.getLast?_eq_some_getLast hne]
  exact h _ (List.getLast_mem hne)

theorem Trimmed.head (h : Trimmed t) : t.head?.all isSolid := by
  obtain ⟨c, hc, hsolid⟩ := (Option.any_eq_true _ _).mp h.1
  simpa [show t.head? = some c from hc] using hsolid

theorem Trimmed.last (h : Trimmed t) : t.getLast?.all isSolid := by
  obtain ⟨c, hc, hsolid⟩ := (Option.any_eq_true _ _).mp h.2
  simpa [show t.getLast? = some c from hc] using hsolid

theorem Trimmed.ne_nil (h : Trimmed t) : t ≠ [] := by
  rintro rfl
  exact absurd h.1 (by simp)

-- The words of a text are its characters without the blanks.
theorem flatten_wordsFrom {run : Text} (t : Text) : (wordsFrom run t).flatten = run.reverse ++ t.filter isSolid := by
  induction t generalizing run with
  | nil => cases run <;> simp [wordsFrom]
  | cons c t ih =>
    rw [wordsFrom]
    split
    · rename_i hblank
      cases run <;> simp [ih, hblank, isSolid]
    · rename_i hblank
      simp [ih, hblank, isSolid]

-- Each of them is there and has no blank.
theorem solid_of_mem_wordsFrom {run word : Text} (hrun : ∀ c ∈ run, isSolid c) (h : word ∈ wordsFrom run t) :
    word ≠ [] ∧ ∀ c ∈ word, isSolid c := by
  induction t generalizing run with
  | nil =>
    rw [wordsFrom] at h
    split at h
    · cases h
    · rename_i hne
      obtain rfl := List.mem_singleton.mp h
      exact ⟨by simpa using hne, by simpa using hrun⟩
  | cons c t ih =>
    rw [wordsFrom] at h
    split at h
    · split at h
      · exact ih (by simp) h
      · rename_i hne
        obtain rfl | h := List.mem_cons.mp h
        · exact ⟨by simpa using hne, by simpa using hrun⟩
        · exact ih (by simp) h
    · rename_i hblank
      exact ih (List.forall_mem_cons.mpr ⟨by simp [isSolid, hblank], hrun⟩) h

theorem words_ne_nil (hc : c ∈ t) (hsolid : isSolid c) : t.words ≠ [] := by
  intro hnil
  have hfilter : t.words.flatten = t.filter isSolid := flatten_wordsFrom t
  have hmem : c ∈ t.words.flatten := hfilter ▸ List.mem_filter.mpr ⟨hc, hsolid⟩
  rw [hnil] at hmem
  cases hmem

theorem isSolid_of_mem_words {word : Text} (h : word ∈ t.words) : word ≠ [] ∧ ∀ c ∈ word, isSolid c :=
  solid_of_mem_wordsFrom (by simp) h

theorem filter_join (h : ∀ word ∈ ts, ∀ c ∈ word, isSolid c) : (join " " ts).filter isSolid = ts.flatten := by
  induction ts with
  | nil => rfl
  | cons first rest ih =>
    obtain ⟨hfirst, hrest⟩ := List.forall_mem_cons.mp h
    have hsolid := List.filter_eq_self.mpr hfirst
    cases rest with
    | nil => simpa [join, List.intercalate] using hsolid
    | cons second rest =>
      have hspace : (Text.ofString " ").filter isSolid = [] := by decide
      rw [join_cons_cons, List.filter_append, List.filter_append, hsolid, hspace, ih hrest, List.append_nil]
      rfl

theorem trimmed_join (hne : ts ≠ []) (h : ∀ word ∈ ts, Trimmed word) : Trimmed (join " " ts) := by
  induction ts with
  | nil => exact absurd rfl hne
  | cons first rest ih =>
    obtain ⟨hfirst, hrest⟩ := List.forall_mem_cons.mp h
    cases rest with
    | nil => simpa [join, List.intercalate] using hfirst
    | cons second rest =>
      rw [join_cons_cons]
      exact hfirst.append " " (ih (by simp) hrest)

theorem trimmed_join_words (h : t.words ≠ []) : Trimmed (join " " t.words) :=
  trimmed_join h fun _ hmem => trimmed_of_all (isSolid_of_mem_words hmem).1 (isSolid_of_mem_words hmem).2

theorem getLast?_ends (c d : CodePoint) (t : Text) : (c :: (t ++ [d])).getLast? = some d := by
  rw [← List.cons_append, List.getLast?_concat]

theorem exists_of_trimmed (h : Trimmed t) : (∃ c, t = [c]) ∨ ∃ c middle d, t = c :: (middle ++ [d]) := by
  cases t with
  | nil => exact absurd h.1 (by simp)
  | cons c rest =>
    obtain rfl | ⟨middle, d, rfl⟩ := rest.eq_nil_or_concat
    · exact .inl ⟨c, rfl⟩
    · exact .inr ⟨c, middle, d, by rw [List.concat_eq_append]⟩

section Collapsing

-- The text with one space in the place of each run of blanks, where a blank may stand in front of it already.
def collapseFrom (behindBlank : Bool) : Text → Text
  | [] => []
  | c :: rest =>
    if c.isBlank then
      if behindBlank then collapseFrom true rest else ' ' :: collapseFrom true rest
    else c :: collapseFrom false rest

def collapse (t : Text) : Text := collapseFrom false t

theorem collapseFrom_solid (behindBlank : Bool) (h : isSolid c) (t : Text) :
    collapseFrom behindBlank (c :: t) = c :: collapse t := by
  rw [collapseFrom, if_neg (by simpa [isSolid] using h), collapse]

theorem collapse_solid (h : isSolid c) (t : Text) : collapse (c :: t) = c :: collapse t := collapseFrom_solid false h t

theorem collapse_blank (h : c.isBlank) (t : Text) : collapse (c :: t) = .char ' ' :: collapseFrom true t := by
  rw [collapse, collapseFrom, if_pos h, if_neg (by simp)]

-- What stands in front of a text matters only if this begins with a blank.
theorem collapseFrom_of_solid (behindBlank : Bool) (h : t.head?.all isSolid) :
    collapseFrom behindBlank t = collapse t := by
  cases t with
  | nil => rfl
  | cons c t => rw [collapseFrom_solid behindBlank h, collapse_solid h]

theorem collapseFrom_append (behindBlank : Bool) (s t : Text) : collapseFrom behindBlank (s ++ t) =
    collapseFrom behindBlank s ++ collapseFrom ((s.getLast?.map CodePoint.isBlank).getD behindBlank) t := by
  induction s generalizing behindBlank with
  | nil => rfl
  | cons c s ih =>
    have hlast (flag : Bool) : (((c :: s).getLast?).map CodePoint.isBlank).getD flag =
        (s.getLast?.map CodePoint.isBlank).getD c.isBlank := by
      rw [List.getLast?_cons]
      cases s.getLast? <;> rfl
    rw [hlast, List.cons_append, collapseFrom, collapseFrom]
    split
    · rename_i hblank
      rw [ih, hblank]
      split <;> rfl
    · rename_i hblank
      rw [ih, Bool.eq_false_iff.mpr hblank, List.cons_append]

-- No run of blanks reaches across a place with a solid character at either side.
theorem collapse_append (h : s.getLast?.all isSolid ∨ t.head?.all isSolid) :
    collapse (s ++ t) = collapse s ++ collapse t := by
  rw [collapse, collapseFrom_append, ← collapse]
  obtain hs | ht := h
  · cases hlast : s.getLast? with
    | none => rfl
    | some c =>
      have hc : c.isBlank = false := by simpa [hlast, isSolid] using hs
      simp [hc, collapse]
  · rw [collapseFrom_of_solid _ ht]

theorem length_collapseFrom_le (behindBlank : Bool) (t : Text) : (collapseFrom behindBlank t).length ≤ t.length := by
  induction t generalizing behindBlank with
  | nil => exact Nat.le_refl 0
  | cons c t ih =>
    have htrue := ih true
    have hfalse := ih false
    rw [collapseFrom]
    split
    · split
      · exact Nat.le_succ_of_le htrue
      · exact Nat.succ_le_succ htrue
    · exact Nat.succ_le_succ hfalse

-- Joining the words of a text collapses it, apart from the blanks at its ends.
theorem join_wordsFrom (h : t.getLast?.all isSolid) :
    join " " (wordsFrom [] t) = collapseFrom true t ∧
      ∀ run, run ≠ [] → join " " (wordsFrom run t) = run.reverse ++ collapse t := by
  induction t with
  | nil => exact ⟨rfl, fun run hrun => by simp [wordsFrom, hrun, join, collapse, collapseFrom]⟩
  | cons c t ih =>
    have hrest : t.getLast?.all isSolid := by
      cases hlast : t.getLast? with
      | none => rfl
      | some d => simpa [List.getLast?_cons, hlast] using h
    obtain ⟨hempty, hopen⟩ := ih hrest
    by_cases hc : c.isBlank
    · have hwords : wordsFrom [] t ≠ [] := by
        cases hlast : t.getLast? with
        | none => simp [List.getLast?_cons, hlast, isSolid, hc] at h
        | some d => exact words_ne_nil (List.mem_of_getLast? hlast) (by simpa [hlast] using hrest)
      refine ⟨by rw [wordsFrom, if_pos hc, collapseFrom, if_pos hc]; exact hempty, fun run hrun => ?_⟩
      obtain ⟨second, others, heq⟩ := List.exists_cons_of_ne_nil hwords
      rw [wordsFrom, if_pos hc, if_neg (by simpa using hrun), heq, join_cons_cons, ← heq, hempty, collapse_blank hc]
      simp [Text.ofString, Text.ofChars]
    · have hsolid : isSolid c := by simpa [isSolid] using hc
      refine ⟨?_, fun run hrun => ?_⟩
      · rw [wordsFrom, if_neg hc, hopen [c] (by simp), collapseFrom_solid true hsolid]
        rfl
      · rw [wordsFrom, if_neg hc, hopen (c :: run) (by simp), collapse_solid hsolid]
        simp

theorem join_words (h : Trimmed t) : join " " t.words = collapse t := by
  rw [words, (join_wordsFrom h.last).1, collapseFrom_of_solid true h.head]

-- A text that is its words with one space between any two.
def IsCollapsed (t : Text) : Prop := join " " t.words = t

theorem isCollapsed_iff (hne : t ≠ []) : IsCollapsed t ↔ Trimmed t ∧ collapse t = t := by
  refine ⟨fun h => ?_, fun h => (join_words h.1).trans h.2⟩
  have hwords : t.words ≠ [] := by
    intro hnil
    rw [IsCollapsed, hnil] at h
    exact hne h.symm
  have htrimmed : Trimmed t := h ▸ trimmed_join_words hwords
  exact ⟨htrimmed, (join_words htrimmed).symm.trans h⟩

theorem collapse_join (h : ∀ word ∈ ts, word ≠ [] ∧ ∀ c ∈ word, isSolid c) : collapse (join " " ts) = join " " ts := by
  have hword {word : Text} (hword : ∀ c ∈ word, isSolid c) : collapse word = word := by
    induction word with
    | nil => rfl
    | cons c word ih =>
      obtain ⟨hc, hrest⟩ := List.forall_mem_cons.mp hword
      rw [collapse_solid hc, ih hrest]
  induction ts with
  | nil => rfl
  | cons first rest ih =>
    obtain ⟨hfirst, hrest⟩ := List.forall_mem_cons.mp h
    cases rest with
    | nil => simpa [join, List.intercalate] using hword hfirst.2
    | cons second rest =>
      have hjoined := trimmed_join (by simp) fun word hmem => trimmed_of_all (hrest word hmem).1 (hrest word hmem).2
      rw [join_cons_cons, List.append_assoc, collapse_append (.inl (trimmed_of_all hfirst.1 hfirst.2).last),
        hword hfirst.2]
      change first ++ collapse (.char ' ' :: join " " (second :: rest)) = _
      rw [collapse_blank (by decide), collapseFrom_of_solid true hjoined.head, ih hrest]
      rfl

-- Collapsing a second time changes nothing.
theorem isCollapsed_join_words (t : Text) : IsCollapsed (join " " t.words) := by
  by_cases hwords : t.words = []
  · rw [hwords]
    rfl
  · exact (join_words (trimmed_join_words hwords)).trans (collapse_join fun _ => isSolid_of_mem_words)

theorem mem_collapseFrom {behindBlank : Bool} (h : c ∈ collapseFrom behindBlank t) :
    (isSolid c ∧ c ∈ t) ∨ c = .char ' ' := by
  induction t generalizing behindBlank with
  | nil => cases h
  | cons d t ih =>
    have hrest {behindBlank : Bool} (h : c ∈ collapseFrom behindBlank t) :
        (isSolid c ∧ c ∈ d :: t) ∨ c = .char ' ' := (ih h).imp_left (And.imp_right (List.mem_cons_of_mem d))
    rw [collapseFrom] at h
    split at h
    · split at h
      · exact hrest h
      · exact (List.mem_cons.mp h).elim .inr hrest
    · rename_i hd
      obtain rfl | h := List.mem_cons.mp h
      · exact .inl ⟨by simpa [isSolid] using hd, List.mem_cons_self ..⟩
      · exact hrest h

theorem IsCollapsed.blank (h : IsCollapsed t) (hc : c ∈ t) (hblank : c.isBlank) : c = .char ' ' := by
  have hcollapse := ((isCollapsed_iff (List.ne_nil_of_mem hc)).mp h).2
  rw [← hcollapse] at hc
  exact (mem_collapseFrom hc).resolve_left fun h => by simp [isSolid, hblank] at h

-- A piece of a collapsed text is collapsed, unless it is cut at a blank.
theorem IsCollapsed.of_infix (h : IsCollapsed t) (hs : s <:+: t) (htrimmed : Trimmed s) : IsCollapsed s := by
  obtain ⟨front, back, rfl⟩ := hs
  refine (isCollapsed_iff htrimmed.ne_nil).mpr ⟨htrimmed, ?_⟩
  have hcollapse := ((isCollapsed_iff (by simp [htrimmed.ne_nil])).mp h).2
  rw [collapse, collapseFrom_append, collapseFrom_append, collapseFrom_of_solid _ htrimmed.head,
    ← collapse] at hcollapse
  -- no piece gets longer, and together they stay as long as they are
  have hfront : (collapse front).length ≤ front.length := length_collapseFrom_le false front
  have hmiddle : (collapse s).length ≤ s.length := length_collapseFrom_le false s
  have hback := length_collapseFrom_le (((front ++ s).getLast?.map CodePoint.isBlank).getD false) back
  have hlength := congrArg List.length hcollapse
  simp only [List.length_append] at hlength
  have hsame : (collapse front).length = front.length := by omega
  obtain ⟨hleft, -⟩ := List.append_inj hcollapse (by simp only [List.length_append]; omega)
  exact (List.append_inj hleft hsame).2

end Collapsing

end Text

end HookGen
