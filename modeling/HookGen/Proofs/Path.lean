import HookGen.Path
import Mathlib.Data.List.Induction
import Mathlib.Data.List.TakeWhile

/-!
Names of paths, and what reading a path from a text gives.
-/

namespace HookGen

theorem Text.splitOn_ne_nil (separator : CodePoint) (t : Text) : t.splitOn separator ≠ [] := by
  cases t with
  | nil => simp [splitOn]
  | cons c rest =>
    rw [splitOn]
    split
    · simp
    · split <;> simp

theorem Text.notMem_of_mem_splitOn {separator : CodePoint} {t piece : Text}
    (h : piece ∈ t.splitOn separator) : separator ∉ piece := by
  induction t generalizing piece with
  | nil =>
    rw [splitOn, List.mem_singleton] at h
    simp [h]
  | cons c rest ih =>
    rw [splitOn] at h
    split at h
    · rcases List.mem_cons.mp h with rfl | hrest
      · simp
      · exact ih hrest
    · rename_i hc
      cases hpieces : splitOn separator rest with
      | nil => exact absurd hpieces (splitOn_ne_nil separator rest)
      | cons first pieces =>
        rw [hpieces] at ih
        simp only [hpieces, List.mem_cons] at h
        rcases h with rfl | hmem
        · have hfirst := ih (List.mem_cons_self ..)
          simp only [List.mem_cons, not_or]
          exact ⟨fun heq => hc heq.symm, hfirst⟩
        · exact ih (List.mem_cons_of_mem _ hmem)

theorem Text.subset_of_mem_splitOn {separator : CodePoint} {t piece : Text} (h : piece ∈ t.splitOn separator) :
    piece ⊆ t := by
  induction t generalizing piece with
  | nil =>
    rw [splitOn, List.mem_singleton] at h
    exact h ▸ List.Subset.refl _
  | cons c rest ih =>
    rw [splitOn] at h
    split at h
    · rcases List.mem_cons.mp h with rfl | hrest
      · exact List.nil_subset _
      · exact List.subset_cons_of_subset c (ih hrest)
    · cases hpieces : splitOn separator rest with
      | nil => exact absurd hpieces (splitOn_ne_nil separator rest)
      | cons first pieces =>
        rw [hpieces] at ih
        simp only [hpieces, List.mem_cons] at h
        rcases h with rfl | hmem
        · exact List.cons_subset_cons c (ih (List.mem_cons_self ..))
        · exact List.subset_cons_of_subset c (ih (List.mem_cons_of_mem _ hmem))

theorem Text.splitOn_of_notMem {separator : CodePoint} {t : Text} (h : separator ∉ t) :
    t.splitOn separator = [t] := by
  induction t with
  | nil => rfl
  | cons c rest ih =>
    rw [List.mem_cons, not_or] at h
    rw [splitOn, if_neg (Ne.symm h.1), ih h.2]

theorem Text.splitOn_append_cons (separator : CodePoint) (t rest : Text) :
    Text.splitOn separator (t ++ separator :: rest) = t.splitOn separator ++ rest.splitOn separator := by
  induction t with
  | nil => simp [splitOn]
  | cons c t ih =>
    obtain ⟨first, pieces, hpieces⟩ := List.exists_cons_of_ne_nil (splitOn_ne_nil separator t)
    rw [List.cons_append, splitOn, splitOn, ih, hpieces, List.cons_append]
    split <;> rfl

theorem Text.splitOn_append {separator : CodePoint} {piece : Text} (h : separator ∉ piece)
    (rest : Text) :
    Text.splitOn separator (piece ++ separator :: rest) = piece :: rest.splitOn separator := by
  rw [splitOn_append_cons, splitOn_of_notMem h, List.singleton_append]

-- The last piece is what follows the last separator.
theorem Text.takeWhile_mem_splitOn (separator : CodePoint) (t : Text) :
    (t.reverse.takeWhile (· != separator)).reverse ∈ t.splitOn separator := by
  by_cases hmem : separator ∈ t
  · obtain ⟨after, before, hreverse, hafter⟩ := List.eq_append_cons_of_mem (List.mem_reverse.mpr hmem)
    have ht : t = before.reverse ++ separator :: after.reverse := by
      rw [← List.reverse_reverse t, hreverse]
      simp
    have hlast : t.reverse.takeWhile (· != separator) = after := by
      rw [hreverse, List.takeWhile_append_of_pos, List.takeWhile_cons_of_neg (by simp), List.append_nil]
      intro c hc
      simpa using fun heq : c = separator => hafter (heq ▸ hc)
    have hpiece : separator ∉ after.reverse := by simpa using hafter
    rw [hlast, ht, splitOn_append_cons, splitOn_of_notMem hpiece]
    simp
  · have hlast : t.reverse.takeWhile (· != separator) = t.reverse := by
      rw [List.takeWhile_eq_self_iff]
      intro c hc
      simpa using fun heq : c = separator => hmem (heq ▸ List.mem_reverse.mp hc)
    rw [hlast, List.reverse_reverse, splitOn_of_notMem hmem, List.mem_singleton]

theorem Text.join_cons_cons (separator first second : Text) (rest : List Text) :
    Text.join separator (first :: second :: rest) =
      first ++ separator ++ Text.join separator (second :: rest) := by
  simp [Text.join, List.intercalate]

theorem Text.join_singleton (separator piece : Text) : Text.join separator [piece] = piece := by
  simp [Text.join, List.intercalate]

theorem Text.splitOn_join {separator : CodePoint} {pieces : List Text} (hne : pieces ≠ [])
    (h : ∀ piece ∈ pieces, separator ∉ piece) :
    (Text.join [separator] pieces).splitOn separator = pieces := by
  induction pieces with
  | nil => exact absurd rfl hne
  | cons first rest ih =>
    have hfirst := h first (List.mem_cons_self ..)
    cases rest with
    | nil => rw [Text.join_singleton, Text.splitOn_of_notMem hfirst]
    | cons second rest =>
      rw [Text.join_cons_cons, List.append_assoc, List.singleton_append, Text.splitOn_append hfirst,
        ih (by simp) fun piece hpiece => h piece (List.mem_cons_of_mem first hpiece)]

-- What can stand between two slashes of a path, and means something in the directory before it.
structure IsName (name : Text) : Prop where
  ne_nil : name ≠ []
  ne_point : name ≠ "."
  ne_points : name ≠ ".."
  no_slash : .char '/' ∉ name

theorem isName_iff {name : Text} :
    IsName name ↔ name ≠ [] ∧ name ≠ "." ∧ name ≠ ".." ∧ .char '/' ∉ name :=
  ⟨fun ⟨h, h', h'', h'''⟩ => ⟨h, h', h'', h'''⟩, fun ⟨h, h', h'', h'''⟩ => ⟨h, h', h'', h'''⟩⟩

instance (name : Text) : Decidable (IsName name) := decidable_of_iff _ isName_iff.symm

namespace Path

-- A path as it is read from a text.
def IsRead (path : Path) : Prop := ∀ name ∈ path.names, name ≠ ".." → IsName name

theorem isRead_ofText (t : Text) : (ofText t).IsRead := by
  intro name hname hpoints
  simp only [ofText, List.mem_filter, Bool.and_eq_true, Bool.not_eq_true', List.isEmpty_eq_false_iff,
    bne_iff_ne] at hname
  exact ⟨hname.2.1, hname.2.2, hpoints, Text.notMem_of_mem_splitOn hname.1⟩

theorem IsRead.join {first second : Path} (hfirst : first.IsRead) (hsecond : second.IsRead) :
    (first.join second).IsRead := by
  unfold Path.join
  split
  · intro name hname
    rcases List.mem_append.mp hname with h | h
    · exact hfirst name h
    · exact hsecond name h
  · exact hsecond

theorem IsRead.child {path : Path} (h : path.IsRead) (t : Text) : (path.child t).IsRead :=
  h.join (isRead_ofText t)

theorem IsRead.parent {path : Path} (h : path.IsRead) : path.parent.IsRead :=
  fun name hname => h name (List.dropLast_subset _ hname)

theorem IsRead.isName_or {path : Path} (h : path.IsRead) {name : Text} (hname : name ∈ path.names) :
    IsName name ∨ name = ".." := by
  by_cases hpoints : name = ".."
  · exact .inr hpoints
  · exact .inl (h name hname hpoints)

-- Reading drops no name.
theorem IsRead.filter_names {path : Path} (h : path.IsRead) :
    (path.names.filter fun name => !name.isEmpty && name != ("." : Text)) = path.names := by
  rw [List.filter_eq_self]
  intro name hname
  rcases h.isName_or hname with hname | rfl
  · simp [hname.ne_nil, hname.ne_point]
  · decide

theorem IsRead.no_slash {path : Path} (h : path.IsRead) {name : Text} (hname : name ∈ path.names) :
    .char '/' ∉ name := by
  rcases h.isName_or hname with hname | rfl
  · exact hname.no_slash
  · decide

theorem IsRead.takeWhile_slash {path : Path} (h : path.IsRead) :
    (Text.join "/" path.names).takeWhile (· == .char '/') = [] := by
  cases hnames : path.names with
  | nil => rfl
  | cons first rest =>
    have hmem : first ∈ path.names := hnames ▸ List.mem_cons_self ..
    have hslash := h.no_slash hmem
    cases hchars : first with
    | nil =>
      rcases h.isName_or hmem with hname | hpoints
      · exact absurd hchars hname.ne_nil
      · exact absurd (hchars.symm.trans hpoints) (by decide)
    | cons c chars =>
      have hc : c ≠ .char '/' := by
        rintro rfl
        exact hslash (by simp [hchars])
      cases rest <;> simp [Text.join_singleton, Text.join_cons_cons, hc]

theorem IsRead.splitOn_join {path : Path} (h : path.IsRead) :
    ((Text.join "/" path.names).splitOn '/').filter (fun name => !name.isEmpty && name != ("." : Text)) =
      path.names := by
  by_cases hnil : path.names = []
  · rw [hnil]
    rfl
  · have hsplit : Text.splitOn (.char '/') (Text.join "/" path.names) = path.names :=
      Text.splitOn_join hnil fun name hname => h.no_slash hname
    rw [hsplit, h.filter_names]

theorem text_relative {names : List Text} (hne : names ≠ []) :
    text ⟨.relative, names⟩ = Text.join "/" names := by
  simp [text, Anchor.text, hne]

theorem text_of_relative {names : List Text} :
    text ⟨.relative, names⟩ = if names.isEmpty then Text.ofString "." else Text.join "/" names := by
  cases names <;> simp [text, Anchor.text]

theorem text_root (names : List Text) : text ⟨.root, names⟩ = "/" ++ Text.join "/" names := by
  simp [text, Anchor.text]

theorem text_doubleRoot (names : List Text) : text ⟨.doubleRoot, names⟩ = "//" ++ Text.join "/" names := by
  simp [text, Anchor.text]

-- A path is read back from its text.
theorem ofText_text {path : Path} (h : path.IsRead) : ofText path.text = path := by
  obtain ⟨anchor, names⟩ := path
  have hsplit := h.splitOn_join
  have hslash (slashes : Text) (hall : ∀ c ∈ slashes, (c == .char '/') = true) :
      (slashes ++ Text.join "/" names).takeWhile (· == .char '/') = slashes := by
    rw [List.takeWhile_append_of_pos hall, h.takeWhile_slash, List.append_nil]
  cases anchor with
  | relative =>
    by_cases hnil : names = []
    · rw [hnil]
      decide
    · rw [text_relative hnil, ofText, Anchor.ofText, h.takeWhile_slash, hsplit]
      rfl
  | root =>
    have hcons : Text.splitOn (.char '/') ("/" ++ Text.join "/" names) =
        [] :: Text.splitOn (.char '/') (Text.join "/" names) :=
      @Text.splitOn_append (.char '/') [] (by simp) _
    rw [text_root, ofText, Anchor.ofText, hslash "/" (by decide), hcons, List.filter_cons_of_neg (by simp),
      hsplit]
    rfl
  | doubleRoot =>
    have hcons : Text.splitOn (.char '/') ("//" ++ Text.join "/" names) =
        [] :: [] :: Text.splitOn (.char '/') (Text.join "/" names) :=
      (@Text.splitOn_append (.char '/') [] (by simp) _).trans
        (congrArg ([] :: ·) (@Text.splitOn_append (.char '/') [] (by simp) _))
    rw [text_doubleRoot, ofText, Anchor.ofText, hslash "//" (by decide), hcons,
      List.filter_cons_of_neg (by simp), List.filter_cons_of_neg (by simp), hsplit]
    rfl

theorem isRead_of_isName {anchor : Anchor} {names : List Text} (h : ∀ name ∈ names, IsName name) :
    IsRead ⟨anchor, names⟩ := fun name hname _ => h name hname

-- So is a relative path that is not empty, and a path from the root.
theorem ofText_join {names : List Text} (hne : names ≠ []) (h : ∀ name ∈ names, IsName name) :
    ofText (Text.join "/" names) = ⟨.relative, names⟩ := by
  rw [← text_relative hne, ofText_text (isRead_of_isName h)]

theorem ofText_slash_join {names : List Text} (h : ∀ name ∈ names, IsName name) :
    ofText ("/" ++ Text.join "/" names) = ⟨.root, names⟩ := by
  rw [← text_root, ofText_text (isRead_of_isName h)]

theorem ofText_of_isName {name : Text} (h : IsName name) : ofText name = ⟨.relative, [name]⟩ := by
  have hjoin := @ofText_join [name] (by simp) (by simpa using h)
  rwa [Text.join_singleton] at hjoin

theorem child_of_isName (path : Path) {name : Text} (h : IsName name) :
    path.child name = ⟨path.anchor, path.names ++ [name]⟩ := by
  rw [child, ofText_of_isName h]
  rfl

theorem normalNames_append {path : Path} {name : Text} (h : IsName name) :
    normalNames ⟨path.anchor, path.names ++ [name]⟩ = path.normalNames ++ [name] := by
  simp [normalNames, step, h.ne_point, h.ne_points]

-- A path without double points.
def normal (path : Path) : Path := ⟨path.anchor, path.normalNames⟩

theorem normal_child {path : Path} {name : Text} (h : IsName name) :
    (path.child name).normal = ⟨path.anchor, path.normalNames ++ [name]⟩ := by
  rw [child_of_isName path h, normal, normalNames_append h]

theorem isName_of_mem_normalNames {path : Path} (h : path.IsRead) {name : Text}
    (hname : name ∈ path.normalNames) : IsName name := by
  -- the names read so far are kept in `done`
  have hfold (names done : List Text) (hnames : ∀ name ∈ names, name ≠ ".." → IsName name)
      (hdone : ∀ name ∈ done, IsName name) : ∀ name ∈ names.foldl step done, IsName name := by
    induction names generalizing done with
    | nil => exact hdone
    | cons first rest ih =>
      refine ih _ (fun name hname => hnames name (List.mem_cons_of_mem first hname)) ?_
      rw [step]
      split
      · exact fun name hname => hdone name (List.mem_of_mem_drop hname)
      · rename_i hpoints
        split
        · exact hdone
        · exact List.forall_mem_cons.mpr ⟨hnames first (List.mem_cons_self ..) hpoints, hdone⟩
  exact hfold path.names [] h (by simp) name (List.mem_reverse.mp hname)

theorem normalNames_append_names {path : Path} {more : List Text} (h : ∀ name ∈ more, IsName name) :
    normalNames ⟨path.anchor, path.names ++ more⟩ = path.normalNames ++ more := by
  induction more using List.reverseRec with
  | nil => simp
  | append_singleton more name ih =>
    have hmore := ih fun other hother => h other (List.mem_append_left _ hother)
    rw [← List.append_assoc, @normalNames_append ⟨path.anchor, path.names ++ more⟩ _ (h name (by simp)),
      hmore, List.append_assoc]

theorem normalNames_of_isName {anchor : Anchor} {names : List Text} (h : ∀ name ∈ names, IsName name) :
    normalNames ⟨anchor, names⟩ = names := @normalNames_append_names ⟨anchor, []⟩ names h

theorem isWithin_iff {outer inner : Path} :
    outer.isWithin inner = true ↔ outer.anchor = inner.anchor ∧ outer.names <+: inner.names := by
  simp [isWithin]

section Ways

-- A point and a slash in front of a relative path change nothing.
theorem ofText_point_slash {names : List Text} (h : IsRead ⟨.relative, names⟩) :
    ofText ("./" ++ text ⟨.relative, names⟩) = ⟨.relative, names⟩ := by
  have hcons : Text.splitOn (.char '/') ("./" ++ text ⟨.relative, names⟩) =
      Text.ofString "." :: Text.splitOn (.char '/') (text ⟨.relative, names⟩) :=
    @Text.splitOn_append (.char '/') "." (by decide) _
  have hread := ofText_text h
  rw [ofText, Path.mk.injEq] at hread
  rw [ofText, hcons, List.filter_cons_of_neg (by decide), hread.2]
  rfl

-- Double points lead up.
theorem normalNames_append_ups (path : Path) (count : Nat) :
    normalNames ⟨path.anchor, path.names ++ List.replicate count (Text.ofString "..")⟩ =
      path.normalNames.take (path.normalNames.length - count) := by
  induction count with
  | zero => simp
  | succ count ih =>
    have hup (names : List Text) :
        normalNames ⟨path.anchor, names ++ [Text.ofString ".."]⟩ = (normalNames ⟨path.anchor, names⟩).dropLast := by
      simp [normalNames, step]
    rw [List.replicate_succ', ← List.append_assoc, hup, ih, List.dropLast_eq_take, List.take_take]
    congr 1
    rw [List.length_take]
    omega

theorem take_sharedLength (first second : List Text) :
    first.take (sharedLength first second) = second.take (sharedLength first second) := by
  induction first generalizing second with
  | nil => simp [sharedLength]
  | cons name rest ih =>
    cases second with
    | nil => simp [sharedLength]
    | cons other others =>
      rw [sharedLength]
      split
      · rename_i heq
        rw [List.take_succ_cons, List.take_succ_cons, ih, heq]
      · rfl

theorem sharedLength_le (first second : List Text) : sharedLength first second ≤ first.length := by
  induction first generalizing second with
  | nil => simp [sharedLength]
  | cons name rest ih =>
    cases second with
    | nil => simp [sharedLength]
    | cons other others =>
      rw [sharedLength]
      split
      · simpa using ih others
      · simp

theorem wayNames_append (above first second : List Text) :
    wayNames (above ++ first) (above ++ second) = wayNames first second := by
  have hshared : sharedLength (above ++ first) (above ++ second) = above.length + sharedLength first second := by
    induction above with
    | nil => simp
    | cons name above ih =>
      rw [List.cons_append, List.cons_append, sharedLength, if_pos rfl, ih, List.length_cons]
      omega
  simp only [wayNames, hshared, List.length_append, Nat.add_sub_add_left, List.drop_append,
    List.drop_eq_nil_of_le (Nat.le_add_right above.length _), Nat.add_sub_cancel_left, List.nil_append]

-- The way from a directory to a target leads there.
theorem normalNames_wayNames {path : Path} {target : List Text} (h : ∀ name ∈ target, IsName name) :
    normalNames ⟨path.anchor, path.names ++ wayNames path.normalNames target⟩ = target := by
  have hdown : ∀ name ∈ target.drop (sharedLength path.normalNames target), IsName name :=
    fun name hname => h name (List.mem_of_mem_drop hname)
  rw [wayNames, ← List.append_assoc,
    @normalNames_append_names ⟨path.anchor, path.names ++ List.replicate _ _⟩ _ hdown,
    normalNames_append_ups, Nat.sub_sub_self (sharedLength_le ..), take_sharedLength, List.take_append_drop]

-- A text with a point at its start.
def pointed (t : Text) : Text := if t.head? == some (.char '.') then t else "./" ++ t

theorem head_pointed (t : Text) : (pointed t).head? = some (.char '.') := by
  rw [pointed]
  split
  · rename_i h
    exact beq_iff_eq.mp h
  · rfl

-- Slashes stand in place of backslashes.
def slashed (c : CodePoint) : CodePoint := if c = .char '\\' then .char '/' else c

theorem slashed_ne (c : CodePoint) : slashed c ≠ .char '\\' := by
  rw [slashed]
  split
  · decide
  · assumption

theorem specifier_eq (source bare : Path) :
    specifier source bare =
      pointed ((text ⟨.relative, wayNames source.parent.normalNames bare.normalNames⟩).map slashed) := by
  rw [text_of_relative]
  rfl

theorem specifier_of_notMem {source bare : Path}
    (h : .char '\\' ∉ text ⟨.relative, wayNames source.parent.normalNames bare.normalNames⟩) :
    specifier source bare = pointed (text ⟨.relative, wayNames source.parent.normalNames bare.normalNames⟩) := by
  have hkept : ∀ c ∈ text ⟨.relative, wayNames source.parent.normalNames bare.normalNames⟩, slashed c = c := by
    intro c hc
    rw [slashed, if_neg]
    rintro rfl
    exact h hc
  rw [specifier_eq, List.map_congr_left hkept, List.map_id']

-- A specifier leads to what it was made for.
theorem normal_specifier {source bare : Path} (hbare : bare.IsRead)
    (hslash : .char '\\' ∉ text ⟨.relative, wayNames source.parent.normalNames bare.normalNames⟩) :
    (source.parent.child (specifier source bare)).normal = ⟨source.anchor, bare.normalNames⟩ := by
  have htarget : ∀ name ∈ bare.normalNames, IsName name := fun name hname => isName_of_mem_normalNames hbare hname
  have hread : IsRead ⟨.relative, wayNames source.parent.normalNames bare.normalNames⟩ := by
    intro name hname hpoints
    rcases List.mem_append.mp hname with hup | hdown
    · exact absurd (List.eq_of_mem_replicate hup) hpoints
    · exact htarget name (List.mem_of_mem_drop hdown)
  have hway : ofText (specifier source bare) =
      ⟨.relative, wayNames source.parent.normalNames bare.normalNames⟩ := by
    rw [specifier_of_notMem hslash, pointed]
    split
    · exact ofText_text hread
    · exact ofText_point_slash hread
  rw [child, hway, join, if_pos rfl, normal, normalNames_wayNames htarget]
  rfl

end Ways

end Path

end HookGen
