import HookGen.Proofs.Disk.Encoding
import HookGen.Proofs.Path

/-!
Import specifiers as ways from a module to its target. A specifier leads back to the target where the way is one that
its text can say: with no backslash in a name, with no hidden name or nothing at all below the directory of the
module, and going further than to the directory above.
-/

namespace HookGen

namespace Path

section Endings

variable {name : Text}

-- An ending leaves something of its name.
theorem exists_stem (h : endingOf name ≠ []) : ∃ stem, stem ≠ [] ∧ name = stem ++ endingOf name := by
  obtain ⟨after, hafter⟩ : ∃ after, (name.reverse.takeWhile (· != .char '.')).reverse = after := ⟨_, rfl⟩
  have hending : endingOf name = "." ++ after ∧ after.length + 1 < name.length := by
    rw [endingOf, hafter] at h ⊢
    split at h
    · exact absurd rfl h
    · rename_i hlong
      rw [if_neg hlong]
      simp only [Bool.or_eq_true, decide_eq_true_eq, not_or, Nat.not_le] at hlong
      exact ⟨rfl, hlong.2⟩
  have hname : name = (name.reverse.dropWhile (· != .char '.')).reverse ++ after := by
    rw [← hafter, ← List.reverse_append, List.takeWhile_append_dropWhile, List.reverse_reverse]
  have hpoint := List.head?_dropWhile_not (· != CodePoint.char '.') name.reverse
  cases hbefore : name.reverse.dropWhile (· != .char '.') with
  | nil =>
    rw [hbefore, List.reverse_nil, List.nil_append] at hname
    rw [hname] at hending
    omega
  | cons c before =>
    rw [hbefore] at hpoint hname
    obtain rfl : c = .char '.' := by simpa using hpoint
    have hsplit : name = before.reverse ++ endingOf name := by
      rw [hending.1]
      rw [List.reverse_cons, List.append_assoc] at hname
      exact hname
    refine ⟨before.reverse, ?_, hsplit⟩
    rintro hnil
    rw [hnil, List.nil_append] at hsplit
    have hlength := congrArg List.length hending.1
    rw [← hsplit, List.length_append] at hlength
    have hone : (Text.ofString ".").length = 1 := rfl
    omega

-- What a path is without the ending of its last name.
theorem exists_withoutEnding {target : Path} (h : target.ending ≠ []) :
    ∃ directory stem, stem ≠ [] ∧ target.names = directory ++ [stem ++ target.ending] ∧
      target.withoutEnding? = some ⟨target.anchor, directory ++ [stem]⟩ := by
  obtain ⟨stem, hstem, hname⟩ := exists_stem h
  have hne : target.names ≠ [] := by
    intro hnil
    exact h (by simp [ending, name, hnil, endingOf])
  have hlast : target.name = target.names.getLast hne := by simp [name, List.getLast?_eq_some_getLast hne]
  refine ⟨target.names.dropLast, stem, hstem, ?_, ?_⟩
  · rw [ending, ← hname, hlast, List.dropLast_append_getLast]
  · have hkept : target.name.take (target.name.length - target.ending.length) = stem := by
      have hlength := congrArg List.length hname
      rw [List.length_append] at hlength
      rw [hlength, ending, Nat.add_sub_cancel]
      nth_rewrite 1 [hname]
      exact List.take_left
    rw [withoutEnding?, if_neg (by simpa using hne), hkept]

end Endings

section Partings

variable {first second common up down : List Text}

-- How far two lists of names go together, and how each goes on.
structure Parts (first second common up down : List Text) : Prop where
  first : first = common ++ up
  second : second = common ++ down
  apart : ∀ name ∈ up.head?, name ∉ down.head?

theorem exists_parts (first second : List Text) : ∃ common up down, Parts first second common up down := by
  induction first generalizing second with
  | nil => exact ⟨[], [], second, rfl, rfl, nofun⟩
  | cons name rest ih =>
    cases second with
    | nil => exact ⟨[], name :: rest, [], rfl, rfl, fun _ _ => nofun⟩
    | cons other others =>
      by_cases heq : name = other
      · obtain ⟨common, up, down, hfirst, hsecond, hapart⟩ := ih others
        exact ⟨name :: common, up, down, by rw [hfirst, List.cons_append],
          by rw [hsecond, heq, List.cons_append], hapart⟩
      · refine ⟨[], name :: rest, other :: others, rfl, rfl, ?_⟩
        rintro _ ⟨⟩ ⟨⟩
        exact heq rfl

theorem Parts.sharedLength_eq (h : Parts first second common up down) :
    sharedLength first second = common.length := by
  obtain ⟨rfl, rfl, hapart⟩ := h
  induction common with
  | nil =>
    cases up with
    | nil => rfl
    | cons name rest =>
      cases down with
      | nil => rfl
      | cons other others =>
        have hne : name ≠ other := fun heq => hapart name rfl (heq ▸ rfl)
        exact if_neg hne
  | cons name common ih => simpa [sharedLength] using ih

-- The way from one list to the other is up from where they part, and down again.
theorem Parts.wayNames_eq (h : Parts first second common up down) :
    wayNames first second = List.replicate up.length (Text.ofString "..") ++ down := by
  rw [wayNames, h.sharedLength_eq, h.first, h.second, List.length_append, Nat.add_sub_cancel_left, List.drop_left]

end Partings

section Ways

-- Names that are read one after the other add names at the end, once they have taken some off.
theorem foldl_step_splits (names done : List Text) :
    ∃ added kept, names.foldl step done = added ++ kept ∧ kept <:+ done ∧ added ⊆ names := by
  induction names generalizing done with
  | nil => exact ⟨[], done, rfl, List.suffix_refl _, List.nil_subset _⟩
  | cons name rest ih =>
    obtain ⟨added, kept, hfold, hkept, hadded⟩ := ih (step done name)
    have hrest : added ⊆ name :: rest := List.subset_cons_of_subset name hadded
    rw [step] at hkept
    split at hkept
    · exact ⟨added, kept, hfold, hkept.trans (List.drop_suffix 1 done), hrest⟩
    · split at hkept
      · exact ⟨added, kept, hfold, hkept, hrest⟩
      · rcases List.suffix_cons_iff.mp hkept with rfl | hkept
        · refine ⟨added ++ [name], done, ?_, List.suffix_refl _, ?_⟩
          · rw [List.foldl_cons, hfold]
            simp
          · exact List.append_subset.mpr ⟨hrest, List.cons_subset.mpr ⟨List.mem_cons_self .., List.nil_subset _⟩⟩
        · exact ⟨added, kept, hfold, hkept, hrest⟩

end Ways

section Specifiers

variable {source bare : Path} {common up down : List Text}

theorem backslash_notMem_specifier (source bare : Path) : .char '\\' ∉ specifier source bare := by
  have hslashed (t : Text) : .char '\\' ∉ t.map slashed := by
    intro h
    obtain ⟨c, -, hc⟩ := List.mem_map.mp h
    exact slashed_ne c hc
  rw [specifier_eq, pointed]
  split
  · exact hslashed _
  · rw [List.mem_append, not_or]
    exact ⟨by decide, hslashed _⟩

-- A specifier is read as a way from the directory of the module.
theorem child_specifier (source bare : Path) :
    source.parent.child (specifier source bare) =
      ⟨source.anchor, source.parent.names ++ (ofText (specifier source bare)).names⟩ := by
  have hanchor : (ofText (specifier source bare)).anchor = .relative := by
    obtain ⟨rest, hrest⟩ := List.head?_eq_some_iff.mp (specifier_eq source bare ▸ head_pointed _)
    rw [hrest, ofText, Anchor.ofText, List.takeWhile_cons_of_neg (by decide)]
    rfl
  rw [child, join, if_pos hanchor]
  rfl

-- The names further down are all said by the specifier, so that it has no backslash in place of one of theirs.
theorem noBackslash_of_leads (hsource : ∀ name ∈ source.parent.names, IsName name)
    (hparts : Parts source.parent.names bare.names common up down)
    (h : (source.parent.child (specifier source bare)).normal.names = bare.names) :
    ∀ name ∈ down, .char '\\' ∉ name := by
  obtain ⟨hup, hdown, hapart⟩ := hparts
  have hstart : source.parent.names.foldl step [] = (common ++ up).reverse := by
    rw [← hup, ← List.reverse_reverse (source.parent.names.foldl step [])]
    exact congrArg List.reverse (@normalNames_of_isName source.anchor _ hsource)
  obtain ⟨added, kept, hfold, hkept, hadded⟩ :=
    foldl_step_splits (ofText (specifier source bare)).names (common ++ up).reverse
  have hreached : kept.reverse ++ added.reverse = common ++ down := by
    rw [← hdown, ← h, child_specifier, normal, normalNames, List.foldl_append, hstart, hfold, List.reverse_append]
  have hkept : kept.reverse <+: common ++ up := by
    rw [← List.reverse_suffix, List.reverse_reverse]
    exact hkept
  -- no name from further down can have been kept, as the other way parts there
  have hnew : down ⊆ added := by
    rcases List.append_eq_append_iff.mp hreached with ⟨rest, hcommon, hnew⟩ | ⟨also, hcommon, hnew⟩
    · intro name hname
      rw [← List.mem_reverse, hnew]
      exact List.mem_append_right rest hname
    · rw [hcommon, List.prefix_append_right_inj] at hkept
      cases also with
      | nil => simp [hnew]
      | cons name also =>
        obtain ⟨more, rfl⟩ := hkept
        exact absurd (hnew ▸ rfl) (hapart name rfl)
  intro name hname hmem
  have hread : name ∈ (specifier source bare).splitOn '/' := List.mem_of_mem_filter (hadded (hnew hname))
  exact backslash_notMem_specifier source bare (Text.subset_of_mem_splitOn hread hmem)

theorem backslash_notMem_way (h : ∀ name ∈ down, .char '\\' ∉ name) :
    .char '\\' ∉ text ⟨.relative, List.replicate up.length (Text.ofString "..") ++ down⟩ := by
  rw [text_of_relative]
  split
  · decide
  · intro hmem
    rcases Text.mem_join hmem with hseparator | ⟨name, hname, hc⟩
    · exact absurd hseparator (by decide)
    · rcases List.mem_append.mp hname with hup | hdown
      · rw [List.eq_of_mem_replicate hup] at hc
        exact absurd hc (by decide)
      · exact h name hdown hc

end Specifiers

section Sayable

variable {source bare : Path} {common up down : List Text}

-- What an import is told from the name of a package by.
def IsWay (t : Text) : Prop := ("./" : Text) <+: t ∨ ("../" : Text) <+: t

instance (t : Text) : Decidable (IsWay t) := inferInstanceAs (Decidable (_ ∨ _))

-- The first name that a way says is the one before its first slash.
theorem first_eq_of_begins {piece first : Text} {rest : List Text} (hpiece : .char '/' ∉ piece)
    (hnames : ∀ name ∈ first :: rest, .char '/' ∉ name)
    (h : piece ++ [.char '/'] <+: Text.join "/" (first :: rest)) : first = piece := by
  have hsplit : Text.splitOn (.char '/') (Text.join "/" (first :: rest)) = first :: rest :=
    Text.splitOn_join (List.cons_ne_nil _ _) hnames
  obtain ⟨more, hmore⟩ := h
  rw [← hmore, List.append_assoc, List.singleton_append, Text.splitOn_append hpiece] at hsplit
  exact (List.cons.inj hsplit).1.symm

-- The ways up and down again that a specifier can say.
structure Sayable (up down : List Text) : Prop where
  noBackslash : ∀ name ∈ down, .char '\\' ∉ name
  below : up = [] → ∃ name ∈ down.head?, name.head? ≠ some (.char '.')
  above : up.length = 1 → down ≠ []

theorem isWay_below_iff {first : Text} {rest : List Text} (h : ∀ name ∈ first :: rest, IsName name) :
    IsWay (pointed (Text.join "/" (first :: rest))) ↔ first.head? ≠ some (.char '.') := by
  have hfirst := h first (List.mem_cons_self ..)
  have hslash : ∀ name ∈ first :: rest, .char '/' ∉ name := fun name hname => (h name hname).no_slash
  have hhead : (Text.join "/" (first :: rest)).head? = first.head? := by
    obtain ⟨c, chars, rfl⟩ := List.exists_cons_of_ne_nil hfirst.ne_nil
    cases rest with
    | nil => rw [Text.join_singleton]
    | cons second rest =>
      rw [Text.join_cons_cons]
      rfl
  rw [pointed, hhead]
  by_cases hpoint : first.head? = some (.char '.')
  · rw [if_pos (beq_iff_eq.mpr hpoint), hpoint]
    simp only [ne_eq, not_true_eq_false, iff_false]
    rintro (h | h)
    · exact hfirst.ne_point (first_eq_of_begins (by decide) hslash h)
    · exact hfirst.ne_points (first_eq_of_begins (by decide) hslash h)
  · rw [if_neg (by simpa using hpoint)]
    exact iff_of_true (.inl (List.prefix_append ..)) hpoint

theorem isWay_above_iff (names : List Text) :
    IsWay (pointed (Text.join "/" (Text.ofString ".." :: names))) ↔ names ≠ [] := by
  cases names with
  | nil =>
    rw [Text.join_singleton]
    decide
  | cons second rest =>
    rw [Text.join_cons_cons]
    exact iff_of_true (.inr (List.prefix_append ..)) (List.cons_ne_nil _ _)

theorem specifier_of_parts (hsource : ∀ name ∈ source.parent.names, IsName name)
    (hbare : ∀ name ∈ bare.names, IsName name) (hparts : Parts source.parent.names bare.names common up down)
    (h : ∀ name ∈ down, .char '\\' ∉ name) :
    specifier source bare = pointed (text ⟨.relative, List.replicate up.length (Text.ofString "..") ++ down⟩) := by
  have hway : wayNames source.parent.normalNames bare.normalNames =
      List.replicate up.length (Text.ofString "..") ++ down := by
    rw [← hparts.wayNames_eq, @normalNames_of_isName source.parent.anchor _ hsource,
      @normalNames_of_isName bare.anchor _ hbare]
  rw [specifier_of_notMem (hway ▸ backslash_notMem_way h), hway]

theorem isWay_iff_sayable (hdown : ∀ name ∈ down, IsName name) (h : ∀ name ∈ down, .char '\\' ∉ name) :
    IsWay (pointed (text ⟨.relative, List.replicate up.length (Text.ofString "..") ++ down⟩)) ↔ Sayable up down := by
  cases up with
  | nil =>
    cases down with
    | nil => exact iff_of_false (by decide) fun hsayable => by simpa using hsayable.below rfl
    | cons first rest =>
      rw [List.length_nil, List.replicate_zero, List.nil_append, text_relative (List.cons_ne_nil _ _),
        isWay_below_iff hdown]
      constructor
      · exact fun hfirst => ⟨h, fun _ => ⟨first, rfl, hfirst⟩, by simp⟩
      · exact fun hsayable => by simpa using hsayable.below rfl
  | cons name more =>
    rw [List.length_cons, List.replicate_succ, List.cons_append, text_relative (List.cons_ne_nil _ _),
      isWay_above_iff]
    constructor
    · intro hnames
      refine ⟨h, nofun, ?_⟩
      rintro hone rfl
      exact hnames (by simpa using hone)
    · intro hsayable hnames
      obtain ⟨hmore, rfl⟩ := List.append_eq_nil_iff.mp hnames
      exact hsayable.above (by simpa using hmore) rfl

end Sayable

section Pointing

variable {source bare target : Path} {common up down : List Text}

-- What a specifier is for: it is a way, and from the directory of the module it leads to the target.
structure PointsTo (source bare : Path) (t : Text) : Prop where
  way : IsWay t
  leads : (source.parent.child t).normal = bare

theorem specifier_pointsTo_iff (hsource : ∀ name ∈ source.parent.names, IsName name)
    (hbare : ∀ name ∈ bare.names, IsName name) (hanchor : source.anchor = bare.anchor)
    (hparts : Parts source.parent.names bare.names common up down) :
    PointsTo source bare (specifier source bare) ↔ Sayable up down := by
  have hdown : ∀ name ∈ down, IsName name :=
    fun name hname => hbare name (hparts.second ▸ List.mem_append_right _ hname)
  constructor
  · intro ⟨hway, hleads⟩
    have hbackslash := noBackslash_of_leads hsource hparts (congrArg names hleads)
    rw [specifier_of_parts hsource hbare hparts hbackslash] at hway
    exact (isWay_iff_sayable hdown hbackslash).mp hway
  · intro hsayable
    have hspecifier := specifier_of_parts hsource hbare hparts hsayable.noBackslash
    refine ⟨hspecifier ▸ (isWay_iff_sayable hdown hsayable.noBackslash).mpr hsayable, ?_⟩
    have hslash := hparts.wayNames_eq ▸ @backslash_notMem_way up _ hsayable.noBackslash
    rw [normal_specifier (isRead_of_isName hbare), hanchor, normalNames_of_isName hbare]
    rwa [@normalNames_of_isName source.parent.anchor _ hsource, normalNames_of_isName hbare]

-- An absolute path as it is once points, double points and empty names are taken out.
structure IsNormal (path : Path) : Prop where
  absolute : path.anchor ≠ .relative
  names : ∀ name ∈ path.names, IsName name

theorem IsNormal.parent_names {path : Path} (h : path.IsNormal) : ∀ name ∈ path.parent.names, IsName name :=
  fun name hname => h.names name (List.dropLast_subset _ hname)

-- There is an import specifier for each target that has an ending. It is a way and leads from the directory of the
-- module to the target without its ending just where both paths begin alike, a name is left of the target, and the way
-- from where the paths part can be said: no name further down has a backslash, the first of them is there and begins
-- with no point below the directory of the module, and the way does not end in the directory above.
theorem importSpecifier_pointsTo_iff (hsource : source.IsNormal) (htarget : target.IsNormal)
    (hending : target.ending ≠ []) :
    ∃ directory stem t, target.names = directory ++ [stem ++ target.ending] ∧ importSpecifier source target = .ok t ∧
      (PointsTo source ⟨target.anchor, directory ++ [stem]⟩ t ↔
        source.anchor = target.anchor ∧ stem ≠ "." ∧ stem ≠ ".." ∧
          ∃ common up down, Parts source.parent.names (directory ++ [stem]) common up down ∧ Sayable up down) := by
  obtain ⟨directory, stem, hstem, hnames, hbare⟩ := exists_withoutEnding hending
  have hname : IsName (stem ++ target.ending) := htarget.names _ (hnames ▸ by simp)
  have hdirectory : ∀ name ∈ directory, IsName name :=
    fun name hmem => htarget.names name (hnames ▸ List.mem_append_left _ hmem)
  have hbareNames (hpoint : stem ≠ ".") (hpoints : stem ≠ "..") : ∀ name ∈ directory ++ [stem], IsName name := by
    intro name hmem
    rcases List.mem_append.mp hmem with hmem | hmem
    · exact hdirectory name hmem
    · rw [List.mem_singleton.mp hmem]
      exact ⟨hstem, hpoint, hpoints, fun hslash => hname.no_slash (List.mem_append_left _ hslash)⟩
  refine ⟨directory, stem, _, hnames, by rw [importSpecifier, hbare], ?_⟩
  constructor
  · intro h
    have hleads := h.leads
    have hread : (source.parent.child (specifier source ⟨target.anchor, directory ++ [stem]⟩)).IsRead :=
      (isRead_of_isName hsource.parent_names : source.parent.IsRead).child _
    have hreached : normalNames (source.parent.child _) = directory ++ [stem] := congrArg names hleads
    have hlast : IsName stem := isName_of_mem_normalNames hread (by rw [hreached]; simp)
    have hanchor : source.anchor = target.anchor := by
      rw [child_specifier] at hleads
      exact (Path.mk.inj hleads).1
    obtain ⟨common, up, down, hparts⟩ := exists_parts source.parent.names (directory ++ [stem])
    refine ⟨hanchor, hlast.ne_point, hlast.ne_points, common, up, down, hparts, ?_⟩
    exact (@specifier_pointsTo_iff source ⟨target.anchor, directory ++ [stem]⟩ common up down hsource.parent_names
      (hbareNames hlast.ne_point hlast.ne_points) hanchor hparts).mp h
  · intro ⟨hanchor, hpoint, hpoints, common, up, down, hparts, hsayable⟩
    exact (@specifier_pointsTo_iff source ⟨target.anchor, directory ++ [stem]⟩ common up down hsource.parent_names
      (hbareNames hpoint hpoints) hanchor hparts).mpr hsayable

theorem importSpecifier_pointsTo_above :
    IsNormal (ofText "/out/users/types.ts") ∧ IsNormal (ofText "/out/base-types.ts") ∧
      (ofText "/out/base-types.ts").ending ≠ [] ∧
      ∃ t, importSpecifier (ofText "/out/users/types.ts") (ofText "/out/base-types.ts") = .ok t ∧
        PointsTo (ofText "/out/users/types.ts") (ofText "/out/base-types") t := by
  have hsource : IsNormal (ofText "/out/users/types.ts") := ⟨by decide, by decide⟩
  have htarget : IsNormal (ofText "/out/base-types.ts") := ⟨by decide, by decide⟩
  have hending : (ofText "/out/base-types.ts").ending ≠ [] := by decide
  obtain ⟨directory, stem, t, hnames, hspecifier, hpoints⟩ := importSpecifier_pointsTo_iff hsource htarget hending
  have hread : (ofText "/out/base-types.ts").names =
      [Text.ofString "out"] ++ [Text.ofString "base-types" ++ (ofText "/out/base-types.ts").ending] := by decide
  obtain ⟨hout, hlast⟩ := List.append_inj' (hread.symm.trans hnames) rfl
  obtain rfl : Text.ofString "base-types" = stem := List.append_cancel_right (List.cons.inj hlast).1
  subst hout
  refine ⟨hsource, htarget, hending, t, hspecifier, hpoints.mpr ⟨by decide, by decide, by decide, ?_⟩⟩
  exact ⟨["out"], ["users"], ["base-types"], ⟨by decide, by decide, by decide⟩, by decide, nofun, by decide⟩

-- A hidden directory is taken for a way.
theorem hidden_not_pointsTo :
    IsNormal (ofText "/a/b.ts") ∧ IsNormal (ofText "/a/.c/d.ts") ∧ (ofText "/a/.c/d.ts").ending = ".ts" ∧
      importSpecifier (ofText "/a/b.ts") (ofText "/a/.c/d.ts") = .ok ".c/d" ∧
      ¬ PointsTo (ofText "/a/b.ts") (ofText "/a/.c/d") ".c/d" :=
  ⟨⟨by decide, by decide⟩, ⟨by decide, by decide⟩, by decide, by decide, fun h => absurd h.way (by decide)⟩

end Pointing

end Path

end HookGen
