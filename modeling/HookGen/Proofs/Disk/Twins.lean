import HookGen.Proofs.Disk.Encoding

/-!
Two disks that have the same below two places. A path that stays below the place leads to the same on both,
and what is done to one of them can be done to the other one, with the same outcome.
-/

namespace HookGen

-- What a failure says about the disk, apart from the path that it happened at.
def DiskError.fault? : DiskError → Option Disk.Fault
  | .refused fault _ => some fault
  | _ => none

-- Two failures at the same fault of the disk, or at none.
def DiskError.Same (e e' : DiskError) : Prop := e.fault? = e'.fault?

-- Two outcomes that are both values or both failures, related in a way of each kind.
inductive Concur {ε ε' α β : Type} (S : ε → ε' → Prop) (R : α → β → Prop) : Except ε α → Except ε' β → Prop
  | ok {a : α} {b : β} (h : R a b) : Concur S R (.ok a) (.ok b)
  | error {e : ε} {e' : ε'} (h : S e e') : Concur S R (.error e) (.error e')

namespace Concur

variable {ε ε' δ δ' α β γ κ : Type} {S : ε → ε' → Prop} {T : δ → δ' → Prop} {R : α → β → Prop} {Q : γ → κ → Prop}
  {x : Except ε α} {y : Except ε' β}

theorem bind {f : α → Except ε γ} {g : β → Except ε' κ} (h : Concur S R x y)
    (hnext : ∀ a b, R a b → Concur S Q (f a) (g b)) : Concur S Q (x >>= f) (y >>= g) := by
  cases h with
  | ok h => exact hnext _ _ h
  | error h => exact .error h

theorem mapError {f : ε → δ} {g : ε' → δ'} (h : Concur S R x y) (herror : ∀ e e', S e e' → T (f e) (g e')) :
    Concur T R (x.mapError f) (y.mapError g) := by
  cases h with
  | ok h => exact .ok h
  | error h => exact .error (herror _ _ h)

theorem mono {R' : α → β → Prop} (h : Concur S R x y) (himp : ∀ a b, R a b → R' a b) : Concur S R' x y := by
  cases h with
  | ok h => exact .ok (himp _ _ h)
  | error h => exact .error h

theorem cases (h : Concur S R x y) : (∃ a b, x = .ok a ∧ y = .ok b ∧ R a b) ∨
    ∃ e e', x = .error e ∧ y = .error e' ∧ S e e' := by
  cases h with
  | ok h => exact .inl ⟨_, _, rfl, rfl, h⟩
  | error h => exact .inr ⟨_, _, rfl, rfl, h⟩

theorem of_toOption {f : α → β} (h : y.toOption = x.toOption.map f) (herror : ∀ e e', S e e') :
    Concur S (fun a b => b = f a) x y := by
  cases x with
  | ok a =>
    cases y with
    | ok b => exact .ok (Option.some.inj h)
    | error e => cases h
  | error e =>
    cases y with
    | ok b => cases h
    | error e' => exact .error (herror e e')

end Concur

namespace Disk

variable {disk disk' start start' last last' : Disk} {base base' place : Place} {way names : List Text} {name : Text}

-- Whether names do not lead above the directory that is so many levels above the one that they begin in.
def staysBelow : Nat → List Text → Bool
  | _, [] => true
  | depth, name :: rest =>
    if name = "." then staysBelow depth rest
    else if name = ".." then depth != 0 && staysBelow (depth - 1) rest
    else staysBelow (depth + 1) rest

theorem staysBelow_of_isName (h : ∀ name ∈ names, IsName name) (depth : Nat) : staysBelow depth names := by
  induction names generalizing depth with
  | nil => rfl
  | cons name rest ih =>
    obtain ⟨hname, hrest⟩ := List.forall_mem_cons.mp h
    rw [staysBelow, if_neg hname.ne_point, if_neg hname.ne_points]
    exact ih hrest _

theorem staysBelow_append (hway : ∀ name ∈ way, IsName name) (depth : Nat) :
    staysBelow depth (way ++ names) = staysBelow (depth + way.length) names := by
  induction way generalizing depth with
  | nil => rfl
  | cons name rest ih =>
    obtain ⟨hname, hrest⟩ := List.forall_mem_cons.mp hway
    rw [List.cons_append, staysBelow, if_neg hname.ne_point, if_neg hname.ne_points, ih hrest, List.length_cons,
      Nat.add_assoc, Nat.add_comm 1]

-- A relative path that does not lead above the directory so many levels above the one that it begins in.
structure Inward (depth : Nat) (t : Text) : Prop where
  relative : (Path.ofText t).anchor = .relative
  below : staysBelow depth (Path.ofText t).names

instance (depth : Nat) (t : Text) : Decidable (Inward depth t) :=
  decidable_of_iff ((Path.ofText t).anchor = .relative ∧ staysBelow depth (Path.ofText t).names)
    ⟨fun h => ⟨h.1, h.2⟩, fun h => ⟨h.1, h.2⟩⟩

theorem Inward.child {depth : Nat} {t : Text} (h : Inward depth t) (place : Place) :
    Path.child (.ofPlace place) t = .ofPlace (place ++ (Path.ofText t).names) := by
  rw [Path.child, Path.join, if_pos h.relative]
  rfl

theorem inward_of_isName (h : IsName name) (depth : Nat) : Inward depth name where
  relative := by rw [Path.ofText_of_isName h]
  below := by
    rw [Path.ofText_of_isName h]
    exact staysBelow_of_isName (by simpa using h) depth

-- Double points lead out of a directory that is below the place.
theorem staysBelow_up {depth : Nat} (hdepth : depth ≤ way.length)
    (h : staysBelow depth (Text.ofString ".." :: names)) :
    way ≠ [] ∧ depth - 1 ≤ way.dropLast.length ∧ staysBelow (depth - 1) names := by
  rw [staysBelow, if_neg (by decide), if_pos rfl, Bool.and_eq_true, bne_iff_ne] at h
  refine ⟨?_, by simp; omega, h.2⟩
  rintro rfl
  exact h.1 (by simpa using hdepth)

-- A directory without links, the place of which can be looked up.
structure Hosts (disk : Disk) (base : Place) : Prop where
  tree : disk.IsTree
  clear : disk.IsClear base
  there : disk.entry? base = some .directory
  fits : ∀ name ∈ base, isTooLong name = false
  checked : checkText (Path.ofPlace base).text = .ok ()

-- The same is below a place on one disk and below a place on another one.
structure Twins (base base' : Place) (disk disk' : Disk) : Prop where
  first : disk.Hosts base
  second : disk'.Hosts base'
  same : ∀ names, disk'.entry? (base' ++ names) = disk.entry? (base ++ names)

-- Nothing but what is below a place has changed, and no link.
structure Confined (base : Place) (start disk : Disk) : Prop where
  links : SameLinks start disk
  outside : ∀ place, ¬ base <+: place → disk.entry? place = start.entry? place

-- What two disks become, side by side.
structure Abreast (base base' : Place) (start start' disk disk' : Disk) : Prop
    extends Twins base base' disk disk' where
  confined : Confined base start disk
  confined' : Confined base' start' disk'

-- What they become if one file is written differently.
structure Parted (base base' : Place) (start start' : Disk) (names : List Text) (S : Bytes → Bytes → Prop)
    (disk disk' : Disk) : Prop where
  same : ∀ others, others ≠ names → disk'.entry? (base' ++ others) = disk.entry? (base ++ others)
  file : disk'.entry? (base' ++ names) = disk.entry? (base ++ names) ∨ ∃ content content', S content content' ∧
    disk.entry? (base ++ names) = some (.file content) ∧ disk'.entry? (base' ++ names) = some (.file content')
  confined : Confined base start disk
  confined' : Confined base' start' disk'

-- Places with the same names behind two places.
def Beyond (base base' place place' : Place) : Prop := ∃ names, place = base ++ names ∧ place' = base' ++ names

theorem Confined.refl (base : Place) (disk : Disk) : Confined base disk disk := ⟨.refl disk, fun _ _ => rfl⟩

theorem Confined.trans (h : Confined base start disk) (h' : Confined base disk last) : Confined base start last :=
  ⟨h.links.trans h'.links, fun place hplace => (h'.outside place hplace).trans (h.outside place hplace)⟩

theorem Twins.abreast (h : Twins base base' disk disk') : Abreast base base' disk disk' disk disk' :=
  ⟨h, .refl base disk, .refl base' disk'⟩

theorem Abreast.trans (h : Abreast base base' start start' disk disk')
    (h' : Abreast base base' disk disk' last last') : Abreast base base' start start' last last' :=
  ⟨h'.toTwins, h.confined.trans h'.confined, h.confined'.trans h'.confined'⟩

theorem Abreast.trans_parted {S : Bytes → Bytes → Prop} (h : Abreast base base' start start' disk disk')
    (h' : Parted base base' disk disk' names S last last') : Parted base base' start start' names S last last' :=
  ⟨h'.same, h'.file, h.confined.trans h'.confined, h.confined'.trans h'.confined'⟩

theorem Abreast.parted {S : Bytes → Bytes → Prop} (h : Abreast base base' start start' disk disk') :
    Parted base base' start start' names S disk disk' :=
  ⟨fun others _ => h.same others, .inl (h.same names), h.confined, h.confined'⟩

namespace Hosts

variable (h : disk.Hosts base)
include h

theorem isReal (hnames : ∀ name ∈ names, IsName name) : disk.IsReal (base ++ names) :=
  h.clear.isReal_append hnames

theorem noLink (names : List Text) : disk.linkAt? (base ++ names) = none :=
  h.clear.below _ (List.prefix_append ..)

-- Making something in a directory below the place, or taking away what nothing is in.
theorem put {entry : Entry} (hname : IsName name) (hparent : disk.entry? (base ++ way) = some .directory)
    (hentry : ∀ target, entry ≠ .link target) (hold : disk.entry? (base ++ (way ++ [name])) ≠ some .directory) :
    Hosts (disk.put (base ++ (way ++ [name])) entry) base ∧
      Confined base disk (disk.put (base ++ (way ++ [name])) entry) := by
  have hlinks : SameLinks disk (disk.put (base ++ (way ++ [name])) entry) :=
    .put h.tree (by simp) (h.noLink _) hentry
  refine ⟨⟨?_, h.clear.congr hlinks, ?_, h.fits, h.checked⟩, hlinks, fun place hplace => ?_⟩
  · rw [← List.append_assoc] at hold ⊢
    exact h.tree.put hname hparent hentry hold
  · rw [entry_put (by simp), if_neg (by simp), h.there]
  · rw [entry_put (by simp), if_neg]
    rintro rfl
    exact hplace (List.prefix_append ..)

theorem erase (hnames : names ≠ []) (hempty : ∀ name, disk.entry? (base ++ names ++ [name]) = none) :
    Hosts (disk.erase (base ++ names)) base ∧ Confined base disk (disk.erase (base ++ names)) := by
  have hne : base ++ names ≠ [] := by simp [hnames]
  have hlinks : SameLinks disk (disk.erase (base ++ names)) := .erase h.tree hne (h.noLink _)
  refine ⟨⟨h.tree.erase hne hempty, h.clear.congr hlinks, ?_, h.fits, h.checked⟩, hlinks, fun place hplace => ?_⟩
  · rw [entry_erase hne, if_neg (by simp [hnames]), h.there]
  · rw [entry_erase hne, if_neg]
    rintro rfl
    exact hplace (List.prefix_append ..)

end Hosts

section Ways

theorem IsTree.directory_above (tree : disk.IsTree) (h : disk.entry? (place ++ way) = some .directory) :
    disk.entry? place = some .directory := by
  by_cases hway : way = []
  · simpa [hway] using h
  · exact tree.directory_of_isSome hway (by rw [h]; rfl)

-- Looking up what is behind a directory that is there goes on in this directory.
theorem walkOver_append {enter : Place → Text → List Text → Except Fault Place} (tree : disk.IsTree)
    (hdirectory : disk.entry? (place ++ way) = some .directory)
    (hfits : ∀ part ∈ way, isTooLong part = false) (names : List Text) :
    walkOver disk true enter place (way ++ names) = walkOver disk true enter (place ++ way) names := by
  induction way generalizing place with
  | nil => rw [List.nil_append, List.append_nil]
  | cons name rest ih =>
    obtain ⟨hfit, hothers⟩ := List.forall_mem_cons.mp hfits
    have hname := (isReal_of_directory tree hdirectory).names name (by simp)
    have hplace := tree.directory_above hdirectory
    rw [List.append_cons] at hdirectory ⊢
    rw [List.cons_append, walkOver_part hplace ⟨hname.ne_point, hname.ne_points, hfit⟩, linkAt?,
      tree.directory_above hdirectory]
    exact ih hdirectory hothers

-- So does resolving it.
theorem resolveOver_append {enter : Place → Place → Path → Except (List Text) Place}
    (h : disk.IsReal (place ++ way)) (names : List Text) :
    resolveOver disk enter place (way ++ names) = resolveOver disk enter (place ++ way) names := by
  induction way generalizing place with
  | nil => rw [List.nil_append, List.append_nil]
  | cons name rest ih =>
    have hpoints : name ≠ ".." := (h.names name (by simp)).ne_points
    have hlink : disk.linkAt? (place ++ [name]) = none := h.noLink _ (by simp)
    rw [List.cons_append, resolveOver_cons, if_neg hpoints, hlink]
    rw [List.append_cons place name rest] at h ⊢
    exact ih h

theorem checkNames_append (hway : ∀ name ∈ way, IsName name) (names : List Text)
    (h : checkText (Path.ofPlace (place ++ way)).text = .ok ()) :
    checkNames place (way ++ names) = checkNames (place ++ way) names := by
  induction way generalizing place with
  | nil => rw [List.nil_append, List.append_nil]
  | cons name rest ih =>
    obtain ⟨hname, hrest⟩ := List.forall_mem_cons.mp hway
    rw [List.append_cons] at h ⊢
    obtain ⟨others, hothers⟩ := text_prefix (place ++ [name]) rest
    have hchecked : checkText (Path.ofPlace (place ++ [name])).text = .ok () :=
      @checkText_of_append _ others (by rw [hothers, h])
    rw [List.cons_append, checkNames, if_neg hname.ne_points, hchecked]
    exact ih hrest h

-- Without links, names are resolved one after the other.
theorem Hosts.resolveOver (h : disk.Hosts base) {enter : Place → Place → Path → Except (List Text) Place}
    {depth : Nat} (hdepth : depth ≤ way.length) (hread : ∀ name ∈ names, name ≠ ".." → IsName name)
    (hbelow : staysBelow depth names) :
    Disk.resolveOver disk enter (base ++ way) names = .ok (base ++ (names.foldl Path.step way.reverse).reverse) := by
  induction names generalizing way depth with
  | nil => simp [Disk.resolveOver]
  | cons name rest ih =>
    obtain ⟨hname, hrest⟩ := List.forall_mem_cons.mp hread
    rw [resolveOver_cons, List.foldl_cons, Path.step]
    by_cases hpoints : name = ".."
    · subst hpoints
      obtain ⟨hway, hdepth, hbelow⟩ := staysBelow_up hdepth hbelow
      rw [if_pos rfl, if_pos rfl, List.dropLast_append_of_ne_nil hway, ih hdepth hrest hbelow]
      simp
    · have hpoint : name ≠ "." := (hname hpoints).ne_point
      rw [staysBelow, if_neg hpoint, if_neg hpoints] at hbelow
      rw [if_neg hpoints, List.append_assoc, h.noLink, if_neg hpoints, if_neg hpoint]
      simp only
      rw [ih (by simp; omega) hrest hbelow]
      simp

-- A path that stays below the place leads there, without its double points, if it has a form in bytes.
theorem Hosts.resolve (h : disk.Hosts base) (hread : (Path.ofPlace names).IsRead) (hbelow : staysBelow 0 names) :
    disk.resolve (.ofPlace (base ++ names)) =
      (checkNames base names).map fun _ => base ++ (Path.ofPlace names).normalNames := by
  have hchecked : checkNames (disk.origin (.ofPlace (base ++ names))) (Path.ofPlace (base ++ names)).names =
      checkNames base names :=
    @checkNames_append [] base h.clear.real.names names h.checked
  have hway : resolveWithin disk disk.linkCount [] (disk.origin (.ofPlace (base ++ names)))
      (Path.ofPlace (base ++ names)).names = .ok (base ++ (Path.ofPlace names).normalNames) := by
    have hover (enter : Place → Place → Path → Except (List Text) Place) :
        Disk.resolveOver disk enter [] (base ++ names) = .ok (base ++ (Path.ofPlace names).normalNames) := by
      have hnext := @Hosts.resolveOver disk base [] names h enter 0 (Nat.zero_le _) hread hbelow
      rw [List.append_nil] at hnext
      exact (@resolveOver_append disk [] base enter h.clear.real names).trans hnext
    cases disk.linkCount <;> exact hover _
  have hreal : disk.IsReal (base ++ (Path.ofPlace names).normalNames) :=
    h.isReal fun name hname => Path.isName_of_mem_normalNames hread hname
  rw [Disk.resolve, hchecked, hway]
  cases checkNames base names with
  | error e => rfl
  | ok done =>
    simp only [bind, Except.bind]
    split
    · rename_i hfind
      exact absurd hfind (find_ne_tooManyLinks hreal)
    · rfl

end Ways

theorem fault?_of_checkText {t : Text} {e : DiskError} (h : checkText t = .error e) : e.fault? = none := by
  rw [checkText] at h
  split at h
  · obtain rfl := Except.error.inj h
    rfl
  · split at h
    · obtain rfl := Except.error.inj h
      rfl
    · simp at h

theorem fault?_of_checkNames {e : DiskError} (h : checkNames place names = .error e) : e.fault? = none := by
  induction names generalizing place with
  | nil => simp [checkNames] at h
  | cons name rest ih =>
    rw [checkNames] at h
    split at h
    · exact ih h
    · cases hcheck : checkText (Path.ofPlace (place ++ [name])).text with
      | error e' =>
        rw [hcheck] at h
        obtain rfl := Except.error.inj h
        exact fault?_of_checkText hcheck
      | ok done =>
        rw [hcheck] at h
        exact ih h

namespace Twins

variable (h : Twins base base' disk disk')
include h

theorem linkAt? (names : List Text) :
    disk.linkAt? (base ++ names) = none ∧ disk'.linkAt? (base' ++ names) = none :=
  ⟨h.first.noLink names, h.second.noLink names⟩

theorem checkText (names : List Text) : Concur DiskError.Same Eq
    (Disk.checkText (Path.ofPlace (base ++ names)).text) (Disk.checkText (Path.ofPlace (base' ++ names)).text) := by
  have hiff := (checkText_append h.first.checked).trans (@checkText_append _ names h.second.checked).symm
  cases hcheck : Disk.checkText (Path.ofPlace (base ++ names)).text with
  | ok done =>
    rw [hiff.mp hcheck]
    exact .ok rfl
  | error e =>
    cases hcheck' : Disk.checkText (Path.ofPlace (base' ++ names)).text with
    | ok done => simp [hiff.mpr hcheck'] at hcheck
    | error e' => exact .error ((fault?_of_checkText hcheck).trans (fault?_of_checkText hcheck').symm)

section Lookup

-- The names stay below the place, so that no link is met and every place on the way is on both disks.
theorem walkOver {enter enter' : Place → Text → List Text → Except Fault Place} {depth : Nat}
    (hdepth : depth ≤ way.length) (hbelow : staysBelow depth names) :
    Concur Eq (Beyond base base') (Disk.walkOver disk true enter (base ++ way) names)
      (Disk.walkOver disk' true enter' (base' ++ way) names) := by
  induction names generalizing way depth with
  | nil => exact .ok ⟨way, rfl, rfl⟩
  | cons name rest ih =>
    by_cases hdirectory : disk.entry? (base ++ way) = some .directory
    · have hdirectory' : disk'.entry? (base' ++ way) = some .directory := by rw [h.same, hdirectory]
      by_cases hpoint : name = "."
      · subst hpoint
        rw [walkOver_point hdirectory, walkOver_point hdirectory']
        exact ih hdepth hbelow
      by_cases hpoints : name = ".."
      · subst hpoints
        obtain ⟨hway, hdepth, hbelow⟩ := staysBelow_up hdepth hbelow
        rw [walkOver_points hdirectory, walkOver_points hdirectory', List.dropLast_append_of_ne_nil hway,
          List.dropLast_append_of_ne_nil hway]
        exact ih hdepth hbelow
      rw [staysBelow, if_neg hpoint, if_neg hpoints] at hbelow
      by_cases hfits : isTooLong name
      · rw [Disk.walkOver, Disk.walkOver]
        simp only [isDirectoryAt, hdirectory, hdirectory', hpoint, hpoints, hfits]
        exact .error rfl
      have hpart : IsPart name := ⟨hpoint, hpoints, by simpa using hfits⟩
      obtain ⟨hlink, hlink'⟩ := h.linkAt? (way ++ [name])
      rw [walkOver_part hdirectory hpart, walkOver_part hdirectory' hpart, List.append_assoc, List.append_assoc,
        hlink, hlink', h.same]
      simp only
      split
      · exact ih (by simp; omega) hbelow
      · split
        · exact .ok ⟨way ++ [name], rfl, rfl⟩
        · exact .error rfl
    · have hnot : !disk.isDirectoryAt (base ++ way) := by simp [isDirectoryAt, hdirectory]
      have hnot' : !disk'.isDirectoryAt (base' ++ way) := by simp [isDirectoryAt, h.same, hdirectory]
      rw [Disk.walkOver, if_pos hnot, Disk.walkOver, if_pos hnot']
      exact .error rfl

theorem locate (hbelow : staysBelow 0 names) : Concur Eq (Beyond base base')
    (disk.locate true (.ofPlace (base ++ names))) (disk'.locate true (.ofPlace (base' ++ names))) := by
  have hwalk := @walkOver _ _ _ _ [] names h (enterWithin disk true maxLinks) (enterWithin disk' true maxLinks) 0
    (Nat.zero_le _) hbelow
  rw [List.append_nil, List.append_nil] at hwalk
  rw [locate_ofPlace, locate_ofPlace, walkWithin_eq, walkWithin_eq,
    @walkOver_append disk [] base _ h.first.tree h.first.there h.first.fits,
    @walkOver_append disk' [] base' _ h.second.tree h.second.there h.second.fits]
  exact hwalk

-- A place that is named by its own path is where looking it up ends, if it does: in a directory.
theorem locate_real (hnames : ∀ name ∈ names, IsName name) :
    Concur Eq (fun found found' => found = base ++ names ∧ found' = base' ++ names ∧
        ∀ way name, names = way ++ [name] → disk.entry? (base ++ way) = some .directory)
      (disk.locate true (.ofPlace (base ++ names))) (disk'.locate true (.ofPlace (base' ++ names))) := by
  have hreal := h.first.isReal hnames
  have hagree := h.locate (staysBelow_of_isName hnames 0)
  rcases locate_of_isReal hreal true with hlocate | ⟨fault, -, hlocate⟩
  · have hin (way : List Text) (name : Text) (heq : names = way ++ [name]) :
        disk.entry? (base ++ way) = some .directory := by
      rcases (locate_stands h.first.tree (isRead_ofPlace hreal) (.inr rfl) hlocate).1 with
        hnil | ⟨above, last, hplace, -, hdirectory⟩
      · simp [heq] at hnil
      · rw [heq, ← List.append_assoc] at hplace
        rwa [(List.append_inj' hplace rfl).1]
    rcases locate_of_isReal (h.second.isReal hnames) true with hlocate' | ⟨fault, -, hlocate'⟩
    · rw [hlocate, hlocate']
      exact .ok ⟨rfl, rfl, hin⟩
    · rw [hlocate, hlocate'] at hagree
      cases hagree
  · rcases locate_of_isReal (h.second.isReal hnames) true with hlocate' | ⟨fault, -, hlocate'⟩
    · rw [hlocate, hlocate'] at hagree
      cases hagree
    · rw [hlocate, hlocate'] at hagree ⊢
      cases hagree with
      | error hsame => exact .error hsame

theorem find (hbelow : staysBelow 0 names) :
    Concur Eq (fun found found' => Beyond base base' found.1 found'.1 ∧ found.2 = found'.2)
      (disk.find (.ofPlace (base ++ names))) (disk'.find (.ofPlace (base' ++ names))) := by
  refine (h.locate hbelow).bind ?_
  rintro _ _ ⟨found, rfl, rfl⟩
  rw [h.same]
  cases disk.entry? (base ++ found) with
  | none => exact .error rfl
  | some entry => exact .ok ⟨⟨found, rfl, rfl⟩, rfl⟩

theorem ask (hbelow : staysBelow 0 names) (question : Entry → Bool) :
    Concur DiskError.Same Eq (disk.ask (.ofPlace (base ++ names)) question)
      (disk'.ask (.ofPlace (base' ++ names)) question) := by
  have hcheck := h.checkText names
  have hfind := h.find hbelow
  rw [Disk.ask, Disk.ask]
  generalize Disk.checkText (Path.ofPlace (base ++ names)).text = checked at hcheck ⊢
  generalize Disk.checkText (Path.ofPlace (base' ++ names)).text = checked' at hcheck ⊢
  generalize disk.find (.ofPlace (base ++ names)) = found at hfind ⊢
  generalize disk'.find (.ofPlace (base' ++ names)) = found' at hfind ⊢
  cases hcheck with
  | error _ => exact .ok rfl
  | ok _ =>
    cases hfind with
    | ok hfound => exact .ok (congrArg question hfound.2)
    | @error fault _ hsame =>
      subst hsame
      cases fault <;> first | exact .ok rfl | exact .error rfl

theorem read (hbelow : staysBelow 0 names) : Concur DiskError.Same Eq (disk.read (.ofPlace (base ++ names)))
    (disk'.read (.ofPlace (base' ++ names))) := by
  refine (h.checkText names).bind fun _ _ _ => ((h.find hbelow).mapError fun _ _ hsame => ?_).bind ?_
  · exact congrArg some hsame
  · rintro ⟨_, entry⟩ ⟨_, _⟩ ⟨-, rfl⟩
    cases entry with
    | file content => exact .ok rfl
    | _ => exact .error rfl

end Lookup

section Changes

-- The same change of the same place below both.
theorem put {entry : Entry} (hname : IsName name) (hparent : disk.entry? (base ++ way) = some .directory)
    (hentry : ∀ target, entry ≠ .link target) (hold : disk.entry? (base ++ (way ++ [name])) ≠ some .directory) :
    Abreast base base' disk disk' (disk.put (base ++ (way ++ [name])) entry)
      (disk'.put (base' ++ (way ++ [name])) entry) := by
  obtain ⟨hhosts, hconfined⟩ := h.first.put hname hparent hentry hold
  obtain ⟨hhosts', hconfined'⟩ := h.second.put hname (by rw [h.same, hparent]) hentry (by rwa [h.same])
  refine ⟨⟨hhosts, hhosts', fun names => ?_⟩, hconfined, hconfined'⟩
  rw [entry_put (by simp), entry_put (by simp), h.same]
  simp only [List.append_cancel_left_eq]

theorem erase (hnames : names ≠ []) (hempty : ∀ name, disk.entry? (base ++ names ++ [name]) = none) :
    Abreast base base' disk disk' (disk.erase (base ++ names)) (disk'.erase (base' ++ names)) := by
  obtain ⟨hhosts, hconfined⟩ := h.first.erase hnames hempty
  obtain ⟨hhosts', hconfined'⟩ := h.second.erase hnames
    (fun name => by rw [List.append_assoc, h.same, ← List.append_assoc, hempty])
  refine ⟨⟨hhosts, hhosts', fun others => ?_⟩, hconfined, hconfined'⟩
  rw [entry_erase (by simp [hnames]), entry_erase (by simp [hnames]), h.same]
  simp only [List.append_cancel_left_eq]

-- A new directory goes into one that is there on both.
theorem freePlace (hway : ∀ part ∈ way, IsName part) (hname : IsName name) :
    Concur Eq (fun found found' => found = base ++ (way ++ [name]) ∧ found' = base' ++ (way ++ [name]) ∧
        disk.entry? (base ++ way) = some .directory ∧ disk.entry? (base ++ (way ++ [name])) = none)
      (disk.freePlace (.ofPlace (base ++ (way ++ [name]))))
      (disk'.freePlace (.ofPlace (base' ++ (way ++ [name])))) := by
  have hparent (base : Place) : (Path.ofPlace (base ++ (way ++ [name]))).parent = .ofPlace (base ++ way) := by
    simp [Path.parent, Path.ofPlace, ← List.append_assoc]
  have hlast (base : Place) : (Path.ofPlace (base ++ (way ++ [name]))).name = name := by
    simp [Path.name, Path.ofPlace, ← List.append_assoc]
  have hsome (base : Place) : (Path.ofPlace (base ++ (way ++ [name]))).names.isEmpty = false := by
    simp [Path.ofPlace]
  rw [Disk.freePlace, Disk.freePlace, hparent, hparent]
  refine (h.locate_real hway).bind ?_
  rintro _ _ ⟨rfl, rfl, -⟩
  rw [h.same, hlast, hlast, hsome, hsome, List.append_assoc, List.append_assoc, h.same]
  simp only [Bool.false_or, decide_eq_true_eq, hname.ne_points, if_false]
  cases hdirectory : disk.entry? (base ++ way) with
  | none => exact .error rfl
  | some entry =>
    cases entry with
    | directory =>
      simp only
      split
      · exact .error rfl
      · split
        · exact .error rfl
        · rename_i hfree
          exact .ok ⟨rfl, rfl, trivial, by simpa using hfree⟩
    | _ => exact .error rfl

theorem makeDirectory (hway : ∀ part ∈ way, IsName part) (hname : IsName name) :
    Concur DiskError.Same (Abreast base base' disk disk')
      (disk.makeDirectory (.ofPlace (base ++ (way ++ [name]))))
      (disk'.makeDirectory (.ofPlace (base' ++ (way ++ [name])))) := by
  refine (h.checkText _).bind fun _ _ _ => ((h.freePlace hway hname).mapError fun _ _ hsame => ?_).bind ?_
  · exact congrArg some hsame
  · rintro _ _ ⟨rfl, rfl, hdirectory, hfree⟩
    exact .ok (h.put hname hdirectory nofun (by simp [hfree]))

-- An open file is at the same place below both.
theorem openForWriting (hnames : ∀ part ∈ names, IsName part) :
    Concur DiskError.Same (fun opened opened' => Abreast base base' disk disk' opened.1 opened'.1 ∧
        opened.2 = base ++ names ∧ opened'.2 = base' ++ names)
      (disk.openForWriting (.ofPlace (base ++ names))) (disk'.openForWriting (.ofPlace (base' ++ names))) := by
  refine (h.checkText _).bind fun _ _ _ => ((h.locate_real hnames).mapError fun _ _ hsame => ?_).bind ?_
  · exact congrArg some hsame
  · rintro _ _ ⟨rfl, rfl, hin⟩
    rw [h.same]
    split
    · exact .error rfl
    · rename_i hold
      rcases List.eq_nil_or_concat' names with rfl | ⟨way, name, rfl⟩
      · exact absurd (by rw [List.append_nil, h.first.there]) hold
      · exact .ok ⟨h.put (hnames name (by simp)) (hin way name rfl) nofun hold, rfl, rfl⟩

-- What is added to a file.
theorem append (names : List Text) (bytes : Bytes) : Abreast base base' disk disk'
    (disk.append (base ++ names) bytes) (disk'.append (base' ++ names) bytes) := by
  rw [Disk.append, Disk.append, h.same]
  cases hentry : disk.entry? (base ++ names) with
  | none => exact h.abreast
  | some entry =>
    cases entry with
    | file content =>
      rcases List.eq_nil_or_concat' names with rfl | ⟨way, name, rfl⟩
      · simp [h.first.there] at hentry
      · have hname := h.first.tree.names _ (by rw [hentry]; rfl) name (by simp)
        have hparent : disk.entry? (base ++ way) = some .directory := by
          rw [← List.append_assoc] at hentry
          exact h.first.tree.parent _ name (by rw [hentry]; rfl)
        exact h.put hname hparent (by simp) (by simp [hentry])
    | _ => exact h.abreast

end Changes

section Resolution

theorem checkNames {depth : Nat} (hdepth : depth ≤ way.length) (hbelow : staysBelow depth names) :
    Concur DiskError.Same Eq (Disk.checkNames (base ++ way) names) (Disk.checkNames (base' ++ way) names) := by
  induction names generalizing way depth with
  | nil => exact .ok rfl
  | cons name rest ih =>
    rw [Disk.checkNames, Disk.checkNames]
    by_cases hpoints : name = ".."
    · subst hpoints
      obtain ⟨hway, hdepth, hbelow⟩ := staysBelow_up hdepth hbelow
      rw [if_pos rfl, if_pos rfl, List.dropLast_append_of_ne_nil hway, List.dropLast_append_of_ne_nil hway]
      exact ih hdepth hbelow
    · rw [if_neg hpoints, if_neg hpoints, List.append_assoc, List.append_assoc]
      refine (h.checkText _).bind fun _ _ _ => ?_
      rw [staysBelow, if_neg hpoints] at hbelow
      split at hbelow
      · exact ih (by simp; omega) hbelow
      · exact ih (by simp; omega) hbelow

-- A path that stays below the place is resolved to the same on both.
theorem resolve (hread : (Path.ofPlace names).IsRead) (hbelow : staysBelow 0 names) :
    Concur DiskError.Same (fun found found' => found = base ++ (Path.ofPlace names).normalNames ∧
        found' = base' ++ (Path.ofPlace names).normalNames)
      (disk.resolve (.ofPlace (base ++ names))) (disk'.resolve (.ofPlace (base' ++ names))) := by
  have hcheck := @checkNames _ _ _ _ [] names h 0 (Nat.zero_le _) hbelow
  rw [List.append_nil, List.append_nil] at hcheck
  rw [h.first.resolve hread hbelow, h.second.resolve hread hbelow]
  generalize Disk.checkNames base names = checked at hcheck ⊢
  generalize Disk.checkNames base' names = checked' at hcheck ⊢
  cases hcheck with
  | ok _ => exact .ok ⟨rfl, rfl⟩
  | error hsame => exact .error hsame

end Resolution

end Twins

-- Different bytes in a file that is empty on both.
theorem Abreast.parted_append {S : Bytes → Bytes → Prop} (h : Abreast base base' start start' disk disk')
    (hne : names ≠ []) (hfile : disk.entry? (base ++ names) = some (.file [])) {bytes bytes' : Bytes}
    (hbytes : S bytes bytes') : Parted base base' start start' names S (disk.append (base ++ names) bytes)
      (disk'.append (base' ++ names) bytes') := by
  have hfile' : disk'.entry? (base' ++ names) = some (.file []) := by rw [h.same, hfile]
  have hentry {disk : Disk} {base : Place} (bytes : Bytes) (hfile : disk.entry? (base ++ names) = some (.file []))
      (others : List Text) : Disk.entry? (disk.append (base ++ names) bytes) (base ++ others) =
        if others = names then some (.file bytes) else disk.entry? (base ++ others) := by
    rw [Disk.append, hfile]
    simp only [List.nil_append]
    rw [entry_put (by simp [hne])]
    simp only [List.append_cancel_left_eq]
  refine ⟨fun others hothers => ?_, .inr ⟨bytes, bytes', hbytes, ?_, ?_⟩,
    (h.trans (h.append names bytes)).confined, (h.trans (h.append names bytes')).confined'⟩
  · rw [hentry bytes hfile, hentry bytes' hfile', if_neg hothers, if_neg hothers, h.same]
  · rw [hentry bytes hfile, if_pos rfl]
  · rw [hentry bytes' hfile', if_pos rfl]

end Disk

end HookGen
