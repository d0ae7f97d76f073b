import HookGen.Proofs.Disk.Walk

/-!
Looking up paths: where it ends, and that it ends there still when more is on the disk.
-/

namespace HookGen.Disk

variable {disk last : Disk} {links : Nat} {place found : Place} {names : List Text} {path : Path}

-- A name that is looked up in a directory.
structure IsPart (name : Text) : Prop where
  ne_point : name ≠ "."
  ne_points : name ≠ ".."
  fits : isTooLong name = false

-- Looking up names from a place on ends at another one, through at most `links` links. The last name
-- may be free.
inductive Walks (disk : Disk) : Nat → Place → List Text → Place → Prop
  | done {links : Nat} {place : Place} : Walks disk links place [] place
  | point {links : Nat} {place found : Place} {rest : List Text}
      (directory : disk.entry? place = some .directory) (tail : Walks disk links place rest found) :
      Walks disk links place (Text.ofString "." :: rest) found
  | up {links : Nat} {place found : Place} {rest : List Text}
      (directory : disk.entry? place = some .directory)
      (tail : Walks disk links place.dropLast rest found) :
      Walks disk links place (Text.ofString ".." :: rest) found
  | free {links : Nat} {place : Place} {name : Text}
      (directory : disk.entry? place = some .directory) (part : IsPart name)
      (none : disk.entry? (place ++ [name]) = none) :
      Walks disk links place [name] (place ++ [name])
  | down {links : Nat} {place found : Place} {name : Text} {rest : List Text}
      (directory : disk.entry? place = some .directory) (part : IsPart name)
      (there : (disk.entry? (place ++ [name])).isSome) (noLink : disk.linkAt? (place ++ [name]) = none)
      (tail : Walks disk links (place ++ [name]) rest found) :
      Walks disk links place (name :: rest) found
  | link {links : Nat} {place found : Place} {name target : Text} {rest : List Text}
      (directory : disk.entry? place = some .directory) (part : IsPart name)
      (there : disk.linkAt? (place ++ [name]) = some target)
      (tail : Walks disk links (linkOrigin place (Path.ofText target)) (targetNames target ++ rest) found) :
      Walks disk (links + 1) place (name :: rest) found

-- Going on at the target of a link, with a bound on the number of links.
def enterWithin (disk : Disk) (followLast : Bool) : Nat → Place → Text → List Text → Except Fault Place
  | 0, _, _, _ => .error .tooManyLinks
  | links + 1, directory, target, rest =>
    walkWithin disk followLast links (linkOrigin directory (Path.ofText target)) (targetNames target ++ rest)

theorem walkWithin_eq (disk : Disk) (followLast : Bool) (links : Nat) :
    walkWithin disk followLast links = walkOver disk followLast (enterWithin disk followLast links) := by
  cases links <;> rfl

-- A single point stands for a directory itself, and a double one for the directory above.
theorem walkOver_point {followLast : Bool} {enter : Place → Text → List Text → Except Fault Place}
    (hdirectory : disk.entry? place = some .directory) (rest : List Text) :
    walkOver disk followLast enter place (Text.ofString "." :: rest) =
      walkOver disk followLast enter place rest := by
  rw [walkOver, if_neg (by simp [isDirectoryAt, hdirectory]), if_pos rfl]

theorem walkOver_points {followLast : Bool} {enter : Place → Text → List Text → Except Fault Place}
    (hdirectory : disk.entry? place = some .directory) (rest : List Text) :
    walkOver disk followLast enter place (Text.ofString ".." :: rest) =
      walkOver disk followLast enter place.dropLast rest := by
  rw [walkOver, if_neg (by simp [isDirectoryAt, hdirectory]), if_neg (by decide), if_pos rfl]

-- Any other name is looked for in the directory.
theorem walkOver_part {enter : Place → Text → List Text → Except Fault Place} {name : Text}
    (hdirectory : disk.entry? place = some .directory) (hpart : IsPart name) (rest : List Text) :
    walkOver disk true enter place (name :: rest) =
      match disk.linkAt? (place ++ [name]) with
      | some target => enter place target rest
      | none =>
        if (disk.entry? (place ++ [name])).isSome then walkOver disk true enter (place ++ [name]) rest
        else if rest.isEmpty then .ok (place ++ [name]) else .error .missing := by
  rw [walkOver, if_neg (by simp [isDirectoryAt, hdirectory]), if_neg hpart.ne_point,
    if_neg hpart.ne_points, hpart.fits, if_neg (by simp), linkAt?]
  cases disk.entry? (place ++ [name]) with
  | none => simp
  | some entry => cases entry <;> simp

theorem walkOver_cases {enter : Place → Text → List Text → Except Fault Place} {name : Text}
    {rest : List Text} (h : walkOver disk true enter place (name :: rest) = .ok found) :
    disk.entry? place = some .directory ∧ (name = "." ∨ name = ".." ∨ IsPart name) := by
  rw [walkOver] at h
  split at h
  · simp at h
  · rename_i hdirectory
    simp only [Bool.not_eq_true', Bool.not_eq_false, isDirectoryAt, beq_iff_eq] at hdirectory
    refine ⟨hdirectory, ?_⟩
    split at h
    · rename_i hpoint
      exact .inl hpoint
    · rename_i hpoint
      split at h
      · rename_i hpoints
        exact .inr (.inl hpoints)
      · rename_i hpoints
        split at h
        · simp at h
        · rename_i hfits
          exact .inr (.inr ⟨hpoint, hpoints, by simpa using hfits⟩)

theorem walks_of_walkOver
    (henter : ∀ {place : Place} {name target : Text} {rest : List Text} {found : Place},
      disk.entry? place = some .directory → IsPart name →
      disk.linkAt? (place ++ [name]) = some target →
      enterWithin disk true links place target rest = .ok found →
      Walks disk links place (name :: rest) found)
    (h : walkOver disk true (enterWithin disk true links) place names = .ok found) :
    Walks disk links place names found := by
  induction names generalizing place with
  | nil =>
    obtain rfl := Except.ok.inj h
    exact .done
  | cons name rest ih =>
    obtain ⟨hdirectory, rfl | rfl | hpart⟩ := walkOver_cases h
    · rw [walkOver_point hdirectory] at h
      exact .point hdirectory (ih h)
    · rw [walkOver_points hdirectory] at h
      exact .up hdirectory (ih h)
    · rw [walkOver_part hdirectory hpart] at h
      split at h
      · rename_i target hlink
        exact henter hdirectory hpart hlink h
      · rename_i hlink
        split at h
        · rename_i hthere
          exact .down hdirectory hpart hthere hlink (ih h)
        · rename_i hfree
          split at h
          · rename_i hrest
            obtain rfl := List.isEmpty_iff.mp hrest
            obtain rfl := Except.ok.inj h
            exact .free hdirectory hpart (by simpa using hfree)
          · simp at h

theorem walkWithin_eq_ok :
    walkWithin disk true links place names = .ok found ↔ Walks disk links place names found := by
  constructor
  · intro h
    induction links generalizing place names found with
    | zero => exact walks_of_walkOver (fun _ _ _ h => by simp [enterWithin] at h) h
    | succ links ih =>
      exact walks_of_walkOver (fun hdirectory hpart hlink h => .link hdirectory hpart hlink (ih h)) h
  · intro h
    induction h with
    | done => rw [walkWithin_eq, walkOver]
    | point directory _ ih => rw [walkWithin_eq, walkOver_point directory, ← walkWithin_eq, ih]
    | up directory _ ih => rw [walkWithin_eq, walkOver_points directory, ← walkWithin_eq, ih]
    | free directory part none =>
      rw [walkWithin_eq, walkOver_part directory part, linkAt?, none]
      rfl
    | down directory part there noLink _ ih =>
      rw [walkWithin_eq, walkOver_part directory part, noLink]
      simp only [there, if_true]
      rw [← walkWithin_eq, ih]
    | link directory part there _ ih =>
      rw [walkWithin_eq, walkOver_part directory part, there]
      exact ih

theorem locate_eq_ok :
    disk.locate true path = .ok found ↔ Walks disk maxLinks (disk.origin path) path.names found :=
  walkWithin_eq_ok

-- Where something can be: at the root or in a directory, under a name.
def Stands (disk : Disk) (place : Place) : Prop :=
  place = [] ∨ ∃ above name, place = above ++ [name] ∧ IsName name ∧ disk.entry? above = some .directory

theorem IsTree.stands (tree : disk.IsTree) (h : (disk.entry? place).isSome) : disk.Stands place := by
  rcases List.eq_nil_or_concat' place with rfl | ⟨above, name, rfl⟩
  · exact .inl rfl
  · exact .inr ⟨above, name, rfl, tree.names _ h name (by simp), tree.parent above name h⟩

theorem IsTree.directory_dropLast (tree : disk.IsTree) (h : disk.entry? place = some .directory) :
    Disk.entry? disk place.dropLast = some .directory := by
  rcases List.eq_nil_or_concat' place with rfl | ⟨above, name, rfl⟩
  · rfl
  · rw [List.dropLast_concat]
    exact tree.parent above name (by simp [h])

-- What stands for an entry of a directory, or for the directory itself or the one above.
def IsStep (name : Text) : Prop := name = "." ∨ name = ".." ∨ IsName name

theorem isStep_of_isRead (hread : path.IsRead) : ∀ name ∈ path.names, IsStep name := by
  intro name hname
  by_cases hpoints : name = ".."
  · exact .inr (.inl hpoints)
  · exact .inr (.inr (hread name hname hpoints))

theorem targetNames_cases (target : Text) : targetNames target = (Path.ofText target).names ∧
    (Path.ofText target).names ≠ [] ∨
      targetNames target = (Path.ofText target).names ++ [Text.ofString "."] := by
  unfold targetNames
  by_cases hnil : (target.reverse.takeWhile (· != .char '/')).reverse.isEmpty ||
      decide ((target.reverse.takeWhile (· != .char '/')).reverse = ".")
  · right
    simp only [hnil, if_true]
  · left
    simp only [hnil]
    refine ⟨rfl, List.ne_nil_of_mem (List.mem_filter.mpr ⟨Text.takeWhile_mem_splitOn _ target, ?_⟩)⟩
    simpa using hnil

theorem targetNames_ne_nil (target : Text) : targetNames target ≠ [] := by
  rcases targetNames_cases target with ⟨heq, hne⟩ | heq
  · rwa [heq]
  · simp [heq]

theorem isStep_targetNames (target : Text) : ∀ name ∈ targetNames target, IsStep name := by
  have hread := isStep_of_isRead (Path.isRead_ofText target)
  intro name hname
  rcases targetNames_cases target with ⟨heq, _⟩ | heq
  · exact hread name (heq ▸ hname)
  · rw [heq] at hname
    rcases List.mem_append.mp hname with hname | hname
    · exact hread name hname
    · exact .inl (List.mem_singleton.mp hname)

-- What is found at the end of a path can be written to as far as its place goes, and is no link.
theorem Walks.stands (tree : disk.IsTree) (h : Walks disk links place names found)
    (hsteps : ∀ name ∈ names, IsStep name)
    (hstart : names ≠ [] ∨ disk.Stands place ∧ disk.linkAt? place = none) :
    disk.Stands found ∧ disk.linkAt? found = none := by
  -- a directory is such a place itself
  have hhere {place : Place} (hdirectory : disk.entry? place = some .directory) :
      disk.Stands place ∧ disk.linkAt? place = none :=
    ⟨tree.stands (by simp [hdirectory]), by simp [linkAt?, hdirectory]⟩
  have hname {name : Text} (hpart : IsPart name) (hstep : IsStep name) : IsName name :=
    (hstep.resolve_left hpart.ne_point).resolve_left hpart.ne_points
  induction h with
  | done => simpa using hstart
  | point directory _ ih => exact ih (List.forall_mem_cons.mp hsteps).2 (.inr (hhere directory))
  | up directory _ ih =>
    exact ih (List.forall_mem_cons.mp hsteps).2 (.inr (hhere (tree.directory_dropLast directory)))
  | @free _ place name directory part none =>
    exact ⟨.inr ⟨place, name, rfl, hname part (hsteps name (List.mem_cons_self ..)), directory⟩,
      by simp [linkAt?, none]⟩
  | @down _ place _ name rest directory part there noLink _ ih =>
    exact ih (List.forall_mem_cons.mp hsteps).2 (.inr ⟨tree.stands there, noLink⟩)
  | @link _ place _ name target rest directory part there _ ih =>
    refine ih ?_ (.inl (by simp [targetNames_ne_nil target]))
    intro step hstep
    rcases List.mem_append.mp hstep with hstep | hstep
    · exact isStep_targetNames target step hstep
    · exact hsteps step (List.mem_cons_of_mem name hstep)

-- A path that begins at the root or has a name on it.
def Leads (disk : Disk) (path : Path) : Prop := path.names ≠ [] ∨ disk.origin path = []

theorem Leads.congr (h : SameLinks disk last) (hleads : disk.Leads path) : last.Leads path := by
  rwa [Leads, h.origin]

theorem locate_stands (tree : disk.IsTree) (hread : path.IsRead) (hleads : disk.Leads path)
    (h : disk.locate true path = .ok found) : disk.Stands found ∧ disk.linkAt? found = none := by
  refine (locate_eq_ok.mp h).stands tree (isStep_of_isRead hread) (hleads.imp_right fun horigin => ?_)
  rw [horigin]
  exact ⟨.inl rfl, rfl⟩

-- One disk has what another one has, with the same links and in the same directories.
structure Extends (disk last : Disk) : Prop where
  links : SameLinks disk last
  directory : ∀ place, disk.entry? place = some .directory → last.entry? place = some .directory
  there : ∀ place, (disk.entry? place).isSome → (last.entry? place).isSome

theorem Extends.refl (disk : Disk) : Extends disk disk := ⟨.refl disk, fun _ h => h, fun _ h => h⟩

theorem Extends.trans {mid : Disk} (h : Extends disk mid) (h' : Extends mid last) : Extends disk last where
  links := h.links.trans h'.links
  directory := fun place hdirectory => h'.directory place (h.directory place hdirectory)
  there := fun place hthere => h'.there place (h.there place hthere)

theorem Walks.mono (hmore : Extends disk last) (h : Walks disk links place names found) :
    Walks last links place names found := by
  induction h with
  | done => exact .done
  | point directory _ ih => exact .point (hmore.directory _ directory) ih
  | up directory _ ih => exact .up (hmore.directory _ directory) ih
  | @free _ place name directory part none =>
    -- the free name may be taken on the other disk, by something else than a link
    have hthere := hmore.directory _ directory
    by_cases hfree : last.entry? (place ++ [name]) = .none
    · exact .free hthere part hfree
    · refine .down hthere part (Option.isSome_iff_ne_none.mpr hfree) ?_ .done
      rw [← hmore.links.link, linkAt?, none]
  | down directory part there noLink _ ih =>
    exact .down (hmore.directory _ directory) part (hmore.there _ there)
      (by rw [← hmore.links.link, noLink]) ih
  | link directory part there _ ih =>
    exact .link (hmore.directory _ directory) part (by rw [← hmore.links.link, there]) ih

-- A path that leads to a place leads there when there is more on the disk.
theorem Extends.locate_eq (hmore : Extends disk last) (h : disk.locate true path = .ok found) :
    last.locate true path = .ok found := by
  rw [locate_eq_ok, hmore.links.origin]
  exact (locate_eq_ok.mp h).mono hmore

-- What is looked up first leads to a place from which the rest is looked up.
theorem Walks.split {before after : List Text} (h : Walks disk links place (before ++ after) found)
    (hafter : after ≠ []) : ∃ mid rest, Walks disk links place before mid ∧ Walks disk rest mid after found := by
  generalize hnames : before ++ after = names at h
  induction h generalizing before with
  | done => simp [hafter] at hnames
  | @point links place _ rest directory tail ih =>
    cases before with
    | nil =>
      obtain rfl : after = _ := hnames
      exact ⟨place, links, .done, .point directory tail⟩
    | cons first others =>
      obtain ⟨rfl, rfl⟩ := List.cons_eq_cons.mp hnames
      obtain ⟨mid, more, hbefore, hrest⟩ := ih rfl
      exact ⟨mid, more, .point directory hbefore, hrest⟩
  | @up links place _ rest directory tail ih =>
    cases before with
    | nil =>
      obtain rfl : after = _ := hnames
      exact ⟨place, links, .done, .up directory tail⟩
    | cons first others =>
      obtain ⟨rfl, rfl⟩ := List.cons_eq_cons.mp hnames
      obtain ⟨mid, more, hbefore, hrest⟩ := ih rfl
      exact ⟨mid, more, .up directory hbefore, hrest⟩
  | @free links place name directory part none =>
    cases before with
    | nil =>
      obtain rfl : after = _ := hnames
      exact ⟨place, links, .done, .free directory part none⟩
    | cons first others =>
      have hrest := (List.cons_eq_cons.mp hnames).2
      simp [hafter] at hrest
  | @down links place _ name rest directory part there noLink tail ih =>
    cases before with
    | nil =>
      obtain rfl : after = _ := hnames
      exact ⟨place, links, .done, .down directory part there noLink tail⟩
    | cons first others =>
      obtain ⟨rfl, rfl⟩ := List.cons_eq_cons.mp hnames
      obtain ⟨mid, more, hbefore, hrest⟩ := ih rfl
      exact ⟨mid, more, .down directory part there noLink hbefore, hrest⟩
  | @link links place _ name target rest directory part there tail ih =>
    cases before with
    | nil =>
      obtain rfl : after = _ := hnames
      exact ⟨place, links + 1, .done, .link directory part there tail⟩
    | cons first others =>
      obtain ⟨rfl, rfl⟩ := List.cons_eq_cons.mp hnames
      obtain ⟨mid, more, hbefore, hrest⟩ := ih (List.append_assoc ..)
      exact ⟨mid, more, .link directory part there hbefore, hrest⟩

-- A name that leads to something is taken, in a directory.
theorem Walks.last_there {name : Text} (h : Walks disk links place [name] found)
    (hfound : (disk.entry? found).isSome) : disk.entry? place = some .directory ∧
      (name ≠ "." → name ≠ ".." → disk.entry? (place ++ [name]) ≠ none) := by
  cases h with
  | point directory _ => exact ⟨directory, fun hpoint => absurd rfl hpoint⟩
  | up directory _ => exact ⟨directory, fun _ hpoints => absurd rfl hpoints⟩
  | free directory _ none => simp [none] at hfound
  | down directory _ there _ _ => exact ⟨directory, fun _ _ => Option.isSome_iff_ne_none.mp there⟩
  | link directory _ there _ =>
    exact ⟨directory, fun _ _ => by simp [linkAt?_eq_some.mp there]⟩

-- A path of more than one name leads over the directory that its parent leads to.
theorem locate_parent (hnames : path.names ≠ []) (h : disk.locate true path = .ok found) :
    ∃ above rest, disk.locate true path.parent = .ok above ∧
      Walks disk rest above [path.name] found := by
  have hsplit : path.parent.names ++ [path.name] = path.names := by
    rw [Path.parent, Path.name, List.getLast?_eq_getLast_of_ne_nil hnames]
    exact List.dropLast_append_getLast hnames
  have hwalks := locate_eq_ok.mp h
  rw [← hsplit] at hwalks
  obtain ⟨above, rest, hparent, hlast⟩ := hwalks.split (by simp)
  exact ⟨above, rest, locate_eq_ok.mpr hparent, hlast⟩

-- No name of a place that is found by its own path is too long.
theorem Walks.fits (h : Walks disk links place names found) (hreal : disk.IsReal (place ++ names)) :
    ∀ name ∈ names, isTooLong name = false := by
  induction h with
  | done => simp
  | point _ _ _ => exact absurd rfl (hreal.names (Text.ofString ".") (by simp)).ne_point
  | up _ _ _ => exact absurd rfl (hreal.names (Text.ofString "..") (by simp)).ne_points
  | free _ part _ => simpa using part.fits
  | @down _ place _ name rest _ part _ _ _ ih =>
    rw [List.append_cons] at hreal
    exact List.forall_mem_cons.mpr ⟨part.fits, ih hreal⟩
  | @link _ place _ name target rest _ _ there _ _ =>
    rw [List.append_cons] at hreal
    have hnone := hreal.noLink (place ++ [name]) (List.prefix_append _ rest)
    simp [hnone] at there

end HookGen.Disk
