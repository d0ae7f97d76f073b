import HookGen.Disk.Walk
import HookGen.Proofs.Disk.Tree

/-!
Where paths lead on a disk that is a tree. What a path is resolved to has no links on the way to it, so
that looking it up ends there, and resolving depends on nothing but the links of the disk.
-/

namespace HookGen.Disk

variable {disk other : Disk} {place : Place} {path : Path}

namespace IsReal

theorem nil (disk : Disk) : disk.IsReal [] where
  names := by simp
  noLink := by
    intro start hstart
    rw [List.prefix_nil.mp hstart]
    rfl

theorem of_prefix {start : Place} (h : disk.IsReal place) (hstart : start <+: place) :
    disk.IsReal start :=
  ⟨fun name hname => h.names name (hstart.subset hname),
    fun first hfirst => h.noLink first (hfirst.trans hstart)⟩

theorem dropLast (h : disk.IsReal place) : disk.IsReal place.dropLast :=
  h.of_prefix (List.dropLast_prefix place)

theorem concat {name : Text} (h : disk.IsReal place) (hname : IsName name)
    (hlink : disk.linkAt? (place ++ [name]) = none) : disk.IsReal (place ++ [name]) where
  names := by
    intro part hpart
    rcases List.mem_append.mp hpart with hp | hp
    · exact h.names part hp
    · rwa [List.mem_singleton.mp hp]
  noLink := by
    intro start hstart
    rcases List.prefix_concat_iff.mp hstart with rfl | hbefore
    · exact hlink
    · exact h.noLink start hbefore

-- A place below a real one is real if no link is met on the rest of the way.
theorem append {rest : List Text} (h : disk.IsReal place) (hnames : ∀ name ∈ rest, IsName name)
    (hlink : ∀ start, place <+: start → disk.linkAt? start = none) :
    disk.IsReal (place ++ rest) where
  names := by
    intro part hpart
    rcases List.mem_append.mp hpart with hp | hp
    · exact h.names part hp
    · exact hnames part hp
  noLink := by
    intro start hstart
    rcases List.prefix_or_prefix_of_prefix hstart (List.prefix_append place rest) with hs | hs
    · exact h.noLink start hs
    · exact hlink start hs

end IsReal

-- A place that holds a file or a directory is real.
theorem IsTree.isReal (tree : disk.IsTree) (hsome : (disk.entry? place).isSome)
    (hlink : disk.linkAt? place = none) : disk.IsReal place where
  names := tree.names place hsome
  noLink := by
    rintro start ⟨rest, rfl⟩
    by_cases hrest : rest = []
    · simpa [hrest] using hlink
    · rw [linkAt?, tree.directory_of_isSome hrest hsome]

theorem isReal_of_directory (tree : disk.IsTree) (hdirectory : disk.entry? place = some .directory) :
    disk.IsReal place :=
  tree.isReal (by rw [hdirectory]; rfl) (by rw [linkAt?, hdirectory])

theorem isRead_ofPlace (hreal : disk.IsReal place) : (Path.ofPlace place).IsRead :=
  fun name hname _ => hreal.names name hname

-- Two disks with the same links, seen from the same directory.
structure SameLinks (disk other : Disk) : Prop where
  link : ∀ place, disk.linkAt? place = other.linkAt? place
  count : disk.linkCount = other.linkCount
  current : disk.current = other.current

theorem SameLinks.refl (disk : Disk) : SameLinks disk disk := ⟨fun _ => rfl, rfl, rfl⟩

theorem SameLinks.symm (h : SameLinks disk other) : SameLinks other disk :=
  ⟨fun place => (h.link place).symm, h.count.symm, h.current.symm⟩

theorem SameLinks.trans {last : Disk} (h : SameLinks disk other) (h' : SameLinks other last) :
    SameLinks disk last :=
  ⟨fun place => (h.link place).trans (h'.link place), h.count.trans h'.count,
    h.current.trans h'.current⟩

theorem SameLinks.isReal (h : SameLinks disk other) (hreal : disk.IsReal place) :
    other.IsReal place :=
  ⟨hreal.names, fun start hstart => by rw [← h.link, hreal.noLink start hstart]⟩

-- The links of a disk are counted by its entries.
theorem linkCount_filter (tree : disk.IsTree) (hne : place ≠ []) (hlink : disk.linkAt? place = none) :
    linkCount (disk.erase place) = disk.linkCount := by
  unfold linkCount erase
  rw [List.countP_filter]
  apply List.countP_congr
  rintro ⟨key, value⟩ hmem
  cases value with
  | link target =>
    have hkey : key ≠ place := by
      rintro rfl
      have hentry : disk.entry? key = some (.link target) := by
        rw [entry_eq_lookup hne]
        exact lookup_of_mem tree.nodup hmem
      rw [linkAt?, hentry] at hlink
      simp at hlink
    simp [hkey]
  | _ => simp

theorem SameLinks.erase (tree : disk.IsTree) (hne : place ≠ []) (hlink : disk.linkAt? place = none) :
    SameLinks disk (disk.erase place) where
  link := by
    intro other
    rw [linkAt?_erase hne]
    split
    · rename_i heq
      rw [heq, hlink]
    · rfl
  count := (linkCount_filter tree hne hlink).symm
  current := rfl

theorem SameLinks.put (tree : disk.IsTree) {entry : Entry} (hne : place ≠ [])
    (hlink : disk.linkAt? place = none) (hentry : ∀ target, entry ≠ .link target) :
    SameLinks disk (disk.put place entry) where
  link := by
    intro other
    rw [linkAt?_put hne hentry]
    split
    · rename_i heq
      rw [heq, hlink]
    · rfl
  count := by
    have hcount := linkCount_filter tree hne hlink
    unfold linkCount Disk.erase at hcount
    cases entry with
    | link target => exact absurd rfl (hentry target)
    | _ => simpa [linkCount, Disk.put, List.countP_cons] using hcount.symm
  current := rfl

-- Resolving looks at nothing but links.
theorem resolveOver_cons (enter : Place → Place → Path → Except (List Text) Place) (place : Place)
    (name : Text) (rest : List Text) : resolveOver disk enter place (name :: rest) =
      if name = ".." then resolveOver disk enter place.dropLast rest
      else match disk.linkAt? (place ++ [name]) with
        | none => resolveOver disk enter (place ++ [name]) rest
        | some target =>
          match enter (place ++ [name]) place (Path.ofText target) with
          | .ok next => resolveOver disk enter next rest
          | .error names => .error (names ++ rest) := by
  rw [resolveOver, linkAt?]
  by_cases hpoints : name = ".."
  · rw [if_pos hpoints, if_pos hpoints]
  · rw [if_neg hpoints, if_neg hpoints]
    cases disk.entry? (place ++ [name]) with
    | none => rfl
    | some entry => cases entry <;> rfl

theorem resolveOver_congr (h : SameLinks disk other)
    (enter : Place → Place → Path → Except (List Text) Place) :
    resolveOver disk enter = resolveOver other enter := by
  funext place names
  induction names generalizing place with
  | nil => rfl
  | cons name rest ih =>
    rw [resolveOver_cons, resolveOver_cons, h.link, ih]
    split
    · rfl
    · split
      · exact ih _
      · split
        · exact ih _
        · rfl

theorem resolveWithin_congr (h : SameLinks disk other) (budget : Nat) :
    resolveWithin disk budget = resolveWithin other budget := by
  induction budget with
  | zero =>
    funext pending
    simp only [resolveWithin, resolveOver_congr h]
  | succ budget ih =>
    funext pending
    simp only [resolveWithin, resolveOver_congr h, ih]

theorem resolveOver_isReal {enter : Place → Place → Path → Except (List Text) Place}
    (henter : ∀ link directory target next, disk.IsReal directory → target.IsRead →
      enter link directory target = .ok next → disk.IsReal next)
    {place last : Place} {names : List Text} (hreal : disk.IsReal place)
    (hnames : ∀ name ∈ names, name ≠ ".." → IsName name)
    (h : resolveOver disk enter place names = .ok last) : disk.IsReal last := by
  induction names generalizing place with
  | nil =>
    rw [resolveOver, Except.ok.injEq] at h
    rwa [← h]
  | cons name rest ih =>
    rw [resolveOver_cons] at h
    have hrest := fun other hother => hnames other (List.mem_cons_of_mem name hother)
    split at h
    · exact ih hreal.dropLast hrest h
    · rename_i hpoints
      split at h
      · rename_i hlink
        have hname := hnames name (List.mem_cons_self ..) hpoints
        exact ih (hreal.concat hname hlink) hrest h
      · split at h
        · rename_i next hnext
          exact ih (henter _ _ _ _ hreal (Path.isRead_ofText _) hnext) hrest h
        · simp at h

theorem linkOrigin_isReal (hreal : disk.IsReal place) (target : Path) :
    disk.IsReal (linkOrigin place target) := by
  unfold linkOrigin
  split
  · exact hreal
  · exact IsReal.nil disk

theorem resolveWithin_isReal {budget : Nat} {pending : List Place} {last : Place} {names : List Text}
    (hreal : disk.IsReal place) (hnames : ∀ name ∈ names, name ≠ ".." → IsName name)
    (h : resolveWithin disk budget pending place names = .ok last) : disk.IsReal last := by
  induction budget generalizing pending place names last with
  | zero => exact resolveOver_isReal (by simp) hreal hnames h
  | succ budget ih =>
    refine resolveOver_isReal ?_ hreal hnames h
    intro link directory target next hdirectory htarget hnext
    split at hnext
    · simp at hnext
    · exact ih (linkOrigin_isReal hdirectory target) htarget hnext

-- The names that resolving comes to, whether or not it meets a link that leads back to itself.
def reached : Except (List Text) Place → List Text
  | .ok place => place
  | .error names => names

theorem resolveOver_isRead {enter : Place → Place → Path → Except (List Text) Place}
    (henter : ∀ link directory target, (Path.ofPlace link).IsRead → (Path.ofPlace directory).IsRead →
      target.IsRead → (Path.ofPlace (reached (enter link directory target))).IsRead)
    {names : List Text} (hplace : (Path.ofPlace place).IsRead)
    (hnames : ∀ name ∈ names, name ≠ ".." → IsName name) :
    (Path.ofPlace (reached (resolveOver disk enter place names))).IsRead := by
  induction names generalizing place with
  | nil => exact hplace
  | cons name rest ih =>
    rw [resolveOver_cons]
    have hrest := fun other hother => hnames other (List.mem_cons_of_mem name hother)
    have hnext : (Path.ofPlace (place ++ [name])).IsRead := by
      intro part hpart
      rcases List.mem_append.mp hpart with h | h
      · exact hplace part h
      · rw [List.mem_singleton.mp h]
        exact hnames name (List.mem_cons_self ..)
    split
    · exact ih hplace.parent hrest
    · split
      · exact ih hnext hrest
      · rename_i target _
        have hfound := henter _ _ _ hnext hplace (Path.isRead_ofText target)
        split
        · rename_i next heq
          rw [heq] at hfound
          exact ih hfound hrest
        · rename_i found heq
          rw [heq] at hfound
          intro part hpart
          rcases List.mem_append.mp hpart with h | h
          · exact hfound part h
          · exact hrest part h

theorem resolveWithin_isRead {budget : Nat} {pending : List Place} {names : List Text}
    (hplace : (Path.ofPlace place).IsRead) (hnames : ∀ name ∈ names, name ≠ ".." → IsName name) :
    (Path.ofPlace (reached (resolveWithin disk budget pending place names))).IsRead := by
  induction budget generalizing pending place names with
  | zero =>
    refine resolveOver_isRead ?_ hplace hnames
    exact fun link directory target hlink _ _ => hlink
  | succ budget ih =>
    refine resolveOver_isRead ?_ hplace hnames
    intro link directory target hlink hdirectory htarget
    split
    · exact hlink
    · refine ih ?_ htarget
      unfold linkOrigin
      split
      · exact hdirectory
      · exact isRead_ofPlace (IsReal.nil disk)

-- Resolving names of a real place below another one goes straight down.
theorem resolveOver_of_isReal {enter : Place → Place → Path → Except (List Text) Place}
    {names : List Text} (h : disk.IsReal (place ++ names)) :
    resolveOver disk enter place names = .ok (place ++ names) := by
  induction names generalizing place with
  | nil => rw [resolveOver, List.append_nil]
  | cons name rest ih =>
    have hpoints : name ≠ ".." := (h.names name (by simp)).ne_points
    have hlink : disk.linkAt? (place ++ [name]) = none := h.noLink _ (by simp)
    rw [resolveOver_cons, if_neg hpoints, hlink, ih (by simpa using h), List.append_assoc,
      List.singleton_append]

theorem resolveWithin_of_isReal {names : List Text} (h : disk.IsReal (place ++ names)) (budget : Nat)
    (pending : List Place) :
    resolveWithin disk budget pending place names = .ok (place ++ names) := by
  cases budget <;> exact resolveOver_of_isReal h

-- Looking up a real place ends there, or in a fault other than too many links.
theorem walkOver_of_isReal {followLast : Bool} {enter : Place → Text → List Text → Except Fault Place}
    {names : List Text} (h : disk.IsReal (place ++ names)) :
    walkOver disk followLast enter place names = .ok (place ++ names) ∨
      ∃ fault ≠ .tooManyLinks, walkOver disk followLast enter place names = .error fault := by
  induction names generalizing place with
  | nil =>
    left
    rw [walkOver, List.append_nil]
  | cons name rest ih =>
    have hname := h.names name (by simp)
    have hlink : disk.linkAt? (place ++ [name]) = none := h.noLink _ (by simp)
    have hnext := @ih (place ++ [name]) (by simpa using h)
    rw [List.append_assoc, List.singleton_append] at hnext
    rw [walkOver, if_neg hname.ne_point, if_neg hname.ne_points]
    split
    · exact .inr ⟨_, by simp, rfl⟩
    · split
      · exact .inr ⟨_, by simp, rfl⟩
      · split
        · rename_i hnone
          split
          · rename_i hrest
            left
            rw [List.isEmpty_iff.mp hrest]
          · exact .inr ⟨_, by simp, rfl⟩
        · rename_i target hsome
          rw [linkAt?, hsome] at hlink
          simp at hlink
        · exact hnext

-- What is there is found, unless a name on the way is too long to be looked up.
theorem walkOver_of_isSome {followLast : Bool} {enter : Place → Text → List Text → Except Fault Place}
    {names : List Text} (tree : disk.IsTree) (hreal : disk.IsReal (place ++ names))
    (hsome : (disk.entry? (place ++ names)).isSome) :
    walkOver disk followLast enter place names = .ok (place ++ names) ∨
      walkOver disk followLast enter place names = .error .nameTooLong := by
  induction names generalizing place with
  | nil =>
    left
    rw [walkOver, List.append_nil]
  | cons name rest ih =>
    have hname := hreal.names name (by simp)
    have hlink : disk.linkAt? (place ++ [name]) = none := hreal.noLink _ (by simp)
    have hdirectory : disk.isDirectoryAt place := by
      simp [isDirectoryAt, tree.directory_of_isSome (by simp) hsome]
    rw [List.append_cons] at hreal hsome ⊢
    have hnext := ih hreal hsome
    rw [walkOver, if_neg hname.ne_point, if_neg hname.ne_points, if_neg (by simp [hdirectory])]
    split
    · exact .inr rfl
    · split
      · rename_i hnone
        split
        · rename_i hrest
          left
          rw [List.isEmpty_iff.mp hrest, List.append_nil]
        · rename_i hrest
          rw [List.isEmpty_iff] at hrest
          rw [tree.directory_of_isSome hrest hsome] at hnone
          simp at hnone
      · rename_i target hlinked
        rw [linkAt?, hlinked] at hlink
        simp at hlink
      · exact hnext

theorem origin_ofPlace (disk : Disk) (place : Place) : disk.origin (Path.ofPlace place) = [] := rfl

theorem locate_ofPlace (disk : Disk) (followLast : Bool) (place : Place) :
    disk.locate followLast (Path.ofPlace place) = walkWithin disk followLast maxLinks [] place := rfl

theorem locate_of_isReal (h : disk.IsReal place) (followLast : Bool) :
    disk.locate followLast (Path.ofPlace place) = .ok place ∨
      ∃ fault ≠ .tooManyLinks, disk.locate followLast (Path.ofPlace place) = .error fault := by
  rw [locate_ofPlace]
  exact @walkOver_of_isReal disk [] followLast _ place h

theorem find_of_isReal (h : disk.IsReal place) {found : Place} {entry : Entry}
    (hfind : disk.find (Path.ofPlace place) = .ok (found, entry)) :
    found = place ∧ disk.entry? place = some entry := by
  rw [find] at hfind
  rcases locate_of_isReal h true with hlocate | ⟨fault, _, hlocate⟩
  · rw [hlocate] at hfind
    cases hentry : disk.entry? place with
    | none => simp [hentry, bind, Except.bind] at hfind
    | some there =>
      simp only [bind, Except.bind, hentry, pure, Except.pure, Except.ok.injEq, Prod.mk.injEq]
        at hfind
      exact ⟨hfind.1.symm, congrArg some hfind.2⟩
  · rw [hlocate] at hfind
    simp [bind, Except.bind] at hfind

theorem find_of_entry (tree : disk.IsTree) (h : disk.IsReal place) {entry : Entry}
    (hentry : disk.entry? place = some entry) :
    disk.find (.ofPlace place) = .ok (place, entry) ∨
      disk.find (.ofPlace place) = .error .nameTooLong := by
  have hlocate : disk.locate true (.ofPlace place) = .ok place ∨
      disk.locate true (.ofPlace place) = .error .nameTooLong :=
    @walkOver_of_isSome disk [] true _ place tree h (by simp [hentry])
  rw [find]
  rcases hlocate with hlocate | hlocate
  · left
    simp [hlocate, hentry, bind, Except.bind, pure, Except.pure]
  · right
    simp [hlocate, bind, Except.bind]

theorem find_ne_tooManyLinks (h : disk.IsReal place) :
    disk.find (Path.ofPlace place) ≠ .error .tooManyLinks := by
  rw [find]
  rcases locate_of_isReal h true with hlocate | ⟨fault, hfault, hlocate⟩
  · cases hentry : disk.entry? place <;>
      simp [hlocate, hentry, bind, Except.bind, pure, Except.pure]
  · simp [hlocate, bind, Except.bind, hfault]

-- A path that leads to a place, without a link on the way that leads back to itself.
structure Resolves (disk : Disk) (path : Path) (place : Place) : Prop where
  names : checkNames (disk.origin path) path.names = .ok ()
  way : resolveWithin disk disk.linkCount [] (disk.origin path) path.names = .ok place

-- No link on the way of a path leads back to itself: that is what resolving names can fail at.
def Loopless (disk : Disk) (path : Path) : Prop :=
  ∃ place, resolveWithin disk disk.linkCount [] (disk.origin path) path.names = .ok place

-- No link leads back to itself.
def LoopFree (disk : Disk) : Prop :=
  ∀ place names, ∃ last, resolveWithin disk disk.linkCount [] place names = .ok last

theorem LoopFree.loopless (free : disk.LoopFree) (path : Path) : disk.Loopless path :=
  free (disk.origin path) path.names

theorem loopless_ofPlace (h : disk.IsReal place) : disk.Loopless (.ofPlace place) :=
  ⟨place, @resolveWithin_of_isReal disk [] place h disk.linkCount []⟩

-- A disk on which every link points to a real place has no loops.
theorem loopFree_of_real (h : ∀ entry ∈ disk.entries, ∀ target, entry.2 = .link target →
    disk.IsReal (linkOrigin entry.1.dropLast (Path.ofText target) ++ (Path.ofText target).names)) :
    disk.LoopFree := by
  intro place names
  cases hcount : disk.linkCount with
  | zero =>
    have hnone (place : Place) : disk.linkAt? place = none := by
      by_contra hsome
      obtain ⟨target, hlink⟩ := Option.ne_none_iff_exists'.mp hsome
      have hentry := linkAt?_eq_some.mp hlink
      have hne : place ≠ [] := by
        rintro rfl
        simp at hentry
      have hpos := List.countP_eq_zero.mp hcount _ (mem_of_entry hne hentry)
      simp at hpos
    induction names generalizing place with
    | nil => exact ⟨place, rfl⟩
    | cons name rest ih =>
      rw [resolveWithin, resolveOver_cons, hnone]
      split
      · exact ih _
      · exact ih _
  | succ count =>
    rw [resolveWithin]
    induction names generalizing place with
    | nil => exact ⟨place, rfl⟩
    | cons name rest ih =>
      rw [resolveOver_cons]
      split
      · exact ih _
      · split
        · exact ih _
        · rename_i target hlink
          have hmem := mem_of_entry (by simp) (linkAt?_eq_some.mp hlink)
          have hreal := h _ hmem target rfl
          rw [List.dropLast_concat] at hreal
          simp only [List.contains_nil, Bool.false_eq_true, if_false,
            resolveWithin_of_isReal hreal]
          exact ih _

theorem IsTree.origin (tree : disk.IsTree) (path : Path) : disk.IsReal (disk.origin path) := by
  unfold Disk.origin
  split
  · exact tree.current
  · exact IsReal.nil disk

theorem Resolves.isReal (tree : disk.IsTree) (hread : path.IsRead) (h : Resolves disk path place) :
    disk.IsReal place :=
  resolveWithin_isReal (tree.origin path) hread h.way

theorem Resolves.resolve (tree : disk.IsTree) (hread : path.IsRead) (h : Resolves disk path place) :
    disk.resolve path = .ok place := by
  have hreal := h.isReal tree hread
  rw [Disk.resolve, h.names, h.way]
  simp only [bind, Except.bind]
  split
  · rename_i hfind
    exact absurd hfind (find_ne_tooManyLinks hreal)
  · rfl

-- A loop on the way or not, what a path is resolved to has no double points.
theorem isName_of_resolve (tree : disk.IsTree) (hread : path.IsRead) (h : disk.resolve path = .ok place) :
    ∀ name ∈ place, IsName name := by
  have hreached := @resolveWithin_isRead disk (disk.origin path) disk.linkCount [] path.names
    (isRead_ofPlace (tree.origin path)) hread
  have hreal := @resolveWithin_isReal disk (disk.origin path) disk.linkCount []
  rw [Disk.resolve] at h
  cases hnames : checkNames (disk.origin path) path.names with
  | error e => simp [hnames, bind, Except.bind] at h
  | ok done =>
    simp only [hnames, bind, Except.bind] at h
    split at h
    · cases h
    · obtain rfl := Except.ok.inj h
      split
      · rename_i last hlast
        exact (hreal (tree.origin path) hread hlast).names
      · rename_i names hloop
        rw [hloop] at hreached
        exact fun name hname => Path.isName_of_mem_normalNames hreached hname

theorem resolves_of_resolve (loopless : disk.Loopless path) (h : disk.resolve path = .ok place) :
    Resolves disk path place := by
  obtain ⟨last, hlast⟩ := loopless
  rw [Disk.resolve, hlast] at h
  cases hnames : checkNames (disk.origin path) path.names with
  | error e => simp [hnames, bind, Except.bind] at h
  | ok done =>
    simp only [hnames, bind, Except.bind] at h
    split at h
    · simp at h
    · simp only [pure, Except.pure, Except.ok.injEq] at h
      exact ⟨hnames, h ▸ hlast⟩

theorem SameLinks.origin (h : SameLinks disk other) (path : Path) :
    other.origin path = disk.origin path := by
  simp [Disk.origin, h.current]

theorem Resolves.congr (h : SameLinks disk other) (hresolves : Resolves disk path place) :
    Resolves other path place :=
  ⟨h.origin path ▸ hresolves.names,
    by rw [h.origin, ← resolveWithin_congr h, ← h.count, hresolves.way]⟩

theorem Loopless.congr (h : SameLinks disk other) (loopless : disk.Loopless path) :
    other.Loopless path := by
  obtain ⟨place, hplace⟩ := loopless
  exact ⟨place, by rw [h.origin, ← resolveWithin_congr h, ← h.count, hplace]⟩

theorem LoopFree.congr (h : SameLinks disk other) (free : disk.LoopFree) : other.LoopFree := by
  intro place names
  rw [← resolveWithin_congr h, ← h.count]
  exact free place names

-- A path that leads to a real place does so as long as the links stay.
theorem resolve_congr (h : SameLinks disk other) (hreal : disk.IsReal place)
    (hresolve : disk.resolve path = .ok place) : other.resolve path = .ok place := by
  rw [Disk.resolve] at hresolve ⊢
  rw [h.origin, ← resolveWithin_congr h, ← h.count]
  cases hnames : checkNames (disk.origin path) path.names with
  | error e => simp [hnames, bind, Except.bind] at hresolve
  | ok done =>
    simp only [hnames, bind, Except.bind] at hresolve ⊢
    split at hresolve
    · simp at hresolve
    · simp only [pure, Except.pure, Except.ok.injEq] at hresolve
      rw [hresolve]
      split
      · rename_i hfind
        exact absurd hfind (find_ne_tooManyLinks (h.isReal hreal))
      · rfl

-- A directory without links on the way to it and below it.
structure IsClear (disk : Disk) (place : Place) : Prop where
  real : disk.IsReal place
  below : ∀ other, place <+: other → disk.linkAt? other = none

theorem IsClear.isReal_append (h : disk.IsClear place) {names : List Text}
    (hnames : ∀ name ∈ names, IsName name) : disk.IsReal (place ++ names) :=
  h.real.append hnames h.below

theorem IsClear.congr (h : SameLinks disk other) (hclear : disk.IsClear place) : other.IsClear place :=
  ⟨h.isReal hclear.real, fun start hstart => by rw [← h.link, hclear.below start hstart]⟩

-- A real place is resolved to itself unless its path has no form in bytes.
theorem resolve_ofPlace (h : disk.IsReal place) :
    disk.resolve (.ofPlace place) = (checkNames [] place).map fun _ => place := by
  have hnames : checkNames (disk.origin (.ofPlace place)) (Path.ofPlace place).names =
      checkNames [] place := rfl
  have hway : resolveWithin disk disk.linkCount [] (disk.origin (.ofPlace place))
      (Path.ofPlace place).names = .ok place :=
    @resolveWithin_of_isReal disk [] place h disk.linkCount []
  rw [Disk.resolve, hnames, hway]
  cases checkNames [] place with
  | error e => rfl
  | ok done =>
    simp only [bind, Except.bind]
    split
    · rename_i hfind
      exact absurd hfind (find_ne_tooManyLinks h)
    · rfl

theorem resolve_ofPlace_eq_ok (h : disk.IsReal place) {found : Place}
    (hresolve : disk.resolve (.ofPlace place) = .ok found) :
    checkNames [] place = .ok () ∧ place = found := by
  rw [resolve_ofPlace h] at hresolve
  cases hchecked : checkNames [] place with
  | error e => simp [hchecked, Except.map] at hresolve
  | ok done =>
    rw [hchecked] at hresolve
    exact ⟨rfl, Except.ok.inj hresolve⟩

-- The last of the names that are checked makes up the whole path.
theorem checkText_of_checkNames {names : List Text} (hne : names ≠ [])
    (hnames : ∀ name ∈ names, IsName name) (h : checkNames place names = .ok ()) :
    checkText (Path.ofPlace (place ++ names)).text = .ok () := by
  induction names generalizing place with
  | nil => exact absurd rfl hne
  | cons name rest ih =>
    have hname := hnames name (List.mem_cons_self ..)
    rw [checkNames, if_neg hname.ne_points] at h
    cases hfirst : checkText (Path.ofPlace (place ++ [name])).text with
    | error e => simp [hfirst, bind, Except.bind] at h
    | ok done =>
      simp only [hfirst, bind, Except.bind] at h
      by_cases hrest : rest = []
      · rw [hrest, hfirst]
      · rw [List.append_cons]
        exact ih hrest (fun other hother => hnames other (List.mem_cons_of_mem name hother)) h

end HookGen.Disk
