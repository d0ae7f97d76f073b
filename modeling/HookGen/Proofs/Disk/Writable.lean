import HookGen.Proofs.Disk.Write

/-!
Where a file can be written: in a directory that is there, under names that a disk takes.
-/

namespace HookGen.Disk

open Run

variable {disk last : Disk} {place above : Place} {name : Text}

-- A place in a directory that is there, free or with a file, that every operation takes a path to.
structure Writable (disk : Disk) (above : Place) (name : Text) : Prop where
  real : disk.IsReal (above ++ [name])
  directory : disk.entry? above = some .directory
  free : disk.entry? (above ++ [name]) ≠ some .directory
  fits : ∀ part ∈ above ++ [name], isTooLong part = false
  checked : checkNames [] (above ++ [name]) = .ok ()

instance (disk : Disk) (above : Place) (name : Text) : Decidable (Writable disk above name) :=
  decidable_of_iff (disk.IsReal (above ++ [name]) ∧ disk.entry? above = some .directory ∧
      disk.entry? (above ++ [name]) ≠ some .directory ∧
      (∀ part ∈ above ++ [name], isTooLong part = false) ∧ checkNames [] (above ++ [name]) = .ok ())
    ⟨fun ⟨real, directory, free, fits, checked⟩ => ⟨real, directory, free, fits, checked⟩,
      fun ⟨real, directory, free, fits, checked⟩ => ⟨real, directory, free, fits, checked⟩⟩

theorem checkNames_concat {start names : List Text} (hnames : ∀ part ∈ names, part ≠ "..")
    (h : checkNames start (names ++ [name]) = .ok ()) : checkNames start names = .ok () := by
  induction names generalizing start with
  | nil => rfl
  | cons first rest ih =>
    have hfirst := hnames first (List.mem_cons_self ..)
    rw [List.cons_append, checkNames, if_neg hfirst] at h
    rw [checkNames, if_neg hfirst]
    cases hcheck : checkText (Path.ofPlace (start ++ [first])).text with
    | error e => simp [hcheck, bind, Except.bind] at h
    | ok done =>
      simp only [hcheck, bind, Except.bind] at h ⊢
      exact ih (fun part hpart => hnames part (List.mem_cons_of_mem first hpart)) h

theorem unencodable?_of_append {t rest : Text} {position : Nat}
    (h : unencodable? position (t ++ rest) = none) : unencodable? position t = none := by
  induction t generalizing position with
  | nil => rfl
  | cons c others ih =>
    cases c with
    | char ch => exact ih h
    | surrogate offset =>
      rw [List.cons_append, unencodable?] at h
      rw [unencodable?]
      split at h
      · rename_i hescaped
        rw [if_pos hescaped]
        exact ih h
      · simp at h

theorem checkText_of_append {t rest : Text} (h : checkText (t ++ rest) = .ok ()) : checkText t = .ok () := by
  rw [checkText] at h ⊢
  split at h
  · simp at h
  · rename_i hnone
    rw [unencodable?_of_append hnone]
    rw [List.any_append] at h
    cases hzero : t.any (·.toNat == 0) with
    | true => simp [hzero] at h
    | false => rfl

theorem text_prefix (place names : List Text) :
    (Path.ofPlace place).text <+: (Path.ofPlace (place ++ names)).text := by
  rw [Path.ofPlace, Path.ofPlace, Path.text_root, Path.text_root, List.prefix_append_right_inj]
  induction place with
  | nil => exact List.nil_prefix
  | cons first rest ih =>
    cases rest with
    | nil =>
      cases names with
      | nil => exact List.prefix_refl _
      | cons second others =>
        rw [List.singleton_append, Text.join_cons_cons, Text.join_singleton, List.append_assoc]
        exact List.prefix_append ..
    | cons second others =>
      rw [List.cons_append, List.cons_append, Text.join_cons_cons, Text.join_cons_cons,
        List.prefix_append_right_inj]
      exact ih

-- Where the whole path has a form in bytes, so has each part of it.
theorem checkNames_of_checkText {names : List Text} (hnames : ∀ name ∈ names, IsName name)
    (h : checkText (Path.ofPlace (place ++ names)).text = .ok ()) : checkNames place names = .ok () := by
  induction names generalizing place with
  | nil => rfl
  | cons first rest ih =>
    obtain ⟨hfirst, hrest⟩ := List.forall_mem_cons.mp hnames
    rw [List.append_cons] at h
    obtain ⟨others, hothers⟩ := text_prefix (place ++ [first]) rest
    have hchecked : checkText (Path.ofPlace (place ++ [first])).text = .ok () :=
      @checkText_of_append _ others (by rw [hothers, h])
    rw [checkNames, if_neg hfirst.ne_points, hchecked]
    exact ih hrest h

-- Looking up a place in a directory that is there ends at this place.
theorem walkOver_of_directory {followLast : Bool}
    {enter : Place → Text → List Text → Except Fault Place} {names : List Text} (tree : disk.IsTree)
    (hreal : disk.IsReal (place ++ names ++ [name]))
    (hdirectory : disk.entry? (place ++ names) = some .directory)
    (hfits : ∀ part ∈ names ++ [name], isTooLong part = false) :
    walkOver disk followLast enter place (names ++ [name]) = .ok (place ++ names ++ [name]) := by
  induction names generalizing place with
  | nil =>
    simp only [List.append_nil, List.nil_append, List.mem_singleton, forall_eq] at hreal hdirectory hfits ⊢
    have hname := hreal.names name (by simp)
    have hlink := hreal.noLink (place ++ [name]) (List.prefix_refl _)
    rw [walkOver, if_neg hname.ne_point, if_neg hname.ne_points, hfits,
      if_neg (by simp [isDirectoryAt, hdirectory]), if_neg (by simp)]
    split
    · rfl
    · rename_i target hentry
      simp [linkAt?, hentry] at hlink
    · rw [walkOver]
  | cons first rest ih =>
    have hname := hreal.names first (by simp)
    have hthere : disk.entry? place = some .directory :=
      tree.directory_of_isSome (List.cons_ne_nil first rest) (by simp [hdirectory])
    have hsplit : place ++ first :: rest = place ++ [first] ++ rest := List.append_cons ..
    rw [hsplit] at hreal hdirectory ⊢
    have hnext : disk.entry? (place ++ [first]) = some .directory := by
      by_cases hrest : rest = []
      · simpa [hrest] using hdirectory
      · exact tree.directory_of_isSome hrest (by rw [hdirectory]; rfl)
    rw [List.cons_append, walkOver, if_neg hname.ne_point, if_neg hname.ne_points,
      hfits first (by simp), if_neg (by simp [isDirectoryAt, hthere]), if_neg (by simp), hnext]
    exact ih hreal hdirectory fun part hpart => hfits part (List.mem_cons_of_mem first hpart)

theorem locate_of_directory (tree : disk.IsTree) (hreal : disk.IsReal (above ++ [name]))
    (hdirectory : disk.entry? above = some .directory)
    (hfits : ∀ part ∈ above ++ [name], isTooLong part = false) :
    disk.locate true (.ofPlace (above ++ [name])) = .ok (above ++ [name]) :=
  @walkOver_of_directory disk [] name true _ above tree hreal hdirectory hfits

-- Only a name that is too long is refused for its length.
theorem walkOver_ne_nameTooLong {followLast : Bool} {enter : Place → Text → List Text → Except Fault Place}
    {names : List Text} (hreal : disk.IsReal (place ++ names)) (hfits : ∀ part ∈ names, isTooLong part = false) :
    walkOver disk followLast enter place names ≠ .error .nameTooLong := by
  induction names generalizing place with
  | nil => simp [walkOver]
  | cons first rest ih =>
    have hname := hreal.names first (by simp)
    have hlink : disk.linkAt? (place ++ [first]) = none := hreal.noLink _ (by simp)
    rw [List.append_cons] at hreal
    have hnext := ih hreal fun part hpart => hfits part (List.mem_cons_of_mem first hpart)
    rw [walkOver]
    split
    · simp
    · rw [if_neg hname.ne_point, if_neg hname.ne_points, hfits first (by simp), if_neg (by simp)]
      split
      · split <;> simp
      · rename_i target hentry
        simp [linkAt?, hentry] at hlink
      · exact hnext

theorem exists_isFile (hreal : disk.IsReal place) (hfits : ∀ part ∈ place, isTooLong part = false) :
    ∃ there, disk.isFile (.ofPlace place) = .ok there := by
  have hlocate : disk.locate true (.ofPlace place) ≠ .error .nameTooLong :=
    @walkOver_ne_nameTooLong disk [] true _ place hreal hfits
  have hfind : disk.find (.ofPlace place) ≠ .error .nameTooLong := by
    rw [find]
    cases hplace : disk.locate true (.ofPlace place) with
    | error fault => simpa [hplace, bind, Except.bind] using hlocate
    | ok found => cases hentry : disk.entry? found <;> simp [hentry, bind, Except.bind, pure, Except.pure]
  rw [isFile, ask]
  split
  · exact ⟨false, rfl⟩
  · split
    · exact ⟨_, rfl⟩
    · rename_i hrefused
      exact absurd hrefused hfind
    · exact ⟨false, rfl⟩

-- Nothing is found at a free place.
theorem pathExists_of_free (tree : disk.IsTree) (h : Writable disk above name)
    (hnone : disk.entry? (above ++ [name]) = none) : disk.pathExists (.ofPlace (above ++ [name])) = .ok false := by
  have hlocate := locate_of_directory tree h.real h.directory h.fits
  have hfind : disk.find (.ofPlace (above ++ [name])) = .error .missing := by
    simp [find, hlocate, hnone, bind, Except.bind]
  rw [pathExists, ask, hfind]
  split <;> rfl

-- A directory that is there is found.
theorem locate_directory (tree : disk.IsTree) (hdirectory : disk.entry? place = some .directory)
    (hfits : ∀ part ∈ place, isTooLong part = false) :
    disk.locate true (.ofPlace place) = .ok place := by
  have hreal := isReal_of_directory tree hdirectory
  rcases List.eq_nil_or_concat' place with rfl | ⟨above, name, rfl⟩
  · rfl
  · exact locate_of_directory tree hreal (tree.parent above name (by rw [hdirectory]; rfl)) hfits

-- A directory that is there need not be made.
theorem freePlace_of_directory (tree : disk.IsTree) (hdirectory : disk.entry? place = some .directory)
    (hfits : ∀ part ∈ place, isTooLong part = false) :
    disk.freePlace (.ofPlace place) = .error .alreadyThere := by
  rcases List.eq_nil_or_concat' place with rfl | ⟨above, name, rfl⟩
  · rfl
  · have habove := tree.parent above name (by rw [hdirectory]; rfl)
    have hlocate := locate_directory tree habove fun part hpart => hfits part (by simp [hpart])
    have hparent : Path.parent (.ofPlace (above ++ [name])) = .ofPlace above := by
      simp [Path.parent, Path.ofPlace]
    have hname : Path.name (.ofPlace (above ++ [name])) = name := by simp [Path.name, Path.ofPlace]
    rw [freePlace, hparent, hlocate, hname]
    simp [habove, hfits, hdirectory, bind, Except.bind]

theorem makeLastDirectory_of_directory (tree : disk.IsTree)
    (hdirectory : disk.entry? place = some .directory)
    (hfits : ∀ part ∈ place, isTooLong part = false)
    (hchecked : checkText (Path.ofPlace place).text = .ok ()) :
    Ends (makeLastDirectory (.ofPlace place)) disk disk (.ok ()) := by
  have hthere : disk.isDirectory (.ofPlace place) = .ok true :=
    isDirectory_eq_true.mpr ⟨hchecked, place, locate_directory tree hdirectory hfits, hdirectory⟩
  have hmake : disk.makeDirectory (.ofPlace place) =
      .error (.refused .alreadyThere (Path.ofPlace place).text) :=
    makeDirectory_eq_refused.mpr ⟨hchecked, freePlace_of_directory tree hdirectory hfits, rfl⟩
  exact makeLastDirectory_of_there (by simp) hmake hthere

theorem makeDirectories_of_directory (tree : disk.IsTree)
    (hdirectory : disk.entry? place = some .directory)
    (hfits : ∀ part ∈ place, isTooLong part = false)
    (hchecked : checkText (Path.ofPlace place).text = .ok ()) :
    Ends (makeDirectories (.ofPlace place)) disk disk (.ok ()) := by
  have hlast := makeLastDirectory_of_directory tree hdirectory hfits hchecked
  rcases List.eq_nil_or_concat' place with rfl | ⟨above, name, rfl⟩
  · exact hlast
  · have hnames : (Path.ofPlace (above ++ [name])).names.reverse = name :: above.reverse := by
      simp [Path.ofPlace]
    have hpath : Path.mk (Path.ofPlace (above ++ [name])).anchor (name :: above.reverse).reverse =
        .ofPlace (above ++ [name]) := by
      simp [Path.ofPlace]
    rw [makeDirectories, hnames, makeDirectoriesUp, hpath, ends_orElse]
    exact .inl ⟨(), hlast, rfl⟩

theorem Writable.checkText_above (h : Writable disk above name) :
    checkText (Path.ofPlace above).text = .ok () := by
  by_cases hne : above = []
  · rw [hne]
    decide
  · have hnames : ∀ part ∈ above, IsName part := fun part hpart => h.real.names part (by simp [hpart])
    have hchecked := checkNames_concat (fun part hpart => (hnames part hpart).ne_points) h.checked
    simpa using checkText_of_checkNames hne hnames hchecked

-- Writing there fails at nothing but the text, and changes nothing else.
theorem writePieces_of_writable (tree : disk.IsTree) (h : Writable disk above name) (text : Text) :
    ∃ last, Ends (writePieces (.ofPlace (above ++ [name])) [text]) disk last
        (((Utf8.encode text).mapError .unwritable).map fun _ => ()) ∧
      ∀ other, last.entry? other =
        if other = above ++ [name] then some (.file (bytesOf text)) else disk.entry? other := by
  have hparent : Path.parent (.ofPlace (above ++ [name])) = .ofPlace above := by
    simp [Path.parent, Path.ofPlace]
  have hmake := makeDirectories_of_directory tree h.directory
    (fun part hpart => h.fits part (by simp [hpart])) h.checkText_above
  have hopen : disk.openForWriting (.ofPlace (above ++ [name])) =
      .ok (disk.put (above ++ [name]) (.file []), above ++ [name]) := by
    have hchecked := checkText_of_checkNames (by simp) h.real.names h.checked
    rw [List.nil_append] at hchecked
    exact openForWriting_eq_ok.mpr
      ⟨hchecked, locate_of_directory tree h.real h.directory h.fits, h.free, rfl⟩
  rw [writePieces, hparent]
  refine ⟨_, (ends_bind_of_ok hmake).mpr ((ends_bind_of_ok (ends_change_ok hopen)).mpr
    (ends_appendPieces.mpr ⟨rfl, rfl⟩)), fun other => ?_⟩
  have hplace : above ++ [name] ≠ [] := by simp
  cases hencode : Utf8.encode text with
  | error e =>
    simp only [bytesOf, hencode, Except.toOption, Option.elim, Option.getD_none]
    exact entry_put hplace _ other
  | ok bytes =>
    simp only [bytesOf, hencode, Except.toOption, Option.elim, Option.getD_some, append_opened hplace,
      entry_put hplace]
    split <;> rfl

-- Writing one file leaves room for the others.
theorem Writable.of_writes {bytes : Bytes}
    (h : Writable disk above name) (hfree : disk.entry? place ≠ some .directory)
    (hlinks : SameLinks disk last) (hentry : ∀ other, last.entry? other =
      if other = place then some (.file bytes) else disk.entry? other) :
    Writable last above name where
  real := hlinks.isReal h.real
  directory := by
    have hne : above ≠ place := fun heq => hfree (heq ▸ h.directory)
    rw [hentry, if_neg hne, h.directory]
  free := by
    rw [hentry]
    split
    · simp
    · exact h.free
  fits := h.fits
  checked := h.checked

end HookGen.Disk
