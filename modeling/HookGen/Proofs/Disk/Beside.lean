import HookGen.Proofs.Disk.Removal
import HookGen.Proofs.Disk.Write

/-!
Two disks of which one has a file that the other lacks. A path leads to the same place on both, unless
it goes over this file, and what succeeds without the file succeeds beside it.
-/

namespace HookGen.Disk

open Run

variable {bare disk later last : Disk} {place other found : Place} {path : Path}

structure Beside (bare disk : Disk) (place : Place) : Prop where
  bareTree : bare.IsTree
  tree : disk.IsTree
  links : SameLinks bare disk
  free : bare.entry? place = none
  file : ∃ bytes, disk.entry? place = some (.file bytes)
  same : ∀ other, other ≠ place → disk.entry? other = bare.entry? other

-- A disk without one of its files.
theorem beside_erase (tree : disk.IsTree) {bytes : Bytes} (hfile : disk.entry? place = some (.file bytes)) :
    Beside (disk.erase place) disk place := by
  have hne := ne_nil_of_file hfile
  refine ⟨tree.erase hne (tree.none_of_file hfile), tree,
    (SameLinks.erase tree hne (by simp [linkAt?, hfile])).symm, ?_,
    ⟨bytes, hfile⟩, fun other hother => ?_⟩
  · rw [entry_erase hne, if_pos rfl]
  · rw [entry_erase hne, if_neg hother]

namespace Beside

theorem ne_nil (h : Beside bare disk place) : place ≠ [] := by
  rintro rfl
  simpa using h.free

theorem directory_iff (h : Beside bare disk place) :
    disk.entry? other = some .directory ↔ bare.entry? other = some .directory := by
  obtain ⟨bytes, hfile⟩ := h.file
  by_cases hother : other = place
  · simp [hother, hfile, h.free]
  · rw [h.same other hother]

theorem isDirectoryAt (h : Beside bare disk place) : disk.isDirectoryAt other = bare.isDirectoryAt other := by
  rw [Bool.eq_iff_iff]
  simpa [Disk.isDirectoryAt] using h.directory_iff

theorem more (h : Beside bare disk place) : Extends bare disk where
  links := h.links
  directory := fun _ => h.directory_iff.mpr
  there := by
    intro other hthere
    have hother : other ≠ place := by
      rintro rfl
      simp [h.free] at hthere
    rwa [h.same other hother]

-- How looking up names ends on both disks, and on a third one with more on it than the first one but
-- nothing at the place of the file: in the same way, or else it comes to the file, which the others miss.
def Meets (bare disk later : Except Fault Place) : Prop :=
  disk = bare ∨ bare = .error .missing ∧ disk = .error .notADirectory ∧ later = .error .missing

theorem walkOver_meets (h : Beside bare disk place) (hmore : Extends bare later)
    (hfree : later.entry? place = none)
    {enter enter' enter'' : Place → Text → List Text → Except Fault Place}
    (henter : ∀ directory target rest, Meets (enter directory target rest) (enter' directory target rest)
      (enter'' directory target rest)) (start : Place) (names : List Text) :
    Meets (walkOver bare true enter start names) (walkOver disk true enter' start names)
      (walkOver later true enter'' start names) := by
  induction names generalizing start with
  | nil => exact .inl (by rw [walkOver, walkOver])
  | cons name rest ih =>
    by_cases hdirectory : bare.entry? start = some .directory
    · have hdisk := h.directory_iff.mpr hdirectory
      have hlater := hmore.directory _ hdirectory
      by_cases hpoint : name = "."
      · rw [hpoint, walkOver_point hdirectory, walkOver_point hdisk, walkOver_point hlater]
        exact ih start
      · by_cases hpoints : name = ".."
        · rw [hpoints, walkOver_points hdirectory, walkOver_points hdisk, walkOver_points hlater]
          exact ih start.dropLast
        · by_cases hfits : isTooLong name = true
          · left
            rw [walkOver, walkOver]
            simp [Disk.isDirectoryAt, hdirectory, hdisk, hpoint, hpoints, hfits]
          · have hpart : IsPart name := ⟨hpoint, hpoints, by simpa using hfits⟩
            rw [walkOver_part hdirectory hpart, walkOver_part hdisk hpart, walkOver_part hlater hpart,
              ← h.links.link, ← hmore.links.link]
            cases hlink : bare.linkAt? (start ++ [name]) with
            | some target => exact henter start target rest
            | none =>
              by_cases hplace : start ++ [name] = place
              · -- the file ends the way of all names but the last one
                obtain ⟨bytes, hfile⟩ := h.file
                rw [hplace, h.free, hfree, hfile]
                cases rest with
                | nil => exact .inl (by simp [walkOver])
                | cons second others =>
                  refine .inr ⟨by simp, ?_, by simp⟩
                  simp [walkOver, Disk.isDirectoryAt, hfile]
              · rw [h.same _ hplace]
                by_cases hthere : (bare.entry? (start ++ [name])).isSome = true
                · simp only [hthere, hmore.there _ hthere, if_true]
                  exact ih (start ++ [name])
                · left
                  simp only [hthere, if_false, Bool.false_eq_true]
    · have hdisk : disk.entry? start ≠ some .directory := mt h.directory_iff.mp hdirectory
      left
      rw [walkOver, walkOver]
      simp [Disk.isDirectoryAt, hdirectory, hdisk]

theorem locate_meets (h : Beside bare disk place) (hmore : Extends bare later)
    (hfree : later.entry? place = none) (path : Path) :
    Meets (bare.locate true path) (disk.locate true path) (later.locate true path) := by
  have hwalk (links : Nat) (start : Place) (names : List Text) :
      Meets (walkWithin bare true links start names) (walkWithin disk true links start names)
        (walkWithin later true links start names) := by
    induction links generalizing start names with
    | zero => exact h.walkOver_meets hmore hfree (fun _ _ _ => .inl rfl) start names
    | succ links ih => exact h.walkOver_meets hmore hfree (fun _ _ _ => ih _ _) start names
  rw [locate, locate, locate, h.links.origin, hmore.links.origin]
  exact hwalk maxLinks _ _

theorem locate_cases (h : Beside bare disk place) (path : Path) :
    disk.locate true path = bare.locate true path ∨
      bare.locate true path = .error .missing ∧ disk.locate true path = .error .notADirectory :=
  (h.locate_meets (.refl bare) h.free path).imp_right fun ⟨hbare, hdisk, _⟩ => ⟨hbare, hdisk⟩

-- What a path leads to is the same on both disks, or it is the file or leads over it.
theorem find_cases (h : Beside bare disk place) (path : Path) :
    disk.find path = bare.find path ∨ bare.find path = .error .missing ∧
      (disk.locate true path = .ok place ∨ disk.find path = .error .notADirectory) := by
  rw [find, find]
  rcases h.locate_cases path with heq | ⟨hbare, hdisk⟩
  · rw [heq]
    cases hlocate : bare.locate true path with
    | error fault => exact .inl rfl
    | ok found =>
      simp only [bind, Except.bind]
      by_cases hfound : found = place
      · rw [hfound, h.free]
        exact .inr ⟨rfl, .inl rfl⟩
      · rw [h.same _ hfound]
        exact .inl rfl
  · rw [hbare, hdisk]
    exact .inr ⟨rfl, .inr rfl⟩

theorem resolve_eq (h : Beside bare disk place) (path : Path) : disk.resolve path = bare.resolve path := by
  obtain ⟨bytes, hfile⟩ := h.file
  have hloop (path : Path) :
      disk.find path = .error .tooManyLinks ↔ bare.find path = .error .tooManyLinks := by
    rcases h.find_cases path with heq | ⟨hbare, hlocate | hdisk⟩
    · rw [heq]
    · have hdisk : disk.find path = .ok (place, .file bytes) := by
        simp [find, hlocate, hfile, bind, Except.bind, pure, Except.pure]
      simp [hbare, hdisk]
    · simp [hbare, hdisk]
  rw [Disk.resolve, Disk.resolve, h.links.origin, ← resolveWithin_congr h.links, ← h.links.count]
  -- what is found at the end matters only if it is a loop
  dsimp only
  generalize hend : Path.ofPlace _ = found
  by_cases hfind : bare.find found = .error .tooManyLinks
  · rw [hfind, (hloop _).mpr hfind]
  · have hdisk := mt (hloop _).mp hfind
    split
    · rename_i heq
      exact absurd heq hdisk
    · rfl

-- A question is answered in the same way, unless the path leads to the file.
theorem ask_cases (h : Beside bare disk place) (path : Path) (question : Entry → Bool) :
    disk.ask path question = bare.ask path question ∨
      disk.locate true path = .ok place ∧ bare.ask path question = .ok false := by
  rw [ask, ask]
  cases checkText path.text with
  | error e => exact .inl rfl
  | ok done =>
    rcases h.find_cases path with heq | ⟨hbare, hlocate | hdisk⟩
    · rw [heq]
      exact .inl rfl
    · rw [hbare]
      exact .inr ⟨hlocate, rfl⟩
    · rw [hbare, hdisk]
      exact .inl rfl

-- Nothing that can be read without the file is the file.
theorem read_eq (h : Beside bare disk place) {bytes : Bytes} (hread : bare.read path = .ok bytes) :
    disk.read path = .ok bytes := by
  rw [Disk.read] at hread ⊢
  rcases h.find_cases path with heq | ⟨hbare, _⟩
  · rwa [heq]
  · rw [hbare] at hread
    cases hcheck : checkText path.text with
    | error e => simp [hcheck, bind, Except.bind] at hread
    | ok done => simp [hcheck, refuse, bind, Except.bind] at hread

theorem freePlace_eq (h : Beside bare disk place) (hfound : found ≠ place)
    (hfree : bare.freePlace path = .ok found) : disk.freePlace path = .ok found := by
  obtain ⟨above, hlocate, hdirectory, hnames, hpoints, hfits, hnone, rfl⟩ := freePlace_eq_ok.mp hfree
  exact freePlace_eq_ok.mpr ⟨above, h.more.locate_eq hlocate, h.directory_iff.mpr hdirectory, hnames, hpoints,
    hfits, by rw [h.same _ hfound, hnone], rfl⟩

-- Where directories are missing without the file, they are so beside it, unless the path goes over the
-- file, so that it goes nowhere as long as there is no directory in its place.
theorem freePlace_missing (h : Beside bare disk place) (hmissing : bare.freePlace path = .error .missing)
    (hmore : Extends bare later) (hfree : later.entry? place = none) :
    disk.freePlace path = .error .missing ∨ later.freePlace path = .error .missing := by
  simp only [freePlace_eq_missing] at hmissing ⊢
  rcases hmissing with hlocate | ⟨above, hlocate, hnone⟩
  · rcases h.locate_meets hmore hfree path.parent with heq | ⟨_, _, hlater⟩
    · exact .inl (.inl (heq.trans hlocate))
    · exact .inr (.inl hlater)
  · by_cases habove : above = place
    · exact .inr (.inr ⟨above, hmore.locate_eq hlocate, habove ▸ hfree⟩)
    · exact .inl (.inr ⟨above, h.more.locate_eq hlocate, by rw [h.same _ habove, hnone]⟩)

theorem isDirectory_eq (h : Beside bare disk place) (hthere : bare.isDirectory path = .ok true) :
    disk.isDirectory path = .ok true := by
  rcases h.ask_cases path (· == .directory) with heq | ⟨_, hno⟩
  · exact heq.trans hthere
  · simp [Disk.isDirectory, hno] at hthere

-- The same change of another place keeps the disks beside each other.
theorem put (h : Beside bare disk place) (hother : other ≠ place) (hread : bare.IsReal other)
    {above : Place} {name : Text} (hplace : above ++ [name] = other)
    (hdirectory : bare.entry? above = some .directory) (hold : bare.entry? other ≠ some .directory)
    {entry : Entry} (hentry : ∀ target, entry ≠ .link target) :
    Beside (bare.put other entry) (disk.put other entry) place := by
  subst hplace
  have hne : above ++ [name] ≠ [] := by simp
  have hname := hread.names name (by simp)
  have hlink := hread.noLink _ (List.prefix_refl _)
  refine ⟨h.bareTree.put hname hdirectory hentry hold,
    h.tree.put hname (h.directory_iff.mpr hdirectory) hentry (mt h.directory_iff.mp hold), ?_, ?_, ?_,
    fun third hthird => ?_⟩
  · exact (SameLinks.put h.bareTree hne hlink hentry).symm.trans
      (h.links.trans (.put h.tree hne (by rw [← h.links.link, hlink]) hentry))
  · rw [entry_put hne, if_neg hother.symm, h.free]
  · rw [entry_put hne, if_neg hother.symm]
    exact h.file
  · rw [entry_put hne, entry_put hne, h.same third hthird]

-- Making directories: what is made without the file is made beside it.
theorem makeLastDirectory (h : Beside bare disk place) (hread : path.IsRead)
    (hmake : Ends (makeLastDirectory path) bare last (.ok ())) (hplace : last.entry? place ≠ some .directory) :
    ∃ next, Ends (Run.makeLastDirectory path) disk next (.ok ()) ∧ Beside last next place := by
  rcases makeLastDirectory_cases hmake with
    ⟨hmade, _⟩ | ⟨rfl, ⟨⟨fault, hfault, hrefused⟩, hthere, _⟩ | ⟨_, herror, _⟩⟩
  · obtain ⟨hchecked, found, hfree, rfl⟩ := makeDirectory_eq_ok.mp hmade
    obtain ⟨above, name, rfl, hname, hdirectory, hnone⟩ := freePlace_cases hread hfree
    have hfound : above ++ [name] ≠ place := by
      rintro rfl
      exact hplace (by rw [entry_put (by simp), if_pos rfl])
    have hreal := (isReal_of_directory h.bareTree hdirectory).concat hname (linkAt?_of_none hnone)
    refine ⟨disk.put (above ++ [name]) .directory, makeLastDirectory_of_made ?_,
      h.put hfound hreal rfl hdirectory (by simp [hnone]) (by simp)⟩
    exact makeDirectory_eq_ok.mpr ⟨hchecked, _, h.freePlace_eq hfound hfree, rfl⟩
  · have hthere' := h.isDirectory_eq hthere
    obtain ⟨fault', hfault', hrefused'⟩ := makeDirectory_of_isDirectory hread hthere'
    exact ⟨disk, makeLastDirectory_of_there hfault' hrefused' hthere', h⟩
  · simp at herror

theorem makeDirectoriesUp (h : Beside bare disk place) {anchor : Anchor} {names : List Text}
    (hread : Path.IsRead ⟨anchor, names.reverse⟩)
    (hmake : Ends (makeDirectoriesUp anchor names) bare last (.ok ()))
    (hplace : last.entry? place ≠ some .directory) :
    ∃ next, Ends (Run.makeDirectoriesUp anchor names) disk next (.ok ()) ∧ Beside last next place := by
  induction names generalizing bare disk last with
  | nil => exact h.makeLastDirectory hread hmake hplace
  | cons name above ih =>
    rw [Run.makeDirectoriesUp, ends_orElse] at hmake
    rcases hmake with ⟨_, hmade, _⟩ | ⟨mid, e, hfailed, hhandle⟩
    · obtain ⟨next, hnext, hbeside⟩ := h.makeLastDirectory hread hmade hplace
      refine ⟨next, ?_, hbeside⟩
      rw [Run.makeDirectoriesUp, ends_orElse]
      exact .inl ⟨(), hnext, rfl⟩
    · split at hhandle
      · rename_i t
        rcases makeLastDirectory_cases hfailed with ⟨_, hok⟩ | ⟨rfl, ⟨_, _, hok⟩ | ⟨e, herror, hmissing⟩⟩
        · simp at hok
        · simp at hok
        · obtain rfl : DiskError.refused .missing t = e := by simpa using herror
          obtain ⟨hchecked, hfree, htext⟩ := makeDirectory_eq_refused.mp (hmissing t rfl)
          obtain ⟨up, _, hup, hlast⟩ := ends_bind_ok.mp hhandle
          have habove : Path.IsRead ⟨anchor, above.reverse⟩ := by
            simpa [Path.parent] using hread.parent
          have hgrows := makeDirectoriesUp_grows h.bareTree habove hup
          have hlater := makeLastDirectory_grows hgrows.tree hread hlast
          have hplaceUp : up.entry? place ≠ some .directory :=
            fun heq => hplace (hlater.extends.directory _ heq)
          -- the place of the file stays free, as nothing but a directory could have come there
          have hfreeUp : up.entry? place = none := by
            rcases hgrows.kept place with hsame | ⟨_, hmade⟩
            · rw [hsame, h.free]
            · exact absurd hmade hplaceUp
          have hdisk : disk.freePlace ⟨anchor, (name :: above).reverse⟩ = .error .missing := by
            refine (h.freePlace_missing hfree hgrows.extends hfreeUp).resolve_right fun hmissing => ?_
            have hrefused := makeLastDirectory_of_missing
              (makeDirectory_eq_refused.mpr ⟨hchecked, hmissing, rfl⟩)
            simpa using (hlast.unique hrefused).2
          obtain ⟨upNext, hupNext, hbesideUp⟩ := ih h habove hup hplaceUp
          obtain ⟨next, hnext, hbeside⟩ := hbesideUp.makeLastDirectory hread hlast hplace
          refine ⟨next, ?_, hbeside⟩
          rw [Run.makeDirectoriesUp, ends_orElse]
          exact .inr ⟨disk, _, makeLastDirectory_of_missing
            (makeDirectory_eq_refused.mpr ⟨hchecked, hdisk, htext⟩), (ends_bind_of_ok hupNext).mpr hnext⟩
      · simp at hhandle

-- What is written without the file, and somewhere else, is written beside it.
theorem writePieces (h : Beside bare disk place) (hread : path.IsRead) (hleads : bare.Leads path) {text : Text}
    (hwrite : Ends (writePieces path [text]) bare last (.ok ()))
    (hplace : last.entry? place ≠ some .directory) (hother : last.locate true path ≠ .ok place) :
    ∃ next, Ends (Run.writePieces path [text]) disk next (.ok ()) ∧ Beside last next place := by
  obtain ⟨mid, _, hmake, hwrite⟩ := ends_bind_ok.mp hwrite
  obtain ⟨opened, found, hopen, hwrite⟩ := ends_bind_ok.mp hwrite
  rcases ends_change.mp hopen with ⟨_, hopened, hok⟩ | ⟨_, _, _, herror⟩
  · cases hok
    have hgrows := makeDirectories_grows h.bareTree hread.parent hmake
    obtain ⟨hchecked, hlocate, rfl, hold, hreal, above, name, rfl, hdirectory⟩ :=
      openForWriting_cases hgrows.tree hread (hleads.congr hgrows.links) hopened
    cases hencode : Utf8.encode text with
    | error e => simp [ends_appendPieces, hencode, Except.map] at hwrite
    | ok bytes =>
      obtain ⟨hlast, _⟩ := ends_appendPieces.mp hwrite
      simp only [hencode, Except.toOption, Option.elim, append_opened (List.append_ne_nil_of_right_ne_nil above
        (List.cons_ne_nil name []))] at hlast
      subst hlast
      have hfirst := writes_put hgrows.tree [] hreal hdirectory hold
      have hsecond := writes_put hfirst.tree bytes (hfirst.links.isReal hreal)
        (by rw [entry_put (by simp), if_neg (by simp), hdirectory]) (by simp [hfirst.file])
      have hmore := (hfirst.again hsecond).extends hold
      -- the file is opened somewhere else, and no directory has come in its place
      have hfound : above ++ [name] ≠ place := fun heq => hother (heq ▸ hmore.locate_eq hlocate)
      obtain ⟨next, hnext, hbeside⟩ := h.makeDirectoriesUp (by simpa using hread.parent) hmake
        fun heq => hplace (hmore.directory _ heq)
      have hopenNext : next.openForWriting path = .ok (next.put (above ++ [name]) (.file []), above ++ [name]) :=
        openForWriting_eq_ok.mpr ⟨hchecked, hbeside.more.locate_eq hlocate, mt hbeside.directory_iff.mp hold, rfl⟩
      refine ⟨_, (ends_bind_of_ok hnext).mpr ((ends_bind_of_ok (ends_change_ok hopenNext)).mpr
        (ends_appendPieces.mpr ⟨rfl, by rw [hencode]; rfl⟩)), ?_⟩
      simp only [hencode, Except.toOption, Option.elim, append_opened (List.append_ne_nil_of_right_ne_nil above
        (List.cons_ne_nil name []))]
      exact (hbeside.put hfound hreal rfl hdirectory hold (by simp)).put hfound (hfirst.links.isReal hreal) rfl
        (by rw [entry_put (by simp), if_neg (by simp), hdirectory]) (by simp [hfirst.file]) (by simp)
  · simp at herror

end Beside

end HookGen.Disk
