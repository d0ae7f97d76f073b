import HookGen.Proofs.Integration.Writing
import HookGen.Proofs.Manifest.Update
import HookGen.Proofs.Tandem

/-!
The manifest of a project at two places: it names files by their paths from the output directory, so that it
is read, cleaned up after and made anew in the same way at both.
-/

namespace HookGen.Manifest

open Disk Run

variable {base base' : Place} {start start' : Disk} {names others output : List Text} {path path' : Path}
  {paths paths' : List Path} {files files' : List Text} {file file' : Text}

-- Paths by the same names, behind two places.
def Paired (base base' : Place) (path path' : Path) : Prop :=
  ∃ names, (∀ name ∈ names, IsName name) ∧ path = .ofPlace (base ++ names) ∧ path' = .ofPlace (base' ++ names)

theorem ofPlace_append_inj : Path.ofPlace (base ++ names) = .ofPlace (base ++ others) ↔ names = others := by
  simp [Path.ofPlace]

theorem Paired.mem_iff (hpath : Paired base base' path path') (h : List.Forall₂ (Paired base base') paths paths') :
    path ∈ paths ↔ path' ∈ paths' := by
  obtain ⟨names, -, rfl, rfl⟩ := hpath
  induction h with
  | nil => simp
  | cons hfirst _ ih =>
    obtain ⟨others, -, rfl, rfl⟩ := hfirst
    simp only [List.mem_cons, ofPlace_append_inj, ih]

-- What is below what, and what it is called, does not depend on the place.
theorem isWithin_append : (Path.ofPlace (base ++ output)).isWithin (.ofPlace (base ++ names)) =
    (Path.ofPlace output).isWithin (.ofPlace names) := by
  rw [Bool.eq_iff_iff, Path.isWithin_iff, Path.isWithin_iff]
  simp [Path.ofPlace, List.prefix_append_right_inj]

theorem isBelow_append : isBelow (.ofPlace (base ++ output)) (.ofPlace (base ++ names)) =
    isBelow (.ofPlace output) (.ofPlace names) := by
  have hne : (Path.ofPlace (base ++ names) != .ofPlace (base ++ output)) = (Path.ofPlace names != .ofPlace output) := by
    rw [Bool.eq_iff_iff, bne_iff_ne, bne_iff_ne, ne_eq, ofPlace_append_inj]
    simp [Path.ofPlace]
  rw [isBelow, isBelow, isWithin_append, hne]

theorem name_append (h : names ≠ []) : (Path.ofPlace (base ++ names)).name = (Path.ofPlace names).name := by
  rw [name_ofPlace, name_ofPlace, List.getLast?_append_of_ne_nil _ h]

section Making

theorem tandem_entryOf (hfile : Paired base base' (.ofText file) (.ofText file'))
    (houtput : ∀ name ∈ output, IsName name) : Tandem base base' start start' Eq
      (entryOf (.ofPlace (base ++ output)) file) (entryOf (.ofPlace (base' ++ output)) file') := by
  obtain ⟨names, hnames, hpath, hpath'⟩ := hfile
  rw [entryOf, entryOf, hpath, hpath']
  refine tandem_bind (tandem_resolve_real hnames) ?_
  rintro _ _ ⟨rfl, rfl⟩
  refine tandem_bind (tandem_resolve_real houtput) ?_
  rintro _ _ ⟨rfl, rfl⟩
  rw [isWithin_append, isWithin_append]
  split
  · have hdrop (base : Place) : (Path.ofPlace (base ++ names)).names.drop (Path.ofPlace (base ++ output)).names.length =
        names.drop output.length := by
      simp [Path.ofPlace, List.drop_length_add_append]
    rw [hdrop, hdrop]
    exact tandem_pure rfl
  · exact tandem_fail rfl

theorem tandem_entriesOf (houtput : ∀ name ∈ output, IsName name)
    (h : List.Forall₂ (fun file file' => Paired base base' (.ofText file) (.ofText file')) files files') :
    Tandem base base' start start' Eq (entriesOf (.ofPlace (base ++ output)) files)
      (entriesOf (.ofPlace (base' ++ output)) files') := by
  induction h with
  | nil => exact tandem_pure rfl
  | cons hfirst _ ih =>
    refine tandem_bind (tandem_entryOf hfirst houtput) ?_
    rintro entry _ rfl
    refine tandem_bind ih ?_
    rintro entries _ rfl
    exact tandem_pure rfl

end Making

section Removing

theorem removeEmptyUp_concat (output : Path) (way : Place) (name : Text) :
    removeEmptyUp output (way ++ [name]).reverse =
      if !isBelow output (.ofPlace (way ++ [name])) then Run.done ()
      else
        (query fun disk => .ok (disk.isDirectoryAt (way ++ [name]) && (disk.entriesIn (way ++ [name])).isEmpty)) >>=
          fun isEmpty =>
            if isEmpty then
              (change fun disk => .ok (disk.erase (way ++ [name]), ())) >>= fun _ => removeEmptyUp output way.reverse
            else Run.done () := by
  rw [List.reverse_append, List.reverse_singleton, List.singleton_append, removeEmptyUp, List.reverse_cons,
    List.reverse_reverse]
  rfl

-- The loop does not come to the place itself.
theorem removeEmptyUp_outside (output : List Text) :
    removeEmptyUp (.ofPlace (base ++ output)) base.reverse = Run.done () := by
  rcases List.eq_nil_or_concat' base with rfl | ⟨way, name, rfl⟩
  · rfl
  · have hnot : isBelow (.ofPlace (way ++ [name] ++ output)) (.ofPlace (way ++ [name])) = false := by
      rw [← Bool.not_eq_true, isBelow_ofPlace]
      rintro ⟨hstarts, hne⟩
      exact hne (hstarts.eq_of_length_le (by simp)).symm
    rw [removeEmptyUp_concat, hnot]
    rfl

-- Whether a directory is there and empty.
theorem agree_isEmpty {disk disk' : Disk} (h : Twins base base' disk disk') (names : List Text) :
    (disk.isDirectoryAt (base ++ names) && (disk.entriesIn (base ++ names)).isEmpty) =
      (disk'.isDirectoryAt (base' ++ names) && (disk'.entriesIn (base' ++ names)).isEmpty) := by
  have hentries : (disk.entriesIn (base ++ names)).isEmpty = (disk'.entriesIn (base' ++ names)).isEmpty := by
    rw [Bool.eq_iff_iff, List.isEmpty_iff, List.isEmpty_iff, entriesIn_eq_nil, entriesIn_eq_nil]
    simp only [List.append_assoc, h.same]
  rw [hentries, isDirectoryAt, isDirectoryAt, h.same]

theorem tandem_removeEmptyUp (output names : List Text) : Tandem base base' start start' Eq
    (removeEmptyUp (.ofPlace (base ++ output)) (base ++ names).reverse)
    (removeEmptyUp (.ofPlace (base' ++ output)) (base' ++ names).reverse) := by
  induction names using List.reverseRec with
  | nil =>
    rw [List.append_nil, List.append_nil, removeEmptyUp_outside, removeEmptyUp_outside]
    exact tandem_pure rfl
  | append_singleton way name ih =>
    rw [← List.append_assoc, ← List.append_assoc, removeEmptyUp_concat, removeEmptyUp_concat]
    simp only [List.append_assoc, isBelow_append]
    split
    · exact tandem_pure rfl
    refine tandem_query_bind (fun disk disk' habreast => ?_) fun isEmpty disk disk' habreast hasked => ?_
    · exact .ok (agree_isEmpty habreast.toTwins _)
    · cases isEmpty with
      | false => exact ⟨.ok rfl, habreast⟩
      | true =>
        have hempty := Except.ok.inj hasked
        rw [Bool.and_eq_true, List.isEmpty_iff, entriesIn_eq_nil] at hempty
        exact together_erase habreast (by simp) hempty.2 ih

theorem tandem_resolve_entry (houtput : ∀ name ∈ output, IsName name) {entry : Text}
    (hentry : Inward output.length entry) : Tandem base base' start start' (Paired base base')
      (resolve (Path.child (.ofPlace (base ++ output)) entry))
      (resolve (Path.child (.ofPlace (base' ++ output)) entry)) := by
  have hread : (Path.ofPlace (output ++ (Path.ofText entry).names)).IsRead := by
    intro name hname hpoints
    rcases List.mem_append.mp hname with hname | hname
    · exact houtput name hname
    · exact Path.isRead_ofText entry name hname hpoints
  have hbelow : staysBelow 0 (output ++ (Path.ofText entry).names) := by
    rw [staysBelow_append houtput, Nat.zero_add]
    exact hentry.below
  rw [hentry.child, hentry.child, List.append_assoc, List.append_assoc]
  refine (tandem_resolve_ofPlace hread hbelow).mono fun _ _ h => ?_
  exact ⟨_, fun name hname => Path.isName_of_mem_normalNames hread hname, h.1, h.2⟩

theorem tandem_removeEntry (houtput : ∀ name ∈ output, IsName name)
    (hpaths : List.Forall₂ (Paired base base') paths paths') {entry : Text} (hentry : Inward output.length entry) :
    Tandem base base' start start' (fun _ _ => True) (removeEntry (.ofPlace (base ++ output)) paths entry)
      (removeEntry (.ofPlace (base' ++ output)) paths' entry) := by
  refine tandem_bind (tandem_resolve_entry houtput hentry) ?_
  rintro path path' hpaired
  have hmem := hpaired.mem_iff hpaths
  obtain ⟨names, hnames, rfl, rfl⟩ := hpaired
  rw [isBelow_append, isBelow_append]
  split
  · exact tandem_bind (tandem_log _ _) fun _ _ _ => tandem_pure trivial
  rename_i hbelow
  rw [Bool.not_eq_true', Bool.not_eq_false, isBelow_ofPlace] at hbelow
  have hne : names ≠ [] := hbelow.ne_nil
  have hcontains : paths.contains (.ofPlace (base ++ names)) = paths'.contains (.ofPlace (base' ++ names)) := by
    rw [Bool.eq_iff_iff, List.contains_iff_mem, List.contains_iff_mem, hmem]
  rw [hcontains, name_append hne, name_append hne]
  split
  · exact tandem_pure trivial
  refine tandem_query_bind (fun _ _ habreast => habreast.ask (staysBelow_of_isName hnames 0) _) ?_
  intro isFile disk disk' habreast hasked
  cases isFile with
  | false => exact ⟨.ok trivial, habreast⟩
  | true =>
    obtain ⟨content, hfile⟩ := file_of_isFile (habreast.first.isReal hnames) hasked
    refine together_erase habreast hne (habreast.first.tree.none_of_file hfile) ?_
    refine tandem_bind (tandem_log _ _) fun _ _ _ => ?_
    have hparent (base : Place) : (Path.ofPlace (base ++ names)).parent.names.reverse =
        (base ++ names.dropLast).reverse := by
      simp [Path.parent, Path.ofPlace, List.dropLast_append_of_ne_nil hne]
    rw [hparent, hparent]
    exact tandem_bind (tandem_removeEmptyUp output _) fun _ _ _ => tandem_pure trivial

theorem tandem_removeEntries (houtput : ∀ name ∈ output, IsName name)
    (hpaths : List.Forall₂ (Paired base base') paths paths') {entries : List Text}
    (hentries : ∀ entry ∈ entries, Inward output.length entry) :
    Tandem base base' start start' (fun _ _ => True) (removeEntries (.ofPlace (base ++ output)) paths entries)
      (removeEntries (.ofPlace (base' ++ output)) paths' entries) := by
  induction entries with
  | nil => exact tandem_pure trivial
  | cons entry rest ih =>
    obtain ⟨hentry, hrest⟩ := List.forall_mem_cons.mp hentries
    exact tandem_bind (tandem_removeEntry houtput hpaths hentry) fun _ _ _ =>
      tandem_bind (ih hrest) fun _ _ _ => tandem_pure trivial

theorem tandem_resolveAll
    (h : List.Forall₂ (fun file file' => Paired base base' (.ofText file) (.ofText file')) files files') :
    Tandem base base' start start' (List.Forall₂ (Paired base base')) (resolveAll files) (resolveAll files') := by
  induction h with
  | nil => exact tandem_pure .nil
  | cons hfirst _ ih =>
    obtain ⟨names, hnames, hpath, hpath'⟩ := hfirst
    rw [resolveAll, resolveAll, hpath, hpath']
    refine tandem_bind (tandem_resolve_real hnames) ?_
    rintro _ _ ⟨rfl, rfl⟩
    refine tandem_bind ih fun rest rest' hrest => tandem_pure (.cons ⟨names, hnames, rfl, rfl⟩ hrest)

theorem tandem_cleanUp (houtput : ∀ name ∈ output, IsName name) {previous : Json}
    (hprevious : ∀ entries, Manifest.entries previous = .ok entries → ∀ entry ∈ entries, Inward output.length entry)
    (h : List.Forall₂ (fun file file' => Paired base base' (.ofText file) (.ofText file')) files files') :
    Tandem base base' start start' (fun _ _ => True) (cleanUp previous files (.ofPlace (base ++ output)))
      (cleanUp previous files' (.ofPlace (base' ++ output))) := by
  refine tandem_bind (tandem_resolve_real houtput) ?_
  rintro _ _ ⟨rfl, rfl⟩
  refine tandem_bind (tandem_resolveAll h) fun paths paths' hpaths => ?_
  refine tandem_bind (R := fun found found' => found = found' ∧ Manifest.entries previous = .ok found)
    (tandem_ofExcept ?_) ?_
  · cases Manifest.entries previous with
    | ok entries => exact .ok ⟨rfl, rfl⟩
    | error e => exact .error rfl
  · rintro entries _ ⟨rfl, hentries⟩
    exact tandem_removeEntries houtput hpaths fun entry hentry =>
      hprevious entries hentries entry (Text.mem_sortDistinct.mp hentry)

end Removing

section Loading

variable {config : Config} {root root' : Path}

theorem tandem_path (houtput : ∀ name ∈ output, IsName name)
    (h : start.resolve (root.child config.output) = .ok (base ++ output))
    (h' : start'.resolve (root'.child config.output) = .ok (base' ++ output)) :
    Tandem base base' start start'
      (fun found found' => found = .ofPlace (base ++ (output ++ [fileName])) ∧
        found' = .ofPlace (base' ++ (output ++ [fileName])))
      (Manifest.path config root) (Manifest.path config root') := by
  have hplace (base : Place) : Path.child (.ofPlace (base ++ output)) fileName =
      .ofPlace (base ++ (output ++ [fileName])) := by
    rw [Path.child_of_isName _ isName_fileName]
    exact congrArg Path.ofPlace (List.append_assoc ..)
  refine tandem_bind (tandem_resolve houtput h h') ?_
  rintro _ _ ⟨rfl, rfl⟩
  exact tandem_pure ⟨hplace base, hplace base'⟩

theorem tandem_load (houtput : ∀ name ∈ output, IsName name)
    (h : start.resolve (root.child config.output) = .ok (base ++ output))
    (h' : start'.resolve (root'.child config.output) = .ok (base' ++ output)) :
    Tandem base base' start start' Eq (load config root) (load config root') := by
  have hbelow : staysBelow 0 (output ++ [fileName]) := by
    rw [staysBelow_append houtput]
    exact staysBelow_of_isName (by simp [isName_fileName]) _
  refine tandem_bind (tandem_path houtput h h') ?_
  rintro _ _ ⟨rfl, rfl⟩
  refine tandem_bind (tandem_pathExists hbelow) ?_
  rintro there _ rfl
  split
  · exact tandem_pure rfl
  refine tandem_bind (R := Eq) (tandem_recover ?_ (fun fault t t' => ?_) ?_ ?_) ?_
  · refine tandem_bind (tandem_readText hbelow) ?_
    rintro t _ rfl
    exact tandem_pure rfl
  · exact tandem_bind (R := Eq) (tandem_bind (tandem_log _ _) fun _ _ _ => tandem_pure rfl) fun _ _ _ => tandem_pure rfl
  · rintro (⟨⟨⟩⟩ | _) h <;> first | rfl | cases h
  · rintro (⟨⟨⟩⟩ | _) h <;> first | rfl | cases h
  · rintro text _ rfl
    cases text with
    | none => exact tandem_pure rfl
    | some t =>
      dsimp only
      cases Json.read t with
      | error e =>
        cases e with
        | tooManyDigits count => exact tandem_fail rfl
        | _ => exact tandem_bind (tandem_log _ _) fun _ _ _ => tandem_pure rfl
      | ok value =>
        cases value with
        | obj fields => exact tandem_pure rfl
        | _ => exact tandem_bind (tandem_log _ _) fun _ _ _ => tandem_pure rfl

-- A manifest is found at a path that is there.
theorem pathExists_of_load {disk last : Disk} {previous : Json}
    (hbase : disk.resolve (root.child config.output) = .ok base)
    (h : Ends (load config root) disk last (.ok (some previous))) :
    disk.pathExists (.ofPlace (placeIn base)) = .ok true := by
  rw [load, ends_bind_of_ok (path_ends hbase)] at h
  cases hthere : disk.pathExists (.ofPlace (placeIn base)) with
  | error e =>
    have hfailed := (ends_bind_of_error (ends_query_error hthere)).mp h
    simp at hfailed
  | ok there =>
    cases there with
    | false =>
      have hnone := (ends_bind_of_ok (ends_query_ok hthere)).mp h
      simp at hnone
    | true => rfl

-- It is what a file there says.
theorem loaded_of_load {disk last : Disk} {previous : Json}
    (hbase : disk.resolve (root.child config.output) = .ok base) (hreal : disk.IsReal (placeIn base))
    (h : Ends (load config root) disk last (.ok (some previous))) :
    ∃ bytes, disk.entry? (placeIn base) = some (.file bytes) ∧ loaded bytes = .ok (some previous) := by
  have hthere := pathExists_of_load hbase h
  by_cases hfile : ∃ bytes, disk.entry? (placeIn base) = some (.file bytes)
  · obtain ⟨bytes, hfile⟩ := hfile
    rw [Disk.pathExists, ask] at hthere
    split at hthere
    · simp at hthere
    · rename_i hchecked
      split at hthere
      · rename_i place entry hfind
        obtain ⟨rfl, hentry⟩ := find_of_isReal hreal hfind
        obtain rfl := Option.some.inj (hentry.symm.trans hfile)
        exact ⟨bytes, hfile, (h.unique (load_of_find hbase hfind hchecked)).2.symm⟩
      · simp at hthere
      · simp at hthere
  · have hnone := load_of_no_file hbase hreal (not_exists.mp hfile) h
    simp at hnone

-- A manifest file that lists what stays below the place of a project, so many levels above the output
-- directory.
def Stays (depth : Nat) (bytes : Bytes) : Prop := ∀ previous listed, loaded bytes = .ok (some previous) →
  entries previous = .ok listed → ∀ entry ∈ listed, Inward depth entry

-- Whether it does can be computed.
theorem stays_iff {depth : Nat} {bytes : Bytes} : Stays depth bytes ↔ ∀ found ∈ (loaded bytes).toOption,
    ∀ previous ∈ found, ∀ listed ∈ (entries previous).toOption, ∀ entry ∈ listed, Inward depth entry := by
  have hsome {ε α : Type} {x : Except ε α} {a : α} : a ∈ x.toOption ↔ x = .ok a := by
    cases x <;> simp [Except.toOption]
  simp only [hsome]
  constructor
  · rintro h found hfound previous rfl
    exact fun listed hlisted => h previous listed hfound hlisted
  · exact fun h previous listed hloaded hlisted => h _ hloaded previous rfl listed hlisted

instance (depth : Nat) (bytes : Bytes) : Decidable (Stays depth bytes) := decidable_of_iff _ stays_iff.symm

-- The manifests that generations leave are such files.
theorem stays_of_lists {bytes : Bytes} (h : Lists base files bytes) (hbase : ∀ name ∈ base, IsName name)
    (depth : Nat) : Stays depth bytes := by
  obtain ⟨t, fields, hdecode, hread, _, hentries⟩ := h.read hbase
  intro previous listed hloaded hlisted entry hentry
  have hfields : loaded bytes = .ok (some (.obj fields)) := by
    rw [loaded, hdecode]
    simp only [hread]
  obtain rfl : Json.obj fields = previous := Option.some.inj (Except.ok.inj (hfields.symm.trans hloaded))
  obtain rfl : Text.sort (files.map (entryName base)) = listed := Except.ok.inj (hentries.symm.trans hlisted)
  obtain ⟨file, hfile, rfl⟩ := List.mem_map.mp (Text.mem_sort.mp hentry)
  obtain ⟨-, hnames, hne⟩ := (h.isModule file hfile).fileAt
  have hpath : Path.ofText (entryName base file) = ⟨.relative, wayTo base file⟩ := Path.ofText_join hne hnames
  exact ⟨by rw [hpath], by rw [hpath]; exact staysBelow_of_isName hnames depth⟩

theorem stays_of_remembers {disk : Disk} {old : List Text} {bytes : Bytes} (h : Remembers base disk old)
    (hbase : ∀ name ∈ base, IsName name) (hfile : disk.entry? (placeIn base) = some (.file bytes)) (depth : Nat) :
    Stays depth bytes := by
  rcases h with ⟨-, hnone⟩ | ⟨found, hfound, hlists⟩
  · exact absurd hfile (hnone bytes)
  · obtain rfl : found = bytes := by simpa [hfound] using hfile
    exact stays_of_lists hlists hbase depth

end Loading

section Writing

theorem tandem_writeFile (hnames : ∀ name ∈ names, IsName name) (hne : names ≠ []) (text : Text) :
    Tandem base base' start start' Eq (writeFile (.ofPlace (base ++ names)) text)
      (writeFile (.ofPlace (base' ++ names)) text) :=
  fun disk disk' habreast => (tandem_writePieces hnames hne [text] disk disk' habreast).congr
    (fun _ _ => ends_writeFile) fun _ _ => ends_writeFile

end Writing

end HookGen.Manifest
