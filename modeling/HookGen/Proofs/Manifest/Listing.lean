import HookGen.Manifest
import HookGen.Proofs.Disk.Write
import HookGen.Proofs.Json.Encodable
import HookGen.Proofs.Text.Sort

/-!
What a manifest says: it lists the generated files by their paths from the output directory, and reading
it in a later generation gives back this list.
-/

namespace HookGen.Manifest

open Disk Run

variable {disk last : Disk} {base : Place} {names : List Text} {file : Text}

-- A file below a directory, by the text of its path and the names on the way to it.
structure FileAt (base : Place) (names : List Text) (file : Text) : Prop where
  path : Path.ofText file = .ofPlace (base ++ names)
  isName : ∀ name ∈ names, IsName name
  ne_nil : names ≠ []

-- The names on the way from a directory to a file below it.
def wayTo (base : Place) (file : Text) : List Text := (Path.ofText file).names.drop base.length

theorem FileAt.wayTo_eq (h : FileAt base names file) : wayTo base file = names := by
  rw [wayTo, h.path]
  exact List.drop_left

-- What a manifest calls a file.
def entryName (base : Place) (file : Text) : Text := Text.join "/" (wayTo base file)

-- What a manifest calls a file, wherever its path leads: the way there from the output directory.
def Calls (disk : Disk) (output : Path) (file name : Text) : Prop :=
  ∃ base names, disk.resolve output = .ok base ∧ disk.resolve (Path.ofText file) = .ok (base ++ names) ∧
    (Path.mk .relative names).text = name

theorem ends_entryOf {output : Path} {name : Text} : Ends (entryOf output file) disk last (.ok name) ↔
    disk = last ∧ Calls disk output file name := by
  rw [entryOf]
  rcases error_or_ok (disk.resolve (Path.ofText file)) with ⟨e, hplace⟩ | ⟨place, hplace⟩
  · rw [ends_bind_of_error (ends_resolve_error hplace)]
    simp [Calls, hplace]
  · rw [ends_bind_of_ok (ends_resolve_ok hplace)]
    rcases error_or_ok (disk.resolve output) with ⟨e, hbase⟩ | ⟨base, hbase⟩
    · rw [ends_bind_of_error (ends_resolve_error hbase)]
      simp [Calls, hbase]
    · rw [ends_bind_of_ok (ends_resolve_ok hbase)]
      by_cases hwithin : base <+: place
      · obtain ⟨names, rfl⟩ := hwithin
        have hbelow : (Path.ofPlace base).isWithin (.ofPlace (base ++ names)) = true := by
          simp [Path.isWithin, Path.ofPlace]
        have hdrop : (Path.ofPlace (base ++ names)).names.drop (Path.ofPlace base).names.length = names :=
          List.drop_left
        rw [hbelow, if_pos rfl, hdrop, ends_pure]
        simp [Calls, hplace, hbase]
      · have hbelow : (Path.ofPlace base).isWithin (.ofPlace place) = false := by
          rw [← Bool.not_eq_true]
          simpa [Path.isWithin, Path.ofPlace] using hwithin
        rw [hbelow]
        simp only [Bool.false_eq_true, if_false, ends_fail, reduceCtorEq, and_false, false_iff, not_and]
        rintro - ⟨base', names, hbase', hplace', -⟩
        obtain rfl := Except.ok.inj (hbase.symm.trans hbase')
        exact hwithin ⟨names, (Except.ok.inj (hplace.symm.trans hplace')).symm⟩

theorem ends_entriesOf {output : Path} {files names : List Text} :
    Ends (entriesOf output files) disk last (.ok names) ↔
      disk = last ∧ List.Forall₂ (Calls disk output) files names := by
  induction files generalizing names with
  | nil => simp [entriesOf, eq_comm]
  | cons file rest ih =>
    rw [entriesOf, ends_bind_ok]
    constructor
    · rintro ⟨mid, name, hfirst, h⟩
      obtain ⟨rfl, hname⟩ := ends_entryOf.mp hfirst
      obtain ⟨found, hrest, hnames⟩ := ends_bind_pure.mp h
      cases found with
      | error e => simp [Except.map] at hnames
      | ok others =>
        obtain rfl := Except.ok.inj hnames
        obtain ⟨rfl, hall⟩ := ih.mp hrest
        exact ⟨rfl, .cons hname hall⟩
    · rintro ⟨rfl, hall⟩
      cases hall with
      | cons hname hrest =>
        exact ⟨disk, _, ends_entryOf.mpr ⟨rfl, hname⟩, ends_bind_pure.mpr ⟨_, ih.mpr ⟨rfl, hrest⟩, rfl⟩⟩

theorem Calls.eq_entryName {name : Text} (hreal : disk.IsReal (base ++ names)) (hfile : FileAt base names file)
    (h : Calls disk (.ofPlace base) file name) :
    name = entryName base file ∧ checkNames [] (base ++ names) = .ok () := by
  obtain ⟨found, rest, hbase, hplace, rfl⟩ := h
  obtain ⟨_, rfl⟩ := resolve_ofPlace_eq_ok (hreal.of_prefix (List.prefix_append base names)) hbase
  rw [hfile.path] at hplace
  obtain ⟨hchecked, heq⟩ := resolve_ofPlace_eq_ok hreal hplace
  obtain rfl := List.append_cancel_left heq
  rw [entryName, hfile.wayTo_eq, Path.text_relative hfile.ne_nil]
  exact ⟨rfl, hchecked⟩

theorem entryNames_of_calls {files : List Text}
    (hfiles : ∀ file ∈ files, ∃ names, FileAt base names file ∧ disk.IsReal (base ++ names))
    (h : List.Forall₂ (Calls disk (.ofPlace base)) files names) :
    names = files.map (entryName base) ∧ ∀ file ∈ files, checkNames [] (base ++ wayTo base file) = .ok () := by
  induction h with
  | nil => simp
  | @cons file name rest others hname _ ih =>
    obtain ⟨⟨names, hfile, hreal⟩, hlater⟩ := List.forall_mem_cons.mp hfiles
    obtain ⟨rfl, hchecked⟩ := hname.eq_entryName hreal hfile
    obtain ⟨rfl, hall⟩ := ih hlater
    exact ⟨rfl, List.forall_mem_cons.mpr ⟨by rwa [hfile.wayTo_eq], hall⟩⟩

-- The manifest that lists some entries.
def listing (now : Text) (schema : Schema) (clientPath : Text) (entries : List Text) : Json :=
  .obj [
    ("version", .str version),
    ("lastGenerated", .str now),
    ("sourceFile", (schema.sourceFile.map Json.str).getD .null),
    ("schema", .str schema.name),
    ("supabasePath", .str clientPath),
    ("generatedFiles", .arr ((Text.sort entries).map .str))]

theorem rereadElements_strings (asciiOnly : Bool) (ts : List Text) :
    Json.rereadElements asciiOnly (ts.map .str) = ts.map fun t => .str (Json.readBack asciiOnly t) := by
  induction ts with
  | nil => rfl
  | cons t rest ih => rw [List.map_cons, Json.rereadElements, ih, Json.reread, List.map_cons]

theorem numberFree_strings (ts : List Text) : Json.NumberFreeElements (ts.map .str) := by
  induction ts with
  | nil => trivial
  | cons t rest ih => exact ⟨trivial, ih⟩

theorem numberFree_listing (now : Text) (schema : Schema) (clientPath : Text) (entries : List Text) :
    (listing now schema clientPath entries).NumberFree := by
  refine ⟨trivial, trivial, ?_, trivial, trivial, numberFree_strings _, trivial⟩
  cases schema.sourceFile <;> trivial

theorem entries_of_strings {manifest : Json} {ts : List Text}
    (h : manifest.field? "generatedFiles" = some (.arr (ts.map .str))) :
    entries manifest = .ok ts := by
  rw [entries, h]
  simp [Json.text?, Function.comp_def]

-- A manifest that is read has the entries that it was written with. Pairs of surrogates are joined.
theorem entries_reread (now : Text) (schema : Schema) (clientPath : Text) (names : List Text) : ∃ fields,
    Json.reread true (listing now schema clientPath names) = .obj fields ∧ fields ≠ [] ∧
      entries (.obj fields) = .ok ((Text.sort names).map Json.rejoin) := by
  have hsame : (Text.sort names).map (fun t => Json.str (Json.readBack true t)) =
      ((Text.sort names).map Json.rejoin).map .str := by
    rw [List.map_map]
    rfl
  have hfields : Json.reread true (listing now schema clientPath names) = .obj [
      ("version", .str (Json.readBack true version)),
      ("lastGenerated", .str (Json.readBack true now)),
      ("sourceFile", Json.reread true ((schema.sourceFile.map Json.str).getD .null)),
      ("schema", .str (Json.readBack true schema.name)),
      ("supabasePath", .str (Json.readBack true clientPath)),
      ("generatedFiles", .arr (Json.rereadElements true ((Text.sort names).map .str)))] := rfl
  refine ⟨_, hfields, by simp, ?_⟩
  rw [rereadElements_strings, hsame]
  exact entries_of_strings rfl

theorem map_rejoin_sort {names : List Text} (hnames : ∀ name ∈ names, Json.rejoin name = name) :
    (Text.sort names).map Json.rejoin = Text.sort names := by
  have hsame : ∀ name ∈ Text.sort names, Json.rejoin name = id name :=
    fun name hname => hnames name (Text.mem_sort.mp hname)
  rw [List.map_congr_left hsame, List.map_id]

-- The text of a manifest file.
def fileText (now : Text) (schema : Schema) (clientPath : Text) (names : List Text) : Text :=
  Json.print style (listing now schema clientPath names) ++ "\n"

-- A manifest has a form in bytes, whatever it says.
theorem encode_fileText (now : Text) (schema : Schema) (clientPath : Text) (names : List Text) :
    ∃ bytes, Utf8.encode (fileText now schema clientPath names) = .ok bytes :=
  Utf8.encode_of_isScalar ((Json.isScalar_textAt rfl _ 0 (numberFree_listing ..)).append (Utf8.isScalar_ofString "\n"))

-- Reading a manifest file gives the entries that it was written with.
theorem read_fileText {now clientPath : Text} {schema : Schema} {bytes : Bytes}
    (h : Utf8.encode (fileText now schema clientPath names) = .ok bytes) :
    ∃ t fields, Utf8.decode bytes = .ok t ∧ Json.read (normalizeLines t) = .ok (.obj fields) ∧
      fields ≠ [] ∧ entries (.obj fields) = .ok ((Text.sort names).map Json.rejoin) := by
  have hfree := numberFree_listing now schema clientPath names
  obtain ⟨fields, hfields, hne, hentries⟩ := entries_reread now schema clientPath names
  refine ⟨_, fields, Utf8.decode_of_encode h, ?_, hne, hentries⟩
  have hlines : .char '\r' ∉ fileText now schema clientPath names := by
    rw [fileText, List.mem_append, not_or]
    exact ⟨Json.notMem_textAt style _ 0 hfree, by decide⟩
  rw [normalizeLines_of_notMem hlines, fileText, Json.read_print style hfree (by decide), ← hfields]
  rfl

-- Texts whose only surrogates are low ones come back as they are.
theorem rejoin_of_low {t : Text} (h : ∀ offset, .surrogate offset ∈ t → 0x400 ≤ offset.val) :
    Json.rejoin t = t := by
  fun_induction Json.rejoin t with
  | case1 a b rest c hpair ih =>
    have ha := h a (List.mem_cons_self ..)
    rw [Json.joinSurrogates?, if_neg (by omega)] at hpair
    simp at hpair
  | case2 a b rest hpair ih =>
    rw [ih fun offset hmem => h offset (List.mem_cons_of_mem _ hmem)]
  | case3 c rest hc ih =>
    rw [ih fun offset hmem => h offset (List.mem_cons_of_mem _ hmem)]
  | case4 => rfl

theorem low_of_unencodable? {t : Text} {position : Nat} (h : unencodable? position t = none)
    {offset : Fin 2048} (hmem : .surrogate offset ∈ t) : 0x400 ≤ offset.val := by
  induction t generalizing position with
  | nil => simp at hmem
  | cons c rest ih =>
    cases c with
    | char ch =>
      rw [unencodable?] at h
      exact ih h (by simpa using hmem)
    | surrogate first =>
      rw [unencodable?] at h
      split at h
      · rename_i hescaped
        rcases List.mem_cons.mp hmem with hfirst | hrest
        · cases hfirst
          simp only [isEscapedByte, Bool.and_eq_true, decide_eq_true_eq] at hescaped
          omega
        · exact ih h hrest
      · simp at h

theorem low_of_checkText {t : Text} (h : checkText t = .ok ()) {offset : Fin 2048}
    (hmem : .surrogate offset ∈ t) : 0x400 ≤ offset.val := by
  rw [checkText] at h
  split at h
  · simp at h
  · rename_i hnone
    exact low_of_unencodable? hnone hmem

theorem mem_join_append {c : CodePoint} {separator : Text} {before after : List Text}
    (h : c ∈ Text.join separator after) : c ∈ Text.join separator (before ++ after) := by
  induction before with
  | nil => exact h
  | cons first rest ih =>
    rw [List.cons_append]
    cases hrest : rest ++ after with
    | nil =>
      rw [hrest] at ih
      simp [Text.join] at ih
    | cons second others =>
      rw [hrest] at ih
      rw [Text.join_cons_cons]
      exact List.mem_append_right _ ih

-- The names of entries come back, as each is part of a path that has a form in bytes.
theorem rejoin_entryName (hfile : FileAt base names file) (hbase : ∀ name ∈ base, IsName name)
    (h : checkNames [] (base ++ names) = .ok ()) :
    Json.rejoin (entryName base file) = entryName base file := by
  have hne : base ++ names ≠ [] := by simp [hfile.ne_nil]
  have hnames : ∀ name ∈ base ++ names, IsName name := by
    intro name hname
    rcases List.mem_append.mp hname with hmem | hmem
    · exact hbase name hmem
    · exact hfile.isName name hmem
  have hchecked := checkText_of_checkNames hne hnames h
  rw [List.nil_append, Path.ofPlace, Path.text_root] at hchecked
  refine rejoin_of_low fun offset hmem => low_of_checkText hchecked ?_
  rw [entryName, hfile.wayTo_eq] at hmem
  exact List.mem_append_right _ (mem_join_append hmem)

end HookGen.Manifest
