import HookGen.Manifest
import HookGen.Proofs.Disk.Write
import HookGen.Proofs.Json.Encodable

/-!
Saving a configuration and loading it from where it was saved: every option comes back as it was.
-/

namespace HookGen

open Disk Run

variable {disk last : Disk} {place : Place} {path root : Path} {config : Config}

namespace Disk

-- Writing piece by piece leaves what writing all of them at once does.
theorem ends_appendPieces_ok (hplace : place ≠ []) (pieces : List Text) (content : Bytes) :
    Ends (appendPieces place pieces) (disk.put place (.file content)) last (.ok ()) ↔
      ∃ bytes, Utf8.encode pieces.flatten = .ok bytes ∧
        last = disk.put place (.file (content ++ bytes)) := by
  induction pieces generalizing content with
  | nil =>
    have hnothing : Utf8.encode [] = .ok [] := rfl
    simp [appendPieces, hnothing, eq_comm]
  | cons piece rest ih =>
    have hencoded : Ends (ofExcept .unwritable (Utf8.encode piece)) (disk.put place (.file content))
        (disk.put place (.file content)) ((Utf8.encode piece).mapError .unwritable) :=
      ends_ofExcept.mpr ⟨rfl, rfl⟩
    rw [appendPieces]
    cases hencode : Utf8.encode piece with
    | error e =>
      rw [hencode] at hencoded
      rw [ends_bind_of_error hencoded, List.flatten_cons]
      have hnone : ∀ bytes, Utf8.encode (piece ++ rest.flatten : Text) ≠ .ok bytes := by
        intro bytes hall
        have hscalar := (Utf8.encode_eq_ok.mp hall).1
        obtain ⟨_, hpiece⟩ := Utf8.encode_of_isScalar fun c hc => hscalar c (List.mem_append_left _ hc)
        simp [hpiece] at hencode
      simp [hnone]
    | ok first =>
      rw [hencode] at hencoded
      have happend : Disk.append (disk.put place (.file content)) place first =
          disk.put place (.file (content ++ first)) := by
        rw [append, entry_put hplace, if_pos rfl]
        simp [put, List.filter_filter]
      rw [ends_bind_of_ok hencoded, ends_bind_of_ok (ends_change_ok rfl), happend, ih]
      constructor
      · rintro ⟨others, hothers, rfl⟩
        exact ⟨first ++ others, Utf8.encode_append hencode hothers, by rw [List.append_assoc]⟩
      · rintro ⟨bytes, hall, rfl⟩
        obtain ⟨hscalar, rfl⟩ := Utf8.encode_eq_ok.mp hall
        obtain ⟨-, rfl⟩ := Utf8.encode_eq_ok.mp hencode
        refine ⟨rest.flatten.flatMap Utf8.encodeCodePoint, Utf8.encode_eq_ok.mpr
          ⟨fun c hc => hscalar c (List.mem_append_right _ hc), rfl⟩, ?_⟩
        rw [List.flatten_cons, List.flatMap_append, List.append_assoc]

-- A file can be written at a path: it can be opened once the directories above it have been made.
def TakesFile (disk : Disk) (path : Path) : Prop := ∃ last, Ends (writePieces path []) disk last (.ok ())

theorem takesFile_iff : disk.TakesFile path ↔ ∃ mid opened place,
    Ends (makeDirectories path.parent) disk mid (.ok ()) ∧ mid.openForWriting path = .ok (opened, place) := by
  constructor
  · rintro ⟨last, h⟩
    obtain ⟨mid, _, hmake, h⟩ := ends_bind_ok.mp h
    obtain ⟨opened, place, hopen, _⟩ := ends_bind_ok.mp h
    rcases ends_change.mp hopen with ⟨_, hopened, hfound⟩ | ⟨_, _, _, herror⟩
    · cases hfound
      exact ⟨mid, opened, place, hmake, hopened⟩
    · simp at herror
  · rintro ⟨mid, opened, place, hmake, hopen⟩
    exact ⟨opened, ends_bind_ok.mpr ⟨mid, (), hmake, ends_bind_ok.mpr ⟨opened, place, ends_change_ok hopen,
      ends_done.mpr ⟨rfl, rfl⟩⟩⟩⟩

-- What is written where a file can be written is found there.
theorem TakesFile.writes (tree : disk.IsTree) (hread : path.IsRead) (hleads : disk.Leads path)
    (takes : disk.TakesFile path) {pieces : List Text} {bytes : Bytes}
    (hencode : Utf8.encode pieces.flatten = .ok bytes) : ∃ last place,
      Ends (writePieces path pieces) disk last (.ok ()) ∧ checkText path.text = .ok () ∧
        last.find path = .ok (place, .file bytes) := by
  obtain ⟨mid, opened, place, hmake, hopen⟩ := takesFile_iff.mp takes
  have hgrows := makeDirectories_grows tree hread.parent hmake
  obtain ⟨hchecked, hlocate, rfl, hold, hreal, above, name, rfl, hdirectory⟩ :=
    openForWriting_cases hgrows.tree hread (hleads.congr hgrows.links) hopen
  have hne : above ++ [name] ≠ [] := by simp
  refine ⟨mid.put (above ++ [name]) (.file bytes), above ++ [name], ?_, hchecked, ?_⟩
  · exact ends_bind_ok.mpr ⟨mid, (), hmake, ends_bind_ok.mpr ⟨_, _, ends_change_ok hopen,
      (ends_appendPieces_ok hne pieces []).mpr ⟨bytes, hencode, rfl⟩⟩⟩
  · have hwritten := writes_put hgrows.tree bytes hreal hdirectory hold
    have hfound := (hwritten.extends hold).locate_eq hlocate
    simp [find, hfound, bind, Except.bind, hwritten.file, pure, Except.pure]

end Disk

theorem Run.exists_ends_ok {run : Run Unit} (h : (run disk).2.outcome.toOption = some ()) :
    ∃ last, Ends run disk last (.ok ()) := by
  refine ⟨(run disk).1, rfl, ?_⟩
  cases houtcome : (run disk).2.outcome with
  | error e => simp [houtcome, Except.toOption] at h
  | ok done => rfl

-- A text file that is found is read.
theorem Run.ends_readText_of_find {bytes : Bytes} {text : Text} (hchecked : checkText path.text = .ok ())
    (hfind : disk.find path = .ok (place, .file bytes)) (hdecode : Utf8.decode bytes = .ok text) :
    Ends (readText path) disk disk (.ok (normalizeLines text)) := by
  have hread : disk.read path = .ok bytes := by
    simp [Disk.read, hchecked, hfind, refuse, bind, Except.bind, pure, Except.pure]
  simpa [hdecode, Except.map] using ends_readText hread

theorem Run.ends_pathExists_of_find {entry : Disk.Entry} (hchecked : checkText path.text = .ok ())
    (hfind : disk.find path = .ok (place, entry)) : Ends (pathExists path) disk disk (.ok true) := by
  apply ends_query_ok
  simp [Disk.pathExists, ask, hchecked, hfind]

-- How a path is called that is seen from a directory above it.
def Path.textFrom (root path : Path) : Text := (Path.mk .relative (path.names.drop root.names.length)).text

theorem Path.child_textFrom (hread : path.IsRead) (hwithin : root.isWithin path) :
    root.child (textFrom root path) = path := by
  obtain ⟨hanchor, hprefix⟩ := isWithin_iff.mp hwithin
  have hrest : IsRead ⟨.relative, path.names.drop root.names.length⟩ := fun name hname =>
    hread name (List.mem_of_mem_drop hname)
  rw [child, textFrom, ofText_text hrest, join, if_pos rfl, hanchor]
  congr 1
  have htake := List.prefix_iff_eq_take.mp hprefix
  conv_rhs => rw [← List.take_append_drop root.names.length path.names, ← htake]

namespace Json

-- A value without parts is printed in one piece.
theorem piecesAt_of_atom {style : Style} {value : Json} {atom : Text} (h : atom? style value = some atom)
    (depth : Nat) : piecesAt style depth value = [atom] := by
  cases value with
  | arr elements =>
    cases elements with
    | nil => simp [piecesAt, h]
    | cons _ _ => simp [atom?] at h
  | obj fields =>
    cases fields with
    | nil => simp [piecesAt, h]
    | cons _ _ => simp [atom?] at h
  | _ => simp [piecesAt, h]

-- The fields of an object without further parts have forms in bytes if its texts do.
theorem isScalar_fieldPieces {style : Style} {depth : Nat} {fields : List (Text × Json)}
    (h : ∀ field ∈ fields, Utf8.IsScalar field.1 ∧
      ∃ atom, atom? style field.2 = some atom ∧ Utf8.IsScalar atom) :
    ∀ piece ∈ fieldPieces style depth fields, Utf8.IsScalar piece := by
  induction fields with
  | nil => simp [fieldPieces]
  | cons field rest ih =>
    obtain ⟨⟨hname, atom, hatom, hvalue⟩, hrest⟩ := List.forall_mem_cons.mp h
    have hbetween : ∀ piece ∈ if rest.isEmpty then [] else [separator style depth], Utf8.IsScalar piece := by
      split
      · simp
      · exact List.forall_mem_singleton.mpr (isScalar_separator style depth)
    rw [fieldPieces, piecesAt_of_atom hatom]
    simp only [List.cons_append, List.nil_append, List.forall_mem_cons, List.forall_mem_append]
    exact ⟨isScalar_quote _ hname, Utf8.isScalar_ofString _, hvalue, hbetween, ih hrest⟩

end Json

namespace Config

-- The options that are texts.
def texts (config : Config) : List Text :=
  [config.input, config.output, config.supabasePath, config.schema]

-- A configuration that a file can hold: its texts have a form in bytes and something in them.
structure IsProper (config : Config) : Prop where
  isScalar : ∀ text ∈ config.texts, Utf8.IsScalar text
  notBlank : ∀ text ∈ config.texts, text.isBlank = false

instance (config : Config) : Decidable config.IsProper :=
  decidable_of_iff ((∀ text ∈ config.texts, Utf8.IsScalar text) ∧
    ∀ text ∈ config.texts, text.isBlank = false) ⟨fun h => ⟨h.1, h.2⟩, fun h => ⟨h.1, h.2⟩⟩

theorem isProper_default : default.IsProper := by decide +kernel

-- Where nothing is blank, the settings of a configuration are accepted as they are.
theorem check_toSettings (h : config.IsProper) : config.toSettings.check = .ok config := by
  have hblank := h.notBlank
  simp only [texts, List.forall_mem_cons, List.not_mem_nil, false_implies, implies_true, and_true] at hblank
  obtain ⟨hinput, houtput, hclient, hschema⟩ := hblank
  simp [Settings.check, toSettings, Settings.checkText, Settings.checkBool, hinput, houtput, hclient, hschema,
    bind, Except.bind, pure, Except.pure]

theorem numberFree_toSettings (config : Config) : config.toSettings.toJson.NumberFree := by
  simp [Settings.toJson, toSettings, Json.NumberFree, Json.NumberFreeFields]

-- The names of the options differ, so that each of them is read back.
theorem ofJson_reread (config : Config) :
    ∃ fields, Json.reread style.asciiOnly config.toSettings.toJson = .obj fields ∧
      Settings.ofJson (.obj fields) = config.toSettings := by
  refine ⟨_, rfl, ?_⟩
  simp only [toSettings, Json.rereadFields, Json.reread, Json.readBack, style]
  rfl

-- Nothing in a saved configuration lacks a form in bytes.
theorem isScalar_pieces (h : config.IsProper) :
    ∀ piece ∈ Json.pieces style config.toSettings.toJson, Utf8.IsScalar piece := by
  have hscalar := h.isScalar
  simp only [texts, List.forall_mem_cons, List.not_mem_nil, false_implies, implies_true, and_true] at hscalar
  obtain ⟨hinput, houtput, hclient, hschema⟩ := hscalar
  have hmanifest : ∃ atom, Json.atom? style (.bool config.manifest) = some atom ∧ Utf8.IsScalar atom := by
    cases config.manifest <;> exact ⟨_, rfl, Utf8.isScalar_ofString _⟩
  have htext {t : Text} (ht : Utf8.IsScalar t) :
      ∃ atom, Json.atom? style (.str t) = some atom ∧ Utf8.IsScalar atom :=
    ⟨_, rfl, Json.isScalar_quote _ ht⟩
  have hfields : ∀ field ∈ [(Text.ofString "input", config.toSettings.input),
      (Text.ofString "output", config.toSettings.output),
      (Text.ofString "supabasePath", config.toSettings.supabasePath),
      (Text.ofString "schema", config.toSettings.schema),
      (Text.ofString "manifest", config.toSettings.manifest)],
      Utf8.IsScalar field.1 ∧ ∃ atom, Json.atom? style field.2 = some atom ∧ Utf8.IsScalar atom := by
    simp only [List.forall_mem_cons, List.not_mem_nil, false_implies, implies_true, and_true, toSettings,
      Utf8.isScalar_ofString, true_and]
    exact ⟨htext hinput, htext houtput, htext hclient, htext hschema, hmanifest⟩
  intro piece hpiece
  rw [Json.pieces, Settings.toJson, Json.piecesAt] at hpiece
  rcases List.mem_append.mp hpiece with hpiece | hclosing
  · rcases List.mem_append.mp hpiece with hopening | hpiece
    · exact (show ∀ piece ∈ _, Utf8.IsScalar piece by decide) piece hopening
    · exact Json.isScalar_fieldPieces hfields piece hpiece
  · exact (show ∀ piece ∈ _, Utf8.IsScalar piece by decide) piece hclosing

-- The text of a configuration file.
def savedText (config : Config) : Text := Json.print style config.toSettings.toJson ++ Text.ofString "\n"

theorem flatten_saved (config : Config) :
    (Json.pieces style config.toSettings.toJson ++ [Text.ofString "\n"]).flatten = config.savedText := by
  rw [List.flatten_append, List.flatten_cons, List.flatten_nil, List.append_nil, savedText, Json.print]

theorem encode_savedText (h : config.IsProper) : ∃ bytes, Utf8.encode config.savedText = .ok bytes := by
  rw [← flatten_saved]
  refine Utf8.encode_of_isScalar (Utf8.isScalar_flatten fun piece hpiece => ?_)
  rcases List.mem_append.mp hpiece with hmem | hmem
  · exact isScalar_pieces h piece hmem
  · rw [List.mem_singleton.mp hmem]
    exact Utf8.isScalar_ofString _

-- No carriage return is written as it is, so that reading the file as text changes nothing.
theorem normalizeLines_savedText (config : Config) : normalizeLines config.savedText = config.savedText := by
  refine normalizeLines_of_notMem fun hmem => ?_
  rcases List.mem_append.mp hmem with hprinted | hend
  · exact Json.notMem_textAt style _ 0 (numberFree_toSettings config) hprinted
  · exact absurd hend (by decide)

theorem read_savedText (config : Config) : ∃ fields,
    Json.read config.savedText = .ok (.obj fields) ∧ Settings.ofJson (.obj fields) = config.toSettings := by
  obtain ⟨fields, hreread, hfields⟩ := ofJson_reread config
  refine ⟨fields, ?_, hfields⟩
  rw [savedText, Json.read_print style (numberFree_toSettings config) (by decide), hreread]

-- A file that holds a saved configuration is read as this configuration.
theorem read_of_saved (h : config.IsProper) {bytes : Bytes} (hencode : Utf8.encode config.savedText = .ok bytes)
    (hchecked : checkText path.text = .ok ()) (hfind : disk.find path = .ok (place, .file bytes)) :
    Ends (read path) disk disk (.ok config) := by
  have htext := ends_readText_of_find hchecked hfind (Utf8.decode_of_encode hencode)
  obtain ⟨fields, hjson, hfields⟩ := read_savedText config
  have haccepted : Ends (ofExcept (.configRefused path.text) (Settings.ofJson (.obj fields)).check) disk disk
      (.ok config) := by
    rw [hfields, check_toSettings h]
    exact ends_ofExcept.mpr ⟨rfl, rfl⟩
  rw [normalizeLines_savedText] at htext
  rw [read, ends_bind_of_ok htext, hjson, ends_bind_of_ok haccepted]
  exact ends_log_bind.mpr (ends_pure.mpr ⟨rfl, rfl⟩)

-- Saving a configuration succeeds wherever a file can be written, and loading it from there gives it back
-- with every option.
theorem load_save {root path : Text} (h : config.IsProper) (tree : disk.IsTree)
    (below : Manifest.isBelow (.ofText root) (.ofText path)) (takes : disk.TakesFile (.ofText path)) :
    ∃ saved, Ends (save config.toSettings (.ofText path)) disk saved (.ok ()) ∧
      Ends (load (.ofText root) (some (Path.textFrom (.ofText root) (.ofText path)))) saved saved
        (.ok config) := by
  have hread := Path.isRead_ofText path
  rw [Manifest.isBelow, Bool.and_eq_true, bne_iff_ne] at below
  obtain ⟨hwithin, hother⟩ := below
  have hnames : (Path.ofText path).names ≠ [] := by
    obtain ⟨hanchor, hprefix⟩ := Path.isWithin_iff.mp hwithin
    intro hnil
    rw [hnil, List.prefix_nil] at hprefix
    exact hother (by rw [Path.mk.injEq]; exact ⟨hanchor.symm, by rw [hnil, hprefix]⟩)
  obtain ⟨bytes, hencode⟩ := encode_savedText h
  obtain ⟨saved, place, hsave, hchecked, hfind⟩ :=
    takes.writes tree hread (.inl hnames) ((congrArg _ (flatten_saved config)).trans hencode)
  refine ⟨saved, hsave, ?_⟩
  rw [load, Path.child_textFrom hread hwithin, ends_bind_of_ok (ends_pathExists_of_find hchecked hfind)]
  exact read_of_saved h hencode hchecked hfind

-- Texts with quotes, line ends of all kinds and code points beyond ASCII, some of which are blank.
def oddConfig : Config where
  input := "\"a\\b\r\n\t\u2028"
  output := "\x85é"
  supabasePath := "\x01@/\r"
  schema := "\u3000😀"
  manifest := false

theorem load_save_odd : oddConfig.IsProper ∧ Disk.empty.IsTree ∧
    Manifest.isBelow (.ofText "/p") (.ofText "/p/a/../b.json") ∧
    Disk.empty.TakesFile (.ofText "/p/a/../b.json") ∧
    ∃ saved, Ends (save oddConfig.toSettings (.ofText "/p/a/../b.json")) .empty saved (.ok ()) ∧
      Ends (load (.ofText "/p") (some (Path.textFrom (.ofText "/p") (.ofText "/p/a/../b.json")))) saved saved
        (.ok oddConfig) := by
  have hproper : oddConfig.IsProper := by decide +kernel
  have tree : Disk.empty.IsTree := .of_entries (by decide) (by decide) (by decide) (by decide)
  have below : Manifest.isBelow (.ofText "/p") (.ofText "/p/a/../b.json") := by decide +kernel
  have takes : Disk.empty.TakesFile (.ofText "/p/a/../b.json") :=
    @exists_ends_ok .empty (writePieces (.ofText "/p/a/../b.json") []) (by decide +kernel)
  exact ⟨hproper, tree, below, takes, load_save hproper tree below takes⟩

end Config

end HookGen
