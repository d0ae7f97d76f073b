import HookGen.Proofs.Config.Overriding
import HookGen.Proofs.Config.Saving

/-!
Loading a configuration file, whatever its bytes. Every failure names the file but two: bytes that are no UTF-8, and
a number with too many digits.
-/

namespace HookGen

open Run

-- The failures that an unfit value is the cause of.
inductive RunError.IsValueError : RunError → Prop
  | unreadable (e : Utf8.DecodeError) : IsValueError (.unreadable e)
  | numberTooLong (e : Json.ReadError) : IsValueError (.numberTooLong e)
  | configMalformed (path : Text) (e : Json.ReadError) : IsValueError (.configMalformed path e)
  | configNotAnObject (path : Text) : IsValueError (.configNotAnObject path)
  | configRefused (path : Text) (e : Settings.SettingsError) : IsValueError (.configRefused path e)

namespace Disk

variable {disk : Disk} {path : Path} {bytes : Bytes}

-- A file that can be read is there.
theorem pathExists_of_read (h : disk.read path = .ok bytes) : disk.pathExists path = .ok true := by
  obtain ⟨_, hchecked, h⟩ := except_bind_eq_ok.mp h
  obtain ⟨found, hfound, -⟩ := except_bind_eq_ok.mp h
  cases hfind : disk.find path with
  | error fault => simp [refuse, hfind] at hfound
  | ok place => simp [pathExists, ask, hchecked, hfind]

end Disk

namespace Config

variable {disk : Disk} {root path : Path} {file : Option Text} {bytes : Bytes} {config : Config}

-- What the bytes of a configuration file come to.
def loaded (path : Text) (bytes : Bytes) : Except RunError Config :=
  match (Utf8.decode bytes).map normalizeLines with
  | .error e => .error (.unreadable e)
  | .ok text =>
    match Json.read text with
    | .error (.tooManyDigits count) => .error (.numberTooLong (.tooManyDigits count))
    | .error (.fault cause line column position) => .error (.configMalformed path (.fault cause line column position))
    | .ok (.obj fields) => (Settings.ofJson (.obj fields)).check.mapError (.configRefused path)
    | .ok _ => .error (.configNotAnObject path)

-- Where the configuration of a project is looked for.
def filePath (root : Path) (file : Option Text) : Path := root.child (file.getD fileName)

theorem ends_read (hread : disk.read path = .ok bytes) : Ends (read path) disk disk (loaded path.text bytes) := by
  have htext := ends_readText hread
  rw [read, loaded]
  cases hdecode : Utf8.decode bytes with
  | error e =>
    rw [hdecode] at htext
    exact (ends_bind_of_error htext).mpr ⟨rfl, rfl⟩
  | ok text =>
    rw [hdecode] at htext
    rw [ends_bind_of_ok htext]
    simp only [Except.map]
    cases Json.read (normalizeLines text) with
    | error e => cases e <;> exact ⟨rfl, rfl⟩
    | ok value =>
      cases value with
      | obj fields =>
        have hcheck : Ends (ofExcept (.configRefused path.text) (Settings.ofJson (.obj fields)).check) disk disk
            ((Settings.ofJson (.obj fields)).check.mapError (.configRefused path.text)) :=
          ends_ofExcept.mpr ⟨rfl, rfl⟩
        dsimp only
        cases hchecked : (Settings.ofJson (.obj fields)).check with
        | error e =>
          rw [hchecked] at hcheck
          exact (ends_bind_of_error hcheck).mpr ⟨rfl, rfl⟩
        | ok config =>
          rw [hchecked] at hcheck
          exact (ends_bind_of_ok hcheck).mpr (ends_log_bind.mpr ⟨rfl, rfl⟩)
      | _ => exact ⟨rfl, rfl⟩

-- A configuration file that can be read, the usual one or a given one, decides how loading ends.
theorem ends_load (hread : disk.read (filePath root file) = .ok bytes) :
    Ends (load root file) disk disk (loaded (filePath root file).text bytes) := by
  have hthere : Ends (pathExists (filePath root file)) disk disk (.ok true) :=
    ends_query_ok (Disk.pathExists_of_read hread)
  cases file <;> exact (ends_bind_of_ok hthere).mpr (ends_read hread)

-- What is asked of loading a file: a configuration without blank texts, or a failure that says which file it is.
inductive Reports (path : Text) : Except RunError Config → Prop
  | loaded {config : Config} (h : ∀ text ∈ config.texts, text.isBlank = false) : Reports path (.ok config)
  | refused {e : RunError} (hkind : e.IsValueError) (h : path <:+: e.message) : Reports path (.error e)

-- How a file fails before anything asks for its name.
inductive Unnamed (bytes : Bytes) : RunError → Prop
  | unreadable {e : Utf8.DecodeError} (h : Utf8.decode bytes = .error e) : Unnamed bytes (.unreadable e)
  | numberTooLong {text : Text} {count : Nat} (h : Utf8.decode bytes = .ok text)
    (hjson : Json.read (normalizeLines text) = .error (.tooManyDigits count)) :
    Unnamed bytes (.numberTooLong (.tooManyDigits count))

theorem notBlank_of_check {settings : Settings} (h : settings.check = .ok config) :
    ∀ text ∈ config.texts, text.isBlank = false := by
  simp only [Settings.check, except_bind_eq_ok, Settings.checkText_eq_ok] at h
  obtain ⟨input, ⟨-, hinput⟩, output, ⟨-, houtput⟩, client, ⟨-, hclient⟩, schema, ⟨-, hschema⟩, manifest, -, h⟩ := h
  obtain rfl := Except.ok.inj h
  simp [texts, hinput, houtput, hclient, hschema]

theorem reports_malformed (path : Text) (e : Json.ReadError) : Reports path (.error (.configMalformed path e)) := by
  refine .refused (.configMalformed path e) ?_
  rw [RunError.message, List.append_assoc]
  exact List.infix_append ..

theorem reports_notAnObject (path : Text) : Reports path (.error (.configNotAnObject path)) :=
  .refused (.configNotAnObject path) (List.infix_append ..)

theorem reports_check (path : Text) (settings : Settings) :
    Reports path (settings.check.mapError (.configRefused path)) := by
  cases hcheck : settings.check with
  | ok config => exact .loaded (notBlank_of_check hcheck)
  | error e =>
    refine .refused (.configRefused path e) ?_
    rw [RunError.message, List.append_assoc]
    exact List.infix_append ..

-- Behind decoding and the limit of digits, every failure has the path in its message.
theorem reports_or_unnamed (path : Text) (bytes : Bytes) :
    Reports path (loaded path bytes) ∨ ∃ e, loaded path bytes = .error e ∧ Unnamed bytes e := by
  rw [loaded]
  cases hdecode : Utf8.decode bytes with
  | error e => exact .inr ⟨_, rfl, .unreadable hdecode⟩
  | ok text =>
    simp only [Except.map]
    cases hjson : Json.read (normalizeLines text) with
    | error e =>
      cases e with
      | fault => exact .inl (reports_malformed path _)
      | tooManyDigits count => exact .inr ⟨_, rfl, .numberTooLong hdecode hjson⟩
    | ok value =>
      cases value with
      | obj fields => exact .inl (reports_check path _)
      | _ => exact .inl (reports_notAnObject path)

theorem Unnamed.loaded_eq {e : RunError} (h : Unnamed bytes e) (path : Text) : loaded path bytes = .error e := by
  cases h with
  | unreadable h => simp [loaded, h, Except.map]
  | numberTooLong h hjson => simp [loaded, h, Except.map, hjson]

theorem Unnamed.isValueError {e : RunError} (h : Unnamed bytes e) : e.IsValueError := by
  cases h with
  | unreadable _ => exact .unreadable _
  | numberTooLong _ _ => exact .numberTooLong _

-- The failures that name no file are all there is to ask about.
theorem reports_loaded_iff {path : Text} :
    Reports path (loaded path bytes) ↔ ∀ e, Unnamed bytes e → path <:+: e.message := by
  constructor
  · intro hreports e he
    rw [he.loaded_eq] at hreports
    cases hreports with
    | refused _ h => exact h
  · intro h
    obtain hreports | ⟨e, he, hunnamed⟩ := reports_or_unnamed path bytes
    · exact hreports
    · rw [he]
      exact .refused hunnamed.isValueError (h e hunnamed)

section Slash

theorem slash_notMem_ofNat (n : Nat) : .char '/' ∉ Text.ofNat n := by
  intro h
  obtain ⟨c, hc, heq⟩ := List.mem_map.mp h
  obtain rfl := CodePoint.char.inj heq
  exact absurd (Nat.isDigit_of_mem_toDigits (by decide) (by decide) hc) (by decide)

theorem slash_notMem_ofByte (b : UInt8) : .char '/' ∉ Text.ofNatHex 2 b.toNat :=
  (show ∀ n < 256, .char '/' ∉ Text.ofNatHex 2 n by decide +kernel) b.toNat b.toNat_lt

-- No failure of this kind mentions a path that leads through a directory.
theorem Unnamed.slash_notMem {e : RunError} (h : Unnamed bytes e) : .char '/' ∉ e.message := by
  cases h with
  | unreadable _ =>
    rename_i cause _
    rw [RunError.message, Utf8.DecodeError.message]
    have hfault : .char '/' ∉ cause.fault.message := by cases cause.fault <;> decide
    split <;> simp only [List.mem_append, slash_notMem_ofNat, slash_notMem_ofByte, hfault, or_false] <;> decide
  | numberTooLong _ _ =>
    simp only [RunError.message, Json.ReadError.message, Json.tooManyDigitsMessage, List.mem_append,
      slash_notMem_ofNat, or_false]
    decide

-- A path that leads through a directory is named exactly where the bytes are UTF-8 without such numbers.
theorem reports_loaded_of_slash_iff {path : Text} (hslash : .char '/' ∈ path) :
    Reports path (loaded path bytes) ↔
      ∃ text, Utf8.decode bytes = .ok text ∧
        ∀ count, Json.read (normalizeLines text) ≠ .error (.tooManyDigits count) := by
  have hnever : (∀ e, Unnamed bytes e → path <:+: e.message) ↔ ∀ e, ¬ Unnamed bytes e :=
    forall₂_congr fun e he => iff_of_false (fun h => he.slash_notMem (h.subset hslash)) id
  rw [reports_loaded_iff, hnever]
  constructor
  · intro h
    cases hdecode : Utf8.decode bytes with
    | error e => exact absurd (.unreadable hdecode) (h _)
    | ok text => exact ⟨text, rfl, fun count hjson => h _ (.numberTooLong hdecode hjson)⟩
  · rintro ⟨text, hdecode, hjson⟩ e he
    cases he with
    | unreadable h => cases hdecode.symm.trans h
    | numberTooLong h hlong =>
      obtain rfl := Except.ok.inj (hdecode.symm.trans h)
      exact hjson _ hlong

end Slash

-- Loading a file reports what is wrong with it by the name of the file exactly when the bytes are UTF-8 without
-- numbers of too many digits, or when the message of such a failure happens to hold the name.
theorem load_reports_iff (hread : disk.read (filePath root file) = .ok bytes) :
    (∃ result, Ends (load root file) disk disk result ∧ Reports (filePath root file).text result) ↔
      ∀ e, Unnamed bytes e → (filePath root file).text <:+: e.message := by
  have hends := ends_load hread
  rw [← reports_loaded_iff]
  constructor
  · rintro ⟨result, hresult, hreports⟩
    obtain ⟨-, rfl⟩ := hends.unique hresult
    exact hreports
  · exact fun hreports => ⟨_, hends, hreports⟩

section Sample

-- A disk with a configuration file in a project directory.
def sampleDisk (bytes : Bytes) : Disk :=
  ⟨[([Text.ofString "p"], .directory), ([Text.ofString "p", fileName], .file bytes)], []⟩

theorem read_sampleDisk (bytes : Bytes) : (sampleDisk bytes).read (filePath (.ofText "/p") none) = .ok bytes := rfl

-- A list in place of an object.
theorem load_list_reports :
    (sampleDisk [0x5b, 0x5d]).read (filePath (.ofText "/p") none) = .ok [0x5b, 0x5d] ∧
      ∃ result, Ends (load (.ofText "/p") none) (sampleDisk [0x5b, 0x5d]) (sampleDisk [0x5b, 0x5d]) result ∧
        Reports "/p/supahooks.config.json" result := by
  have hdecode : Utf8.decode [0x5b, 0x5d] = .ok "[]" := by decide +kernel
  have hjson : Json.read (normalizeLines "[]") = .ok (.arr []) := rfl
  refine ⟨read_sampleDisk _, (load_reports_iff (read_sampleDisk _)).mpr fun e he => ?_⟩
  cases he with
  | unreadable h => cases hdecode.symm.trans h
  | numberTooLong h hlong =>
    obtain rfl := Except.ok.inj (hdecode.symm.trans h)
    cases hjson.symm.trans hlong

-- A byte that begins no character.
theorem load_stray_byte_unnamed :
    ¬ ∃ result, Ends (load (.ofText "/p") none) (sampleDisk [0xff]) (sampleDisk [0xff]) result ∧
      Reports "/p/supahooks.config.json" result := by
  have hdecode : Utf8.decode [0xff] = .error ⟨.invalidStart, 0xff, 0, 1⟩ := by decide +kernel
  rintro ⟨result, hresult, hreports⟩
  have hends := ends_load (read_sampleDisk [0xff])
  rw [(Unnamed.unreadable hdecode).loaded_eq] at hends
  obtain ⟨-, rfl⟩ := hends.unique hresult
  cases hreports with
  | refused _ h =>
    have hno : ¬ (Text.ofString "/p/supahooks.config.json" <:+:
      (RunError.unreadable ⟨.invalidStart, 0xff, 0, 1⟩).message) := by decide +kernel
    exact hno h

end Sample

end Config

end HookGen
