import HookGen.CommandLine.Basic
import HookGen.Proofs.Disk.Write
import HookGen.Proofs.Integration.Updating

/-!
At what runs can fail. Most failures are reported to the user; the others come from resolving paths, from
escapes without a value, and from the list of files of a manifest.
-/

namespace HookGen

open Run

namespace Run

variable {α β ε : Type} {allowed wider : RunError → Prop}

-- A run that fails at nothing but what is allowed.
def FailsOnly (allowed : RunError → Prop) (run : Run α) : Prop :=
  ∀ disk last e, Ends run disk last (.error e) → allowed e

theorem FailsOnly.mono {run : Run α} (h : FailsOnly allowed run) (hwider : ∀ e, allowed e → wider e) :
    FailsOnly wider run :=
  fun disk last e hends => hwider e (h disk last e hends)

theorem failsOnly_pure (a : α) : FailsOnly allowed (pure a : Run α) := by
  intro disk last e h
  simp at h

theorem failsOnly_fail {e : RunError} (h : allowed e) : FailsOnly allowed (fail e : Run α) := by
  rintro disk last e' ⟨_, herror⟩
  obtain rfl := Except.error.inj herror
  exact h

theorem failsOnly_log (record : LogRecord) : FailsOnly allowed (log record) := by
  intro disk last e h
  simp at h

theorem failsOnly_query {question : Disk → Except DiskError α}
    (h : ∀ disk e, question disk = .error e → allowed (.disk e)) : FailsOnly allowed (query question) := by
  intro disk last e hends
  obtain ⟨_, houtcome⟩ := ends_query.mp hends
  cases hquestion : question disk with
  | error cause =>
    rw [hquestion] at houtcome
    obtain rfl := Except.error.inj houtcome
    exact h disk cause hquestion
  | ok a => simp [hquestion] at houtcome

theorem failsOnly_change {operation : Disk → Except DiskError (Disk × α)}
    (h : ∀ disk e, operation disk = .error e → allowed (.disk e)) : FailsOnly allowed (change operation) := by
  intro disk last e hends
  rcases ends_change.mp hends with ⟨_, _, hok⟩ | ⟨cause, hcause, _, herror⟩
  · simp at hok
  · obtain rfl := Except.error.inj herror
    exact h disk cause hcause

theorem failsOnly_ofExcept {onError : ε → RunError} {x : Except ε α}
    (h : ∀ e, x = .error e → allowed (onError e)) : FailsOnly allowed (ofExcept onError x) := by
  intro disk last e hends
  obtain ⟨_, houtcome⟩ := ends_ofExcept.mp hends
  cases x with
  | error cause =>
    obtain rfl := Except.error.inj houtcome
    exact h cause rfl
  | ok a => simp at houtcome

theorem failsOnly_ofLogged {onError : ε → RunError} {x : Logged ε α}
    (h : ∀ e, x.outcome = .error e → allowed (onError e)) : FailsOnly allowed (ofLogged onError x) := by
  intro disk last e hends
  obtain ⟨_, houtcome⟩ := ends_ofLogged.mp hends
  cases hx : x.outcome with
  | error cause =>
    rw [hx] at houtcome
    obtain rfl := Except.error.inj houtcome
    exact h cause hx
  | ok a => simp [hx] at houtcome

theorem failsOnly_bind {first : Run α} {next : α → Run β} (hfirst : FailsOnly allowed first)
    (hnext : ∀ a, FailsOnly allowed (next a)) : FailsOnly allowed (first >>= next) := by
  intro disk last e hends
  rcases ends_bind.mp hends with ⟨mid, a, _, h⟩ | ⟨e', h, herror⟩
  · exact hnext a mid last e h
  · obtain rfl := Except.error.inj herror
    exact hfirst disk last e h

theorem failsOnly_map {run : Run α} {f : α → β} (h : FailsOnly allowed run) : FailsOnly allowed (f <$> run) := by
  rw [map_eq_pure_bind]
  exact failsOnly_bind h fun _ => failsOnly_pure _

-- A failure is allowed after the handling of the failures that are possible.
theorem failsOnly_orElse {first : Run α} {handle : RunError → Run α} (hfirst : FailsOnly wider first)
    (hhandle : ∀ e, wider e → FailsOnly allowed (handle e)) : FailsOnly allowed (orElse first handle) := by
  intro disk last e hends
  rcases ends_orElse.mp hends with ⟨_, _, hok⟩ | ⟨mid, cause, hcause, h⟩
  · simp at hok
  · exact hhandle cause (hfirst disk mid cause hcause) mid last e h

theorem failsOnly_forEach {run : α → Run Unit} (h : ∀ a, FailsOnly allowed (run a)) (items : List α) :
    FailsOnly allowed (forEach run items) := by
  induction items with
  | nil => exact failsOnly_pure ()
  | cons first rest ih => exact failsOnly_bind (h first) fun _ => ih

end Run

-- A failure that the user is told about.
def RunError.IsReported (e : RunError) : Prop := e.isReported = true

-- How a run can fail that resolves paths.
def RunError.IsReportedOrLoop (e : RunError) : Prop := e.IsReported ∨ ∃ path, e = .disk (.linkLoop path)

-- How a run can fail that brings a manifest up to date.
def RunError.IsReportedOrStale (e : RunError) : Prop := e.IsReportedOrLoop ∨ ∃ kind, e = .notAList kind

theorem RunError.IsReported.not_loop {e : DiskError} (h : RunError.IsReported (.disk e)) (path : Text) :
    e ≠ .linkLoop path := by
  rintro rfl
  cases h

namespace Disk

variable {disk : Disk} {path : Path} {e : DiskError}

-- Failures of the operations on a disk other than resolving a path.
theorem isReported_of_checkText {t : Text} (h : checkText t = .error e) :
    RunError.IsReported (.disk e) := by
  unfold checkText at h
  split at h
  · cases h
    rfl
  · split at h <;> cases h
    rfl

theorem isReported_of_refuse {α : Type} {x : Except Fault α} (h : refuse path x = .error e) :
    RunError.IsReported (.disk e) := by
  cases x with
  | error fault =>
    cases h
    rfl
  | ok a => cases h

theorem isReported_of_ask {question : Entry → Bool} (h : disk.ask path question = .error e) :
    RunError.IsReported (.disk e) := by
  rw [ask_eq_error h]
  rfl

theorem isReported_of_read (h : disk.read path = .error e) : RunError.IsReported (.disk e) := by
  cases hchecked : checkText path.text with
  | error cause =>
    simp only [read, hchecked, bind, Except.bind] at h
    cases h
    exact isReported_of_checkText hchecked
  | ok _ =>
    cases hfind : refuse path (disk.find path) with
    | error cause =>
      simp only [read, hchecked, hfind, bind, Except.bind] at h
      cases h
      exact isReported_of_refuse hfind
    | ok found =>
      obtain ⟨place, entry⟩ := found
      simp only [read, hchecked, hfind, bind, Except.bind] at h
      cases entry <;> cases h <;> rfl

theorem isReported_of_makeDirectory (h : disk.makeDirectory path = .error e) :
    RunError.IsReported (.disk e) := by
  cases hchecked : checkText path.text with
  | error cause =>
    simp only [makeDirectory, hchecked, bind, Except.bind] at h
    cases h
    exact isReported_of_checkText hchecked
  | ok _ =>
    rw [makeDirectory_eq hchecked] at h
    cases hplace : disk.freePlace path with
    | error fault =>
      rw [hplace] at h
      cases h
      rfl
    | ok place =>
      rw [hplace] at h
      cases h

theorem isReported_of_openForWriting (h : disk.openForWriting path = .error e) :
    RunError.IsReported (.disk e) := by
  cases hchecked : checkText path.text with
  | error cause =>
    simp only [openForWriting, hchecked, bind, Except.bind] at h
    cases h
    exact isReported_of_checkText hchecked
  | ok _ =>
    cases hlocate : refuse path (disk.locate true path) with
    | error cause =>
      simp only [openForWriting, hchecked, hlocate, bind, Except.bind] at h
      cases h
      exact isReported_of_refuse hlocate
    | ok place =>
      simp only [openForWriting, hchecked, hlocate, bind, Except.bind] at h
      split at h <;> cases h
      rfl

theorem isReported_of_checkNames {place names : List Text} (h : checkNames place names = .error e) :
    RunError.IsReported (.disk e) := by
  induction names generalizing place with
  | nil => cases h
  | cons name rest ih =>
    rw [checkNames] at h
    split at h
    · exact ih h
    · cases hchecked : checkText (Path.ofPlace (place ++ [name])).text with
      | error cause =>
        rw [hchecked] at h
        cases h
        exact isReported_of_checkText hchecked
      | ok _ =>
        rw [hchecked] at h
        exact ih h

-- Resolving a path can fail at a loop of links besides.
theorem isReportedOrLoop_of_resolve (h : disk.resolve path = .error e) :
    RunError.IsReportedOrLoop (.disk e) := by
  cases hnames : checkNames (disk.origin path) path.names with
  | error cause =>
    simp only [resolve, hnames, bind, Except.bind] at h
    cases h
    exact .inl (isReported_of_checkNames hnames)
  | ok _ =>
    simp only [resolve, hnames, bind, Except.bind] at h
    split at h <;> cases h
    exact .inr ⟨_, rfl⟩

end Disk

namespace Run

theorem failsOnly_resolve (path : Path) : FailsOnly RunError.IsReportedOrLoop (resolve path) :=
  failsOnly_bind (failsOnly_query fun _ _ => Disk.isReportedOrLoop_of_resolve) fun _ => failsOnly_pure _

theorem failsOnly_pathExists (path : Path) : FailsOnly RunError.IsReported (pathExists path) :=
  failsOnly_query fun _ _ => Disk.isReported_of_ask

theorem failsOnly_isFile (path : Path) : FailsOnly RunError.IsReported (isFile path) :=
  failsOnly_query fun _ _ => Disk.isReported_of_ask

theorem failsOnly_readText (path : Path) : FailsOnly RunError.IsReported (readText path) :=
  failsOnly_bind (failsOnly_query fun _ _ => Disk.isReported_of_read) fun _ =>
    failsOnly_bind (failsOnly_ofExcept fun _ _ => rfl) fun _ => failsOnly_pure _

theorem failsOnly_makeLastDirectory (path : Path) : FailsOnly RunError.IsReported (makeLastDirectory path) := by
  have hmake : FailsOnly RunError.IsReported (change fun disk => return (← disk.makeDirectory path, ())) := by
    refine failsOnly_change fun disk e h => ?_
    cases hmade : disk.makeDirectory path with
    | error cause =>
      rw [hmade] at h
      cases h
      exact Disk.isReported_of_makeDirectory hmade
    | ok made =>
      rw [hmade] at h
      cases h
  refine failsOnly_orElse hmake fun e he => ?_
  split
  · exact failsOnly_fail he
  · refine failsOnly_bind (failsOnly_query fun _ _ => Disk.isReported_of_ask) fun there => ?_
    split
    · exact failsOnly_pure ()
    · exact failsOnly_fail he
  · exact failsOnly_fail he

theorem failsOnly_makeDirectoriesUp (anchor : Anchor) (names : List Text) :
    FailsOnly RunError.IsReported (makeDirectoriesUp anchor names) := by
  induction names with
  | nil => exact failsOnly_makeLastDirectory _
  | cons name above ih =>
    refine failsOnly_orElse (failsOnly_makeLastDirectory _) fun e he => ?_
    split
    · exact failsOnly_bind ih fun _ => failsOnly_makeLastDirectory _
    · exact failsOnly_fail he

theorem failsOnly_appendPieces (place : Place) (pieces : List Text) :
    FailsOnly RunError.IsReported (appendPieces place pieces) := by
  induction pieces with
  | nil => exact failsOnly_pure ()
  | cons piece rest ih =>
    exact failsOnly_bind (failsOnly_ofExcept fun _ _ => rfl) fun _ =>
      failsOnly_bind (failsOnly_change nofun) fun _ => ih

theorem failsOnly_writePieces (path : Path) (pieces : List Text) :
    FailsOnly RunError.IsReported (writePieces path pieces) :=
  failsOnly_bind (failsOnly_makeDirectoriesUp _ _) fun _ =>
    failsOnly_bind (failsOnly_change fun _ _ => Disk.isReported_of_openForWriting) fun _ =>
      failsOnly_appendPieces _ _

end Run

namespace Config

theorem failsOnly_read (path : Path) : FailsOnly RunError.IsReported (read path) := by
  refine failsOnly_bind (failsOnly_readText path) fun text => ?_
  split
  · exact failsOnly_fail rfl
  · exact failsOnly_fail rfl
  · exact failsOnly_bind (failsOnly_ofExcept fun _ _ => rfl) fun _ =>
      failsOnly_bind (failsOnly_log _) fun _ => failsOnly_pure _
  · exact failsOnly_fail rfl

-- Loading a configuration, whatever there is in its file.
theorem failsOnly_load (root : Path) (file : Option Text) : FailsOnly RunError.IsReported (load root file) := by
  cases file with
  | none =>
    refine failsOnly_bind (failsOnly_pathExists _) fun there => ?_
    split
    · exact failsOnly_read _
    · exact failsOnly_bind (failsOnly_log _) fun _ => failsOnly_pure _
  | some file =>
    refine failsOnly_bind (failsOnly_pathExists _) fun there => ?_
    split
    · exact failsOnly_read _
    · exact failsOnly_fail rfl

end Config

namespace Manifest

theorem failsOnly_writeFile (path : Path) (text : Text) : FailsOnly RunError.IsReported (writeFile path text) :=
  fun _ _ _ h => failsOnly_writePieces path [text] _ _ _ (ends_writeFile.mp h)

theorem failsOnly_path (config : Config) (root : Path) :
    FailsOnly RunError.IsReportedOrLoop (path config root) :=
  failsOnly_bind (failsOnly_resolve _) fun _ => failsOnly_pure _

-- Reading the previous manifest, whatever there is in its place.
theorem failsOnly_load (config : Config) (root : Path) :
    FailsOnly RunError.IsReportedOrLoop (load config root) := by
  refine failsOnly_bind (failsOnly_path _ _) fun path => ?_
  refine failsOnly_bind ((failsOnly_pathExists path).mono fun _ => .inl) fun there => ?_
  split
  · exact failsOnly_pure _
  have htext : FailsOnly RunError.IsReportedOrLoop (some <$> readText path) :=
    failsOnly_map ((failsOnly_readText path).mono fun _ => .inl)
  refine failsOnly_bind (failsOnly_orElse htext fun e he => ?_) fun text? => ?_
  · split
    · exact failsOnly_bind (failsOnly_bind (failsOnly_log _) fun _ => failsOnly_pure _) fun _ => failsOnly_pure _
    · exact failsOnly_fail he
  · split
    · exact failsOnly_pure _
    · split
      · exact failsOnly_fail (.inl rfl)
      · exact failsOnly_bind (failsOnly_log _) fun _ => failsOnly_pure _
      · exact failsOnly_pure _
      · exact failsOnly_bind (failsOnly_log _) fun _ => failsOnly_pure _

theorem failsOnly_entriesOf (output : Path) (files : List Text) :
    FailsOnly RunError.IsReportedOrLoop (entriesOf output files) := by
  induction files with
  | nil => exact failsOnly_pure _
  | cons file rest ih =>
    refine failsOnly_bind ?_ fun entry => failsOnly_bind ih fun _ => failsOnly_pure _
    refine failsOnly_bind (failsOnly_resolve _) fun path => failsOnly_bind (failsOnly_resolve _) fun base => ?_
    split
    · exact failsOnly_pure _
    · exact failsOnly_fail (.inl rfl)

theorem failsOnly_create (now : Text) (schema : Schema) (clientPath : Text) (files : List Text) (output : Path) :
    FailsOnly RunError.IsReportedOrLoop (create now schema clientPath files output) :=
  failsOnly_bind (failsOnly_entriesOf output files) fun _ => failsOnly_pure _

theorem failsOnly_resolveAll (files : List Text) : FailsOnly RunError.IsReportedOrLoop (resolveAll files) := by
  induction files with
  | nil => exact failsOnly_pure _
  | cons file rest ih =>
    exact failsOnly_bind (failsOnly_resolve _) fun _ => failsOnly_bind ih fun _ => failsOnly_pure _

theorem failsOnly_removeEmptyUp {allowed : RunError → Prop} (output : Path) (names : List Text) :
    FailsOnly allowed (removeEmptyUp output names) := by
  induction names with
  | nil => exact failsOnly_pure ()
  | cons name above ih =>
    rw [removeEmptyUp]
    split
    · exact failsOnly_pure ()
    · refine failsOnly_bind (failsOnly_query (by simp)) fun empty => ?_
      split
      · exact failsOnly_bind (failsOnly_change (by simp)) fun _ => ih
      · exact failsOnly_pure ()

theorem failsOnly_removeEntry (output : Path) (current : List Path) (entry : Text) :
    FailsOnly RunError.IsReportedOrLoop (removeEntry output current entry) := by
  refine failsOnly_bind (failsOnly_resolve _) fun path => ?_
  split
  · exact failsOnly_bind (failsOnly_log _) fun _ => failsOnly_pure _
  split
  · exact failsOnly_pure _
  refine failsOnly_bind ((failsOnly_isFile path).mono fun _ => .inl) fun there => ?_
  split
  · exact failsOnly_pure _
  · exact failsOnly_bind (failsOnly_change nofun) fun _ => failsOnly_bind (failsOnly_log _) fun _ =>
      failsOnly_bind (failsOnly_removeEmptyUp _ _) fun _ => failsOnly_pure _

theorem failsOnly_removeEntries (output : Path) (current : List Path) (entries : List Text) :
    FailsOnly RunError.IsReportedOrLoop (removeEntries output current entries) := by
  induction entries with
  | nil => exact failsOnly_pure _
  | cons entry rest ih =>
    exact failsOnly_bind (failsOnly_removeEntry output current entry) fun _ =>
      failsOnly_bind ih fun _ => failsOnly_pure _

-- The list of files of a manifest can be something else than a list.
theorem failsOnly_cleanUp (previous : Json) (files : List Text) (output : Path) :
    FailsOnly RunError.IsReportedOrStale (cleanUp previous files output) := by
  refine failsOnly_bind ((failsOnly_resolve _).mono fun _ => .inl) fun base => ?_
  refine failsOnly_bind ((failsOnly_resolveAll files).mono fun _ => .inl) fun current => ?_
  refine failsOnly_bind (failsOnly_ofExcept fun e he => ?_) fun entries =>
    (failsOnly_removeEntries base current _).mono fun _ => .inl
  unfold Manifest.entries at he
  split at he <;> cases he
  exact .inr ⟨_, rfl⟩

end Manifest

namespace Integration

theorem failsOnly_writeGenerated (verbose : Bool) (file : GeneratedFile) :
    FailsOnly RunError.IsReported (writeGenerated verbose file) :=
  fun _ _ _ h => failsOnly_writePieces _ _ _ _ _ (ends_writeGenerated.mp h)

theorem failsOnly_readDeclarations (path : Path) : FailsOnly RunError.IsReported (readDeclarations path) := by
  refine failsOnly_bind (failsOnly_isFile path) fun there => ?_
  split
  · exact failsOnly_bind (failsOnly_query fun _ _ => Disk.isReported_of_read) fun _ => failsOnly_ofLogged nofun
  · exact failsOnly_fail rfl

theorem failsOnly_config (request : Request) (root : Path) :
    FailsOnly RunError.IsReported (config request root) :=
  failsOnly_bind (Config.failsOnly_load _ _) fun _ => failsOnly_pure _

theorem failsOnly_recordFiles (now : Text) (schema : Schema) (files : List GeneratedFile) (config : Config)
    (root output : Path) :
    FailsOnly RunError.IsReportedOrStale (recordFiles now schema files config root output) := by
  refine failsOnly_bind ((Manifest.failsOnly_create _ _ _ _ _).mono fun _ => .inl) fun manifest => ?_
  refine failsOnly_bind ((Manifest.failsOnly_path _ _).mono fun _ => .inl) fun path => ?_
  exact (Manifest.failsOnly_writeFile _ _).mono fun _ h => .inl (.inl h)

-- Bringing the manifest up to date, whatever the previous one says.
theorem failsOnly_updateManifest (now : Text) (schema : Schema) (files : List GeneratedFile) (config : Config)
    (root : Path) : FailsOnly RunError.IsReportedOrStale (updateManifest now schema files config root) := by
  refine failsOnly_bind ((failsOnly_resolve _).mono fun _ => .inl) fun output => ?_
  refine failsOnly_bind ((Manifest.failsOnly_load config root).mono fun _ => .inl) fun found => ?_
  have hrecord := failsOnly_recordFiles now schema files config root output
  cases found with
  | none => exact hrecord
  | some previous =>
    dsimp only
    split
    · refine failsOnly_bind (Manifest.failsOnly_cleanUp _ _ _) fun removed => ?_
      split
      · exact failsOnly_bind (failsOnly_log _) fun _ => hrecord
      · exact hrecord
    · exact hrecord

end Integration

end HookGen
