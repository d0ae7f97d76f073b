import HookGen.Proofs.Config.Saving
import HookGen.Proofs.Failures
import HookGen.Proofs.Generation.Failures

/-!
How the command line ends: with an answer to the user, unless a failure gets past it.
-/

namespace HookGen

open Run

variable {disk last : Disk}

theorem Run.ends_resolve_eq_error {path : Path} {e : RunError} :
    Ends (resolve path) disk last (.error e) ↔
      disk = last ∧ ∃ cause, disk.resolve path = .error cause ∧ e = .disk cause := by
  cases hplace : disk.resolve path with
  | error cause =>
    constructor
    · intro h
      obtain ⟨hsame, herror⟩ := (ends_resolve_error hplace).unique h
      exact ⟨hsame, cause, rfl, (Except.error.inj herror).symm⟩
    · rintro ⟨rfl, _, hcause, rfl⟩
      obtain rfl := Except.error.inj hcause
      exact ends_resolve_error hplace
  | ok place =>
    constructor
    · intro h
      cases (h.unique (ends_resolve_ok hplace)).2
    · rintro ⟨_, _, hcause, _⟩
      cases hcause

theorem Run.ends_ofLogged_eq_error {ε α : Type} {onError : ε → RunError} {x : Logged ε α} {e : RunError} :
    Ends (ofLogged onError x) disk last (.error e) ↔
      disk = last ∧ ∃ cause, x.outcome = .error cause ∧ e = onError cause := by
  rw [ends_ofLogged]
  cases x.outcome <;> simp [eq_comm]

-- Texts that have a form in bytes are added to an open file without failing.
theorem Run.not_ends_appendPieces_error {place : Place} {pieces : List Text} {e : RunError}
    (hpieces : ∀ piece ∈ pieces, Utf8.IsScalar piece) :
    ¬ Ends (appendPieces place pieces) disk last (.error e) := by
  induction pieces generalizing disk with
  | nil => simp [appendPieces]
  | cons piece rest ih =>
    obtain ⟨hpiece, hrest⟩ := List.forall_mem_cons.mp hpieces
    obtain ⟨bytes, hencode⟩ := Utf8.encode_of_isScalar hpiece
    have hencoded : Ends (ofExcept .unwritable (Utf8.encode piece)) disk disk (.ok bytes) :=
      ends_ofExcept.mpr ⟨rfl, by rw [hencode]; rfl⟩
    rw [appendPieces, ends_bind_of_ok hencoded, ends_bind_of_ok (ends_change_ok rfl)]
    exact ih hrest

-- Writing them fails as writing an empty file does.
theorem Run.ends_writePieces_eq_error {path : Path} {pieces : List Text} {e : RunError}
    (hpieces : ∀ piece ∈ pieces, Utf8.IsScalar piece) :
    Ends (writePieces path pieces) disk last (.error e) ↔ Ends (writePieces path []) disk last (.error e) := by
  refine ends_bind_congr fun mid _ => ends_bind_congr fun opened place => ?_
  exact iff_of_false (not_ends_appendPieces_error hpieces) (not_ends_appendPieces_error (by simp))

namespace Config

-- The disk refuses a new configuration file, and not because something is in its place.
inductive Refused (disk : Disk) (path : Path) : Prop
  | question {e : DiskError} (h : disk.pathExists path = .error e)
  | file {last : Disk} {e : RunError} (hfree : disk.pathExists path = .ok false)
    (h : Ends (writePieces path []) disk last (.error e)) (hother : e.isAlreadyThere = false)

-- The default settings have a form in bytes, so that only the disk can refuse them.
theorem ends_save_default {path : Path} {e : RunError} :
    Ends (save Settings.default path) disk last (.error e) ↔ Ends (writePieces path []) disk last (.error e) := by
  refine ends_writePieces_eq_error fun piece hpiece => ?_
  rcases List.mem_append.mp hpiece with hmem | hmem
  · exact isScalar_pieces isProper_default piece hmem
  · rw [List.mem_singleton.mp hmem]
    exact Utf8.isScalar_ofString _

theorem ends_writeDefault_of_free {root : Path} {e : RunError}
    (hfree : disk.pathExists (root.child fileName) = .ok false) :
    Ends (writeDefault root false) disk last (.error e) ↔
      Ends (writePieces (root.child fileName) []) disk last (.error e) := by
  have hthere : Ends (pathExists (root.child fileName)) disk disk (.ok false) := ends_query_ok hfree
  rw [writeDefault, ends_bind_of_ok hthere]
  simp only [Bool.false_and, Bool.false_eq_true, if_false]
  rw [ends_bind, ← ends_save_default]
  constructor
  · rintro (⟨_, _, _, hlog⟩ | ⟨_, h, herror⟩)
    · cases (ends_log_bind.mp hlog).2
    · obtain rfl := Except.error.inj herror
      exact h
  · exact fun h => .inr ⟨e, h, rfl⟩

theorem refused_iff {root : Path} : Refused disk (root.child fileName) ↔
    ∃ last e, Ends (writeDefault root false) disk last (.error e) ∧ e.isAlreadyThere = false := by
  cases hthere : disk.pathExists (root.child fileName) with
  | error cause =>
    refine iff_of_true (.question hthere) ⟨disk, .disk cause, ?_, ?_⟩
    · exact (ends_bind_of_error (ends_query_error hthere)).mpr ⟨rfl, rfl⟩
    · rw [Disk.ask_eq_error hthere]
      rfl
  | ok there =>
    cases there with
    | true =>
      refine iff_of_false ?_ ?_
      · rintro (⟨h⟩ | ⟨hfree, -, -⟩)
        · simp [hthere] at h
        · simp [hthere] at hfree
      · rintro ⟨last, e, h, hother⟩
        obtain ⟨_, herror⟩ := (ends_bind_of_ok (ends_query_ok hthere)).mp h
        obtain rfl := Except.error.inj herror
        cases hother
    | false =>
      simp only [ends_writeDefault_of_free hthere]
      constructor
      · rintro (⟨h⟩ | ⟨-, h, hother⟩)
        · simp [hthere] at h
        · exact ⟨_, _, h, hother⟩
      · rintro ⟨last, e, h, hother⟩
        exact .file hthere h hother

end Config

namespace Integration

variable {now : Text} {request : Request}

-- The root and the configuration that a run works with.
def Configured (request : Request) (disk : Disk) (root : Path) (config : Config) : Prop :=
  Ends (projectRoot request.projectRoot) disk disk (.ok root) ∧
    Ends (Integration.config request root) disk disk (.ok config)

-- How a run can fail without a message for the user: a path that is resolved leads into a loop of links, an
-- escape in the declarations has a number that no machine word holds, or the files of the previous manifest
-- are not given as a list.
inductive Faulty (now : Text) (request : Request) (disk : Disk) : Prop
  | root {t : Text} (h : disk.resolve (.ofText (request.projectRoot.getD ".")) = .error (.linkLoop t))
  | input {root : Path} {config : Config} {t : Text} (hconfig : Configured request disk root config)
    (h : disk.resolve (root.child config.input) = .error (.linkLoop t))
  | declarations {root : Path} {config : Config} {input : Place} {file : DeclarationFile}
    (hconfig : Configured request disk root config) (hinput : disk.resolve (root.child config.input) = .ok input)
    (hfile : Ends (readDeclarations (.ofPlace input)) disk disk (.ok file))
    (h : (Introspection.introspect file config.schema "Database").outcome = .error (.literal .tooLarge))
  | output {root : Path} {config : Config} {found : Schema} {t : Text}
    (hconfig : Configured request disk root config) (hschema : Ends (schema config root) disk disk (.ok found))
    (h : disk.resolve (root.child config.output) = .error (.linkLoop t))
  | generation {root : Path} {config : Config} {found : Schema} {base : Place} {e : GenerationError}
    (hconfig : Configured request disk root config) (hschema : Ends (schema config root) disk disk (.ok found))
    (hbase : disk.resolve (root.child config.output) = .ok base)
    (h : (Generation.generate found config.supabasePath (.ofPlace base)).outcome = .error e)
    (he : e = .literal .tooLarge ∨ e = .render (.literal .tooLarge))
  | manifest {root : Path} {config : Config} {result : Result} {mid last : Disk} {e : RunError}
    (hreading : Ends (reading request) disk disk (.ok (root, config, result)))
    (hwrite : Ends (forEach (writeGenerated request.verbose) result.files) disk mid (.ok ()))
    (hmanifest : config.manifest = true)
    (h : Ends (updateManifest now result.schema result.files config root) mid last (.error e))
    (he : (∃ t, e = .disk (.linkLoop t)) ∨ ∃ kind, e = .notAList kind)

theorem isRooted_of_schema {config : Config} {root : Path} {found : Schema}
    (h : Ends (schema config root) disk disk (.ok found)) : found.IsRooted := by
  obtain ⟨input, _, h⟩ := (readOnly_resolve _).bind_ok.mp h
  obtain ⟨file, _, h⟩ := (readOnly_readDeclarations _).bind_ok.mp h
  obtain ⟨_, houtcome⟩ := ends_ofLogged.mp h
  cases hfound : (Introspection.introspect file config.schema "Database").outcome with
  | error cause => simp [hfound] at houtcome
  | ok schema =>
    rw [hfound] at houtcome
    obtain rfl : schema = found := Except.ok.inj houtcome
    exact (Introspection.introspect_describes hfound).isRooted

theorem not_unreported {e : RunError} (h : e.IsReported) : e.isReported ≠ false := by
  rw [h]
  decide

-- A path that cannot be resolved, without the user being told, leads into a loop.
theorem exists_loop {path : Path} {e : RunError} (h : Ends (resolve path) disk last (.error e))
    (he : e.isReported = false) : disk = last ∧ ∃ t, disk.resolve path = .error (.linkLoop t) := by
  obtain ⟨hsame, cause, hcause, rfl⟩ := ends_resolve_eq_error.mp h
  rcases Disk.isReportedOrLoop_of_resolve hcause with hreported | ⟨t, hloop⟩
  · exact absurd he (not_unreported hreported)
  · cases hloop
    exact ⟨hsame, t, hcause⟩

variable {root : Path} {config : Config}

-- Failures of the parts of reading that are not reported.
theorem faulty_of_schema (hconfig : Configured request disk root config) {e : RunError}
    (h : Ends (schema config root) disk last (.error e)) (he : e.isReported = false) :
    Faulty now request disk := by
  rcases ends_bind.mp h with ⟨mid, input, hinput, hrest⟩ | ⟨_, hinput, herror⟩
  · obtain ⟨rfl, place, hplace, rfl⟩ := resolve_of_ends hinput
    rcases ends_bind.mp hrest with ⟨_, file, hfile, hfound⟩ | ⟨_, hfile, herror⟩
    · cases (readOnly_readDeclarations _).last_eq hfile
      obtain ⟨_, cause, hcause, rfl⟩ := ends_ofLogged_eq_error.mp hfound
      cases cause with
      | literal cause =>
        cases cause with
        | tooLarge => exact .declarations hconfig hplace hfile hcause
        | notACodePoint => cases he
      | _ => cases he
    · obtain rfl := Except.error.inj herror
      exact absurd he (not_unreported (failsOnly_readDeclarations _ _ _ _ hfile))
  · obtain rfl := Except.error.inj herror
    obtain ⟨_, t, hloop⟩ := exists_loop hinput he
    exact .input hconfig hloop

theorem faulty_of_files (hconfig : Configured request disk root config) {found : Schema}
    (hschema : Ends (schema config root) disk disk (.ok found)) {e : RunError}
    (h : Ends (files found config root) disk last (.error e)) (he : e.isReported = false) :
    Faulty now request disk := by
  rcases ends_bind.mp h with ⟨mid, output, houtput, hrest⟩ | ⟨_, houtput, herror⟩
  · obtain ⟨rfl, base, hbase, rfl⟩ := resolve_of_ends houtput
    obtain ⟨_, cause, hcause, rfl⟩ := ends_ofLogged_eq_error.mp hrest
    have hrooted := isRooted_of_schema hschema
    obtain ⟨literal, rfl⟩ | ⟨literal, rfl⟩ := Generation.failsOnly_generate hrooted _ _ _ hcause
    all_goals
      cases literal with
      | tooLarge => exact .generation hconfig hschema hbase hcause (by simp)
      | notACodePoint => cases he
  · obtain rfl := Except.error.inj herror
    obtain ⟨_, t, hloop⟩ := exists_loop houtput he
    exact .output hconfig hschema hloop

theorem faulty_of_reading {e : RunError} (h : Ends (reading request) disk last (.error e))
    (he : e.isReported = false) : Faulty now request disk := by
  rcases ends_bind.mp h with ⟨_, root, hroot, h'⟩ | ⟨_, hroot, herror⟩
  swap
  · obtain rfl := Except.error.inj herror
    obtain ⟨_, t, hloop⟩ := exists_loop hroot he
    exact .root hloop
  cases (readOnly_projectRoot _).last_eq hroot
  rcases ends_bind.mp h' with ⟨_, config, hconfig, h'⟩ | ⟨_, hconfig, herror⟩
  swap
  · obtain rfl := Except.error.inj herror
    exact absurd he (not_unreported (failsOnly_config _ _ _ _ _ hconfig))
  cases (readOnly_config _ _).last_eq hconfig
  rcases ends_bind.mp h' with ⟨_, found, hschema, h'⟩ | ⟨_, hschema, herror⟩
  swap
  · obtain rfl := Except.error.inj herror
    exact faulty_of_schema ⟨hroot, hconfig⟩ hschema he
  cases (readOnly_schema _ _).last_eq hschema
  rcases ends_bind.mp h' with ⟨_, _, _, hend⟩ | ⟨_, hfiles, herror⟩
  · simp at hend
  · obtain rfl := Except.error.inj herror
    exact faulty_of_files ⟨hroot, hconfig⟩ hschema hfiles he

theorem ends_reading_of_schema_error (hconfig : Configured request disk root config) {e : RunError}
    (h : Ends (schema config root) disk disk (.error e)) : Ends (reading request) disk disk (.error e) :=
  (ends_bind_of_ok hconfig.1).mpr ((ends_bind_of_ok hconfig.2).mpr ((ends_bind_of_error h).mpr ⟨rfl, rfl⟩))

theorem ends_reading_of_files_error (hconfig : Configured request disk root config) {found : Schema}
    (hschema : Ends (schema config root) disk disk (.ok found)) {e : RunError}
    (h : Ends (files found config root) disk disk (.error e)) : Ends (reading request) disk disk (.error e) :=
  (ends_bind_of_ok hconfig.1).mpr ((ends_bind_of_ok hconfig.2).mpr ((ends_bind_of_ok hschema).mpr
    ((ends_bind_of_error h).mpr ⟨rfl, rfl⟩)))

theorem ends_integrate_of_reading_error {e : RunError} (h : Ends (reading request) disk disk (.error e)) :
    Ends (integrate now request) disk disk (.error e) :=
  ends_integrate.mpr ((ends_bind_of_error h).mpr ⟨rfl, rfl⟩)

-- The failures of a run that the user is not told about.
theorem faulty_iff : Faulty now request disk ↔
    ∃ last e, Ends (integrate now request) disk last (.error e) ∧ e.isReported = false := by
  constructor
  · intro h
    cases h with
    | root h =>
      exact ⟨disk, _, ends_integrate_of_reading_error ((ends_bind_of_error (ends_resolve_error h)).mpr ⟨rfl, rfl⟩),
        rfl⟩
    | input hconfig h =>
      exact ⟨disk, _, ends_integrate_of_reading_error (ends_reading_of_schema_error hconfig
        ((ends_bind_of_error (ends_resolve_error h)).mpr ⟨rfl, rfl⟩)), rfl⟩
    | declarations hconfig hinput hfile h =>
      exact ⟨disk, _, ends_integrate_of_reading_error (ends_reading_of_schema_error hconfig
        ((ends_bind_of_ok (ends_resolve_ok hinput)).mpr ((ends_bind_of_ok hfile).mpr
          (ends_ofLogged_eq_error.mpr ⟨rfl, _, h, rfl⟩)))), rfl⟩
    | output hconfig hschema h =>
      exact ⟨disk, _, ends_integrate_of_reading_error (ends_reading_of_files_error hconfig hschema
        ((ends_bind_of_error (ends_resolve_error h)).mpr ⟨rfl, rfl⟩)), rfl⟩
    | generation hconfig hschema hbase h he =>
      refine ⟨disk, _, ends_integrate_of_reading_error (ends_reading_of_files_error hconfig hschema
        ((ends_bind_of_ok (ends_resolve_ok hbase)).mpr (ends_ofLogged_eq_error.mpr ⟨rfl, _, h, rfl⟩))), ?_⟩
      rcases he with rfl | rfl <;> rfl
    | @manifest root config result mid last e hreading hwrite hmanifest h he =>
      refine ⟨last, e, ?_, by rcases he with ⟨_, rfl⟩ | ⟨_, rfl⟩ <;> rfl⟩
      rw [ends_integrate_of_reading hreading, writing, ends_bind_of_ok hwrite, if_pos hmanifest]
      exact (ends_bind_of_error h).mpr ⟨rfl, rfl⟩
  · rintro ⟨last, e, h, he⟩
    rcases ends_bind.mp (ends_integrate.mp h) with
      ⟨_, ⟨root, config, result⟩, hreading, hwriting⟩ | ⟨_, hreading, herror⟩
    · cases (readOnly_reading _).last_eq hreading
      rcases ends_bind.mp hwriting with ⟨mid, _, hwrite, hrest⟩ | ⟨_, hwrite, herror⟩
      · by_cases hmanifest : config.manifest = true
        · rw [if_pos hmanifest] at hrest
          rcases ends_bind.mp hrest with ⟨_, _, _, hend⟩ | ⟨_, hupdate, herror⟩
          · simp at hend
          · obtain rfl := Except.error.inj herror
            refine .manifest hreading hwrite hmanifest hupdate ?_
            rcases failsOnly_updateManifest _ _ _ _ _ _ _ _ hupdate with (hreported | hloop) | hlist
            · exact absurd he (not_unreported hreported)
            · exact .inl hloop
            · exact .inr hlist
        · rw [if_neg hmanifest] at hrest
          simp at hrest
      · obtain rfl := Except.error.inj herror
        exact absurd he (not_unreported (failsOnly_forEach (failsOnly_writeGenerated _) _ _ _ _ hwrite))
    · obtain rfl := Except.error.inj herror
      exact faulty_of_reading hreading he

end Integration

namespace CommandLine

variable {α : Type} {now : Text} {arguments : Arguments}

-- The directory that the default configuration goes to.
def configDirectory (arguments : Arguments) (disk : Disk) : Path :=
  match arguments.projectRoot with
  | none => .ofPlace disk.current
  | some t => .ofText t

-- What the arguments ask for: the default configuration, or the modules of a project.
def requested (now : Text) (arguments : Arguments) : Run Unit :=
  if arguments.init then do
    let root ← query fun disk => .ok (configDirectory arguments disk)
    let _ ← Config.writeDefault root false
  else do
    let _ ← Integration.integrate now arguments.request

-- The command line ends by itself: what was asked for is done and the code is 0, or it has failed, which
-- one message tells, and the code is 1.
inductive Answers (now : Text) (arguments : Arguments) (disk : Disk) : Prop
  | completed {last : Disk} {output : Text} (hdone : Ends (requested now arguments) disk last (.ok ()))
    (h : Ends (perform now arguments) disk last (.ok ⟨0, output, []⟩))
  | failed {last : Disk} {e : RunError} (hfailed : Ends (requested now arguments) disk last (.error e))
    (h : Ends (perform now arguments) disk last (.ok ⟨1, [], "Error: " ++ e.message ++ "\n"⟩))

-- A failure gets past the command line.
def Crashes (now : Text) (arguments : Arguments) (disk : Disk) : Prop :=
  if arguments.init then Config.Refused disk ((configDirectory arguments disk).child Config.fileName)
  else Integration.Faulty now arguments.request disk

-- Do something, print what has come out, and tell of some of the failures.
def handled (task : Run α) (output : α → Text) (told : RunError → Bool) : Run Outcome :=
  orElse (task >>= fun a => pure ⟨0, output a, []⟩) fun e => if told e then done (failed e) else fail e

theorem answers_of_handled (task : Run α) (output : α → Text) (told : RunError → Bool)
    (hperform : ∀ last outcome,
      Ends (perform now arguments) disk last outcome ↔ Ends (handled task output told) disk last outcome)
    (hrequested : ∀ last outcome, Ends (requested now arguments) disk last outcome ↔
      Ends (task >>= fun _ => done ()) disk last outcome) :
    Answers now arguments disk ↔ ¬ ∃ last e, Ends task disk last (.error e) ∧ told e = false := by
  rcases error_or_ok (task disk).2.outcome with ⟨e, he⟩ | ⟨a, ha⟩
  · have htask : Ends task disk _ (.error e) := ⟨rfl, he⟩
    have hfirst : Ends (task >>= fun a => pure (⟨0, output a, []⟩ : Outcome)) disk _ (.error e) :=
      (ends_bind_of_error htask).mpr ⟨rfl, rfl⟩
    cases htold : told e with
    | true =>
      refine iff_of_true (.failed ((hrequested _ _).mpr ((ends_bind_of_error htask).mpr ⟨rfl, rfl⟩))
        ((hperform _ _).mpr (ends_orElse.mpr (.inr ⟨_, e, hfirst, ?_⟩)))) ?_
      · rw [if_pos htold]
        exact ⟨rfl, rfl⟩
      · rintro ⟨last, e', h, hnot⟩
        obtain rfl := Except.error.inj (htask.unique h).2
        rw [htold] at hnot
        cases hnot
    | false =>
      have hperformed : Ends (perform now arguments) disk (task disk).1 (.error e) := by
        refine (hperform _ _).mpr (ends_orElse.mpr (.inr ⟨_, e, hfirst, ?_⟩))
        rw [if_neg (by simp [htold])]
        exact ⟨rfl, rfl⟩
      refine iff_of_false ?_ (not_not.mpr ⟨_, e, htask, htold⟩)
      rintro (⟨_, h⟩ | ⟨_, h⟩) <;> cases (hperformed.unique h).2
  · have htask : Ends task disk _ (.ok a) := ⟨rfl, ha⟩
    refine iff_of_true (.completed ((hrequested _ _).mpr ((ends_bind_of_ok htask).mpr ⟨rfl, rfl⟩))
      ((hperform _ _).mpr (ends_orElse.mpr (.inl ⟨_, (ends_bind_of_ok htask).mpr ⟨rfl, rfl⟩, rfl⟩)))) ?_
    rintro ⟨last, e, h, _⟩
    cases (htask.unique h).2

-- What is printed for a configuration that has been written.
def createdReport (path : Path) : Text := "SupaHooks: Created " ++ path.text ++ "\n"

-- Writing the default configuration begins with finding out where it goes.
theorem ends_writeConfig {outcome : Except RunError Outcome} :
    Ends (writeConfig arguments) disk last outcome ↔
      Ends (handled (Config.writeDefault (configDirectory arguments disk) false)
        createdReport RunError.isAlreadyThere) disk last outcome := by
  rw [writeConfig, handled, ends_orElse, ends_orElse, configDirectory]
  cases arguments.projectRoot with
  | none =>
    have hroot : Ends (query fun disk => .ok (Path.ofPlace disk.current)) disk disk (.ok (.ofPlace disk.current)) :=
      ends_query_ok rfl
    simp only [ends_bind_of_ok hroot, createdReport]
  | some t =>
    have hroot : Ends (done (Path.ofText t)) disk disk (.ok (.ofText t)) := ⟨rfl, rfl⟩
    simp only [ends_bind_of_ok hroot, createdReport]

-- The command line answers unless a failure gets past it, of which there are these kinds.
theorem answers_iff (now : Text) (arguments : Arguments) (disk : Disk) :
    Answers now arguments disk ↔ ¬ Crashes now arguments disk := by
  unfold Crashes
  cases hinit : arguments.init with
  | false =>
    rw [if_neg (by simp), Integration.faulty_iff]
    refine answers_of_handled _ (fun result => if arguments.verbose then [] else result.report) _
      (fun last outcome => ?_) fun last outcome => ?_
    · rw [perform, if_neg (by simp [hinit])]
      rfl
    · rw [requested, if_neg (by simp [hinit])]
      rfl
  | true =>
    rw [if_pos rfl, Config.refused_iff]
    refine answers_of_handled _ createdReport _ (fun last outcome => ?_) fun last outcome => ?_
    · rw [perform, if_pos hinit]
      exact ends_writeConfig
    · have hroot : Ends (query fun disk => .ok (configDirectory arguments disk)) disk disk
          (.ok (configDirectory arguments disk)) := ends_query_ok rfl
      rw [requested, if_pos hinit, ends_bind_of_ok hroot]
      rfl

-- A file is named as part of a path, where there are only directories to be.
def fileDisk : Disk where
  entries := [(["project"], .directory), (["project", "f"], .file [])]
  current := ["project"]

def initBelowFile : Arguments where
  input := none
  output := none
  config := none
  supabasePath := none
  schema := none
  projectRoot := some "f/x"
  verbose := false
  init := true

theorem not_answers_below_file : parse ["--init", "--project-root", "f/x"] = .ok initBelowFile ∧
    ¬ Answers "now" initBelowFile fileDisk := by
  have hnone : (perform "now" initBelowFile fileDisk).2.outcome.toOption = none := by decide +kernel
  obtain ⟨last, e, h⟩ := exists_ends_error hnone
  refine ⟨by decide +kernel, ?_⟩
  rintro (⟨_, h'⟩ | ⟨_, h'⟩) <;> cases (h.unique h').2

end CommandLine

end HookGen
