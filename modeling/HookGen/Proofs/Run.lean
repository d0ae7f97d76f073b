import HookGen.Proofs.Traced
import HookGen.Run

/-!
How runs end: the disk they leave and their value or error. What is logged on the way is left out.
-/

namespace HookGen.Run

variable {α β ε : Type} {disk last : Disk}

theorem error_or_ok (x : Except ε α) : (∃ e, x = .error e) ∨ ∃ a, x = .ok a := by
  cases x with
  | error e => exact .inl ⟨e, rfl⟩
  | ok a => exact .inr ⟨a, rfl⟩

instance : LawfulMonad Run := by
  apply LawfulMonad.mk' Run
  · intro α run
    funext disk
    rcases h : run disk with ⟨last, notes, outcome⟩
    cases outcome <;> simp [Functor.map, done, andThen, h, Traced.done]
  · intro α β a f
    rfl
  · intro α β γ run f g
    funext disk
    rcases h : run disk with ⟨mid, notes, outcome⟩
    cases outcome with
    | error e => simp [bind, andThen, h]
    | ok a =>
      rcases h' : f a mid with ⟨next, notes', outcome'⟩
      cases outcome' <;> simp [bind, andThen, h, h', List.append_assoc]

-- A run on one disk leaves another one with an outcome.
def Ends (run : Run α) (disk last : Disk) (outcome : Except RunError α) : Prop :=
  (run disk).1 = last ∧ (run disk).2.outcome = outcome

theorem Ends.self (run : Run α) (disk : Disk) : Ends run disk (run disk).1 (run disk).2.outcome :=
  ⟨rfl, rfl⟩

theorem exists_ends_error {run : Run α} (h : (run disk).2.outcome.toOption = none) :
    ∃ last e, Ends run disk last (.error e) := by
  rcases error_or_ok (run disk).2.outcome with ⟨e, he⟩ | ⟨a, ha⟩
  · exact ⟨_, e, rfl, he⟩
  · simp [ha, Except.toOption] at h

theorem Ends.unique {run : Run α} {last' : Disk} {outcome outcome' : Except RunError α}
    (h : Ends run disk last outcome) (h' : Ends run disk last' outcome') :
    last = last' ∧ outcome = outcome' :=
  ⟨h.1.symm.trans h'.1, h.2.symm.trans h'.2⟩

@[simp] theorem ends_pure {a : α} {outcome : Except RunError α} :
    Ends (pure a : Run α) disk last outcome ↔ disk = last ∧ Except.ok a = outcome := Iff.rfl

@[simp] theorem ends_done {a : α} {outcome : Except RunError α} :
    Ends (done a) disk last outcome ↔ disk = last ∧ Except.ok a = outcome := Iff.rfl

@[simp] theorem ends_fail {e : RunError} {outcome : Except RunError α} :
    Ends (fail e : Run α) disk last outcome ↔ disk = last ∧ Except.error e = outcome := Iff.rfl

@[simp] theorem ends_log {record : LogRecord} {outcome : Except RunError Unit} :
    Ends (log record) disk last outcome ↔ disk = last ∧ Except.ok () = outcome := Iff.rfl

theorem ends_query {question : Disk → Except DiskError α} {outcome : Except RunError α} :
    Ends (query question) disk last outcome ↔
      disk = last ∧ (question disk).mapError .disk = outcome := by
  unfold Ends query Traced.ofExcept
  cases question disk <;> rfl

theorem ends_query_eq_ok {question : Disk → Except DiskError α} {a : α} :
    Ends (query question) disk last (.ok a) ↔ disk = last ∧ question disk = .ok a := by
  rw [ends_query]
  cases question disk <;> simp

theorem ends_ofExcept {onError : ε → RunError} {x : Except ε α} {outcome : Except RunError α} :
    Ends (ofExcept onError x) disk last outcome ↔ disk = last ∧ x.mapError onError = outcome := by
  unfold Ends ofExcept Traced.ofExcept
  cases x <;> rfl

theorem ends_ofLogged {onError : ε → RunError} {x : Logged ε α} {outcome : Except RunError α} :
    Ends (ofLogged onError x) disk last outcome ↔
      disk = last ∧ x.outcome.mapError onError = outcome := Iff.rfl

theorem ends_change {operation : Disk → Except DiskError (Disk × α)}
    {outcome : Except RunError α} :
    Ends (change operation) disk last outcome ↔
      (∃ a, operation disk = .ok (last, a) ∧ outcome = .ok a) ∨
        ∃ e, operation disk = .error e ∧ disk = last ∧ outcome = .error (.disk e) := by
  unfold Ends change
  cases operation disk with
  | error e => simp [Traced.fail, eq_comm]
  | ok result =>
    obtain ⟨changed, a⟩ := result
    simp only [Traced.done, Except.ok.injEq, Prod.mk.injEq, reduceCtorEq, false_and, exists_false,
      or_false]
    constructor
    · rintro ⟨rfl, rfl⟩
      exact ⟨a, ⟨rfl, rfl⟩, rfl⟩
    · rintro ⟨_, ⟨rfl, rfl⟩, rfl⟩
      exact ⟨rfl, rfl⟩

-- Two runs in a row: both run, or the first one fails and the second one does not run.
theorem ends_bind {first : Run α} {next : α → Run β} {outcome : Except RunError β} :
    Ends (first >>= next) disk last outcome ↔
      (∃ mid a, Ends first disk mid (.ok a) ∧ Ends (next a) mid last outcome) ∨
        ∃ e, Ends first disk last (.error e) ∧ outcome = .error e := by
  change Ends (andThen first next) disk last outcome ↔ _
  unfold Ends andThen
  obtain ⟨mid, records, result⟩ := first disk
  cases result with
  | error e =>
    simp only [reduceCtorEq, and_false, false_and, exists_false, false_or, Except.error.injEq]
    exact ⟨fun ⟨h, h'⟩ => ⟨e, ⟨h, rfl⟩, h'.symm⟩, fun ⟨_, ⟨h, rfl⟩, h'⟩ => ⟨h, h'.symm⟩⟩
  | ok a =>
    simp only [Except.ok.injEq, reduceCtorEq, and_false, false_and, exists_false, or_false]
    exact ⟨fun h => ⟨mid, a, ⟨rfl, rfl⟩, h⟩, fun ⟨_, _, ⟨rfl, rfl⟩, h⟩ => h⟩

theorem ends_bind_of_ok {first : Run α} {next : α → Run β} {mid : Disk} {a : α}
    {outcome : Except RunError β} (h : Ends first disk mid (.ok a)) :
    Ends (first >>= next) disk last outcome ↔ Ends (next a) mid last outcome := by
  rw [ends_bind]
  constructor
  · rintro (⟨mid', a', hfirst, hnext⟩ | ⟨e, hfirst, _⟩)
    · obtain ⟨rfl, ha⟩ := h.unique hfirst
      cases ha
      exact hnext
    · cases (h.unique hfirst).2
  · exact fun hnext => .inl ⟨mid, a, h, hnext⟩

theorem ends_bind_of_error {first : Run α} {next : α → Run β} {mid : Disk} {e : RunError}
    {outcome : Except RunError β} (h : Ends first disk mid (.error e)) :
    Ends (first >>= next) disk last outcome ↔ mid = last ∧ .error e = outcome := by
  rw [ends_bind]
  constructor
  · rintro (⟨mid', a', hfirst, _⟩ | ⟨e', hfirst, rfl⟩)
    · cases (h.unique hfirst).2
    · obtain ⟨rfl, he⟩ := h.unique hfirst
      cases he
      exact ⟨rfl, rfl⟩
  · rintro ⟨rfl, rfl⟩
    exact .inr ⟨e, h, rfl⟩

theorem ends_bind_ok {first : Run α} {next : α → Run β} {b : β} :
    Ends (first >>= next) disk last (.ok b) ↔
      ∃ mid a, Ends first disk mid (.ok a) ∧ Ends (next a) mid last (.ok b) := by
  simp [ends_bind]

theorem ends_bind_pure {run : Run α} {f : α → β} {outcome : Except RunError β} :
    Ends (run >>= fun a => pure (f a)) disk last outcome ↔
      ∃ found, Ends run disk last found ∧ found.map f = outcome := by
  rw [ends_bind]
  constructor
  · rintro (⟨mid, a, hrun, rfl, rfl⟩ | ⟨e, hrun, rfl⟩)
    · exact ⟨.ok a, hrun, rfl⟩
    · exact ⟨.error e, hrun, rfl⟩
  · rintro ⟨found, hrun, rfl⟩
    cases found with
    | error e => exact .inr ⟨e, hrun, rfl⟩
    | ok a => exact .inl ⟨last, a, hrun, rfl, rfl⟩

theorem ends_bind_pure_ok {run : Run α} {f : α → β} {b : β} :
    Ends (run >>= fun a => pure (f a)) disk last (.ok b) ↔ ∃ a, Ends run disk last (.ok a) ∧ f a = b := by
  rw [ends_bind_ok]
  constructor
  · rintro ⟨mid, a, hrun, rfl, hb⟩
    exact ⟨a, hrun, Except.ok.inj hb⟩
  · rintro ⟨a, hrun, rfl⟩
    exact ⟨last, a, hrun, rfl, rfl⟩

theorem ends_orElse {first : Run α} {handle : RunError → Run α} {outcome : Except RunError α} :
    Ends (orElse first handle) disk last outcome ↔
      (∃ a, Ends first disk last (.ok a) ∧ outcome = .ok a) ∨
        ∃ mid e, Ends first disk mid (.error e) ∧ Ends (handle e) mid last outcome := by
  unfold Ends orElse
  obtain ⟨mid, records, result⟩ := first disk
  cases result with
  | error e =>
    simp only [reduceCtorEq, and_false, false_and, exists_false, false_or, Except.error.injEq]
    exact ⟨fun h => ⟨mid, e, ⟨rfl, rfl⟩, h⟩, fun ⟨_, _, ⟨rfl, rfl⟩, h⟩ => h⟩
  | ok a =>
    simp only [Except.ok.injEq, reduceCtorEq, and_false, false_and, exists_false, or_false]
    exact ⟨fun ⟨h, h'⟩ => ⟨a, ⟨h, rfl⟩, h'.symm⟩, fun ⟨_, ⟨h, rfl⟩, h'⟩ => ⟨h, h'.symm⟩⟩

theorem ends_bind_congr {first : Run α} {next next' : α → Run β} {outcome : Except RunError β}
    (h : ∀ mid a, Ends (next a) mid last outcome ↔ Ends (next' a) mid last outcome) :
    Ends (first >>= next) disk last outcome ↔ Ends (first >>= next') disk last outcome := by
  simp only [ends_bind, h]

-- What only adds to the log changes nothing of how a run ends.
theorem ends_bind_still {first : Run Unit} {next : Unit → Run Unit} {outcome : Except RunError Unit}
    (hnext : ∀ mid, Ends (next ()) mid mid (.ok ())) :
    Ends (first >>= next) disk last outcome ↔ Ends first disk last outcome := by
  rw [ends_bind]
  constructor
  · rintro (⟨mid, _, hfirst, h⟩ | ⟨e, hfirst, rfl⟩)
    · obtain ⟨rfl, rfl⟩ := (hnext mid).unique h
      exact hfirst
    · exact hfirst
  · intro hfirst
    rcases error_or_ok outcome with ⟨e, rfl⟩ | ⟨_, rfl⟩
    · exact .inr ⟨e, hfirst, rfl⟩
    · exact .inl ⟨last, (), hfirst, hnext last⟩

theorem ends_orElse_still {first : Run α} {handle : RunError → Run α} {outcome : Except RunError α}
    (hhandle : ∀ mid e, Ends (handle e) mid mid (.error e)) :
    Ends (orElse first handle) disk last outcome ↔ Ends first disk last outcome := by
  rw [ends_orElse]
  constructor
  · rintro (⟨_, hfirst, rfl⟩ | ⟨mid, e, hfirst, h⟩)
    · exact hfirst
    · obtain ⟨rfl, rfl⟩ := (hhandle mid e).unique h
      exact hfirst
  · intro hfirst
    rcases error_or_ok outcome with ⟨e, rfl⟩ | ⟨a, rfl⟩
    · exact .inr ⟨last, e, hfirst, hhandle last e⟩
    · exact .inl ⟨a, hfirst, rfl⟩

theorem ends_query_ok {question : Disk → Except DiskError α} {a : α} (h : question disk = .ok a) :
    Ends (query question) disk disk (.ok a) := by
  rw [ends_query, h]
  exact ⟨rfl, rfl⟩

theorem ends_query_error {question : Disk → Except DiskError α} {e : DiskError}
    (h : question disk = .error e) : Ends (query question) disk disk (.error (.disk e)) := by
  rw [ends_query, h]
  exact ⟨rfl, rfl⟩

theorem ends_change_ok {operation : Disk → Except DiskError (Disk × α)} {a : α}
    (h : operation disk = .ok (last, a)) : Ends (change operation) disk last (.ok a) := by
  rw [ends_change]
  exact .inl ⟨a, h, rfl⟩

theorem ends_resolve_ok {path : Path} {place : Place} (h : disk.resolve path = .ok place) :
    Ends (resolve path) disk disk (.ok (.ofPlace place)) :=
  (ends_bind_of_ok (ends_query_ok h)).mpr ⟨rfl, rfl⟩

theorem ends_resolve_error {path : Path} {e : DiskError} (h : disk.resolve path = .error e) :
    Ends (resolve path) disk disk (.error (.disk e)) :=
  (ends_bind_of_error (ends_query_error h)).mpr ⟨rfl, rfl⟩

-- A path that is resolved, with the place that it leads to.
theorem resolve_of_ends {path found : Path} (h : Ends (resolve path) disk last (.ok found)) :
    last = disk ∧ ∃ place, disk.resolve path = .ok place ∧ found = .ofPlace place := by
  cases hplace : disk.resolve path with
  | error e => cases (h.unique (ends_resolve_error hplace)).2
  | ok place =>
    obtain ⟨hsame, hfound⟩ := h.unique (ends_resolve_ok hplace)
    exact ⟨hsame, place, rfl, Except.ok.inj hfound⟩

theorem ends_log_bind {record : LogRecord} {next : Unit → Run β} {outcome : Except RunError β} :
    Ends (log record >>= next) disk last outcome ↔ Ends (next ()) disk last outcome :=
  ends_bind_of_ok (show Ends (log record) disk disk (.ok ()) from ⟨rfl, rfl⟩)

-- A run that leaves every disk as it is.
def ReadOnly (run : Run α) : Prop := ∀ disk, (run disk).1 = disk

theorem ReadOnly.last_eq {run : Run α} (h : ReadOnly run) {outcome : Except RunError α}
    (hends : Ends run disk last outcome) : last = disk := hends.1.symm.trans (h disk)

theorem ReadOnly.fails_or_ends {run : Run α} (h : ReadOnly run) (disk : Disk) :
    (∃ e, Ends run disk disk (.error e)) ∨ ∃ a, Ends run disk disk (.ok a) :=
  (error_or_ok (run disk).2.outcome).imp (fun ⟨e, he⟩ => ⟨e, h disk, he⟩) fun ⟨a, ha⟩ => ⟨a, h disk, ha⟩

-- The value that such a run is computed to have.
theorem ReadOnly.ends_get {run : Run α} (h : ReadOnly run)
    (hsome : (run disk).2.outcome.toOption.isSome = true) :
    Ends run disk disk (.ok ((run disk).2.outcome.toOption.get hsome)) := by
  refine ⟨h disk, ?_⟩
  generalize (run disk).2.outcome = outcome at hsome
  cases outcome with
  | error e => simp [Except.toOption] at hsome
  | ok a => rfl

theorem readOnly_pure (a : α) : ReadOnly (pure a : Run α) := fun _ => rfl

theorem readOnly_fail (e : RunError) : ReadOnly (fail e : Run α) := fun _ => rfl

theorem readOnly_log (record : LogRecord) : ReadOnly (log record) := fun _ => rfl

theorem readOnly_query (question : Disk → Except DiskError α) : ReadOnly (query question) :=
  fun _ => rfl

theorem readOnly_ofExcept (onError : ε → RunError) (x : Except ε α) :
    ReadOnly (ofExcept onError x) := fun _ => rfl

theorem readOnly_ofLogged (onError : ε → RunError) (x : Logged ε α) :
    ReadOnly (ofLogged onError x) := fun _ => rfl

theorem readOnly_bind {first : Run α} {next : α → Run β} (hfirst : ReadOnly first)
    (hnext : ∀ a, ReadOnly (next a)) : ReadOnly (first >>= next) := by
  intro disk
  rcases ends_bind.mp (Ends.self (first >>= next) disk) with ⟨mid, a, h, h'⟩ | ⟨e, h, _⟩
  · rw [(hnext a).last_eq h', hfirst.last_eq h]
  · exact hfirst.last_eq h

theorem ReadOnly.bind_ok {first : Run α} {next : α → Run β} (h : ReadOnly first) {b : β} :
    Ends (first >>= next) disk last (.ok b) ↔
      ∃ a, Ends first disk disk (.ok a) ∧ Ends (next a) disk last (.ok b) := by
  rw [ends_bind_ok]
  constructor
  · rintro ⟨mid, a, hfirst, hnext⟩
    obtain rfl := h.last_eq hfirst
    exact ⟨a, hfirst, hnext⟩
  · rintro ⟨a, hfirst, hnext⟩
    exact ⟨disk, a, hfirst, hnext⟩

theorem ends_forEach_append {run : α → Run Unit} {before after : List α} {mid : Disk}
    {outcome : Except RunError Unit} (h : Ends (forEach run before) disk mid (.ok ())) :
    Ends (forEach run (before ++ after)) disk last outcome ↔ Ends (forEach run after) mid last outcome := by
  induction before generalizing disk with
  | nil =>
    obtain ⟨rfl, _⟩ := ends_done.mp h
    rfl
  | cons first rest ih =>
    obtain ⟨next, _, hfirst, hrest⟩ := ends_bind_ok.mp h
    exact (ends_bind_of_ok hfirst).trans (ih hrest)

-- One run after the other up to the first one that fails.
theorem forEach_error {run : α → Run Unit} {items : List α} {e : RunError}
    (h : Ends (forEach run items) disk last (.error e)) :
    ∃ before item after mid, items = before ++ item :: after ∧
      Ends (forEach run before) disk mid (.ok ()) ∧ Ends (run item) mid last (.error e) := by
  induction items generalizing disk with
  | nil => simp [forEach] at h
  | cons first rest ih =>
    rcases ends_bind.mp h with ⟨mid, _, hfirst, hrest⟩ | ⟨e', hfirst, herror⟩
    · obtain ⟨before, item, after, next, rfl, hbefore, hitem⟩ := ih hrest
      exact ⟨first :: before, item, after, next, rfl, (ends_bind_of_ok hfirst).mpr hbefore, hitem⟩
    · obtain rfl := Except.error.inj herror
      exact ⟨[], first, rest, disk, rfl, ⟨rfl, rfl⟩, hfirst⟩

-- What is logged: a run that is part of another one logs part of what that one logs.
theorem notes_bind_of_ok {first : Run α} {next : α → Run β} {mid : Disk} {a : α}
    (h : Ends first disk mid (.ok a)) :
    ((first >>= next) disk).2.notes = (first disk).2.notes ++ (next a mid).2.notes := by
  change (andThen first next disk).2.notes = _
  rcases hrun : first disk with ⟨last, notes, outcome⟩
  obtain ⟨rfl, rfl⟩ : last = mid ∧ outcome = .ok a := by simpa [Ends, hrun] using h
  simp [andThen, hrun]

theorem notes_bind_of_error {first : Run α} {next : α → Run β} {mid : Disk} {e : RunError}
    (h : Ends first disk mid (.error e)) :
    ((first >>= next) disk).2.notes = (first disk).2.notes := by
  change (andThen first next disk).2.notes = _
  rcases hrun : first disk with ⟨last, notes, outcome⟩
  obtain ⟨rfl, rfl⟩ : last = mid ∧ outcome = .error e := by simpa [Ends, hrun] using h
  simp [andThen, hrun]

theorem notes_orElse_of_error {first : Run α} {handle : RunError → Run α} {mid : Disk} {e : RunError}
    (h : Ends first disk mid (.error e)) :
    (orElse first handle disk).2.notes = (first disk).2.notes ++ (handle e mid).2.notes := by
  rcases hrun : first disk with ⟨last, notes, outcome⟩
  obtain ⟨rfl, rfl⟩ : last = mid ∧ outcome = .error e := by simpa [Ends, hrun] using h
  simp [orElse, hrun]

-- The log of two runs in a row ends as that of the second one does.
theorem notes_suffix_bind {first : Run α} {next : α → Run β} {mid : Disk} {a : α} {records : List LogRecord}
    (h : Ends first disk mid (.ok a)) (hnext : records <:+ (next a mid).2.notes) :
    records <:+ ((first >>= next) disk).2.notes := by
  rw [notes_bind_of_ok h]
  exact hnext.trans (List.suffix_append ..)

theorem notes_suffix_forEach {run : α → Run Unit} {before after : List α} {item : α} {mid : Disk} {e : RunError}
    (hbefore : Ends (forEach run before) disk mid (.ok ())) (hitem : Ends (run item) mid last (.error e)) :
    (run item mid).2.notes <:+ (forEach run (before ++ item :: after) disk).2.notes := by
  induction before generalizing disk with
  | nil =>
    obtain ⟨rfl, _⟩ := ends_done.mp hbefore
    have hnotes : (forEach run (item :: after) disk).2.notes = (run item disk).2.notes :=
      notes_bind_of_error hitem
    exact ⟨[], hnotes.symm⟩
  | cons first rest ih =>
    obtain ⟨next, _, hfirst, hrest⟩ := ends_bind_ok.mp hbefore
    exact notes_suffix_bind hfirst (ih hrest)

-- A run that logs nothing.
def Silent (run : Run α) : Prop := ∀ disk, (run disk).2.notes = []

theorem silent_done (a : α) : Silent (done a) := fun _ => rfl

theorem silent_fail (e : RunError) : Silent (fail e : Run α) := fun _ => rfl

theorem silent_query (question : Disk → Except DiskError α) : Silent (query question) := by
  intro disk
  unfold query Traced.ofExcept
  cases question disk <;> rfl

theorem silent_ofExcept (onError : ε → RunError) (x : Except ε α) : Silent (ofExcept onError x) := by
  intro disk
  cases x <;> rfl

theorem silent_change (operation : Disk → Except DiskError (Disk × α)) : Silent (change operation) := by
  intro disk
  unfold change
  cases operation disk <;> rfl

theorem silent_bind {first : Run α} {next : α → Run β} (hfirst : Silent first)
    (hnext : ∀ a, Silent (next a)) : Silent (first >>= next) := by
  intro disk
  rcases error_or_ok (first disk).2.outcome with ⟨e, he⟩ | ⟨a, ha⟩
  · rw [notes_bind_of_error ⟨rfl, he⟩, hfirst]
  · rw [notes_bind_of_ok ⟨rfl, ha⟩, hfirst, hnext, List.nil_append]

theorem silent_orElse {first : Run α} {handle : RunError → Run α} (hfirst : Silent first)
    (hhandle : ∀ e, Silent (handle e)) : Silent (orElse first handle) := by
  intro disk
  have hnotes := hfirst disk
  rcases hrun : first disk with ⟨last, notes, e | a⟩
  · rw [notes_orElse_of_error ⟨rfl, by rw [hrun]⟩, hnotes, hhandle, List.nil_append]
  · simpa [orElse, hrun] using hnotes

theorem silent_makeLastDirectory (path : Path) : Silent (makeLastDirectory path) := by
  refine silent_orElse (silent_change _) fun e => ?_
  split
  · exact silent_fail _
  · refine silent_bind (silent_query _) fun there => ?_
    split
    · exact silent_done ()
    · exact silent_fail _
  · exact silent_fail _

theorem silent_makeDirectoriesUp (anchor : Anchor) (names : List Text) :
    Silent (makeDirectoriesUp anchor names) := by
  induction names with
  | nil => exact silent_makeLastDirectory _
  | cons name above ih =>
    refine silent_orElse (silent_makeLastDirectory _) fun e => ?_
    split
    · exact silent_bind ih fun _ => silent_makeLastDirectory _
    · exact silent_fail _

theorem silent_appendPieces (place : Place) (pieces : List Text) : Silent (appendPieces place pieces) := by
  induction pieces with
  | nil => exact silent_done ()
  | cons piece rest ih =>
    exact silent_bind (silent_ofExcept _ _) fun _ => silent_bind (silent_change _) fun _ => ih

theorem silent_writePieces (path : Path) (pieces : List Text) : Silent (writePieces path pieces) :=
  silent_bind (silent_makeDirectoriesUp _ _) fun _ => silent_bind (silent_change _) fun _ =>
    silent_appendPieces _ _

theorem readOnly_resolve (path : Path) : ReadOnly (resolve path) :=
  readOnly_bind (readOnly_query _) fun _ => readOnly_pure _

theorem readOnly_readText (path : Path) : ReadOnly (readText path) :=
  readOnly_bind (readOnly_query _) fun _ => readOnly_bind (readOnly_ofExcept _ _) fun _ => readOnly_pure _

theorem ends_readText {path : Path} {bytes : Bytes} (hread : disk.read path = .ok bytes) :
    Ends (readText path) disk disk (((Utf8.decode bytes).mapError .unreadable).map normalizeLines) :=
  (ends_bind_of_ok (ends_query_ok hread)).mpr
    (ends_bind_pure.mpr ⟨_, ends_ofExcept.mpr ⟨rfl, rfl⟩, rfl⟩)

theorem readText_ends_error {path : Path} {e : DiskError} (hread : disk.read path = .error e) :
    Ends (readText path) disk disk (.error (.disk e)) :=
  (ends_bind_of_error (ends_query_error hread)).mpr ⟨rfl, rfl⟩

theorem normalizeLines_of_notMem {t : Text} (h : .char '\r' ∉ t) : normalizeLines t = t := by
  induction t with
  | nil => rfl
  | cons c rest ih =>
    rw [List.mem_cons, not_or] at h
    rw [normalizeLines, if_neg (Ne.symm h.1), ih h.2]
    exact fun _ hc _ => h.1 hc.symm

end HookGen.Run
