import HookGen.Proofs.Disk.Twins

/-!
Runs side by side, on two disks that have the same below two places: they end in the same way, with disks
that again have the same there. What they do elsewhere they do not do: nothing else changes.
-/

namespace HookGen

open Disk

-- What a failure of a run says about the disk.
def RunError.fault? : RunError → Option Fault
  | .disk e => e.fault?
  | _ => none

def RunError.Same (e e' : RunError) : Prop := e.fault? = e'.fault?

theorem RunError.eq_of_fault? {e : RunError} {fault : Fault} (h : e.fault? = some fault) :
    ∃ t, e = .disk (.refused fault t) := by
  cases e with
  | disk e =>
    cases e with
    | refused fault' t =>
      obtain rfl : fault' = fault := Option.some.inj h
      exact ⟨t, rfl⟩
    | _ => cases h
  | _ => cases h

theorem RunError.Same.cases {e e' : RunError} (h : e.Same e') :
    (∃ fault t t', e = .disk (.refused fault t) ∧ e' = .disk (.refused fault t')) ∨
      e.fault? = none ∧ e'.fault? = none := by
  cases hfault : e.fault? with
  | none => exact .inr ⟨rfl, h.symm.trans hfault⟩
  | some fault =>
    obtain ⟨t, rfl⟩ := eq_of_fault? hfault
    obtain ⟨t', rfl⟩ := eq_of_fault? (h.symm.trans hfault)
    exact .inl ⟨fault, t, t', rfl, rfl⟩

namespace Run

-- Runs on two disks, which leave disks that are related in a way.
structure Together {α β : Type} (P : Disk → Disk → Prop) (R : α → β → Prop) (run : Run α) (run' : Run β)
    (disk disk' : Disk) : Prop where
  agree : Concur RunError.Same R (run disk).2.outcome (run' disk').2.outcome
  last : P (run disk).1 (run' disk').1

-- The two runs, on disks that have come from two others.
def Tandem {α β : Type} (base base' : Place) (start start' : Disk) (R : α → β → Prop) (run : Run α)
    (run' : Run β) : Prop :=
  ∀ disk disk', Abreast base base' start start' disk disk' →
    Together (Abreast base base' start start') R run run' disk disk'

variable {α β γ δ ε ε' : Type} {base base' : Place} {start start' disk disk' : Disk} {R : α → β → Prop}
  {Q : γ → δ → Prop} {P D : Disk → Disk → Prop} {names way : List Text} {name : Text}

section Combinators

theorem together_of_ends {run : Run α} {run' : Run β} {last last' : Disk} {outcome : Except RunError α}
    {outcome' : Except RunError β} (h : Ends run disk last outcome) (h' : Ends run' disk' last' outcome')
    (hagree : Concur RunError.Same R outcome outcome') (hlast : P last last') :
    Together P R run run' disk disk' := by
  obtain ⟨rfl, rfl⟩ := h
  obtain ⟨rfl, rfl⟩ := h'
  exact ⟨hagree, hlast⟩

theorem Together.ends {run : Run α} {run' : Run β} (h : Together P R run run' disk disk') :
    ∃ last last' outcome outcome', Ends run disk last outcome ∧ Ends run' disk' last' outcome' ∧
      Concur RunError.Same R outcome outcome' ∧ P last last' :=
  ⟨_, _, _, _, .self run disk, .self run' disk', h.agree, h.last⟩

theorem Tandem.mono {R' : α → β → Prop} {run : Run α} {run' : Run β} (h : Tandem base base' start start' R run run')
    (himp : ∀ a b, R a b → R' a b) : Tandem base base' start start' R' run run' :=
  fun disk disk' habreast => ⟨(h disk disk' habreast).agree.mono himp, (h disk disk' habreast).last⟩

theorem tandem_pure {a : α} {b : β} (h : R a b) : Tandem base base' start start' R (pure a) (pure b) :=
  fun _ _ habreast => ⟨.ok h, habreast⟩

theorem tandem_fail {e e' : RunError} (h : e.Same e') :
    Tandem base base' start start' R (fail e) (fail e') :=
  fun _ _ habreast => ⟨.error h, habreast⟩

theorem tandem_log (record record' : LogRecord) :
    Tandem base base' start start' Eq (log record) (log record') :=
  fun _ _ habreast => ⟨.ok rfl, habreast⟩

theorem tandem_ofLogged {onError : ε → RunError} {onError' : ε' → RunError} {x : Logged ε α} {y : Logged ε' β}
    (h : Concur (fun e e' => (onError e).Same (onError' e')) R x.outcome y.outcome) :
    Tandem base base' start start' R (ofLogged onError x) (ofLogged onError' y) :=
  fun _ _ habreast => ⟨h.mapError fun _ _ hsame => hsame, habreast⟩

theorem tandem_ofExcept {onError : ε → RunError} {onError' : ε' → RunError} {x : Except ε α} {y : Except ε' β}
    (h : Concur (fun e e' => (onError e).Same (onError' e')) R x y) :
    Tandem base base' start start' R (ofExcept onError x) (ofExcept onError' y) := by
  intro disk disk' habreast
  cases h with
  | ok h => exact ⟨.ok h, habreast⟩
  | error h => exact ⟨.error h, habreast⟩

theorem tandem_query {question : Disk → Except DiskError α} {question' : Disk → Except DiskError β}
    (h : ∀ disk disk', Abreast base base' start start' disk disk' →
      Concur DiskError.Same R (question disk) (question' disk')) :
    Tandem base base' start start' R (query question) (query question') := by
  intro disk disk' habreast
  have hagree : Concur RunError.Same R ((question disk).mapError .disk) ((question' disk').mapError .disk) :=
    (h disk disk' habreast).mapError fun _ _ hsame => hsame
  exact together_of_ends (ends_query.mpr ⟨rfl, rfl⟩) (ends_query.mpr ⟨rfl, rfl⟩) hagree habreast

theorem tandem_change {operation : Disk → Except DiskError (Disk × α)}
    {operation' : Disk → Except DiskError (Disk × β)}
    (h : ∀ disk disk', Abreast base base' start start' disk disk' →
      Concur DiskError.Same (fun changed changed' => Abreast base base' disk disk' changed.1 changed'.1 ∧
        R changed.2 changed'.2) (operation disk) (operation' disk')) :
    Tandem base base' start start' R (change operation) (change operation') := by
  intro disk disk' habreast
  rcases (h disk disk' habreast).cases with
    ⟨changed, changed', hchange, hchange', hboth, hsame⟩ | ⟨e, e', hchange, hchange', hsame⟩
  · exact together_of_ends (ends_change_ok hchange) (ends_change_ok hchange') (.ok hsame) (habreast.trans hboth)
  · exact together_of_ends (ends_change.mpr (.inr ⟨e, hchange, rfl, rfl⟩))
      (ends_change.mpr (.inr ⟨e', hchange', rfl, rfl⟩)) (.error hsame) habreast

-- The second runs begin on the disks that the first ones leave, or do not begin at all.
theorem Together.bind {first : Run α} {first' : Run β} {next : α → Run γ} {next' : β → Run δ}
    (h : Together P R first first' disk disk') (hfailed : ∀ mid mid', P mid mid' → D mid mid')
    (hnext : ∀ a b mid mid', Ends first disk mid (.ok a) → Ends first' disk' mid' (.ok b) → R a b → P mid mid' →
      Together D Q (next a) (next' b) mid mid') :
    Together D Q (first >>= next) (first' >>= next') disk disk' := by
  obtain ⟨mid, mid', outcome, outcome', hends, hends', hagree, hmid⟩ := h.ends
  cases hagree with
  | @ok a b hsame =>
    obtain ⟨last, last', outcome, outcome', hnext, hnext', hagree, hlast⟩ :=
      (hnext a b mid mid' hends hends' hsame hmid).ends
    exact together_of_ends ((ends_bind_of_ok hends).mpr hnext) ((ends_bind_of_ok hends').mpr hnext') hagree hlast
  | error hsame =>
    exact together_of_ends ((ends_bind_of_error hends).mpr ⟨rfl, rfl⟩) ((ends_bind_of_error hends').mpr ⟨rfl, rfl⟩)
      (.error hsame) (hfailed _ _ hmid)

theorem tandem_bind {first : Run α} {first' : Run β} {next : α → Run γ} {next' : β → Run δ}
    (hfirst : Tandem base base' start start' R first first')
    (hnext : ∀ a b, R a b → Tandem base base' start start' Q (next a) (next' b)) :
    Tandem base base' start start' Q (first >>= next) (first' >>= next') :=
  fun disk disk' habreast => (hfirst disk disk' habreast).bind (fun _ _ h => h) fun a b mid mid' _ _ hsame hmid =>
    hnext a b hsame mid mid' hmid

-- What is done after a look at the disk is done on a disk where it was answered so.
theorem tandem_query_bind {question question' : Disk → Except DiskError α} {next : α → Run γ} {next' : α → Run δ}
    (h : ∀ disk disk', Abreast base base' start start' disk disk' →
      Concur DiskError.Same Eq (question disk) (question' disk'))
    (hnext : ∀ a disk disk', Abreast base base' start start' disk disk' → question disk = .ok a →
      Together (Abreast base base' start start') Q (next a) (next' a) disk disk') :
    Tandem base base' start start' Q (query question >>= next) (query question' >>= next') := by
  intro disk disk' habreast
  refine (tandem_query h disk disk' habreast).bind (fun _ _ h => h) ?_
  rintro a _ mid mid' hends - rfl hmid
  obtain ⟨rfl, hasked⟩ := ends_query_eq_ok.mp hends
  exact hnext a disk mid' hmid hasked

-- Runs that end in the same way can take the places of others.
theorem Together.congr {run other : Run α} {run' other' : Run β} (h : Together P R run run' disk disk')
    (hrun : ∀ last outcome, Ends other disk last outcome ↔ Ends run disk last outcome)
    (hrun' : ∀ last outcome, Ends other' disk' last outcome ↔ Ends run' disk' last outcome) :
    Together P R other other' disk disk' := by
  obtain ⟨last, last', outcome, outcome', hends, hends', hagree, hlast⟩ := h.ends
  exact together_of_ends ((hrun _ _).mpr hends) ((hrun' _ _).mpr hends') hagree hlast

theorem tandem_orElse {first : Run α} {first' : Run β} {handle : RunError → Run α} {handle' : RunError → Run β}
    (hfirst : Tandem base base' start start' R first first')
    (hhandle : ∀ e e', e.Same e' → Tandem base base' start start' R (handle e) (handle' e')) :
    Tandem base base' start start' R (orElse first handle) (orElse first' handle') := by
  intro disk disk' habreast
  obtain ⟨mid, mid', outcome, outcome', hends, hends', hagree, hmid⟩ := (hfirst disk disk' habreast).ends
  cases hagree with
  | ok hsame =>
    exact together_of_ends (ends_orElse.mpr (.inl ⟨_, hends, rfl⟩)) (ends_orElse.mpr (.inl ⟨_, hends', rfl⟩))
      (.ok hsame) hmid
  | error hsame =>
    obtain ⟨last, last', outcome, outcome', hhandle, hhandle', hagree, hlast⟩ :=
      (hhandle _ _ hsame mid mid' hmid).ends
    exact together_of_ends (ends_orElse.mpr (.inr ⟨_, _, hends, hhandle⟩))
      (ends_orElse.mpr (.inr ⟨_, _, hends', hhandle'⟩)) hagree hlast

-- A failure at no fault of the disk is not handled.
def PassesOthers (handle : RunError → Run α) : Prop := ∀ e, e.fault? = none → handle e = fail e

theorem tandem_recover {first : Run α} {first' : Run β} {handle : RunError → Run α} {handle' : RunError → Run β}
    (hfirst : Tandem base base' start start' R first first')
    (hfault : ∀ fault t t', Tandem base base' start start' R (handle (.disk (.refused fault t)))
      (handle' (.disk (.refused fault t'))))
    (hother : PassesOthers handle) (hother' : PassesOthers handle') :
    Tandem base base' start start' R (orElse first handle) (orElse first' handle') := by
  refine tandem_orElse hfirst fun e e' hsame => ?_
  rcases hsame.cases with ⟨fault, t, t', rfl, rfl⟩ | ⟨hnone, hnone'⟩
  · exact hfault fault t t'
  · rw [hother e hnone, hother' e' hnone']
    exact tandem_fail hsame

-- Runs that do not change anything and have known values.
theorem tandem_of_ends {run : Run α} {run' : Run β} {a : α} {b : β} (hvalue : R a b)
    (h : ∀ disk disk', Abreast base base' start start' disk disk' →
      Ends run disk disk (.ok a) ∧ Ends run' disk' disk' (.ok b)) :
    Tandem base base' start start' R run run' := by
  intro disk disk' habreast
  obtain ⟨hends, hends'⟩ := h disk disk' habreast
  exact together_of_ends hends hends' (.ok hvalue) habreast

theorem tandem_forEach {run : α → Run Unit} {run' : β → Run Unit} {items : List α} {items' : List β}
    (hitems : List.Forall₂ R items items')
    (h : ∀ a b, R a b → Tandem base base' start start' Eq (run a) (run' b)) :
    Tandem base base' start start' Eq (forEach run items) (forEach run' items') := by
  induction hitems with
  | nil => exact tandem_pure rfl
  | cons hfirst _ ih => exact tandem_bind (h _ _ hfirst) fun _ _ _ => ih

end Combinators

section Reading

theorem tandem_pathExists (hbelow : staysBelow 0 names) : Tandem base base' start start' Eq
    (pathExists (.ofPlace (base ++ names))) (pathExists (.ofPlace (base' ++ names))) :=
  tandem_query fun _ _ habreast => habreast.ask hbelow _

theorem tandem_isFile (hbelow : staysBelow 0 names) : Tandem base base' start start' Eq
    (isFile (.ofPlace (base ++ names))) (isFile (.ofPlace (base' ++ names))) :=
  tandem_query fun _ _ habreast => habreast.ask hbelow _

theorem tandem_read (hbelow : staysBelow 0 names) : Tandem base base' start start' Eq
    (read (.ofPlace (base ++ names))) (read (.ofPlace (base' ++ names))) :=
  tandem_query fun _ _ habreast => habreast.read hbelow

theorem tandem_readText (hbelow : staysBelow 0 names) : Tandem base base' start start' Eq
    (readText (.ofPlace (base ++ names))) (readText (.ofPlace (base' ++ names))) := by
  refine tandem_bind (tandem_read hbelow) fun bytes _ hsame => ?_
  subst hsame
  refine tandem_bind (R := Eq) (tandem_ofExcept ?_) fun t _ hsame => ?_
  · cases Utf8.decode bytes with
    | ok t => exact .ok rfl
    | error e => exact .error rfl
  · subst hsame
    exact tandem_pure rfl

-- A path that leads to the same from the beginning does so as long as no link changes.
theorem tandem_resolve {path path' : Path} (hnames : ∀ name ∈ names, IsName name)
    (h : start.resolve path = .ok (base ++ names)) (h' : start'.resolve path' = .ok (base' ++ names)) :
    Tandem base base' start start'
      (fun found found' => found = .ofPlace (base ++ names) ∧ found' = .ofPlace (base' ++ names))
      (resolve path) (resolve path') := by
  refine tandem_of_ends (by exact ⟨rfl, rfl⟩) fun disk disk' habreast => ?_
  have hreal := habreast.confined.links.symm.isReal (habreast.first.isReal hnames)
  have hreal' := habreast.confined'.links.symm.isReal (habreast.second.isReal hnames)
  exact ⟨ends_resolve_ok (resolve_congr habreast.confined.links hreal h),
    ends_resolve_ok (resolve_congr habreast.confined'.links hreal' h')⟩

theorem tandem_resolve_ofPlace (hread : (Path.ofPlace names).IsRead) (hbelow : staysBelow 0 names) :
    Tandem base base' start start' (fun found found' =>
        found = .ofPlace (base ++ (Path.ofPlace names).normalNames) ∧
          found' = .ofPlace (base' ++ (Path.ofPlace names).normalNames))
      (resolve (.ofPlace (base ++ names))) (resolve (.ofPlace (base' ++ names))) := by
  refine tandem_bind (tandem_query fun _ _ habreast => habreast.resolve hread hbelow) ?_
  rintro _ _ ⟨rfl, rfl⟩
  exact tandem_pure ⟨rfl, rfl⟩

theorem tandem_resolve_real (hnames : ∀ name ∈ names, IsName name) :
    Tandem base base' start start'
      (fun found found' => found = .ofPlace (base ++ names) ∧ found' = .ofPlace (base' ++ names))
      (resolve (.ofPlace (base ++ names))) (resolve (.ofPlace (base' ++ names))) := by
  have hresolve := @tandem_resolve_ofPlace base base' start start' names (Path.isRead_of_isName hnames)
    (staysBelow_of_isName hnames 0)
  have hnormal : (Path.ofPlace names).normalNames = names := Path.normalNames_of_isName hnames
  rwa [hnormal] at hresolve

end Reading

section Writing

-- Taking away what nothing is in.
theorem together_erase {next : Unit → Run α} {next' : Unit → Run β}
    (habreast : Abreast base base' start start' disk disk') (hne : names ≠ [])
    (hempty : ∀ name, disk.entry? (base ++ names ++ [name]) = none)
    (hnext : Tandem base base' start start' R (next ()) (next' ())) :
    Together (Abreast base base' start start') R
      (change (fun disk => .ok (disk.erase (base ++ names), ())) >>= next)
      (change (fun disk => .ok (disk.erase (base' ++ names), ())) >>= next') disk disk' := by
  have herase : Together (Abreast base base' start start') Eq
      (change fun disk => .ok (disk.erase (base ++ names), ()))
      (change fun disk => .ok (disk.erase (base' ++ names), ())) disk disk' :=
    together_of_ends (ends_change_ok rfl) (ends_change_ok rfl) (.ok rfl) (habreast.trans (habreast.erase hne hempty))
  exact herase.bind (fun _ _ h => h) fun _ _ mid mid' _ _ _ hmid => hnext mid mid' hmid

theorem tandem_makeLastDirectory (hway : ∀ part ∈ way, IsName part) (hname : IsName name) :
    Tandem base base' start start' Eq (makeLastDirectory (.ofPlace (base ++ (way ++ [name]))))
      (makeLastDirectory (.ofPlace (base' ++ (way ++ [name])))) := by
  have hnames : ∀ part ∈ way ++ [name], IsName part := by simpa [or_imp, forall_and] using ⟨hway, hname⟩
  refine tandem_recover (tandem_change fun disk disk' habreast => ?_) (fun fault t t' => ?_) ?_ ?_
  · exact (habreast.makeDirectory hway hname).bind fun _ _ hmade => .ok ⟨hmade, rfl⟩
  · have hask : Tandem base base' start start' Eq
        (do if ← query fun disk => disk.isDirectory (.ofPlace (base ++ (way ++ [name]))) then done ()
            else fail (.disk (.refused fault t)))
        (do if ← query fun disk => disk.isDirectory (.ofPlace (base' ++ (way ++ [name]))) then done ()
            else fail (.disk (.refused fault t'))) := by
      refine tandem_bind (tandem_query fun _ _ habreast => habreast.ask (staysBelow_of_isName hnames 0) _) ?_
      rintro there _ rfl
      cases there with
      | true => exact tandem_pure rfl
      | false => exact tandem_fail rfl
    cases fault with
    | missing => exact tandem_fail rfl
    | _ => exact hask
  · rintro (⟨⟨⟩⟩ | _) h <;> first | rfl | cases h
  · rintro (⟨⟨⟩⟩ | _) h <;> first | rfl | cases h

-- Directories are made below the place only, as itself is there.
theorem tandem_makeDirectories (hnames : ∀ name ∈ names, IsName name) :
    Tandem base base' start start' Eq (makeDirectories (.ofPlace (base ++ names)))
      (makeDirectories (.ofPlace (base' ++ names))) := by
  induction names using List.reverseRec with
  | nil =>
    rw [List.append_nil, List.append_nil]
    exact tandem_of_ends rfl fun disk disk' habreast =>
      ⟨makeDirectories_of_directory habreast.first.tree habreast.first.there habreast.first.fits
          habreast.first.checked,
        makeDirectories_of_directory habreast.second.tree habreast.second.there habreast.second.fits
          habreast.second.checked⟩
  | append_singleton way name ih =>
    have hway : ∀ part ∈ way, IsName part := fun part hpart => hnames part (by simp [hpart])
    have hname : IsName name := hnames name (by simp)
    have hreverse (base : Place) : (base ++ (way ++ [name])).reverse = name :: (base ++ way).reverse := by simp
    simp only [makeDirectories, Path.ofPlace, hreverse, makeDirectoriesUp]
    simp only [← hreverse, List.reverse_reverse]
    refine tandem_recover (tandem_makeLastDirectory hway hname) (fun fault t t' => ?_) ?_ ?_
    · cases fault with
      | missing => exact tandem_bind (ih hway) fun _ _ _ => tandem_makeLastDirectory hway hname
      | _ => exact tandem_fail rfl
    · rintro (⟨⟨⟩⟩ | _) h <;> first | rfl | cases h
    · rintro (⟨⟨⟩⟩ | _) h <;> first | rfl | cases h

theorem tandem_appendPieces (names : List Text) (pieces : List Text) : Tandem base base' start start' Eq
    (appendPieces (base ++ names) pieces) (appendPieces (base' ++ names) pieces) := by
  induction pieces with
  | nil => exact tandem_pure rfl
  | cons piece rest ih =>
    refine tandem_bind (tandem_ofExcept (R := Eq) ?_) ?_
    · cases Utf8.encode piece with
      | ok bytes => exact .ok rfl
      | error e => exact .error rfl
    · rintro bytes _ rfl
      refine tandem_bind (tandem_change (R := Eq) fun _ _ habreast => ?_) fun _ _ _ => ih
      exact .ok ⟨habreast.append names bytes, rfl⟩

-- A file is opened before anything is written to it.
def opened (path : Path) : Run Place := do
  makeDirectories path.parent
  change fun disk => disk.openForWriting path

theorem tandem_opened (hnames : ∀ name ∈ names, IsName name) (hne : names ≠ []) :
    Tandem base base' start start' (fun place place' => place = base ++ names ∧ place' = base' ++ names)
      (opened (.ofPlace (base ++ names))) (opened (.ofPlace (base' ++ names))) := by
  have hparent (base : Place) : (Path.ofPlace (base ++ names)).parent = .ofPlace (base ++ names.dropLast) := by
    simp [Path.parent, Path.ofPlace, List.dropLast_append_of_ne_nil hne]
  rw [opened, opened, hparent, hparent]
  refine tandem_bind (tandem_makeDirectories fun name hname => hnames name (List.dropLast_subset _ hname)) ?_
  exact fun _ _ _ => tandem_change fun _ _ habreast => habreast.openForWriting hnames

theorem writePieces_eq (path : Path) (pieces : List Text) :
    writePieces path pieces = opened path >>= fun place => appendPieces place pieces := by
  rw [writePieces, opened, bind_assoc]

theorem tandem_writePieces (hnames : ∀ name ∈ names, IsName name) (hne : names ≠ []) (pieces : List Text) :
    Tandem base base' start start' Eq (writePieces (.ofPlace (base ++ names)) pieces)
      (writePieces (.ofPlace (base' ++ names)) pieces) := by
  rw [writePieces_eq, writePieces_eq]
  refine tandem_bind (tandem_opened hnames hne) ?_
  rintro _ _ ⟨rfl, rfl⟩
  exact tandem_appendPieces names pieces

end Writing

section Parting

theorem file_of_opened {path : Path} {place : Place} {last : Disk} (hplace : place ≠ [])
    (h : Ends (opened path) disk last (.ok place)) : last.entry? place = some (.file []) := by
  obtain ⟨mid, _, _, hopen⟩ := ends_bind_ok.mp h
  rcases ends_change.mp hopen with ⟨found, hopen, hfound⟩ | ⟨e, _, _, hfound⟩
  · cases hfound
    obtain ⟨-, -, -, rfl⟩ := openForWriting_eq_ok.mp hopen
    rw [entry_put hplace, if_pos rfl]
  · cases hfound

-- Different texts in a file that is open on both disks.
theorem together_appendPieces {S : Bytes → Bytes → Prop} {text text' : Text} (hne : names ≠ [])
    (habreast : Abreast base base' start start' disk disk')
    (hfile : disk.entry? (base ++ names) = some (.file []))
    (htexts : Concur (fun _ _ => True) S (Utf8.encode text) (Utf8.encode text')) :
    Together (Parted base base' start start' names S) Eq (appendPieces (base ++ names) [text])
      (appendPieces (base' ++ names) [text']) disk disk' := by
  have hended {disk : Disk} (place : Place) {text : Text} {bytes : Bytes} (h : Utf8.encode text = .ok bytes) :
      Ends (appendPieces place [text]) disk (disk.append place bytes) (.ok ()) :=
    ends_appendPieces.mpr (by rw [h]; exact ⟨rfl, rfl⟩)
  have hfailed {disk : Disk} (place : Place) {text : Text} {e : Utf8.EncodeError} (h : Utf8.encode text = .error e) :
      Ends (appendPieces place [text]) disk disk (.error (.unwritable e)) :=
    ends_appendPieces.mpr (by rw [h]; exact ⟨rfl, rfl⟩)
  rcases htexts.cases with ⟨bytes, bytes', hbytes, hbytes', hboth⟩ | ⟨e, e', herror, herror', -⟩
  · exact together_of_ends (hended _ hbytes) (hended _ hbytes') (.ok rfl) (habreast.parted_append hne hfile hboth)
  · exact together_of_ends (hfailed _ herror) (hfailed _ herror') (.error rfl) habreast.parted

theorem together_writePieces {S : Bytes → Bytes → Prop} {text text' : Text} (hnames : ∀ name ∈ names, IsName name)
    (hne : names ≠ []) (habreast : Abreast base base' start start' disk disk')
    (htexts : Concur (fun _ _ => True) S (Utf8.encode text) (Utf8.encode text')) :
    Together (Parted base base' start start' names S) Eq (writePieces (.ofPlace (base ++ names)) [text])
      (writePieces (.ofPlace (base' ++ names)) [text']) disk disk' := by
  rw [writePieces_eq, writePieces_eq]
  refine (tandem_opened hnames hne disk disk' habreast).bind (fun _ _ h => h.parted) ?_
  rintro _ _ mid mid' hends - ⟨rfl, rfl⟩ hmid
  exact together_appendPieces hne hmid (file_of_opened (by simp [hne]) hends) htexts

end Parting

end Run

end HookGen
