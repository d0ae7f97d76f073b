import HookGen.Proofs.Disk.Beside
import HookGen.Proofs.Integration.Opening
import HookGen.Proofs.Integration.Reading

/-!
A run beside a file that it does not need: it reads and generates the same, and writes its files in the
same way.
-/

namespace HookGen

open Disk Run

variable {α β ε : Type} {bare disk last : Disk} {place : Place}

-- What a run finds on one disk, it finds on the other one.
def Run.Carries (bare disk : Disk) (run : Run α) : Prop :=
  ∀ a, Ends run bare bare (.ok a) → Ends run disk disk (.ok a)

namespace Run

theorem carries_bind {first : Run α} {next : α → Run β} (hreads : ReadOnly first)
    (hfirst : Carries bare disk first) (hnext : ∀ a, Carries bare disk (next a)) :
    Carries bare disk (first >>= next) := by
  intro b h
  obtain ⟨a, ha, hb⟩ := hreads.bind_ok.mp h
  exact (ends_bind_of_ok (hfirst a ha)).mpr (hnext a b hb)

theorem carries_pure (a : α) : Carries bare disk (pure a : Run α) := fun _ h => ⟨rfl, h.2⟩

theorem carries_fail (e : RunError) : Carries bare disk (fail e : Run α) := fun _ h => ⟨rfl, h.2⟩

theorem carries_log (record : LogRecord) : Carries bare disk (log record) := fun _ h => ⟨rfl, h.2⟩

theorem carries_ofExcept (onError : ε → RunError) (x : Except ε α) :
    Carries bare disk (ofExcept onError x) := fun _ h => ⟨rfl, h.2⟩

theorem carries_ofLogged (onError : ε → RunError) (x : Logged ε α) :
    Carries bare disk (ofLogged onError x) := fun _ h => ⟨rfl, h.2⟩

theorem carries_query {question : Disk → Except DiskError α}
    (h : ∀ a, question bare = .ok a → question disk = .ok a) : Carries bare disk (query question) := by
  intro a hbare
  exact ends_query_ok (h a (ends_query_eq_ok.mp hbare).2)

-- A test that has to succeed.
theorem carries_guard {question : Disk → Except DiskError Bool} {yes : Run α} {e : RunError}
    (h : question bare = .ok true → question disk = .ok true) (hyes : Carries bare disk yes) :
    Carries bare disk (do if ← query question then yes else fail e) := by
  intro a hbare
  obtain ⟨there, hthere, hrest⟩ := (readOnly_query question).bind_ok.mp hbare
  cases there with
  | false => simp at hrest
  | true =>
    have hquestion := ends_query_ok (h (ends_query_eq_ok.mp hthere).2)
    exact (ends_bind_of_ok hquestion).mpr (hyes a hrest)

end Run

namespace Disk.Beside

variable {verbose : Bool} {request : Request} {root : Path} {config : Config} {result : Integration.Result}
  {files : List GeneratedFile}

theorem carries_resolve (h : Beside bare disk place) (path : Path) : Carries bare disk (Run.resolve path) :=
  carries_bind (readOnly_query _) (carries_query fun _ hfound => (h.resolve_eq path).trans hfound)
    fun _ => carries_pure _

theorem carries_readText (h : Beside bare disk place) (path : Path) : Carries bare disk (readText path) :=
  carries_bind (readOnly_query _) (carries_query fun _ => h.read_eq) fun _ =>
    carries_bind (readOnly_ofExcept _ _) (carries_ofExcept _ _) fun _ => carries_pure _

theorem carries_configRead (h : Beside bare disk place) (path : Path) :
    Carries bare disk (Config.read path) := by
  refine carries_bind (readOnly_readText path) (h.carries_readText path) fun t => ?_
  split
  · exact carries_fail _
  · exact carries_fail _
  · exact carries_bind (readOnly_ofExcept _ _) (carries_ofExcept _ _) fun _ =>
      carries_bind (readOnly_log _) (carries_log _) fun _ => carries_pure _
  · exact carries_fail _

-- The file is no configuration unless the path of the usual one leads to it.
theorem carries_configLoad (h : Beside bare disk place) {file : Option Text}
    (hfile : file = none → bare.locate true (root.child Config.fileName) ≠ .ok place) :
    Carries bare disk (Config.load root file) := by
  cases file with
  | none =>
    refine carries_bind (readOnly_query _) (carries_query fun there hthere => ?_) fun there => ?_
    · rcases h.ask_cases (root.child Config.fileName) fun _ => true with heq | ⟨hlocate, _⟩
      · exact heq.trans hthere
      · rcases h.locate_cases (root.child Config.fileName) with heq | ⟨_, hdisk⟩
        · exact absurd (heq.symm.trans hlocate) (hfile rfl)
        · simp [hdisk] at hlocate
    · split
      · exact h.carries_configRead _
      · exact carries_bind (readOnly_log _) (carries_log _) fun _ => carries_pure _
  | some file =>
    refine carries_guard (fun hthere => ?_) (h.carries_configRead _)
    rcases h.ask_cases (root.child file) fun _ => true with heq | ⟨_, hno⟩
    · exact heq.trans hthere
    · simp [Disk.pathExists, hno] at hthere

theorem carries_readDeclarations (h : Beside bare disk place) (path : Path) :
    Carries bare disk (Integration.readDeclarations path) := by
  refine carries_guard (fun hthere => ?_) ?_
  · rcases h.ask_cases path _ with heq | ⟨_, hno⟩
    · exact heq.trans hthere
    · rw [Disk.isFile, hno] at hthere
      cases hthere
  · exact carries_bind (readOnly_query _) (carries_query fun _ => h.read_eq) fun _ => carries_ofLogged _ _

theorem carries_reading (h : Beside bare disk place)
    (hreading : Ends (Integration.reading request) bare bare (.ok (root, config, result)))
    (hconfig : request.configPath = none → bare.locate true (root.child Config.fileName) ≠ .ok place) :
    Ends (Integration.reading request) disk disk (.ok (root, config, result)) := by
  obtain ⟨hroot, hconfigured, hschema, hfiles⟩ := Integration.reading_ends hreading
  have hload : Carries bare disk (Integration.config request root) :=
    carries_bind (Integration.readOnly_configLoad _ _) (h.carries_configLoad hconfig) fun _ => carries_pure _
  have hfound : Carries bare disk (Integration.schema config root) :=
    carries_bind (readOnly_resolve _) (h.carries_resolve _) fun _ =>
      carries_bind (Integration.readOnly_readDeclarations _) (h.carries_readDeclarations _) fun _ =>
        carries_ofLogged _ _
  have hgenerated : Carries bare disk (Integration.files result.schema config root) :=
    carries_bind (readOnly_resolve _) (h.carries_resolve _) fun _ => carries_ofLogged _ _
  exact (ends_bind_of_ok (h.carries_resolve _ _ hroot)).mpr ((ends_bind_of_ok (hload _ hconfigured)).mpr
    ((ends_bind_of_ok (hfound _ hschema)).mpr ((ends_bind_of_ok (hgenerated _ hfiles)).mpr ⟨rfl, rfl⟩)))

-- File by file.
theorem forEach (h : Beside bare disk place) (hfiles : ∀ file ∈ files, (Path.ofText file.path).names ≠ [])
    (hwrite : Ends (Run.forEach (Integration.writeGenerated verbose) files) bare last (.ok ()))
    (hplace : last.entry? place ≠ some .directory)
    (hothers : ∀ file ∈ files, ¬ Integration.LeadsTo last place file) :
    ∃ next, Ends (Run.forEach (Integration.writeGenerated verbose) files) disk next (.ok ()) ∧
      Beside last next place := by
  induction files generalizing bare disk with
  | nil =>
    obtain ⟨rfl, _⟩ := ends_done.mp hwrite
    exact ⟨disk, ⟨rfl, rfl⟩, h⟩
  | cons file rest ih =>
    obtain ⟨mid, _, hfirst, hrest⟩ := ends_bind_ok.mp hwrite
    obtain ⟨hfile, hlater⟩ := List.forall_mem_cons.mp hfiles
    obtain ⟨hother, hothersLater⟩ := List.forall_mem_cons.mp hothers
    have hpieces := Integration.ends_writeGenerated.mp hfirst
    have hmid : mid.IsTree := by
      rcases Integration.writeGenerated_cases h.bareTree hfile hfirst with ⟨_, herror, _⟩ | ⟨hopens, _⟩
      · simp at herror
      · exact hopens.tree
    have hmore := (Integration.forEach_opens hmid hlater hrest).1.more
    obtain ⟨next, hnext, hbeside⟩ := h.writePieces (Path.isRead_ofText file.path) (.inl hfile) hpieces
      (fun heq => hplace (hmore.directory _ heq)) fun heq => hother (hmore.locate_eq heq)
    obtain ⟨end', hend, hlast⟩ := ih hbeside hlater hrest hothersLater
    exact ⟨end', (ends_bind_of_ok (Integration.ends_writeGenerated.mpr hnext)).mpr hend, hlast⟩

end Disk.Beside

end HookGen
