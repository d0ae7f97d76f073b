import HookGen.Integration
import HookGen.Proofs.Run

/-!
A run of the whole program reads before it writes: up to the files that it generates it leaves the disk
alone.
-/

namespace HookGen.Integration

open Run

variable {disk last : Disk} {now : Text} {request : Request} {result : Result}

theorem readOnly_projectRoot (given : Option Text) : ReadOnly (projectRoot given) := readOnly_resolve _

theorem readOnly_configRead (path : Path) : ReadOnly (Config.read path) := by
  refine readOnly_bind (readOnly_readText path) fun t => ?_
  split
  · exact readOnly_fail _
  · exact readOnly_fail _
  · exact readOnly_bind (readOnly_ofExcept _ _) fun config =>
      readOnly_bind (readOnly_log _) fun _ => readOnly_pure config
  · exact readOnly_fail _

theorem readOnly_configLoad (root : Path) (file : Option Text) : ReadOnly (Config.load root file) := by
  cases file with
  | none =>
    refine readOnly_bind (readOnly_query _) fun there => ?_
    split
    · exact readOnly_configRead _
    · exact readOnly_bind (readOnly_log _) fun _ => readOnly_pure _
  | some file =>
    refine readOnly_bind (readOnly_query _) fun there => ?_
    split
    · exact readOnly_configRead _
    · exact readOnly_fail _

theorem readOnly_config (request : Request) (root : Path) : ReadOnly (config request root) :=
  readOnly_bind (readOnly_configLoad _ _) fun _ => readOnly_pure _

theorem readOnly_readDeclarations (path : Path) : ReadOnly (readDeclarations path) := by
  refine readOnly_bind (readOnly_query _) fun there => ?_
  split
  · exact readOnly_bind (readOnly_query _) fun _ => readOnly_ofLogged _ _
  · exact readOnly_fail _

theorem readOnly_schema (config : Config) (root : Path) : ReadOnly (schema config root) :=
  readOnly_bind (readOnly_resolve _) fun _ =>
    readOnly_bind (readOnly_readDeclarations _) fun _ => readOnly_ofLogged _ _

theorem readOnly_files (schema : Schema) (config : Config) (root : Path) :
    ReadOnly (files schema config root) :=
  readOnly_bind (readOnly_resolve _) fun _ => readOnly_ofLogged _ _

theorem readOnly_logConfig (config : Config) (root : Path) : ReadOnly (logConfig config root) :=
  fun _ => rfl

-- The first part of a run: its configuration, and what it finds and generates.
def reading (request : Request) : Run (Path × Config × Result) := do
  let root ← projectRoot request.projectRoot
  let config ← config request root
  let schema ← schema config root
  return (root, config, ⟨schema, ← files schema config root⟩)

-- The second part writes it.
def writing (now : Text) (request : Request) (root : Path) (config : Config) (result : Result) :
    Run Result := do
  forEach (writeGenerated request.verbose) result.files
  if config.manifest then updateManifest now result.schema result.files config root
  return result

theorem readOnly_reading (request : Request) : ReadOnly (reading request) :=
  readOnly_bind (readOnly_projectRoot _) fun _ => readOnly_bind (readOnly_config _ _) fun _ =>
    readOnly_bind (readOnly_schema _ _) fun _ => readOnly_bind (readOnly_files _ _ _) fun _ => readOnly_pure _

theorem generateOnly_eq (request : Request) :
    generateOnly request = reading request >>= fun found => pure found.2.2 := by
  simp only [generateOnly, reading, bind_assoc, pure_bind]

-- What is logged between the parts changes nothing of how a run ends.
theorem ends_integrate {outcome : Except RunError Result} :
    Ends (integrate now request) disk last outcome ↔
      Ends (reading request >>= fun found => writing now request found.1 found.2.1 found.2.2)
        disk last outcome := by
  simp only [reading, writing, integrate, bind_assoc, pure_bind]
  refine ends_bind_congr fun mid root => ends_bind_congr fun mid config => ?_
  split
  · exact ends_bind_of_ok (show Ends (logConfig config root) mid mid (.ok ()) from ⟨rfl, rfl⟩)
  · rfl

-- What a run reads tells how it ends.
theorem ends_integrate_of_reading {root : Path} {config : Config} {outcome : Except RunError Result}
    (h : Ends (reading request) disk disk (.ok (root, config, result))) :
    Ends (integrate now request) disk last outcome ↔
      Ends (writing now request root config result) disk last outcome := by
  rw [ends_integrate, ends_bind_of_ok h]

-- A run that fails has failed at reading, with the disk as it was, or at writing.
theorem integrate_error {e : RunError} (h : Ends (integrate now request) disk last (.error e)) :
    Ends (generateOnly request) disk disk (.error e) ∧ last = disk ∨
      ∃ root config result, Ends (reading request) disk disk (.ok (root, config, result)) ∧
        (Ends (forEach (writeGenerated request.verbose) result.files) disk last (.error e) ∨
          ∃ mid, Ends (forEach (writeGenerated request.verbose) result.files) disk mid (.ok ()) ∧
            config.manifest = true ∧
            Ends (updateManifest now result.schema result.files config root) mid last (.error e)) := by
  rw [ends_integrate] at h
  rcases (readOnly_reading request).fails_or_ends disk with ⟨e', hreading⟩ | ⟨⟨root, config, result⟩, hreading⟩
  · obtain ⟨rfl, herror⟩ := (ends_bind_of_error hreading).mp h
    obtain rfl := Except.error.inj herror
    rw [generateOnly_eq]
    exact .inl ⟨(ends_bind_of_error hreading).mpr ⟨rfl, rfl⟩, rfl⟩
  · refine .inr ⟨root, config, result, hreading, ?_⟩
    rw [ends_bind_of_ok hreading] at h
    rcases ends_bind.mp h with ⟨mid, _, hwrite, h⟩ | ⟨_, hwrite, herror⟩
    · right
      by_cases hmanifest : config.manifest = true
      · rw [if_pos hmanifest] at h
        rcases ends_bind.mp h with ⟨_, _, _, hend⟩ | ⟨_, hupdate, herror⟩
        · simp at hend
        · obtain rfl := Except.error.inj herror
          exact ⟨mid, hwrite, hmanifest, hupdate⟩
      · rw [if_neg hmanifest] at h
        simp at h
    · obtain rfl := Except.error.inj herror
      exact .inl hwrite

theorem reading_ends {root : Path} {config : Config}
    (h : Ends (reading request) disk disk (.ok (root, config, result))) :
    Ends (projectRoot request.projectRoot) disk disk (.ok root) ∧
      Ends (Integration.config request root) disk disk (.ok config) ∧
      Ends (schema config root) disk disk (.ok result.schema) ∧
      Ends (files result.schema config root) disk disk (.ok result.files) := by
  obtain ⟨root', hroot, h⟩ := (readOnly_projectRoot request.projectRoot).bind_ok.mp h
  obtain ⟨config', hconfig, h⟩ := (readOnly_config request root').bind_ok.mp h
  obtain ⟨schema', hschema, h⟩ := (readOnly_schema config' root').bind_ok.mp h
  obtain ⟨files', hfiles, h⟩ := (readOnly_files schema' config' root').bind_ok.mp h
  obtain ⟨_, heq⟩ := ends_pure.mp h
  cases heq
  exact ⟨hroot, hconfig, hschema, hfiles⟩

-- The parts of a successful run: what it reads, and then what it does to the disk.
theorem integrate_cases (h : Ends (integrate now request) disk last (.ok result)) :
    ∃ root config mid, Ends (reading request) disk disk (.ok (root, config, result)) ∧
      Ends (forEach (writeGenerated request.verbose) result.files) disk mid (.ok ()) ∧
      (config.manifest = true →
        Ends (updateManifest now result.schema result.files config root) mid last (.ok ())) := by
  obtain ⟨⟨root, config, found⟩, hreading, h⟩ := (readOnly_reading request).bind_ok.mp (ends_integrate.mp h)
  obtain ⟨mid, _, hwrite, h⟩ := ends_bind_ok.mp h
  by_cases hmanifest : config.manifest = true
  · rw [if_pos hmanifest] at h
    obtain ⟨_, _, hupdate, hend⟩ := ends_bind_ok.mp h
    obtain ⟨rfl, hresult⟩ := ends_pure.mp hend
    obtain rfl := Except.ok.inj hresult
    exact ⟨root, config, mid, hreading, hwrite, fun _ => hupdate⟩
  · rw [if_neg hmanifest] at h
    obtain ⟨_, hresult⟩ := ends_pure.mp h
    obtain rfl := Except.ok.inj hresult
    exact ⟨root, config, mid, hreading, hwrite, fun hset => absurd hset hmanifest⟩

-- What a run does once its generated files are written, if it writes a manifest.
theorem ends_integrate_of_written {root : Path} {config : Config} {mid : Disk} {found : Result}
    (hreading : Ends (reading request) disk disk (.ok (root, config, result)))
    (hwrite : Ends (forEach (writeGenerated request.verbose) result.files) disk mid (.ok ()))
    (hmanifest : config.manifest = true) :
    Ends (integrate now request) disk last (.ok found) ↔
      Ends (updateManifest now result.schema result.files config root) mid last (.ok ()) ∧ found = result := by
  rw [ends_integrate_of_reading hreading, writing, ends_bind_of_ok hwrite, if_pos hmanifest, ends_bind_pure_ok]
  constructor
  · rintro ⟨_, hupdate, rfl⟩
    exact ⟨hupdate, rfl⟩
  · rintro ⟨hupdate, rfl⟩
    exact ⟨(), hupdate, rfl⟩

end HookGen.Integration
