import HookGen.Proofs.Integration.Opening
import HookGen.Proofs.Integration.Updating

/-!
What a run leaves that fails: the disk as it was if nothing has been written, and else everything but the
files that generated paths lead to.
-/

namespace HookGen.Integration

open Disk Run Manifest

variable {disk last : Disk} {base place : Place} {request : Request} {root : Path} {config : Config}
  {result : Result} {files opened : List GeneratedFile}

-- What a failing run is to leave alone: what is on the disk stays there, the previous manifest stays as it
-- is, and so does everything that no generated path leads to.
structure Spares (base : Place) (files : List GeneratedFile) (disk last : Disk) : Prop where
  there : ∀ place entry, disk.entry? place = some entry → last.entry? place = some entry ∨
    ∃ old new, entry = .file old ∧ last.entry? place = some (.file new)
  others : ∀ place, disk.entry? place ≠ none → (∀ file ∈ files, ¬ LeadsTo last place file) →
    last.entry? place = disk.entry? place
  manifest : ∀ bytes, disk.entry? (placeIn base) = some (.file bytes) →
    last.entry? (placeIn base) = some (.file bytes)

-- Only a file can have been opened.
theorem Opens.file_of_leftAt (h : Opens disk opened last) {bytes : Bytes}
    (hleft : leftAt last place opened = some bytes) {entry : Entry} (hentry : disk.entry? place = some entry) :
    ∃ old, entry = .file old := by
  obtain ⟨file, hfile, hleads, _⟩ := exists_of_leftAt hleft
  obtain ⟨found, hfound, hdirectory, hlink⟩ := h.leads file hfile
  obtain rfl : found = place := Except.ok.inj (hfound.symm.trans hleads)
  cases entry with
  | file old => exact ⟨old, rfl⟩
  | link target => simp [linkAt?, hentry] at hlink
  | directory => exact absurd hentry hdirectory

-- Opening files spares the rest, and the manifest as well unless one of them leads there.
theorem Opens.spares_iff (h : Opens disk opened last) (hopened : opened ⊆ files) :
    Spares base files disk last ↔ ∀ old new, disk.entry? (placeIn base) = some (.file old) →
      leftAt last (placeIn base) opened = some new → new = old := by
  constructor
  · intro hspares old new hold hnew
    have hentry := h.entry (placeIn base) (by simp [hold])
    rw [hspares.manifest old hold, hnew] at hentry
    simpa [eq_comm] using hentry
  · intro hmanifest
    refine ⟨fun place entry hentry => ?_, fun place hthere hothers => ?_, fun old hold => ?_⟩
    · have hlast := h.entry place (by simp [hentry])
      cases hleft : leftAt last place opened with
      | none => exact .inl (by simpa [hleft, hentry] using hlast)
      | some bytes =>
        obtain ⟨old, rfl⟩ := h.file_of_leftAt hleft hentry
        exact .inr ⟨old, bytes, rfl, by simpa [hleft] using hlast⟩
    · have hleft : leftAt last place opened = none :=
        leftAt_eq_none.mpr fun file hfile => hothers file (hopened hfile)
      simpa [hleft] using h.entry place hthere
    · have hlast := h.entry (placeIn base) (by simp [hold])
      cases hleft : leftAt last (placeIn base) opened with
      | none => simpa [hleft, hold] using hlast
      | some new => simpa [hleft, hmanifest old new hold hleft] using hlast

-- No generated path leads to the manifest where there are no links and all names can stand in a path.
theorem not_leadsTo_placeIn (hclear : disk.IsClear base) {file : GeneratedFile}
    (h : IsModule base file.path) : ¬ LeadsTo disk (placeIn base) file := by
  have hplace := ne_placeIn h
  obtain ⟨names, hat, _⟩ := h
  rw [LeadsTo, hat.path]
  rw [hat.path] at hplace
  rcases locate_of_isReal (hat.isReal hclear) true with hlocate | ⟨fault, _, hlocate⟩
  · rw [hlocate]
    exact fun heq => hplace (congrArg Path.ofPlace (Except.ok.inj heq))
  · simp [hlocate]

-- A run that fails while it reads or generates leaves the disk as it is. One that fails while it writes
-- generated files has opened some of them, and these are all that has changed of what was there; the
-- previous manifest is spared unless the last file that leads to it has left something else there.
theorem integrate_fails {now : Text} {e : RunError} (tree : disk.IsTree)
    (h : Ends (integrate now request) disk last (.error e)) :
    Ends (generateOnly request) disk disk (.error e) ∧ last = disk ∨
    ∃ root config result base, Ends (reading request) disk disk (.ok (root, config, result)) ∧
      disk.resolve (root.child config.output) = .ok base ∧
      ((Ends (forEach (writeGenerated request.verbose) result.files) disk last (.error e) ∧
          ∃ opened, opened <+: result.files ∧ Opens disk opened last ∧
            (Spares base result.files disk last ↔
              ∀ old new, disk.entry? (placeIn base) = some (.file old) →
                leftAt last (placeIn base) opened = some new → new = old) ∧
            (disk.IsClear base → (∀ table ∈ result.schema.tables, IsName table.name) →
              (∀ routine ∈ result.schema.publicRoutines, IsName routine.name) →
              Spares base result.files disk last)) ∨
        ∃ mid, Ends (forEach (writeGenerated request.verbose) result.files) disk mid (.ok ()) ∧
          config.manifest = true ∧
          Ends (updateManifest now result.schema result.files config root) mid last (.error e)) := by
  rcases integrate_error h with hread | ⟨root, config, result, hreading, hwriting⟩
  · exact .inl hread
  · right
    obtain ⟨base, hbase, hgenerated⟩ := output_of_reading hreading
    refine ⟨root, config, result, base, hreading, hbase, hwriting.imp_left fun hwrite => ⟨hwrite, ?_⟩⟩
    obtain ⟨before, file, mid, hstops⟩ := exists_stops tree (names_of_generated hgenerated) hwrite
    obtain ⟨after, hsplit⟩ := hstops.split
    have hopened : ∃ opened, opened <+: result.files ∧ Opens disk opened last := by
      rcases hstops.opens with ⟨_, hopens⟩ | ⟨_, hopens⟩
      · exact ⟨before, ⟨file :: after, hsplit.symm⟩, hopens⟩
      · exact ⟨before ++ [file], ⟨after, by simp [hsplit]⟩, hopens⟩
    obtain ⟨opened, hstart, hopens⟩ := hopened
    have hspares : Spares base result.files disk last ↔ _ := hopens.spares_iff hstart.subset
    refine ⟨opened, hstart, hopens, hspares, fun hclear htables hroutines => hspares.mpr ?_⟩
    intro old new _ hnew
    obtain ⟨other, hother, hleads, _⟩ := exists_of_leftAt hnew
    have hplaced := (Generation.generate_placed htables hroutines hgenerated).2 other (hstart.subset hother)
    exact absurd hleads
      (not_leadsTo_placeIn (hclear.congr hopens.more.links) (isModule_of_placed hclear hplaced))

theorem generateOnly_of_reading (h : Ends (reading request) disk disk (.ok (root, config, result))) :
    Ends (generateOnly request) disk disk (.ok result) := by
  rw [generateOnly_eq, ends_bind_of_ok h]
  exact ⟨rfl, rfl⟩

theorem integrate_of_forEach_error {now : Text} {e : RunError}
    (hreading : Ends (reading request) disk disk (.ok (root, config, result)))
    (h : Ends (forEach (writeGenerated request.verbose) result.files) disk last (.error e)) :
    Ends (integrate now request) disk last (.error e) :=
  (ends_integrate_of_reading hreading).mpr ((ends_bind_of_error h).mpr ⟨rfl, rfl⟩)

-- A file stands in the way of the directory of the storage module.
def blockedDisk : Disk where
  entries := [
    (["lib"], .directory), (["lib", "database"], .directory), (["lib", "database", "storage"], .file []),
    (["lib", "database", ".manifest.json"], .file [0x7b, 0x7d]),
    (["lib", "database.types.ts"],
      .file ((Utf8.encode "export type Database = \x7b public: \x7b\x7d \x7d").toOption.getD []))]
  current := []

def blockedReading : Path × Config × Result :=
  (reading Request.default blockedDisk).2.outcome.toOption.get (by decide +kernel)

-- A run on this disk generates nothing but the modules that are always there, and cannot write them.
theorem blockedDisk_reads : ∃ found, Ends (reading Request.default) blockedDisk blockedDisk (.ok found) ∧
    blockedDisk.resolve (found.1.child found.2.1.output) = .ok ["lib", "database"] ∧
    found.2.2.schema.tables.length = 0 ∧ found.2.2.schema.publicRoutines.length = 0 ∧
    (forEach (writeGenerated false) found.2.2.files blockedDisk).2.outcome.toOption = none :=
  ⟨blockedReading, (readOnly_reading _).ends_get _, by decide +kernel⟩

theorem blockedDisk_isTree : blockedDisk.IsTree :=
  .of_entries (by decide +kernel) (by decide +kernel) (by decide +kernel) (by decide +kernel)

theorem blockedDisk_isClear : blockedDisk.IsClear ["lib", "database"] where
  real := by decide +kernel
  below := fun other _ => linkAt?_eq_none_of_entries (by simp [blockedDisk]) other

theorem integrate_fails_blocked : ∃ result last e,
    Ends (generateOnly Request.default) blockedDisk blockedDisk (.ok result) ∧
    Ends (integrate "now" Request.default) blockedDisk last (.error e) ∧
    Spares ["lib", "database"] result.files blockedDisk last := by
  obtain ⟨⟨root, config, result⟩, hreading, houtput, htables, hroutines, hnone⟩ := blockedDisk_reads
  obtain ⟨last, e, hwrite⟩ := exists_ends_error hnone
  have hends : Ends (integrate "now" Request.default) blockedDisk last (.error e) :=
    integrate_of_forEach_error hreading hwrite
  refine ⟨result, last, e, generateOnly_of_reading hreading, hends, ?_⟩
  rcases integrate_fails blockedDisk_isTree hends with ⟨hread, _⟩ | ⟨_, _, _, base, hfound, hbase, hrest⟩
  · cases (hread.unique (generateOnly_of_reading hreading)).2
  · cases (hreading.unique hfound).2
    obtain rfl := Except.ok.inj (hbase.symm.trans houtput)
    rcases hrest with ⟨_, _, _, _, _, hspares⟩ | ⟨mid, hok, _⟩
    · refine hspares blockedDisk_isClear (fun table htable => ?_) fun routine hroutine => ?_
      · exact absurd htable (List.length_eq_zero_iff.mp htables ▸ List.not_mem_nil)
      · exact absurd hroutine (List.length_eq_zero_iff.mp hroutines ▸ List.not_mem_nil)
    · cases (hok.unique hwrite).2

-- The name of a table leads out of the output directory, to a link that leads back to the manifest, and a
-- directory stands in the way of the next file.
def escapingDisk : Disk where
  entries := [
    (["lib"], .directory), (["lib", "database"], .directory), (["other"], .directory),
    (["lib", "database", ".manifest.json"], .file [0x7b, 0x7d]),
    (["other", "types.ts"], .link "../lib/database/.manifest.json"),
    (["other", "hooks.ts"], .directory),
    (["lib", "database.types.ts"], .file ((Utf8.encode "export type Database = \x7b
  public: \x7b Tables: \x7b \"../../other\": \x7b Row: \x7b id: number \x7d \x7d \x7d \x7d;
\x7d;").toOption.getD []))]
  current := []

def escapingReading : Path × Config × Result :=
  (reading Request.default escapingDisk).2.outcome.toOption.get (by decide +kernel)

theorem escapingDisk_reads : ∃ found, Ends (reading Request.default) escapingDisk escapingDisk (.ok found) ∧
    (forEach (writeGenerated false) found.2.2.files escapingDisk).2.outcome.toOption = none ∧
    Disk.entry? (forEach (writeGenerated false) found.2.2.files escapingDisk).1 (placeIn ["lib", "database"]) ≠
      some (.file [0x7b, 0x7d]) :=
  ⟨escapingReading, (readOnly_reading _).ends_get _, by decide +kernel⟩

-- There are no links below the output directory, and still the failing run overwrites the manifest.
theorem manifest_overwritten_escaping :
    (∀ place, (["lib", "database"] : Place) <+: place → escapingDisk.linkAt? place = none) ∧
    ∃ result last e, Ends (generateOnly Request.default) escapingDisk escapingDisk (.ok result) ∧
      Ends (forEach (writeGenerated false) result.files) escapingDisk last (.error e) ∧
      Ends (integrate "now" Request.default) escapingDisk last (.error e) ∧
      escapingDisk.entry? (placeIn ["lib", "database"]) = some (.file [0x7b, 0x7d]) ∧
      last.entry? (placeIn ["lib", "database"]) ≠ some (.file [0x7b, 0x7d]) := by
  refine ⟨fun place hbelow => linkAt?_eq_none.mpr fun target hentry => ?_, ?_⟩
  · have hne : place ≠ [] := by
      rintro rfl
      simp at hentry
    have hmem := mem_of_entry hne hentry
    simp only [escapingDisk, List.mem_cons, Prod.mk.injEq, reduceCtorEq, and_false, false_or,
      List.not_mem_nil, or_false] at hmem
    rw [hmem.1] at hbelow
    exact absurd hbelow (by decide +kernel)
  · obtain ⟨⟨root, config, result⟩, hreading, hnone, hchanged⟩ := escapingDisk_reads
    obtain ⟨last, e, hwrite⟩ := exists_ends_error hnone
    refine ⟨result, last, e, generateOnly_of_reading hreading, hwrite,
      integrate_of_forEach_error hreading hwrite, by decide +kernel, ?_⟩
    rwa [← hwrite.1]

end HookGen.Integration
