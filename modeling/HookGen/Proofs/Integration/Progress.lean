import HookGen.Proofs.Integration.Updating
import HookGen.Proofs.Manifest.Passing

/-!
When a run succeeds: the directories of what it generates are there, all texts can be written, and the manifest,
if there is one, is that of the previous generation.
-/

namespace HookGen.Integration

open Disk Run Manifest

variable {disk : Disk} {base place : Place} {name : Text} {config : Config} {root : Path}
  {schema : Schema} {files : List GeneratedFile}

theorem writeFile_of_writable (tree : disk.IsTree) (h : Writable disk place name) {text : Text}
    {bytes : Bytes} (hencode : Utf8.encode text = .ok bytes) :
    ∃ last, Ends (Manifest.writeFile (.ofPlace (place ++ [name])) text) disk last (.ok ()) ∧
      ∀ other, last.entry? other =
        if other = place ++ [name] then some (.file bytes) else disk.entry? other := by
  obtain ⟨last, hwrite, hentry⟩ := writePieces_of_writable tree h text
  simp only [hencode, bytesOf, Except.toOption, Option.getD_some] at hwrite hentry
  exact ⟨last, Manifest.ends_writeFile.mpr hwrite, hentry⟩

-- A generated file that can be written.
structure Ready (disk : Disk) (file : GeneratedFile) (above : Place) (name : Text) : Prop where
  path : Path.ofText file.path = .ofPlace (above ++ [name])
  writable : Writable disk above name
  encoded : ∃ bytes, Utf8.encode (finalText file) = .ok bytes

theorem forEach_succeeds (verbose : Bool) (tree : disk.IsTree)
    (hfiles : ∀ file ∈ files, ∃ above name, Ready disk file above name) :
    ∃ last, Ends (forEach (writeGenerated verbose) files) disk last (.ok ()) ∧ last.IsTree ∧
      SameLinks disk last ∧ (∀ above name, Writable disk above name → Writable last above name) ∧
      ∀ place, (∀ file ∈ files, Path.ofText file.path ≠ .ofPlace place) →
        last.entry? place = disk.entry? place := by
  induction files generalizing disk with
  | nil => exact ⟨disk, ⟨rfl, rfl⟩, tree, .refl disk, fun _ _ h => h, fun _ _ => rfl⟩
  | cons file rest ih =>
    obtain ⟨above, name, hready⟩ := hfiles file (List.mem_cons_self ..)
    obtain ⟨bytes, hbytes⟩ := hready.encoded
    obtain ⟨mid, hwrite, hentry⟩ := writeFile_of_writable tree hready.writable hbytes
    obtain ⟨_, _, _, hwrites⟩ := Manifest.writeFile_writes tree hready.writable.real hwrite
    have hkeeps : ∀ other name, Writable disk other name → Writable mid other name :=
      fun other name h => h.of_writes hready.writable.free hwrites.links hentry
    have hlater : ∀ other ∈ rest, ∃ above name, Ready mid other above name := by
      intro other hother
      obtain ⟨otherAbove, otherName, h⟩ := hfiles other (List.mem_cons_of_mem file hother)
      exact ⟨otherAbove, otherName, h.path, hkeeps _ _ h.writable, h.encoded⟩
    obtain ⟨last, hrest, htree, hlinks, hkept, hsame⟩ := ih hwrites.tree hlater
    have hfirst : Ends (writeGenerated verbose file) disk mid (.ok ()) := by
      rw [writeGenerated, hready.path, ends_bind_of_ok hwrite]
      cases verbose <;> exact ⟨rfl, rfl⟩
    refine ⟨last, (ends_bind_of_ok hfirst).mpr hrest, htree, hwrites.links.trans hlinks,
      fun other name h => hkept other name (hkeeps other name h), fun other hother => ?_⟩
    obtain ⟨hnot, hothers⟩ := List.forall_mem_cons.mp hother
    have hne : other ≠ above ++ [name] := by
      rintro rfl
      exact hnot hready.path
    rw [hsame other hothers, hentry, if_neg hne]

theorem resolve_of_checked (hreal : disk.IsReal place) (hchecked : checkNames [] place = .ok ()) :
    disk.resolve (.ofPlace place) = .ok place := by
  rw [resolve_ofPlace hreal, hchecked]
  rfl

-- What a run that generates `files` needs to write them and their manifest, where the previous generation was
-- one of the files `old`.
structure Prepared (disk : Disk) (base : Place) (old : List Text) (files : List GeneratedFile) : Prop where
  tree : disk.IsTree
  clear : disk.IsClear base
  ready : ∀ file ∈ files, ∃ above name, Ready disk file above name
  isModule : ∀ file ∈ files, IsModule base file.path
  writable : Writable disk base fileName
  remembers : Remembers base disk old
  fits : ∀ file ∈ old, ∀ part ∈ base ++ wayTo base file, isTooLong part = false

namespace Prepared

variable {old : List Text}

theorem resolve (h : Prepared disk base old files) : disk.resolve (.ofPlace base) = .ok base :=
  resolve_of_checked h.clear.real
    (checkNames_concat (fun part hpart => (h.clear.real.names part hpart).ne_points) h.writable.checked)

-- What files are called depends on links only.
theorem calls (h : Prepared disk base old files) {other : Disk} (hlinks : SameLinks disk other) :
    List.Forall₂ (Calls other (.ofPlace base)) (files.map (·.path)) ((files.map (·.path)).map (entryName base)) := by
  refine List.forall₂_map_right_iff.mpr (List.forall₂_same.mpr fun path hpath => ?_)
  obtain ⟨file, hfile, rfl⟩ := List.mem_map.mp hpath
  obtain ⟨above, name, hready⟩ := h.ready file hfile
  have hat := (h.isModule file hfile).fileAt
  have hplace : base ++ wayTo base file.path = above ++ [name] :=
    congrArg Path.names (hat.path.symm.trans hready.path)
  have hresolve := resolve_congr hlinks hready.writable.real
    (resolve_of_checked hready.writable.real hready.writable.checked)
  refine ⟨base, wayTo base file.path, resolve_congr hlinks h.clear.real h.resolve, ?_, Path.text_relative hat.ne_nil⟩
  rw [hready.path, hplace, hresolve]

-- The manifest is read if there is one. Cleaning up after it ends, keeps it, and does nothing where the previous
-- generation was none.
theorem cleans (h : Prepared disk base old files) (hbase : disk.resolve (root.child config.output) = .ok base) :
    ∃ found last, Ends (Manifest.load config root) disk disk (.ok found) ∧
      Ends (cleaning found (files.map (·.path)) (.ofPlace base)) disk last (.ok ()) ∧
      last.IsTree ∧ SameLinks disk last ∧ Writable last base fileName ∧ (old = [] → last = disk) := by
  rcases h.remembers with ⟨hold, hfree⟩ | ⟨bytes, hfile, hlists⟩
  · have hnone : disk.entry? (placeIn base) = none := by
      cases hentry : disk.entry? (placeIn base) with
      | none => rfl
      | some entry =>
        cases entry with
        | file bytes => exact absurd hentry (hfree bytes)
        | link target => simpa [linkAt?, hentry] using h.writable.real.noLink _ (List.prefix_refl (placeIn base))
        | directory => exact absurd hentry h.writable.free
    refine ⟨none, disk, ?_, ends_done.mpr ⟨rfl, rfl⟩, h.tree, .refl disk, h.writable, fun _ => rfl⟩
    rw [Manifest.load, ends_bind_of_ok (path_ends hbase)]
    exact (ends_bind_of_ok (ends_query_ok (pathExists_of_free h.tree h.writable hnone))).mpr ⟨rfl, rfl⟩
  · obtain ⟨t, fields, hdecode, hjson, hne, hentries⟩ := hlists.read h.clear.real.names
    have hloaded : loaded bytes = .ok (some (.obj fields)) := by
      rw [loaded, hdecode]
      simp only [hjson]
    have hfind : disk.find (.ofPlace (placeIn base)) = .ok (placeIn base, .file bytes) := by
      have hlocate := locate_of_directory h.tree h.writable.real h.writable.directory h.writable.fits
      rw [placeIn] at hfile ⊢
      simp [find, hlocate, hfile, bind, Except.bind, pure, Except.pure]
    have hold : ∀ file ∈ old, IsModule base file ∧ checkNames [] (base ++ wayTo base file) = .ok () ∧
        ∀ part ∈ base ++ wayTo base file, isTooLong part = false :=
      fun file hfile => ⟨hlists.isModule file hfile, hlists.checked file hfile, h.fits file hfile⟩
    have hloopless : ∀ names, entries (.obj fields) = .ok names →
        ∀ entry ∈ names, disk.Loopless (Path.child (.ofPlace base) entry) := by
      intro names hnames entry hentry
      obtain rfl := Except.ok.inj (hentries.symm.trans hnames)
      obtain ⟨file, hfile, rfl⟩ := List.mem_map.mp (Text.mem_sort.mp hentry)
      have hat := (hlists.isModule file hfile).fileAt
      rw [child_entryName (hlists.isModule file hfile), hat.path]
      exact loopless_ofPlace (hat.isReal h.clear)
    obtain ⟨current, hcurrent⟩ := resolveAll_of_calls (h.calls (.refl disk))
    obtain ⟨removed, last, hremoved⟩ := (cleanUp_ends_iff h.resolve hcurrent).mpr
      ⟨_, hentries, passes_of_isModule h.tree h.clear (fun entry hentry => by simpa using hentry) hold⟩
    obtain ⟨htree, hlinks, hkept⟩ := cleanUp_spares h.tree h.clear.real hloopless hfile hremoved
    have hwritable : Writable last base fileName := by
      refine ⟨hlinks.isReal h.writable.real, htree.parent base fileName ?_, ?_, h.writable.fits, h.writable.checked⟩
      · exact Option.isSome_of_eq_some hkept
      · rw [placeIn] at hkept
        simp [hkept]
    have hblank : isBlank (.obj fields) = false := by simp [isBlank, Json.fields, hne]
    refine ⟨_, last, hloaded ▸ load_of_find hbase hfind hlists.path, ?_, htree, hlinks, hwritable, ?_⟩
    · simp only [cleaning, hblank, Bool.false_eq_true, if_false]
      exact (ends_bind_of_ok hremoved).mpr ⟨rfl, rfl⟩
    · rintro rfl
      rcases cleanUp_cases hremoved with ⟨_, _, herror⟩ | ⟨_, _, names, _, _, hnames, hends⟩
      · simp at herror
      · obtain rfl := Except.ok.inj (hentries.symm.trans hnames)
        exact (ends_pure.mp hends).1.symm

-- The manifest is brought up to date. Nothing else changes where the previous generation was none.
theorem updates {now : Text} (h : Prepared disk base old files)
    (hbase : disk.resolve (root.child config.output) = .ok base) :
    ∃ last, Ends (updateManifest now schema files config root) disk last (.ok ()) ∧
      (old = [] → ∀ other, other ≠ placeIn base → last.entry? other = disk.entry? other) := by
  obtain ⟨found, mid, hload, hclean, htree, hlinks, hwritable, hnone⟩ := h.cleans hbase
  obtain ⟨bytes, hbytes⟩ := encode_fileText now schema config.supabasePath ((files.map (·.path)).map (entryName base))
  obtain ⟨last, hwrite, hentry⟩ := writeFile_of_writable htree hwritable hbytes
  refine ⟨last, (ends_updateManifest hbase).mpr ((ends_bind_of_ok hload).mpr ((ends_bind_of_ok hclean).mpr
    ((ends_recordFiles (resolve_congr hlinks h.clear.real hbase)).mpr ⟨_, h.calls hlinks, hwrite⟩))), ?_⟩
  rintro hold other hother
  rw [hentry, ← placeIn, if_neg hother, hnone hold]

end Prepared

-- A run that generates files writes them where it can. A first one changes nothing else but the manifest.
theorem integrate_succeeds {now : Text} {request : Request} {old : List Text}
    (hroot : Ends (projectRoot request.projectRoot) disk disk (.ok root))
    (hconfig : Ends (Integration.config request root) disk disk (.ok config))
    (hschema : Ends (Integration.schema config root) disk disk (.ok schema))
    (hfiles : Ends (Integration.files schema config root) disk disk (.ok files))
    (hbase : disk.resolve (root.child config.output) = .ok base)
    (h : Prepared disk base old files) :
    ∃ last, Ends (integrate now request) disk last (.ok ⟨schema, files⟩) ∧
      (old = [] → ∀ other, other ≠ placeIn base → (∀ file ∈ files, Path.ofText file.path ≠ .ofPlace other) →
        last.entry? other = disk.entry? other) := by
  obtain ⟨mid, hwrite, htree, hlinks, hkept, hsame⟩ :=
    forEach_succeeds request.verbose h.tree h.ready
  have hmid : Prepared mid base old files := by
    refine ⟨htree, h.clear.congr hlinks, fun file hfile => ?_, h.isModule, hkept _ _ h.writable, ?_, h.fits⟩
    · obtain ⟨above, name, hready⟩ := h.ready file hfile
      exact ⟨above, name, hready.path, hkept above name hready.writable, hready.encoded⟩
    · have hmanifest := hsame (placeIn base) fun file hfile => ne_placeIn (h.isModule file hfile)
      simpa only [Remembers, hmanifest] using h.remembers
  obtain ⟨last, hupdate, hothers⟩ := hmid.updates (resolve_congr hlinks h.clear.real hbase)
  have hreading : Ends (reading request) disk disk (.ok (root, config, ⟨schema, files⟩)) :=
    (ends_bind_of_ok hroot).mpr ((ends_bind_of_ok hconfig).mpr ((ends_bind_of_ok hschema).mpr
      ((ends_bind_of_ok hfiles).mpr ⟨rfl, rfl⟩)))
  refine ⟨if config.manifest then last else mid,
    (ends_integrate_of_reading hreading).mpr ((ends_bind_of_ok hwrite).mpr ?_), fun hold other hother hnew => ?_⟩
  · by_cases hmanifest : config.manifest = true
    · rw [if_pos hmanifest, if_pos hmanifest]
      exact (ends_bind_of_ok hupdate).mpr ⟨rfl, rfl⟩
    · rw [if_neg hmanifest, if_neg hmanifest]
      exact ⟨rfl, rfl⟩
  · have hwritten := hsame other hnew
    by_cases hmanifest : config.manifest = true
    · rw [if_pos hmanifest, hothers hold other hother, hwritten]
    · rw [if_neg hmanifest, hwritten]

-- The modules that a schema without tables and functions has.
def bareFiles (schema : Schema) (clientPath : Text) (output : Path) : List GeneratedFile :=
  Generation.storageFiles clientPath output ++
    (if schema.hasEnums then
      [Generation.file (Generation.enumsPath output) (Types.enumsModule schema.enums schema.name)] else []) ++
    [Generation.file (output.child "index.ts") (MainIndex.module schema false false)]

theorem assignments_bare {clientPath : Text} {output : Path} (htables : schema.tables = [])
    (hroutines : schema.publicRoutines = []) :
    (Generation.assignments schema clientPath output).outcome = .ok (bareFiles schema clientPath output) := by
  rw [Generation.assignments, Traced.outcome_bind_eq_ok]
  refine ⟨([], []), by rw [htables]; rfl, ?_⟩
  rw [Traced.outcome_bind_eq_ok]
  refine ⟨([], []), by rw [hroutines]; rfl, ?_⟩
  simp only [hroutines, List.isEmpty_nil, List.append_nil, List.nil_append, List.filterMap_nil, if_true,
    Bool.not_true, Traced.bind_ok, Traced.pure_eq, bareFiles]

theorem generate_bare {clientPath : Text} {output : Path} (htables : schema.tables = [])
    (hroutines : schema.publicRoutines = [])
    (hnodup : ((bareFiles schema clientPath output).map (·.path)).Nodup) :
    (Generation.generate schema clientPath output).outcome = .ok (bareFiles schema clientPath output) := by
  have hmerged := Generation.foldl_put_of_nodup (bareFiles schema clientPath output) []
    (by rwa [List.nil_append])
  rw [List.nil_append] at hmerged
  simp only [Generation.generate, Traced.outcome_bind_eq_ok, assignments_bare htables hroutines,
    Except.ok.injEq, exists_eq_left']
  exact ⟨(), rfl, congrArg Except.ok hmerged⟩

theorem header_isScalar : Utf8.IsScalar header := Utf8.isScalar_ofString _

theorem typesModule_isScalar : Utf8.IsScalar Storage.typesModule := Utf8.isScalar_ofString _

theorem hooks_isScalar : Utf8.IsScalar Storage.hooks := Utf8.isScalar_ofString _

theorem finalText_isScalar {file : GeneratedFile} (h : Utf8.IsScalar file.content) :
    Utf8.IsScalar (finalText file) := by
  unfold finalText
  split
  · exact header_isScalar.append h
  · exact h

-- The modules that are always there have no surrogates, unless the path of the client has.
theorem storageFiles_isScalar {output : Path} :
    ∀ file ∈ Generation.storageFiles Config.default.supabasePath output, Utf8.IsScalar file.content := by
  simp only [Generation.storageFiles, Storage.modules, List.map_cons, List.map_nil, List.mem_cons,
    List.not_mem_nil, or_false, forall_eq_or_imp, forall_eq, Generation.file]
  have hhooks : Utf8.IsScalar (Storage.hooksModule Config.default.supabasePath) := by
    rw [Storage.hooksModule]
    exact (Utf8.IsScalar.append (by decide +kernel) (by decide +kernel)).append hooks_isScalar
  exact ⟨typesModule_isScalar, hhooks, by decide +kernel⟩

end HookGen.Integration
