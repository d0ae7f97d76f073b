import HookGen.Emit.TableHooks
import HookGen.Proofs.Code.Joining
import HookGen.Proofs.Disk.Encoding
import HookGen.Proofs.Text.Sort
import HookGen.Proofs.Text.Utf8

/-!
What is written about a table has no surrogates where its name and the path of the client have none: what
a layout holds comes from its steps, and what joined lines hold from the lines.
-/

namespace HookGen

namespace Utf8

variable {separator t t' line : Text} {texts : List Text}

@[simp] theorem isScalar_nil : IsScalar [] := List.forall_mem_nil _

@[simp] theorem isScalar_append : IsScalar (t ++ t' : Text) ↔ IsScalar t ∧ IsScalar t' := List.forall_mem_append

attribute [simp] isScalar_ofString

theorem isScalar_spaces (n : Nat) : IsScalar (Text.spaces n) := by
  intro c hc
  rw [List.eq_of_mem_replicate hc]
  rfl

theorem isScalar_join (hseparator : IsScalar separator) :
    IsScalar (Text.join separator texts) ↔ ∀ t ∈ texts, IsScalar t := by
  refine ⟨fun h t ht c hc => h c (Text.mem_join_of_mem ht hc), fun h c hc => ?_⟩
  obtain hc | ⟨t, ht, hc⟩ := Text.mem_join hc
  · exact hseparator c hc
  · exact h t ht c hc

@[simp] theorem isScalar_joinLines : IsScalar (Text.joinLines texts) ↔ ∀ t ∈ texts, IsScalar t :=
  isScalar_join (isScalar_ofString _)

theorem isScalar_of_mem_lines (h : IsScalar t) (hline : line ∈ t.lines) : IsScalar line :=
  isScalar_joinLines.mp ((Code.joinLines_lines t).symm ▸ h : IsScalar (Text.joinLines t.lines)) line hline

end Utf8

namespace Code

open Utf8

variable {builder : Builder} {steps body : List Step} {step : Step}
variable {text opening closing code path : Text} {texts lines joined : List Text}

@[simp] theorem isScalar_docComment : IsScalar (docComment texts) ↔ ∀ part ∈ texts, IsScalar part := by
  have hline (part : Text) : IsScalar (if part = [] then " *" else " * " ++ part) ↔ IsScalar part := by
    by_cases hpart : part = [] <;> simp [hpart]
  simp [docComment, or_imp, forall_and, hline]

theorem isScalar_importNames (typeOnly : Bool) (h : ∀ name ∈ texts, IsScalar name) (hpath : IsScalar path) :
    IsScalar (importNames typeOnly texts path) := by
  have hnames : IsScalar (Text.join ", " (Text.sortDistinct texts)) :=
    (isScalar_join (isScalar_ofString _)).mpr fun name hname => h name (Text.mem_sortDistinct.mp hname)
  have hkeyword : IsScalar (if typeOnly then "import type" else "import") := by
    cases typeOnly <;> exact isScalar_ofString _
  simp only [importNames]
  split
  · exact isScalar_nil
  · simp [hkeyword, hnames, hpath]

theorem isScalar_joinSections (h : ∀ t ∈ texts, IsScalar t) : IsScalar (joinSections texts) :=
  ((isScalar_join (isScalar_ofString _)).mpr h).append (isScalar_ofString _)

-- What a step writes.
def Step.IsScalar : Step → Prop
  | .line text => Utf8.IsScalar text
  | .lines text => Utf8.IsScalar text
  | .indent => True
  | .dedent => True
  | .openBlock opening closing => Utf8.IsScalar opening ∧ Utf8.IsScalar closing
  | .closeBlock => True

@[simp] theorem Step.isScalar_line : (Step.line text).IsScalar ↔ Utf8.IsScalar text := Iff.rfl

-- What has been written, and what will close the open blocks.
structure Builder.IsScalar (builder : Builder) : Prop where
  lines : ∀ line ∈ builder.lines, Utf8.IsScalar line
  closings : ∀ closing ∈ builder.closings, Utf8.IsScalar closing

namespace Builder.IsScalar

theorem addLine (h : builder.IsScalar) (htext : Utf8.IsScalar text) : (builder.addLine text).IsScalar := by
  refine ⟨fun line hline => ?_, h.closings⟩
  obtain hline | hline := List.mem_append.mp hline
  · exact h.lines line hline
  · obtain rfl := List.mem_singleton.mp hline
    split
    · exact isScalar_nil
    · exact (isScalar_spaces _).append htext

theorem addLines (h : builder.IsScalar) (htexts : ∀ t ∈ texts, Utf8.IsScalar t) :
    (builder.addLines texts).IsScalar := by
  induction texts generalizing builder with
  | nil => exact h
  | cons text rest ih =>
    obtain ⟨htext, hrest⟩ := List.forall_mem_cons.mp htexts
    exact ih (h.addLine htext) hrest

theorem apply (h : builder.IsScalar) (hstep : step.IsScalar) : (builder.apply step).IsScalar := by
  cases step with
  | line text => exact h.addLine hstep
  | lines text => exact h.addLines fun _ hline => isScalar_of_mem_lines hstep hline
  | indent => exact ⟨h.lines, h.closings⟩
  | dedent => exact ⟨h.lines, h.closings⟩
  | openBlock opening closing =>
    have hopened := h.addLine hstep.1
    exact ⟨hopened.lines, List.forall_mem_cons.mpr ⟨hstep.2, hopened.closings⟩⟩
  | closeBlock =>
    cases hclosings : builder.closings with
    | nil => simpa [Builder.apply, hclosings] using h
    | cons closing outer =>
      obtain ⟨hclosing, houter⟩ := List.forall_mem_cons.mp (hclosings ▸ h.closings)
      have hclosed : Builder.IsScalar { builder with level := builder.level - 1, closings := outer } :=
        ⟨h.lines, houter⟩
      simpa [Builder.apply, hclosings] using hclosed.addLine hclosing

theorem run (h : builder.IsScalar) (hsteps : ∀ step ∈ steps, step.IsScalar) : (builder.run steps).IsScalar := by
  induction steps generalizing builder with
  | nil => exact h
  | cons step rest ih =>
    obtain ⟨hstep, hrest⟩ := List.forall_mem_cons.mp hsteps
    exact ih (h.apply hstep) hrest

end Builder.IsScalar

theorem isScalar_layout (h : ∀ step ∈ steps, step.IsScalar) : IsScalar (layout steps) := by
  have hempty : (Builder.empty 2).IsScalar := ⟨List.forall_mem_nil _, List.forall_mem_nil _⟩
  exact isScalar_joinLines.mpr (hempty.run h).lines

@[simp] theorem isScalar_block : (∀ step ∈ block opening closing body, step.IsScalar) ↔
    (IsScalar opening ∧ IsScalar closing) ∧ ∀ step ∈ body, step.IsScalar := by
  simp [block, or_imp, forall_and, Step.IsScalar]

@[simp] theorem isScalar_indented : (∀ step ∈ indented body, step.IsScalar) ↔ ∀ step ∈ body, step.IsScalar := by
  simp [indented, or_imp, forall_and, Step.IsScalar]

theorem Joined.isScalar (h : Joined lines joined) (hlines : ∀ line ∈ lines, IsScalar line) :
    ∀ line ∈ joined, IsScalar line := by
  induction h with
  | nil => exact hlines
  | keep _ _ ih =>
    obtain ⟨hline, hrest⟩ := List.forall_mem_cons.mp hlines
    exact List.forall_mem_cons.mpr ⟨hline, ih hrest⟩
  | @join brace line rest joined _ _ _ ih =>
    obtain ⟨hbrace, hmore⟩ := List.forall_mem_cons.mp hlines
    obtain ⟨hline, hrest⟩ := List.forall_mem_cons.mp hmore
    have htrim : IsScalar line.trim := fun c hc => hline c (Text.trim_subset line hc)
    exact List.forall_mem_cons.mpr ⟨(hbrace.append (isScalar_ofString " ")).append htrim, ih hrest⟩

theorem isScalar_joinElse (h : IsScalar code) : IsScalar (joinElse code) :=
  isScalar_joinLines.mpr ((joined_joinElseOnto code.lines).isScalar fun _ hline => isScalar_of_mem_lines h hline)

end Code

namespace TableHooks

open Utf8 Code

variable {names : Names} {clientPath : Text} {texts : List Text}

@[simp] theorem isScalar_steps : (∀ step ∈ steps texts, step.IsScalar) ↔ ∀ t ∈ texts, IsScalar t :=
  List.forall_mem_map

@[simp] theorem isScalar_doc : (∀ step ∈ doc texts, step.IsScalar) ↔ ∀ part ∈ texts, IsScalar part :=
  List.forall_mem_singleton.trans isScalar_docComment

namespace Names

structure IsScalar (names : Names) : Prop where
  table : Utf8.IsScalar names.table
  pascal : Utf8.IsScalar names.pascal

@[simp] theorem isScalar_keySuffix (names : Names) : Utf8.IsScalar names.keySuffix := by
  cases h : names.withRelations <;> simp [keySuffix, h]

@[simp] theorem isScalar_selectionFields (names : Names) : Utf8.IsScalar names.selectionFields := by
  cases h : names.withRelations <;> simp [selectionFields, h]

@[simp] theorem isScalar_selectionArgs (names : Names) : Utf8.IsScalar names.selectionArgs := by
  cases h : names.withRelations <;> simp [selectionArgs, h]

namespace IsScalar

variable (h : names.IsScalar)
include h

theorem row : Utf8.IsScalar names.row := by simp [Names.row, h.pascal]

theorem insert : Utf8.IsScalar names.insert := by simp [Names.insert, h.pascal]

theorem update : Utf8.IsScalar names.update := by simp [Names.update, h.pascal]

theorem filters : Utf8.IsScalar names.filters := by simp [Names.filters, h.pascal]

theorem options : Utf8.IsScalar names.options := by simp [Names.options, h.pascal]

theorem idType : Utf8.IsScalar names.idType := by simp [Names.idType, h.row]

theorem selectFunction : Utf8.IsScalar names.selectFunction := by simp [Names.selectFunction, h.pascal]

theorem filterFunction : Utf8.IsScalar names.filterFunction := by simp [Names.filterFunction, h.pascal]

theorem imports (hpath : Utf8.IsScalar clientPath) : Utf8.IsScalar (imports names clientPath) := by
  have hquery : Utf8.IsScalar queryImport := isScalar_importNames _ (by simp) (by simp)
  have htypes : Utf8.IsScalar (importNames true [names.row, names.insert, names.update, names.filters] "./types") :=
    isScalar_importNames _ (by simp [h.row, h.insert, h.update, h.filters]) (by simp)
  cases hwith : names.withRelations <;>
    simp [TableHooks.imports, hwith, hquery, clientImport, hpath, htypes, isScalar_importNames]

theorem queryOptions : Utf8.IsScalar (queryOptions names) := by
  refine isScalar_layout ?_
  cases names.withRelations <;> simp [or_imp, forall_and, h.table, h.options]

theorem selectBuilder : Utf8.IsScalar (selectBuilder names) := by
  refine isScalar_layout ?_
  cases names.withRelations <;> simp [or_imp, forall_and, h.selectFunction, h.options]

theorem filterHelper : Utf8.IsScalar (filterHelper names) := by
  refine isScalar_joinElse (isScalar_layout ?_)
  simp [or_imp, forall_and, h.filterFunction, h.filters]

theorem useSingle : Utf8.IsScalar (useSingle names) := by
  refine isScalar_layout ?_
  simp [hookOptions, or_imp, forall_and, h.table, h.pascal, h.row, h.idType, h.options]

theorem useList : Utf8.IsScalar (useList names) := by
  refine isScalar_layout ?_
  simp [hookOptions, or_imp, forall_and, h.table, h.pascal, h.row, h.filters, h.options]

theorem useCreate : Utf8.IsScalar (useCreate names) := by
  refine isScalar_layout ?_
  simp [or_imp, forall_and, h.table, h.pascal, h.row, h.insert]

theorem useUpdate : Utf8.IsScalar (useUpdate names) := by
  refine isScalar_layout ?_
  simp [or_imp, forall_and, h.table, h.pascal, h.row, h.idType, h.update]

theorem useDelete : Utf8.IsScalar (useDelete names) := by
  refine isScalar_layout ?_
  simp [or_imp, forall_and, h.table, h.pascal, h.idType]

theorem getSingle : Utf8.IsScalar (getSingle names) := by
  refine isScalar_layout ?_
  simp [fromTable, throwOnError, or_imp, forall_and, h.table, h.pascal, h.row, h.idType, h.options, h.selectFunction]

theorem getList : Utf8.IsScalar (getList names) := by
  refine isScalar_layout ?_
  simp [fromTable, throwOnError, or_imp, forall_and, h.table, h.pascal, h.row, h.filters, h.options, h.selectFunction,
    h.filterFunction]

theorem create : Utf8.IsScalar (create names) := by
  refine isScalar_layout ?_
  simp [fromTable, throwOnError, or_imp, forall_and, h.table, h.pascal, h.row, h.insert]

theorem updateFunction : Utf8.IsScalar (TableHooks.update names) := by
  refine isScalar_layout ?_
  simp [fromTable, throwOnError, or_imp, forall_and, h.table, h.pascal, h.row, h.idType, h.update]

theorem delete : Utf8.IsScalar (delete names) := by
  refine isScalar_layout ?_
  simp [fromTable, throwOnError, or_imp, forall_and, h.table, h.pascal, h.idType]

theorem sections (hpath : Utf8.IsScalar clientPath) (byId : Bool) :
    ∀ t ∈ sections names clientPath byId, Utf8.IsScalar t := by
  cases byId <;> simp [TableHooks.sections, h.imports hpath, h.queryOptions, h.selectBuilder, h.filterHelper,
    h.useSingle, h.useList, h.useCreate, h.useUpdate, h.useDelete, h.getSingle, h.getList,
    h.create, h.updateFunction, h.delete]

end IsScalar

end Names

-- The hooks of a table, if they can be generated.
theorem isScalar_module {table : Table} {content : Text} (htable : IsScalar table.name)
    (hname : IsScalar table.typeName) (hpath : IsScalar clientPath)
    (h : TableHooks.module table clientPath = .ok content) : IsScalar content := by
  have hnames : (Names.ofTable table).IsScalar := ⟨htable, hname⟩
  cases hid : table.hasIdColumn with
  | error e => simp [TableHooks.module, hid, bind, Except.bind] at h
  | ok byId =>
    simp only [TableHooks.module, hid, bind, Except.bind, pure, Except.pure, Except.ok.injEq] at h
    exact h ▸ isScalar_joinSections (hnames.sections hpath byId)

end TableHooks

end HookGen
