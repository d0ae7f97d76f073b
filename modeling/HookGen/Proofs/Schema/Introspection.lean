import HookGen.Proofs.Shape.Parts
import HookGen.Proofs.Traced
import HookGen.Schema.Introspection

/-!
What a schema that has been found in a declaration file has to do with the declarations.
-/

namespace HookGen

open Traced

variable {file : DeclarationFile} {schemaName rootName : Text} {schema : Schema}

theorem DeclarationFile.outcome_parse (path source : Text) :
    (parse path source).outcome = .ok ⟨path, (Source.parseDeclarations source).getD []⟩ := by
  rw [parse]
  cases Source.parseDeclarations source <;> simp [logWarning, logDebug, note]

namespace Introspection

theorem decoded_eq_ok {α : Type} {result : Except StringLiteral.DecodeError α} {a : α} :
    (decoded result).outcome = .ok a ↔ result = .ok a := by
  cases result <;> simp [decoded]

-- A declaration as it is exported.
def exportedSource (declaration : Source.Declaration) : Text :=
  if declaration.isExported then declaration.source else "export " ++ declaration.source

-- A shape that is found somewhere in the root type, or one without parts in its place.
def IsFound (root shape : Shape) : Prop :=
  root.Part shape ∨ shape = .emptyObject ∨ ∃ t, shape = .text t

-- How a schema comes from declarations.
structure Describes (file : DeclarationFile) (rootName : Text) (schema : Schema) : Prop where
  root : file.type? rootName = some schema.root
  baseTypes : schema.baseTypes = baseTypes file rootName
  enums : schema.enums ≠ [] → schema.hasEnums
  tables : ∀ table ∈ schema.tables, IsFound schema.root table.row ∧ IsFound schema.root table.insert ∧
    IsFound schema.root table.update
  routines : ∀ routine ∈ schema.routines, ∀ signature ∈ routine.signatures,
    IsFound schema.root signature.args ∧ IsFound schema.root signature.returns

theorem collect_nil {α : Type} {describe : Member → Introspected α} {result : List α}
    (h : (collect describe []).outcome = .ok result) : result = [] := by
  simpa [collect] using h.symm

theorem mem_collect {α : Type} {describe : Member → Introspected α} {members : List Member}
    {result : List α} (h : (collect describe members).outcome = .ok result) {a : α} (ha : a ∈ result) :
    ∃ member ∈ members, (describe member).outcome = .ok a := by
  induction members generalizing result with
  | nil =>
    rw [collect_nil h] at ha
    cases ha
  | cons member rest ih =>
    simp only [collect, outcome_bind_eq_ok] at h
    obtain ⟨first, hfirst, others, hothers, h⟩ := h
    obtain rfl := Except.ok.inj h
    rcases List.mem_cons.mp ha with rfl | hrest
    · exact ⟨member, List.mem_cons_self .., hfirst⟩
    · obtain ⟨found, hfound, hdescribed⟩ := ih hothers hrest
      exact ⟨found, List.mem_cons_of_mem member hfound, hdescribed⟩

theorem isFound_propertyOrEmpty {root shape found : Shape} {key : Text} (hpart : root.Part shape)
    (h : (propertyOrEmpty shape key).outcome = .ok found) : IsFound root found := by
  rw [propertyOrEmpty, outcome_bind_eq_ok] at h
  obtain ⟨property, hproperty, h⟩ := h
  obtain rfl := Except.ok.inj h
  cases property with
  | none => exact .inr (.inl rfl)
  | some type => exact .inl (hpart.trans (Shape.part_of_property (decoded_eq_ok.mp hproperty)))

theorem isFound_tableOf {root : Shape} {member : Member} {table : Table} (hpart : root.Part member.shape)
    (h : (tableOf member).outcome = .ok table) :
    IsFound root table.row ∧ IsFound root table.insert ∧ IsFound root table.update := by
  simp only [tableOf, outcome_bind_eq_ok] at h
  obtain ⟨name, -, row, hrow, insert, hinsert, update, hupdate, relationships, -, _, -, h⟩ := h
  obtain rfl := Except.ok.inj h
  exact ⟨isFound_propertyOrEmpty hpart hrow, isFound_propertyOrEmpty hpart hinsert,
    isFound_propertyOrEmpty hpart hupdate⟩

theorem isFound_signatureOf {root candidate : Shape} {signature : Signature} (hpart : root.Part candidate)
    (h : (signatureOf candidate).outcome = .ok (some signature)) :
    IsFound root signature.args ∧ IsFound root signature.returns := by
  have hproperty {key : Text} {found : Option Shape} {default : Shape}
      (hkey : (decoded (candidate.property? key)).outcome = .ok found)
      (hdefault : default = .emptyObject ∨ ∃ t, default = .text t) : IsFound root (found.getD default) := by
    cases found with
    | none => exact .inr hdefault
    | some type => exact .inl (hpart.trans (Shape.part_of_property (decoded_eq_ok.mp hkey)))
  rw [signatureOf] at h
  split at h
  · cases h
  · simp only [outcome_bind_eq_ok] at h
    obtain ⟨args, hargs, returns, hreturns, h⟩ := h
    split at h
    · cases h
    · obtain rfl := Option.some.inj (Except.ok.inj h)
      exact ⟨hproperty hargs (.inl rfl), hproperty hreturns (.inr ⟨_, rfl⟩)⟩

theorem mem_signaturesOf {candidates : List Shape} {signatures : List Signature}
    (h : (signaturesOf candidates).outcome = .ok signatures) {signature : Signature}
    (hmem : signature ∈ signatures) :
    ∃ candidate ∈ candidates, (signatureOf candidate).outcome = .ok (some signature) := by
  induction candidates generalizing signatures with
  | nil =>
    obtain rfl := Except.ok.inj h
    cases hmem
  | cons candidate rest ih =>
    simp only [signaturesOf, outcome_bind_eq_ok] at h
    obtain ⟨first, hfirst, others, hothers, h⟩ := h
    obtain rfl := Except.ok.inj h
    rcases List.mem_append.mp hmem with hmem | hmem
    · obtain rfl : first = some signature := Option.mem_toList.mp hmem
      exact ⟨candidate, List.mem_cons_self .., hfirst⟩
    · obtain ⟨found, hfound, hsignature⟩ := ih hothers hmem
      exact ⟨found, List.mem_cons_of_mem candidate hfound, hsignature⟩

theorem part_of_alternative {shape alternative : Shape} (h : alternative ∈ shape.alternatives) :
    shape.Part alternative := by
  cases shape with
  | union label args => exact .arg (show alternative ∈ (Shape.union label args).args from h) (.self _)
  | _ =>
    obtain rfl := List.mem_singleton.mp h
    exact .self _

theorem isFound_routineOf {root : Shape} {member : Member} {routine : Routine}
    (hpart : root.Part member.shape) (h : (routineOf member).outcome = .ok (some routine)) :
    ∀ signature ∈ routine.signatures, IsFound root signature.args ∧ IsFound root signature.returns := by
  simp only [routineOf, outcome_bind_eq_ok] at h
  obtain ⟨name, -, signatures, hsignatures, h⟩ := h
  split at h
  · obtain ⟨_, -, h⟩ := outcome_bind_eq_ok.mp h
    cases h
  · obtain rfl := Option.some.inj (Except.ok.inj h)
    intro signature hmem
    obtain ⟨candidate, hcandidate, hsignature⟩ := mem_signaturesOf hsignatures hmem
    exact isFound_signatureOf (hpart.trans (part_of_alternative hcandidate)) hsignature

theorem introspect_describes (h : (introspect file schemaName rootName).outcome = .ok schema) :
    Describes file rootName schema := by
  rw [introspect, outcome_bind_eq_ok] at h
  obtain ⟨root, hroot, h⟩ := h
  rw [outcome_bind_eq_ok] at h
  obtain ⟨property, hproperty, h⟩ := h
  have htype : file.type? rootName = some root := by
    cases htype : file.type? rootName with
    | none => simp [DeclarationFile.requireType, htype] at hroot
    | some shape => simpa [DeclarationFile.requireType, htype] using hroot
  split at h
  · rename_i label members signatures
    have hshape := Shape.part_of_property (decoded_eq_ok.mp hproperty)
    simp only [outcome_bind_eq_ok] at h
    obtain ⟨tablesType, htablesType, routinesType, hroutinesType, enumsType, -, tables, htables, routines,
      hroutines, enums, henums, _, -, h⟩ := h
    simp only [pure_eq, Except.ok.injEq] at h
    subst h
    -- the properties of a group are parts of the root type
    have hgroup {key : Text} {group : Option Shape} {member : Member}
        (hkey : (decoded ((Shape.object label members signatures).property? key)).outcome = .ok group)
        (hmember : member ∈ membersOf group) : root.Part member.shape := by
      cases group with
      | none => cases hmember
      | some type =>
        exact (hshape.trans (Shape.part_of_property (decoded_eq_ok.mp hkey))).trans (.member hmember (.self _))
    refine ⟨htype, rfl, ?_, ?_, ?_⟩
    · intro hne
      cases enumsType with
      | none => exact absurd (collect_nil henums) hne
      | some shape => rfl
    · intro table htable
      obtain ⟨member, hmember, hdescribed⟩ := mem_collect htables htable
      exact isFound_tableOf (hgroup htablesType hmember) hdescribed
    · intro routine hroutine
      obtain ⟨found, hfound, heq⟩ := List.mem_filterMap.mp hroutine
      obtain rfl : found = some routine := heq
      obtain ⟨member, hmember, hdescribed⟩ := mem_collect hroutines hfound
      exact isFound_routineOf (hgroup hroutinesType hmember) hdescribed
  · cases h

theorem exists_lookup {names : List (Text × Text)} {name : Text} (h : names.any (·.1 == name)) :
    ∃ source, names.lookup name = some source ∧ (name, source) ∈ names := by
  induction names with
  | nil => simp at h
  | cons first rest ih =>
    obtain ⟨other, source⟩ := first
    by_cases hname : other = name
    · subst hname
      exact ⟨source, List.lookup_cons_self, List.mem_cons_self ..⟩
    · have hrest : rest.any (·.1 == name) := by simpa [hname] using h
      obtain ⟨found, hfound, hmem⟩ := ih hrest
      refine ⟨found, ?_, List.mem_cons_of_mem _ hmem⟩
      rw [List.lookup_cons, show (name == other) = false from beq_false_of_ne (Ne.symm hname)]
      exact hfound

-- The source of a base type is that of a declaration with its name, and without type parameters.
theorem Describes.exists_plain_declaration (h : Describes file rootName schema) {name : Text}
    (hbase : schema.isBaseType name) :
    ∃ declaration ∈ file.declarations, declaration.hasTypeParameters = false ∧ declaration.name = name ∧
      schema.baseTypeSource name = exportedSource declaration := by
  obtain ⟨source, hlookup, hmem⟩ := exists_lookup hbase
  rw [h.baseTypes, Introspection.baseTypes, List.mem_map] at hmem
  obtain ⟨declaration, hdeclaration, heq⟩ := hmem
  obtain ⟨rfl, rfl⟩ := Prod.mk.inj heq
  obtain ⟨hdeclaration, hplain⟩ := List.mem_filter.mp hdeclaration
  simp only [Bool.and_eq_true, Bool.not_eq_true'] at hplain
  refine ⟨declaration, hdeclaration, hplain.2, rfl, ?_⟩
  rw [Schema.baseTypeSource, hlookup]
  rfl

theorem Describes.exists_declaration (h : Describes file rootName schema) {name : Text}
    (hbase : schema.isBaseType name) :
    ∃ declaration ∈ file.declarations, declaration.name = name ∧
      schema.baseTypeSource name = exportedSource declaration := by
  obtain ⟨declaration, hmem, -, hdeclared⟩ := h.exists_plain_declaration hbase
  exact ⟨declaration, hmem, hdeclared⟩

end Introspection

end HookGen
