import HookGen.Proofs.Generation.Bindings
import HookGen.Proofs.Source.Restating

/-!
The base types are declared again as their source declares them.
-/

namespace HookGen.Generation

-- A file that declares some names again as another one does: in this order, each exported, without type
-- parameters and with the same type.
structure Redeclares (original again : DeclarationFile) (required : List Text) : Prop where
  names : again.declarations.map (·.name) = required
  exported : ∀ declaration ∈ again.declarations, declaration.isExported
  plain : ∀ declaration ∈ again.declarations, declaration.hasTypeParameters = false
  types : ∀ name ∈ required, again.type? name = original.type? name

section Modules

open Source

variable {ss : List Text} {t : Text} {declarations known : List Declaration} {declaration : Declaration}
  {schema : Schema}

theorem exists_joinSections_cons (s : Text) (ss : List Text) : ∃ n w, n ≠ [] ∧ (∀ c ∈ n, c = .char '\n') ∧
    Code.joinSections (s :: ss) = s ++ (n ++ w) ∧ Stacked ss w := by
  induction ss generalizing s with
  | nil => exact ⟨"\n", [], by decide, by decide, by simp [Code.joinSections, Text.join_singleton], .nil⟩
  | cons s' ss ih =>
    obtain ⟨n, w, hn, hlines, heq, h⟩ := ih s'
    refine ⟨"\n\n", _, by decide, by decide, ?_, .cons s' hn hlines h⟩
    rw [← heq]
    simp [Code.joinSections, Text.join_cons_cons]

-- Names that are all different keep their places.
theorem foldl_putDeclaration (hnames : ((known ++ declarations).map (·.name)).Nodup) :
    declarations.foldl (fun known declaration => putDeclaration declaration known) known = known ++ declarations := by
  induction declarations generalizing known with
  | nil => simp
  | cons declaration declarations ih =>
    have hput {known : List Declaration} (h : declaration.name ∉ known.map (·.name)) :
        putDeclaration declaration known = known ++ [declaration] := by
      induction known with
      | nil => rfl
      | cons other known ih =>
        rw [List.map_cons, List.mem_cons, not_or] at h
        rw [putDeclaration, if_neg (Ne.symm h.1), ih h.2]
        rfl
    have hnew : declaration.name ∉ known.map (·.name) := fun hmem => by
      rw [List.map_append, List.nodup_append] at hnames
      exact hnames.2.2 _ hmem _ (List.mem_cons_self ..) rfl
    rw [List.foldl_cons, hput hnew, ih (by simpa using hnames), List.append_assoc]
    rfl

theorem map_name_of_again {again : List Declaration} (h : List.Forall₂ Declaration.Again again declarations) :
    again.map (·.name) = declarations.map (·.name) := by
  induction h with
  | nil => rfl
  | cons h _ ih => rw [List.map_cons, List.map_cons, h.name, ih]

theorem exists_of_mem_again {agains : List Declaration} (h : List.Forall₂ Declaration.Again agains declarations)
    (hmem : declaration ∈ agains) : ∃ original ∈ declarations, declaration.Again original := by
  induction h with
  | nil => cases hmem
  | cons h _ ih =>
    obtain rfl | hmem := List.mem_cons.mp hmem
    · exact ⟨_, List.mem_cons_self .., h⟩
    · obtain ⟨original, horiginal, h⟩ := ih hmem
      exact ⟨original, List.mem_cons_of_mem _ horiginal, h⟩

-- A comment stands in front of statements that declare the same again.
theorem exists_parseDeclarations_joinSections {comment : Text}
    (hcomment : blockCommentLength (comment ++ "\n") = comment.length)
    (hs : List.Forall₂ Restates ss declarations) (hnames : (declarations.map (·.name)).Nodup) :
    ∃ again, parseDeclarations (Code.joinSections ((.char '/' :: .char '*' :: comment) :: ss)) = some again ∧
      List.Forall₂ Declaration.Again again declarations := by
  obtain ⟨n, w, hn, hlines, heq, hstacked⟩ := exists_joinSections_cons (.char '/' :: .char '*' :: comment) ss
  obtain ⟨c, n, rfl⟩ := List.exists_cons_of_ne_nil hn
  obtain rfl := hlines c (List.mem_cons_self ..)
  obtain ⟨trivia, hskips, -⟩ := skips_lines (!false) (fun c hc => hlines c hc ▸ by decide)
    (List.mem_cons_self ..) (hstacked.resumes hs).visible
  have hlexeme : lexeme (!false) '/' (.char '*' :: comment ++ (.char '\n' :: n ++ w)) =
      (.comment, (.char '*' :: comment : Text).length) := by
    rw [List.cons_append, lexeme_block, (blockCommentLength_append_of_closed hcomment (by decide)).2]
    rfl
  have hread := tokensFrom_of_skips (.comment hlexeme hskips) []
  have htokens : Source.tokens (Code.joinSections ((.char '/' :: .char '*' :: comment) :: ss)) =
      tokensFrom (.comment (.char '/' :: .char '*' :: comment) :: trivia) false w := by
    rw [heq, ← List.nil_append (_ :: trivia), ← hread]
    rfl
  obtain ⟨again, hparsed, hagain⟩ :=
    hstacked.parse hs (.comment (.char '/' :: .char '*' :: comment) :: trivia) false (Nat.lt_add_one _)
  refine ⟨again, ?_, hagain⟩
  simp only [parseDeclarations, htokens, hparsed, Option.map_some]
  rw [foldl_putDeclaration (by simpa [map_name_of_again hagain] using hnames), List.nil_append]

theorem type?_of_mem (file : DeclarationFile) (hnames : (file.declarations.map (·.name)).Nodup)
    (hmem : declaration ∈ file.declarations) : file.type? declaration.name = some (.ofType declaration.value) := by
  have hfind : file.declarations.find? (·.name == declaration.name) = some declaration := by
    generalize file.declarations = declarations at hnames hmem
    induction declarations with
    | nil => cases hmem
    | cons first declarations ih =>
      rw [List.map_cons, List.nodup_cons] at hnames
      obtain rfl | hmem := List.mem_cons.mp hmem
      · simp
      · have hne : first.name ≠ declaration.name := fun heq => hnames.1 (heq ▸ List.mem_map_of_mem hmem)
        rw [List.find?_cons_of_neg (by simpa using hne)]
        exact ih hnames.2 hmem
  rw [DeclarationFile.type?, hfind]
  rfl

-- The declarations behind some base types, one for each.
theorem exists_declarations {file : DeclarationFile} {rootName : Text} {names : List Text}
    (h : Introspection.Describes file rootName schema) (hnames : ∀ name ∈ names, schema.isBaseType name) :
    ∃ declarations : List Declaration, declarations.map (·.name) = names ∧
      names.map schema.baseTypeSource = declarations.map Introspection.exportedSource ∧
      ∀ declaration ∈ declarations, declaration ∈ file.declarations ∧ declaration.hasTypeParameters = false := by
  induction names with
  | nil => exact ⟨[], rfl, rfl, nofun⟩
  | cons name names ih =>
    obtain ⟨hname, hothers⟩ := List.forall_mem_cons.mp hnames
    obtain ⟨declaration, hmem, hplain, rfl, hsource⟩ := h.exists_plain_declaration hname
    obtain ⟨declarations, rfl, hsources, hdeclared⟩ := ih hothers
    refine ⟨declaration :: declarations, rfl, ?_, List.forall_mem_cons.mpr ⟨⟨hmem, hplain⟩, hdeclared⟩⟩
    rw [List.map_cons, List.map_cons, hsource, hsources]

-- The text of the comment at the top of the module, behind the marks that open it.
def baseTypesComment : Text := "* " ++ Text.ofString "Auto-generated base types extracted from database schema" ++ " */"

theorem blockCommentLength_baseTypesComment :
    blockCommentLength (baseTypesComment ++ "\n") = baseTypesComment.length := by
  obtain ⟨chars, heq, hlength⟩ : ∃ chars : List Char,
      Text.ofString "Auto-generated base types extracted from database schema" = Text.ofChars chars ∧
        blockCommentLength ("* " ++ Text.ofChars chars ++ " */" ++ "\n") =
          ("* " ++ Text.ofChars chars ++ " */").length :=
    ⟨_, Text.ofString_ofList _, by decide +kernel⟩
  rw [baseTypesComment, heq]
  exact hlength

theorem baseTypesModule_eq (schema : Schema) (used : List Text) : Types.baseTypesModule schema used =
    Code.joinSections ((.char '/' :: .char '*' :: baseTypesComment) ::
      (Types.requiredBaseTypes schema used).map schema.baseTypeSource) := rfl

-- The base types of a source that goes on are declared again as the source declares them.
theorem redeclares_of_continuable {path source schemaName rootName : Text} {declared : DeclarationFile}
    (hsource : Continuable source) (hparse : (DeclarationFile.parse path source).outcome = .ok declared)
    (hschema : (Introspection.introspect declared schemaName rootName).outcome = .ok schema) (used : List Text) :
    ∃ again : DeclarationFile, parseDeclarations (Types.baseTypesModule schema used) = some again.declarations ∧
      Redeclares declared again (Types.requiredBaseTypes schema used) := by
  have hrequired := nodup_requiredBaseTypes hparse hschema used
  have hdescribes := Introspection.introspect_describes hschema
  rw [DeclarationFile.outcome_parse] at hparse
  obtain rfl := Except.ok.inj hparse
  -- a source that is malformed declares no root type
  obtain ⟨parsed, hparsed⟩ : ∃ parsed, parseDeclarations source = some parsed := by
    cases hparsed : parseDeclarations source with
    | none =>
      have hroot := hdescribes.root
      simp [DeclarationFile.type?, hparsed] at hroot
    | some parsed => exact ⟨parsed, rfl⟩
  have hbase : ∀ name ∈ Types.requiredBaseTypes schema used, schema.isBaseType name := by
    intro name hname
    have hdeclared := (Types.mem_requiredBaseTypes_iff.mp hname).1
    simpa [Types.baseTypeNames, Schema.isBaseType] using hdeclared
  obtain ⟨declarations, hnames, hsources, hdeclared⟩ := exists_declarations hdescribes hbase
  simp only [hparsed, Option.getD_some] at hdeclared ⊢
  have hrestates : List.Forall₂ Restates (declarations.map Introspection.exportedSource) declarations := by
    rw [List.forall₂_map_left_iff, List.forall₂_same]
    exact fun declaration hmem => restates hsource hparsed (hdeclared declaration hmem).1 (hdeclared declaration hmem).2
  rw [← hnames] at hrequired
  obtain ⟨again, hagain, hall⟩ := exists_parseDeclarations_joinSections blockCommentLength_baseTypesComment
    hrestates hrequired
  have hagainNames := map_name_of_again hall
  refine ⟨⟨path, again⟩, by rw [baseTypesModule_eq, hsources, hagain], ⟨hagainNames.trans hnames, ?_, ?_, ?_⟩⟩
  · intro declaration hmem
    obtain ⟨_, -, h⟩ := exists_of_mem_again hall hmem
    exact h.exported
  · intro declaration hmem
    obtain ⟨_, -, h⟩ := exists_of_mem_again hall hmem
    exact h.plain
  · intro name hname
    rw [← hnames, ← hagainNames] at hname
    obtain ⟨declaration, hmem, rfl⟩ := List.mem_map.mp hname
    obtain ⟨original, horiginal, h⟩ := exists_of_mem_again hall hmem
    rw [type?_of_mem ⟨path, again⟩ (hagainNames ▸ hrequired) hmem, h.name,
      type?_of_mem ⟨path, parsed⟩ (nodup_parseDeclarations hparsed) (hdeclared original horiginal).1, h.value]

-- An alias with a comment behind it, an interface over two lines, and a type that mentions both.
def linkedSource : Text :=
  "type A = 1 // a\ninterface B \x7b\n  a: A \x7d\ntype C = [A, B]; type Database = \x7b public: \x7b\x7d \x7d"

def linkedDeclared : DeclarationFile := ⟨"database.ts", (parseDeclarations linkedSource).getD []⟩

theorem linkedSource_continuable : Continuable linkedSource := by
  obtain ⟨chars, heq, h⟩ : ∃ chars : List Char, linkedSource = Text.ofChars chars ∧ Continuable (Text.ofChars chars) :=
    ⟨_, Text.ofString_ofList _, by decide +kernel, by decide +kernel, by decide +kernel⟩
  rwa [heq]

theorem linkedDeclared_introspected :
    (Introspection.introspect linkedDeclared "public" "Database").outcome.toOption.isSome := by
  obtain ⟨chars, heq, h⟩ : ∃ chars : List Char, linkedSource = Text.ofChars chars ∧ (Introspection.introspect
      ⟨"database.ts", (parseDeclarations (Text.ofChars chars)).getD []⟩ "public" "Database").outcome.toOption.isSome :=
    ⟨_, Text.ofString_ofList _, by decide +kernel⟩
  rwa [linkedDeclared, heq]

def linkedSchema : Schema :=
  (Introspection.introspect linkedDeclared "public" "Database").outcome.toOption.get linkedDeclared_introspected

theorem linked_redeclared :
    Continuable linkedSource ∧ (DeclarationFile.parse "database.ts" linkedSource).outcome = .ok linkedDeclared ∧
    (Introspection.introspect linkedDeclared "public" "Database").outcome = .ok linkedSchema ∧
    ∃ again : DeclarationFile, parseDeclarations (Types.baseTypesModule linkedSchema ["C"]) = some again.declarations ∧
      Redeclares linkedDeclared again (Types.requiredBaseTypes linkedSchema ["C"]) := by
  have hparse : (DeclarationFile.parse "database.ts" linkedSource).outcome = .ok linkedDeclared := by
    rw [DeclarationFile.outcome_parse, linkedDeclared]
  have hschema : (Introspection.introspect linkedDeclared "public" "Database").outcome = .ok linkedSchema :=
    ok_get linkedDeclared_introspected
  exact ⟨linkedSource_continuable, hparse, hschema,
    redeclares_of_continuable linkedSource_continuable hparse hschema ["C"]⟩

end Modules

section Sample

-- A type whose name ends with a next-line control.
def nextLineSource : Text := "type A = B\u0085\ntype Database = \x7b public: \x7b\x7d \x7d"

def nextLineDeclared : DeclarationFile := ⟨"database.ts", (Source.parseDeclarations nextLineSource).getD []⟩

theorem nextLineDeclared_introspected :
    (Introspection.introspect nextLineDeclared "public" "Database").outcome.toOption.isSome := by
  decide +kernel

def nextLineSchema : Schema :=
  (Introspection.introspect nextLineDeclared "public" "Database").outcome.toOption.get nextLineDeclared_introspected

def nextLineModule : DeclarationFile :=
  ⟨"base-types.ts", (Source.parseDeclarations (Types.baseTypesModule nextLineSchema ["A"])).getD []⟩

theorem nextLine_not_redeclared :
    (DeclarationFile.parse "database.ts" nextLineSource).outcome = .ok nextLineDeclared ∧
    (Introspection.introspect nextLineDeclared "public" "Database").outcome = .ok nextLineSchema ∧
    Source.parseDeclarations (Types.baseTypesModule nextLineSchema ["A"]) = some nextLineModule.declarations ∧
    ¬ Redeclares nextLineDeclared nextLineModule (Types.requiredBaseTypes nextLineSchema ["A"]) := by
  have hparsed : (Source.parseDeclarations (Types.baseTypesModule nextLineSchema ["A"])).isSome := by decide +kernel
  have hrequired : Types.requiredBaseTypes nextLineSchema ["A"] = ["A"] := by decide +kernel
  have hlabels : (nextLineModule.type? "A").map (·.label.text) ≠ (nextLineDeclared.type? "A").map (·.label.text) := by
    decide +kernel
  refine ⟨by rw [DeclarationFile.outcome_parse, nextLineDeclared], ok_get nextLineDeclared_introspected,
    ?_, fun h => ?_⟩
  · obtain ⟨declarations, hdeclarations⟩ := Option.isSome_iff_exists.mp hparsed
    rw [nextLineModule, hdeclarations, Option.getD_some]
  · have htype := h.types "A" (by rw [hrequired]; exact List.mem_singleton_self _)
    exact hlabels (congrArg (Option.map (·.label.text)) htype)

end Sample

end HookGen.Generation
