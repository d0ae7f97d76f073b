import HookGen.Emit.Types
import HookGen.Proofs.Json.Literal
import HookGen.Proofs.Naming
import HookGen.Proofs.Render.Written
import HookGen.Proofs.Schema.Introspection
import HookGen.Proofs.Source.Alias

/-!
Enums are read back from the module that declares them: the type that is written for one has its values, in
their order.
-/

namespace HookGen

open Source StringLiteral Traced

namespace Naming

variable {c : CodePoint} {name : Text}

theorem toNat_lt_of_continuesIdentifier (h : continuesIdentifier c) : c.toNat < 128 := by
  have hbound : ('z'.val.toNat < 128 ∧ 'Z'.val.toNat < 128) ∧ '9'.val.toNat < 128 := by decide
  cases c with
  | surrogate offset => cases h
  | char c =>
    simp only [continuesIdentifier, startsIdentifier, CodePoint.isAsciiLetter, CodePoint.isAsciiDigit, CodePoint.isIn,
      List.contains_cons, List.contains_nil, Bool.or_false, Bool.or_eq_true, Bool.and_eq_true, decide_eq_true_eq,
      beq_iff_eq, Char.le_def, UInt32.le_iff_toNat_le] at h
    change c.val.toNat < 128
    rcases h with ((h | h) | rfl | rfl) | h
    · omega
    · omega
    · decide
    · decide
    · omega

theorem isWordPart_of_continuesIdentifier (h : continuesIdentifier c) : isWordPart c := by
  have hall : ∀ n < 128, continuesIdentifier (.char (Char.ofNat n)) → isWordPart (.char (Char.ofNat n)) := by
    decide
  have hsmall := toNat_lt_of_continuesIdentifier h
  cases c with
  | surrogate offset => cases h
  | char c =>
    rw [Json.toNat_char] at hsmall
    have hchar := hall c.toNat hsmall
    rw [Char.ofNat_toNat] at hchar
    exact hchar h

theorem isWord_safeType (name : Text) : isWord (safeType name) := by
  have hparts : ∀ c ∈ safeType name, isWordPart c :=
    fun c hc => isWordPart_of_continuesIdentifier (continues_of_mem_safeType hc)
  obtain ⟨first, rest, heq, hdigit⟩ := exists_safeType name
  rw [heq] at hparts ⊢
  obtain ⟨hfirst, hrest⟩ := List.forall_mem_cons.mp hparts
  simp only [isWord, isWordStart, hfirst, hdigit, Bool.not_false, Bool.and_self, Bool.true_and, List.all_eq_true]
  exact hrest

end Naming

namespace Types

variable {values : List Text}

-- The type of an enum, as it is written.
def enumExpression (values : List Text) : Text :=
  if values.isEmpty then "never" else Text.join " | " (values.map (Json.quote false))

theorem enumDeclaration_eq (enumeration : Enumeration) :
    enumDeclaration enumeration = declare enumeration.typeName (enumExpression enumeration.values) := by
  simp only [enumDeclaration, enumExpression, List.isEmpty_map]

-- The type of one value.
def valueShape (value : Text) : Shape := Shape.text (Json.quote false value)

theorem ofType_string (lead : List Trivia) (value : Text) :
    Shape.ofType (.verbatim [⟨lead, .string, Json.quote false value⟩]) = valueShape value := by
  rw [Shape.ofType, Render.keptText_single (Json.newline_notMem_quote value), valueShape]

theorem lexes_values (hne : values ≠ []) (lead : List Trivia) :
    ∃ types ts, Lexes lead (Text.join " | " (values.map (Json.quote false))) ts ∧ Alternatives types ts ∧
      Shape.ofTypes types = values.map valueShape ∧ Visible (Text.join " | " (values.map (Json.quote false))) := by
  induction values generalizing lead with
  | nil => exact absurd rfl hne
  | cons value rest ih =>
    have hstring := Json.isString_quote value
    have hoperand : ReadsOperand (.verbatim [⟨lead, .string, Json.quote false value⟩])
        [⟨lead, .string, Json.quote false value⟩] := (ReadsPrimary.literal (.inl rfl)).operand
    cases rest with
    | nil =>
      rw [List.map_singleton, Text.join_singleton]
      refine ⟨_, _, .string hstring, .single hoperand, ?_, .of_isString hstring⟩
      rw [Shape.ofTypes, Shape.ofTypes, ofType_string, List.map_singleton]
    | cons second rest =>
      obtain ⟨types, ts, hlexes, halternatives, hshapes, hvisible⟩ := ih (by simp) [.blank " "]
      rw [List.map_cons, List.map_cons, Text.join_cons_cons]
      refine ⟨_, _, (Lexes.string hstring).barred hlexes hvisible, .cons hoperand rfl halternatives, ?_,
        (Visible.of_isString hstring).append.append⟩
      rw [Shape.ofTypes, ofType_string, hshapes, ← List.map_cons]

-- A union that is read has the members that were read; a single one stands for itself.
theorem alternatives_ofType_joinTypes {types : List TypeExpr} (hne : values ≠ [])
    (h : Shape.ofTypes types = values.map valueShape) :
    (Shape.ofType (joinTypes types)).alternatives = values.map valueShape := by
  cases types with
  | nil => exact absurd (List.map_eq_nil_iff.mp h.symm) hne
  | cons first rest =>
    cases rest with
    | nil =>
      cases values with
      | nil => exact absurd rfl hne
      | cons value values =>
        obtain ⟨hfirst, hrest⟩ := List.cons.inj (h.trans List.map_cons)
        obtain rfl : values = [] := List.map_eq_nil_iff.mp hrest.symm
        rw [joinTypes, hfirst]
        rfl
    | cons second rest =>
      have hunion : Shape.ofType (joinTypes (first :: second :: rest)) =
          Shape.unionOf (Shape.ofTypes (first :: second :: rest)) := by
        simp only [joinTypes, Shape.ofType, Shape.ofTypes]
      rw [hunion, h]
      rfl

-- What is written for the values of an enum is read as one type, which has these values.
theorem reads_enumExpression (values : List Text) :
    ∃ type ts, Lexes [.blank " "] (enumExpression values) ts ∧ ReadsType type ts ∧ Visible (enumExpression values) ∧
      (Shape.ofType type).alternatives = if values.isEmpty then [Shape.text "never"] else values.map valueShape := by
  cases values with
  | nil =>
    have hnever : ReadsOperand (.verbatim [⟨[.blank " "], .word, "never"⟩]) [⟨[.blank " "], .word, "never"⟩] :=
      (ReadsPrimary.keyword rfl (by decide)).operand
    exact ⟨_, _, .word (by decide), hnever.member.joined, .of_isWord (by decide), rfl⟩
  | cons value rest =>
    obtain ⟨types, ts, hlexes, halternatives, hshapes, hvisible⟩ :=
      lexes_values (List.cons_ne_nil value rest) [.blank " "]
    exact ⟨_, ts, hlexes, halternatives.members.joined, hvisible,
      alternatives_ofType_joinTypes (List.cons_ne_nil value rest) hshapes⟩

end Types

namespace Introspection

open HookGen.Types

variable {values : List Text}

theorem literalValue_valueShape {value : Text} (h : Json.Unpaired value) :
    (valueShape value).literalValue = .ok (.str value) := by
  have hliteral : (valueShape value).literalValue = Shape.literalOfText (Json.quote false value) := rfl
  rw [hliteral, Shape.literalOfText, Json.isQuoted_quote, if_pos rfl, Json.decode_quote h]
  rfl

theorem outcome_enumValues (hvalues : ∀ v ∈ values, Json.Unpaired v) {seen : List Text}
    (hdistinct : (seen ++ values).Nodup) :
    (enumValues (values.map valueShape) seen).outcome = .ok (seen ++ values) := by
  induction values generalizing seen with
  | nil => simp [enumValues]
  | cons value rest ih =>
    obtain ⟨hvalue, hrest⟩ := List.forall_mem_cons.mp hvalues
    have hnew : value ∉ seen := fun hmem =>
      (List.nodup_append.mp hdistinct).2.2 value hmem value (List.mem_cons_self ..) rfl
    have hliteral : (valueShape value).isStringLiteral = true := Json.isQuoted_quote false value
    have hread : (decoded (valueShape value).literalValue).outcome = .ok (.str value) :=
      decoded_eq_ok.mpr (literalValue_valueShape hvalue)
    have hsplit : seen ++ value :: rest = seen ++ [value] ++ rest := by simp
    rw [hsplit] at hdistinct ⊢
    rw [List.map_cons, enumValues, if_pos hliteral, outcome_bind_eq_ok]
    refine ⟨.str value, hread, ?_⟩
    simp only [List.contains_eq_mem, hnew, decide_false, Bool.false_eq_true, if_false]
    exact ih hrest hdistinct

-- A property whose type has been read from what is written for some values is an enum with these values.
theorem outcome_enumOf {member : Member} {name : Text} (hvalues : ∀ v ∈ values, Json.Unpaired v)
    (hdistinct : values.Nodup) (hname : member.key = .ok name)
    (hshape : member.shape.alternatives = if values.isEmpty then [Shape.text "never"] else values.map valueShape) :
    (enumOf member).outcome = .ok ⟨name, values⟩ := by
  have hfound : (enumValues member.shape.alternatives []).outcome = .ok values := by
    rw [hshape]
    cases values with
    | nil => rfl
    | cons value rest => exact outcome_enumValues hvalues hdistinct
  have hkey : (decoded member.key).outcome = .ok name := decoded_eq_ok.mpr hname
  rw [enumOf, outcome_bind_eq_ok]
  refine ⟨values, hfound, outcome_bind_eq_ok.mpr ⟨name, hkey, ?_⟩⟩
  split <;> rfl

end Introspection

namespace Types

-- The declaration of an expression is read as a type with the given values: as the type of a property it makes up
-- an enum with these values.
def Survives (values : List Text) (name expression : Text) : Prop :=
  ∃ declaration, parseDeclarations (declare name expression) = some [declaration] ∧ declaration.name = name ∧
    ∀ (member : Member) (key : Text), member.shape = Shape.ofType declaration.value → member.key = .ok key →
      (Introspection.enumOf member).outcome = .ok ⟨key, values⟩

theorem survives_enumExpression {values : List Text} (hdistinct : values.Nodup)
    (hvalues : ∀ v ∈ values, Json.Unpaired v) {name : Text} (hname : isWord name) :
    Survives values name (enumExpression values) := by
  obtain ⟨type, ts, hlexes, hreads, hvisible, hshape⟩ := reads_enumExpression values
  obtain ⟨source, hparsed⟩ := parseDeclarations_alias hname hreads hlexes hvisible
  refine ⟨⟨name, type, source, false, false, true⟩, hparsed, rfl, fun member key heq hkey => ?_⟩
  exact Introspection.outcome_enumOf hvalues hdistinct hkey (heq ▸ hshape)

-- The module of enums declares each of them by an expression in which its values survive. Between quotes every
-- text survives in which no two surrogates make up a pair.
theorem enumsModule_survives :
    (∀ (enums : List Enumeration) (schemaName : Text),
      (∀ enumeration ∈ enums, enumeration.values.Nodup ∧ ∀ v ∈ enumeration.values, ∀ offset, .surrogate offset ∉ v) →
      enumsModule enums schemaName = Code.joinSections (
        ("/** Auto-generated Enums from \x60" ++ schemaName ++ "\x60 schema. */") ::
          enums.map fun enumeration => declare enumeration.typeName (enumExpression enumeration.values)) ∧
      ∀ enumeration ∈ enums,
        Survives enumeration.values enumeration.typeName (enumExpression enumeration.values)) ∧
    ∀ v, Json.Unpaired v → StringLiteral.decode (Json.quote false v) = .ok v := by
  refine ⟨fun enums schemaName h => ⟨?_, fun enumeration hmem => ?_⟩, fun v => Json.decode_quote⟩
  · rw [enumsModule, List.map_congr_left fun enumeration _ => enumDeclaration_eq enumeration]
  · obtain ⟨hdistinct, hscalar⟩ := h enumeration hmem
    exact survives_enumExpression hdistinct (fun v hv => Json.unpaired_of_scalar (hscalar v hv))
      (Naming.isWord_safeType (Naming.pascal enumeration.name))

-- A value with all that needs an escape, an empty one, and an enum without values.
def oddEnums : List Enumeration := [
  ⟨"odd-1", ["\"it's\" \\\\ | \n\t",
    [.char (Char.ofNat 1), .char (Char.ofNat 0x2028), .char (Char.ofNat 0xFEFF), '😀'], ""]⟩,
  ⟨"none", []⟩]

theorem enumsModule_survives_odd :
    (∀ enumeration ∈ oddEnums, enumeration.values.Nodup ∧
      ∀ v ∈ enumeration.values, ∀ offset, .surrogate offset ∉ v) ∧
    Json.Unpaired [.surrogate 1024, .surrogate 0] ∧
    (∀ enumeration ∈ oddEnums,
      Survives enumeration.values enumeration.typeName (enumExpression enumeration.values)) ∧
    StringLiteral.decode (Json.quote false [.surrogate 1024, .surrogate 0]) = .ok [.surrogate 1024, .surrogate 0] := by
  have hodd : ∀ enumeration ∈ oddEnums, enumeration.values.Nodup ∧
      ∀ v ∈ enumeration.values, ∀ offset, .surrogate offset ∉ v := by
    simp [oddEnums, Text.ofString, Text.ofChars]
  have hswapped : Json.Unpaired [.surrogate 1024, .surrogate 0] := by
    rintro high low hpair
    obtain ⟨rfl, rfl⟩ : high = 1024 ∧ low = 0 := by simpa using hpair.eq_of_length rfl
    decide
  exact ⟨hodd, hswapped, (enumsModule_survives.1 oddEnums "public" hodd).2, enumsModule_survives.2 _ hswapped⟩

end Types

end HookGen
