import HookGen.Emit.Types
import HookGen.Proofs.Render.Basic
import HookGen.Proofs.Render.Entries
import HookGen.Proofs.Source.Alias

/-!
Reading back what was rendered: the declaration of a rendered structural type declares the same type, but
for how its unions are put together.
-/

namespace HookGen

open Source Shape

namespace Render

variable {schema : Schema} {expand : List Text → Int → Rendering Text} {indent : Int} {shape : Shape}
  {shapes : List Shape} {members : List Member} {t : Text}

-- Rendering a shape succeeds with a text that is read as a shape like it.
def Readable (schema : Schema) (expand : List Text → Int → Rendering Text) (indent : Int) (shape : Shape) : Prop :=
  ∃ t, (renderOver schema expand indent shape).outcome = .ok t ∧ Written shape t

def ReadableArgs (schema : Schema) (expand : List Text → Int → Rendering Text) (indent : Int)
    (shapes : List Shape) : Prop :=
  ∃ texts, (renderArgs schema expand indent shapes).outcome = .ok texts ∧ List.Forall₂ Written shapes texts

def ReadableMembers (schema : Schema) (expand : List Text → Int → Rendering Text) (indent : Int)
    (members : List Member) : Prop :=
  ∃ texts, (renderMembers schema expand indent members).outcome = .ok texts ∧
    List.Forall₂ WrittenMember members texts

section Shapes

theorem readable_leaf {label : Label} (htext : label.text = some t) (h : Written (.leaf label) t) :
    Readable schema expand indent (.leaf label) := by
  refine ⟨t, ?_, h⟩
  obtain ⟨c, u, rfl, -⟩ := h.visible
  rw [renderOver, noteReference_eq, Traced.bind_ok, htext]
  rfl

theorem readable_object (h : ReadableMembers schema expand (indent + 1) members) :
    Readable schema expand indent (.object .none members []) := by
  obtain ⟨texts, hrendered, hwritten⟩ := h
  refine ⟨layoutObject indent texts, ?_, written_object hwritten⟩
  rw [renderOver]
  exact Traced.outcome_bind_eq_ok.mpr ⟨texts, hrendered, by simp⟩

theorem readable_union (h : ReadableArgs schema expand indent shapes) (hne : shapes ≠ []) :
    Readable schema expand indent (unionOf shapes) := by
  obtain ⟨texts, hrendered, hwritten⟩ := h
  refine ⟨layoutUnion texts, ?_, written_union hwritten hne⟩
  rw [unionOf, renderOver]
  exact Traced.outcome_bind_eq_ok.mpr ⟨texts, hrendered, rfl⟩

theorem readable_array (h : Readable schema expand indent shape) :
    Readable schema expand indent (.array .none [shape]) := by
  obtain ⟨t, hrendered, hwritten⟩ := h
  refine ⟨_, ?_, written_array hwritten⟩
  rw [renderOver, resolvedElement_of_direct hwritten.direct]
  exact Traced.outcome_bind_eq_ok.mpr ⟨t, hrendered, rfl⟩

theorem readable_tuple (h : ReadableArgs schema expand indent shapes) :
    Readable schema expand indent (.tuple .none shapes) := by
  obtain ⟨texts, hrendered, hwritten⟩ := h
  refine ⟨_, ?_, written_tuple hwritten⟩
  rw [renderOver]
  exact Traced.outcome_bind_eq_ok.mpr ⟨texts, hrendered, rfl⟩

theorem readable_generic {token : Token} {dots : List Token} (hname : isTypeName token.text)
    (hdots : isDotted dots) (h : ReadableArgs schema expand indent shapes) (hne : shapes ≠ []) :
    Readable schema expand indent (.generic (.ofName (sourceText (token :: dots))) shapes) := by
  obtain ⟨texts, hrendered, hwritten⟩ := h
  refine ⟨_, ?_, written_generic hname hdots hwritten hne⟩
  rw [renderOver, noteReference_eq, Traced.bind_ok]
  exact Traced.outcome_bind_eq_ok.mpr ⟨texts, hrendered, rfl⟩

theorem readableArgs_cons (h : Readable schema expand indent shape) (hs : ReadableArgs schema expand indent shapes) :
    ReadableArgs schema expand indent (shape :: shapes) := by
  obtain ⟨t, hrendered, hwritten⟩ := h
  obtain ⟨texts, hothers, hwrittens⟩ := hs
  refine ⟨t :: texts, ?_, .cons hwritten hwrittens⟩
  rw [renderArgs]
  exact Traced.outcome_bind_eq_ok.mpr ⟨t, hrendered, Traced.outcome_bind_eq_ok.mpr ⟨texts, hothers, rfl⟩⟩

theorem readable_of_single (h : ReadableArgs schema expand indent [shape]) :
    Readable schema expand indent shape := by
  obtain ⟨texts, hrendered, hwritten⟩ := h
  rw [renderArgs] at hrendered
  obtain ⟨t, hfirst, hrest⟩ := Traced.outcome_bind_eq_ok.mp hrendered
  obtain rfl : [t] = texts := Except.ok.inj hrest
  cases hwritten with
  | cons hwritten _ => exact ⟨t, hfirst, hwritten⟩

theorem readableMembers_cons {member : Member} (hname : isPropertyName member.name)
    (h : Readable schema expand indent member.shape) (hs : ReadableMembers schema expand indent members) :
    ReadableMembers schema expand indent (member :: members) := by
  obtain ⟨name, shape, optional, readonly⟩ := member
  obtain ⟨t, hrendered, hwritten⟩ := h
  obtain ⟨texts, hothers, hwrittens⟩ := hs
  refine ⟨_ :: texts, ?_, .cons (written_member hname hwritten) hwrittens⟩
  rw [renderMembers]
  exact Traced.outcome_bind_eq_ok.mpr ⟨t, hrendered, Traced.outcome_bind_eq_ok.mpr ⟨texts, hothers, rfl⟩⟩

end Shapes

section Types

mutual

theorem readable_ofType : ∀ (type : TypeExpr) (indent : Int), type.isStructural →
    Readable schema expand indent (ofType type)
  | .verbatim source, indent, h => by
    rw [ofType]
    exact readable_leaf rfl (written_leaf h)
  | .name token, indent, h => by
    rw [ofType]
    exact readable_leaf rfl (written_name h)
  | .grouped inner, indent, h => by
    rw [ofType]
    exact readable_ofType inner indent h
  | .object entries, indent, h => by
    obtain ⟨hsignatures, hmembers⟩ := readable_membersOf entries (indent + 1) h
    rw [ofType, hsignatures]
    exact readable_object hmembers
  | .union members, indent, h => by
    simp only [TypeExpr.isStructural, Bool.and_eq_true, Bool.not_eq_true', List.isEmpty_eq_false_iff] at h
    have hmembers := readable_ofTypes members indent h.2
    rw [ofType]
    split
    · rename_i only heq
      rw [heq] at hmembers
      exact readable_of_single hmembers
    · refine readable_union hmembers ?_
      rw [ofTypes_eq_map]
      simpa using h.1
  | .array element, indent, h => by
    rw [ofType]
    exact readable_array (readable_ofType element indent h)
  | .tuple elements, indent, h => by
    rw [ofType]
    exact readable_tuple (readable_ofTypes elements indent h)
  | .access _ _ _ _, indent, h => nomatch h
  | .apply [] _, indent, h => nomatch h
  | .apply (token :: dots) arguments, indent, h => by
    simp only [TypeExpr.isStructural, isAppliedName, Bool.and_eq_true, Bool.not_eq_true',
      List.isEmpty_eq_false_iff] at h
    obtain ⟨⟨⟨hname, hdots⟩, hne⟩, harguments⟩ := h
    rw [ofType]
    refine readable_generic hname hdots (readable_ofTypes arguments indent harguments) ?_
    rw [ofTypes_eq_map]
    simpa using hne

theorem readable_ofTypes : ∀ (types : List TypeExpr) (indent : Int), areStructural types →
    ReadableArgs schema expand indent (ofTypes types)
  | [], indent, _ => ⟨[], rfl, .nil⟩
  | type :: rest, indent, h => by
    simp only [areStructural, Bool.and_eq_true] at h
    rw [ofTypes]
    exact readableArgs_cons (readable_ofType type indent h.1) (readable_ofTypes rest indent h.2)

-- A property without a type can be anything, and so it is written.
theorem readable_membersOf : ∀ (entries : List Entry) (indent : Int), areProperties entries →
    signaturesOf entries = [] ∧ ReadableMembers schema expand indent (membersOf entries)
  | [], indent, _ => ⟨rfl, [], rfl, .nil⟩
  | .property [name] optional readonly (some type) :: rest, indent, h => by
    simp only [areProperties, Bool.and_eq_true] at h
    obtain ⟨⟨hname, htype⟩, hrest⟩ := h
    obtain ⟨hsignatures, hmembers⟩ := readable_membersOf rest indent hrest
    rw [signaturesOf, membersOf]
    have hsource : isPropertyName (sourceText [name]) := by simpa [sourceText] using hname
    exact ⟨hsignatures, readableMembers_cons hsource (readable_ofType type indent htype) hmembers⟩
  | .property [name] optional readonly none :: rest, indent, h => by
    simp only [areProperties, Bool.and_eq_true] at h
    obtain ⟨hname, hrest⟩ := h
    obtain ⟨hsignatures, hmembers⟩ := readable_membersOf rest indent hrest
    rw [signaturesOf, membersOf]
    have hsource : isPropertyName (sourceText [name]) := by simpa [sourceText] using hname
    have hany : Written (Shape.text "any") "any" := written_keyword (by decide)
    exact ⟨hsignatures, readableMembers_cons hsource (readable_leaf rfl hany) hmembers⟩
  | .property [] _ _ _ :: _, indent, h => nomatch h
  | .property (_ :: _ :: _) _ _ _ :: _, indent, h => nomatch h
  | .other _ :: _, indent, h => nomatch h

end

end Types

section Declarations

-- A declaration of what is written for a shape declares a type with a shape like it.
theorem parseDeclarations_declare {name : Text} (hname : isWord name) (h : Written shape t) :
    ∃ declaration, parseDeclarations (Types.declare name t) = some [declaration] ∧ declaration.name = name ∧
      (ofType declaration.value).Alike shape := by
  obtain ⟨type, ts, hlexes, hreads, halike⟩ := h.reads [.blank " "]
  obtain ⟨source, hparsed⟩ := parseDeclarations_alias hname hreads hlexes h.visible
  exact ⟨⟨name, type, source, false, false, true⟩, hparsed, rfl, halike⟩

-- Whatever the schema, what is rendered for a structural type is read back as this type, but for unions that
-- are taken apart and members that are left out because they are repeated.
theorem parse_render_alike (schema : Schema) (type : TypeExpr) (indent : Int) {name : Text}
    (htype : type.isStructural) (hname : isWord name) :
    ∃ t declaration, (render schema indent (ofType type)).outcome = .ok t ∧
      parseDeclarations (Types.declare name t) = some [declaration] ∧ declaration.name = name ∧
      (ofType declaration.value).Alike (ofType type) := by
  obtain ⟨t, hrendered, hwritten⟩ : Readable schema _ indent (ofType type) := readable_ofType type indent htype
  obtain ⟨declaration, hparsed, hdeclared, halike⟩ := parseDeclarations_declare hname hwritten
  exact ⟨t, declaration, hrendered, hparsed, hdeclared, halike⟩

private def literal (kind : Kind) (t : String) : TypeExpr := .verbatim [⟨[], kind, t⟩]

private def named (name : String) : TypeExpr := .name ⟨[], .word, name⟩

-- Properties with unions in unions, in an array and in a tuple, and one without a type.
def rowType : TypeExpr := .object [
  .property [⟨[], .word, "state"⟩] false true
    (some (.union [literal .string "'open'", .grouped (.union [literal .word "null", named "Json"]), named "Json"])),
  .property [⟨[], .string, "\"tags\""⟩] true false
    (some (.array (.grouped (.union [.apply [⟨[], .word, "Box"⟩] [named "Json"], literal .number "1"])))),
  .property [⟨[], .word, "range"⟩] false false
    (some (.tuple [.verbatim [⟨[], .mark, "-"⟩, ⟨[], .number, "1"⟩], .union [named "Json"]])),
  .property [⟨[], .number, "0"⟩] false false none]

def rowText : Text :=
  "\x7b\n  readonly state: 'open' | null | Json | Json;\n  \"tags\"?: (Box<Json> | 1)[];\n  range: [-1, Json];\n" ++
    "  0: any;\n\x7d"

def rowSchema : Schema where
  root := .emptyObject
  rootName := "Database"
  name := "public"
  tables := []
  routines := []
  enums := []
  baseTypes := [("Json", "export type Json = string;")]
  hasTables := false
  hasRoutines := false
  hasEnums := false
  sourceFile := none

theorem parse_render_alike_row : rowType.isStructural ∧ isWord "Row" ∧
    (render rowSchema 0 (ofType rowType)).outcome = .ok rowText ∧
    ∃ declaration, parseDeclarations (Types.declare "Row" rowText) = some [declaration] ∧ declaration.name = "Row" ∧
      (ofType declaration.value).Alike (ofType rowType) := by
  have hstructural : rowType.isStructural := by decide
  have hword : isWord "Row" := by decide
  have hrendered : (render rowSchema 0 (ofType rowType)).outcome = .ok rowText := by decide +kernel
  obtain ⟨t, declaration, ht, hread⟩ := parse_render_alike rowSchema rowType 0 hstructural hword
  obtain rfl : rowText = t := Except.ok.inj (hrendered.symm.trans ht)
  exact ⟨hstructural, hword, hrendered, declaration, hread⟩

end Declarations

end Render

end HookGen
