import HookGen.Proofs.Render.RoundTrip
import HookGen.Proofs.Source.Enclosing
import HookGen.Proofs.Source.Sole

/-!
Types that are built with operators, as elements of arrays and members of unions. They are kept as
their text, so that only the text tells whether parentheses have to be put back.
-/

namespace HookGen

open Source Shape

namespace Render

-- What is rendered for an array with the given element is read as an array with the same element.
def KeepsArray (schema : Schema) (element : Shape) : Prop :=
  ∃ t declaration, (render schema 0 (.array .none [element])).outcome = .ok t ∧
    parseDeclarations (Types.declare "T" t) = some [declaration] ∧ ofType declaration.value = .array .none [element]

section Sample

-- The members of an intersection come apart: the brackets then belong to the last one alone.
theorem intersection_not_keepsArray :
    (parseDeclarations "type T = (A & B)[]").map
      (List.map fun declaration => (ofType declaration.value).args.map label) =
      some [[.ofText "A & B"]] ∧
    ¬ KeepsArray rowSchema (Shape.text "A & B") := by
  have hrendered : (render rowSchema 0 (.array .none [Shape.text "A & B"])).outcome = .ok "A & B[]" := by
    decide +kernel
  have hread : (parseDeclarations (Types.declare "T" "A & B[]")).map
      (List.map fun declaration => (ofType declaration.value).args.length) = some [0] := by decide +kernel
  refine ⟨by decide +kernel, ?_⟩
  rintro ⟨t, declaration, ht, hparsed, hkept⟩
  obtain rfl : "A & B[]" = t := Except.ok.inj (hrendered.symm.trans ht)
  rw [hparsed] at hread
  simp [hkept, args] at hread

end Sample

variable {schema : Schema} {expand : List Text → Int → Rendering Text} {indent : Int} {shape : Shape} {t : Text}
  {ts rest : List Token} {type leaf : TypeExpr} {leaves : List TypeExpr}

section Reading

-- What is rendered for a shape is read as this shape, whatever name it is declared by.
def KeepsBinding (schema : Schema) (shape : Shape) : Prop :=
  ∀ name, isWord name → ∃ t declaration, (render schema 0 shape).outcome = .ok t ∧
    parseDeclarations (Types.declare name t) = some [declaration] ∧ ofType declaration.value = shape

-- A shape is rendered on one line, and its text is cut into the given tokens.
structure RendersAs (schema : Schema) (shape : Shape) (ts : List Token) : Prop where
  cut : ∃ t, (render schema 0 shape).outcome = .ok t ∧
    Lexes [.blank " "] (t ++ ";") (ts ++ [⟨[], .mark, ";"⟩]) ∧ Visible (t ++ ";")
  line : .char '\n' ∉ fullText ts

-- The end of a declaration.
def ending : List Token := [⟨[], .mark, ";"⟩, ⟨[], .finish, []⟩]

namespace RendersAs

theorem parseType_eq (h : RendersAs schema shape ts) (budget : Nat) :
    parseType budget .line (ts ++ ending) = parseType budget .inside (ts ++ ending) := by
  refine parseType_line (unbroken_of_fullText ?_)
  rw [fullText_append, List.mem_append, not_or]
  exact ⟨h.line, by decide⟩

theorem keepsBinding (h : RendersAs schema shape ts) (type : TypeExpr)
    (hread : parseType (budgetFor (ts ++ ending)) .inside (ts ++ ending) = some (type, ending))
    (htype : ofType type = shape) : KeepsBinding schema shape := by
  intro name hname
  obtain ⟨t, hrendered, hlexes, hvisible⟩ := h.cut
  have htokens := tokens_alias hname hlexes hvisible
  rw [List.append_assoc ts] at htokens
  obtain ⟨source, hparsed⟩ := parseDeclarations_of_tokens htokens ((h.parseType_eq _).trans hread) rfl rfl
  exact ⟨t, _, hrendered, hparsed, htype⟩

theorem exists_parseType (h : RendersAs schema shape ts) (hkeeps : KeepsBinding schema shape) : ∃ type after,
    parseType (budgetFor (ts ++ ending)) .inside (ts ++ ending) = some (type, after) ∧ ofType type = shape := by
  obtain ⟨t, hrendered, hlexes, hvisible⟩ := h.cut
  obtain ⟨name, hname, hfresh⟩ := exists_fresh (ts ++ ending)
  obtain ⟨t', declaration, hrendered', hparsed, htype⟩ := hkeeps name hname
  obtain rfl : t = t' := Except.ok.inj (hrendered.symm.trans hrendered')
  have htokens := tokens_alias hname hlexes hvisible
  rw [List.append_assoc ts] at htokens
  obtain ⟨after, hread⟩ := parseType_of_parseDeclarations hfresh htokens hparsed
  exact ⟨declaration.value, after, (h.parseType_eq _).symm.trans hread, htype⟩

end RendersAs

end Reading

section Leaves

theorem ofType_withLead (h : leaf.IsLeaf) (lead : List Trivia) : ofType (leaf.withLead lead) = ofType leaf := by
  obtain heq | ⟨token, rfl⟩ := h
  · rw [heq, TypeExpr.withLead, ofType, ofType, keptText, keptText, sourceText_withLead]
  · rfl

-- An enclosed type is a leaf with its text.
theorem exists_label (h : leaf.IsEnclosed) : ∃ label, ofType leaf = .leaf label ∧
    label.text = some (sourceText leaf.kept) := by
  obtain heq | ⟨token, rfl⟩ := h.leaf
  · have hkept := keptText_eq h.line
    rw [heq, ofType, TypeExpr.kept, hkept]
    exact ⟨_, rfl, rfl⟩
  · rw [ofType]
    exact ⟨_, rfl, by simp [Label.ofName, TypeExpr.kept, sourceText]⟩

theorem render_enclosed (h : leaf.IsEnclosed) :
    (renderOver schema expand indent (ofType leaf)).outcome = .ok (sourceText leaf.kept) := by
  obtain ⟨label, hshape, htext⟩ := exists_label h
  obtain ⟨c, u, hsource, -⟩ := h.visible []
  rw [List.append_nil] at hsource
  rw [hshape, renderOver, noteReference_eq, Traced.bind_ok, htext, hsource]
  rfl

end Leaves

section Arrays

-- Arrays of arrays around an element.
def nested : Nat → Shape → Shape
  | 0, element => element
  | depth + 1, element => .array .none [nested depth element]

theorem ofType_arrays (depth : Nat) (type : TypeExpr) : ofType (TypeExpr.array^[depth] type) =
    nested depth (ofType type) := by
  induction depth with
  | zero => rfl
  | succ depth ih => rw [Function.iterate_succ_apply', ofType, ih, nested]

-- The text of an element of an array.
def elementText (t : Text) : Text := if Text.includes "=>" t then inParentheses t else t

theorem render_nested (h : leaf.IsEnclosed) (depth : Nat) :
    (renderOver schema expand indent (nested (depth + 1) (ofType leaf))).outcome =
      .ok (elementText (sourceText leaf.kept) ++ fullText (brackets (depth + 1))) := by
  induction depth with
  | zero =>
    have hrendered := @render_enclosed schema expand indent _ h
    obtain ⟨label, hshape, htext⟩ := exists_label h
    rw [nested, nested, renderOver]
    refine Traced.outcome_bind_eq_ok.mpr ⟨_, hrendered, ?_⟩
    rw [hshape, resolvedElement_of_direct (by simp), Traced.bind_ok, needsParentheses, htext]
    rfl
  | succ depth ih =>
    rw [nested, renderOver]
    refine Traced.outcome_bind_eq_ok.mpr ⟨_, ih, ?_⟩
    rw [nested, resolvedElement_of_direct (by simp), Traced.bind_ok, ← fullText_brackets_append (depth + 1)]
    simp [needsParentheses]

theorem rendersAs_bare (h : leaf.IsEnclosed) (hplain : ¬ Text.includes "=>" (sourceText leaf.kept)) (depth : Nat) :
    RendersAs schema (nested (depth + 1) (ofType leaf))
      ((leaf.withLead [.blank " "]).kept ++ brackets (depth + 1)) where
  cut := by
    have hend : Lexes [] ";" [⟨[], .mark, ";"⟩] := .singleMark rfl .nil
    refine ⟨_, render_nested h depth, ?_⟩
    rw [elementText, if_neg hplain, List.append_assoc, List.append_assoc]
    exact ⟨h.lexes _ (lexes_brackets (depth + 1) hend) rfl, h.visible _⟩
  line := by
    rw [fullText_append, List.mem_append, not_or]
    exact ⟨h.line_withLead _ (by decide), line_brackets _⟩

theorem rendersAs_grouped (h : leaf.IsEnclosed) (harrow : Text.includes "=>" (sourceText leaf.kept)) (depth : Nat) :
    RendersAs schema (nested (depth + 1) (ofType leaf))
      (⟨[.blank " "], .mark, "("⟩ :: ((leaf.withLead []).kept ++ ⟨[], .mark, ")"⟩ :: brackets (depth + 1))) where
  cut := by
    have hend : Lexes [] ";" [⟨[], .mark, ";"⟩] := .singleMark rfl .nil
    refine ⟨_, render_nested h depth, ?_⟩
    rw [elementText, if_pos harrow, inParentheses]
    simp only [List.append_assoc, List.cons_append]
    exact ⟨.singleMark rfl (h.lexes [] (.singleMark rfl (lexes_brackets (depth + 1) hend)) rfl), .of_isSingleMark rfl⟩
  line := by
    rw [fullText_cons, fullText_append, fullText_cons]
    simp only [List.mem_append, not_or]
    exact ⟨⟨by decide, by decide⟩, h.line_withLead _ (by decide), ⟨by decide, by decide⟩, line_brackets _⟩

theorem stops_ending : Token.Stops ⟨[], .mark, ";"⟩ := @Token.stops_of_isMark _ ";" rfl (by decide)

-- With its parentheses back a type is the element of an array again.
theorem keepsBinding_grouped (h : leaf.IsEnclosed) (harrow : Text.includes "=>" (sourceText leaf.kept)) (depth : Nat) :
    KeepsBinding schema (nested (depth + 1) (ofType leaf)) := by
  obtain ⟨budget, closing, back, hkind, hread⟩ := (h.isRaw []).read
  have harray {budget : Nat} (hbudget : 8 * (leaf.withLead []).kept.length + (depth + 1) + 9 ≤ budget) :=
    @parseType_array_grouped ⟨[], .mark, ";"⟩ _ [⟨[], .finish, []⟩] _ _ _ ⟨[.blank " "], .mark, "("⟩ _
      ⟨[], .mark, ")"⟩ _ (depth + 1) hread hkind rfl rfl stops_ending hbudget
  refine (rendersAs_grouped h harrow depth).keepsBinding
    (TypeExpr.array^[depth + 1] (.grouped (leaf.withLead []))) ?_ ?_
  · simp only [List.cons_append, List.append_assoc]
    refine harray ?_
    simp only [budgetFor, ending, List.length_cons, List.length_append, length_brackets]
    omega
  · rw [ofType_arrays, ofType, ofType_withLead h.leaf]

-- So is one that needs none.
theorem keepsBinding_of_isPrimary (h : leaf.IsEnclosed) (hplain : ¬ Text.includes "=>" (sourceText leaf.kept))
    (hprimary : leaf.IsPrimary) (depth : Nat) : KeepsBinding schema (nested (depth + 1) (ofType leaf)) := by
  refine (rendersAs_bare h hplain depth).keepsBinding
    (TypeExpr.array^[depth + 1] (leaf.withLead [.blank " "])) ?_ ?_
  · rw [List.append_assoc]
    refine ((h.leaf.isPrimary_withLead _).mpr hprimary).array (h.leaf.withLead _) (depth + 1) stops_ending rfl ?_
    simp only [budgetFor, ending, List.length_cons, List.length_append, length_brackets]
    omega
  · rw [ofType_arrays, ofType_withLead h.leaf]

-- Any other type takes the brackets in.
theorem isPrimary_of_keepsBinding (h : leaf.IsEnclosed) (hplain : ¬ Text.includes "=>" (sourceText leaf.kept))
    {depth : Nat} (hkeeps : KeepsBinding schema (nested (depth + 1) (ofType leaf))) : leaf.IsPrimary := by
  by_contra hprimary
  obtain ⟨type, after, hread, htype⟩ := (rendersAs_bare h hplain depth).exists_parseType hkeeps
  have hbudget : 8 * (leaf.withLead [.blank " "]).kept.length + 4 ≤
      8 * ((leaf.withLead [.blank " "]).kept ++ (brackets (depth + 1) ++ ending)).length + 6 := by
    rw [List.length_append]
    omega
  rw [List.append_assoc] at hread
  obtain ⟨run, rfl⟩ | ⟨first, second, others, rfl⟩ :=
    (h.isRaw _).parseType_of_not_isPrimary (mt (h.leaf.isPrimary_withLead _).mp hprimary) hbudget hread
  · rw [ofType] at htype
    cases htype
  · simp only [ofType, ofTypes, nested, unionOf] at htype
    cases htype

-- An array is read back around a type whose text has an arrow, and otherwise around one that is complete by itself.
theorem keepsBinding_nested_iff (h : leaf.IsEnclosed) (depth : Nat) :
    KeepsBinding schema (nested (depth + 1) (ofType leaf)) ↔
      Text.includes "=>" (sourceText leaf.kept) ∨ leaf.IsPrimary := by
  by_cases harrow : Text.includes "=>" (sourceText leaf.kept)
  · exact ⟨fun _ => .inl harrow, fun _ => keepsBinding_grouped h harrow depth⟩
  · exact ⟨fun hkeeps => .inr (isPrimary_of_keepsBinding h harrow hkeeps),
      fun hkeeps => keepsBinding_of_isPrimary h harrow (hkeeps.resolve_left harrow) depth⟩

end Arrays

section Unions

theorem eraseDups_of_nodup {texts : List Text} (h : texts.Nodup) : texts.eraseDups = texts := by
  induction texts with
  | nil => rfl
  | cons t texts ih =>
    obtain ⟨hnew, hothers⟩ := List.nodup_cons.mp h
    have hkept : texts.filter (fun u => !u == t) = texts := List.filter_eq_self.mpr fun u hmem => by
      simpa using (ne_of_mem_of_not_mem hmem hnew : u ≠ t)
    rw [List.eraseDups_cons, hkept, ih hothers]

theorem renderArgs_enclosed (h : ∀ leaf ∈ leaves, leaf.IsEnclosed) :
    (renderArgs schema expand indent (leaves.map ofType)).outcome =
      .ok (leaves.map fun leaf => sourceText leaf.kept) := by
  induction leaves with
  | nil => rfl
  | cons leaf leaves ih =>
    obtain ⟨hleaf, hleaves⟩ := List.forall_mem_cons.mp h
    rw [List.map_cons, renderArgs]
    exact Traced.outcome_bind_eq_ok.mpr ⟨_, render_enclosed hleaf, Traced.outcome_bind_eq_ok.mpr ⟨_, ih hleaves, rfl⟩⟩

-- The members of a union as they are written behind blanks.
def spaced (leaves : List TypeExpr) : List TypeExpr := leaves.map fun leaf => leaf.withLead [.blank " "]

theorem line_barred (h : ∀ leaf ∈ leaves, leaf.IsEnclosed) : .char '\n' ∉ fullText (barred (spaced leaves)) := by
  induction leaves with
  | nil => exact List.not_mem_nil
  | cons leaf others ih =>
    obtain ⟨hleaf, hothers⟩ := List.forall_mem_cons.mp h
    have hline := hleaf.line_withLead [.blank " "] (by decide)
    cases others with
    | nil => exact hline
    | cons second others =>
      rw [spaced, List.map_cons, List.map_cons, barred_cons_cons, fullText_append, fullText_cons]
      simp only [List.mem_append, not_or]
      exact ⟨hline, ⟨by decide, by decide⟩, ih hothers⟩

theorem rendersAs_union (hne : leaves ≠ []) (h : ∀ leaf ∈ leaves, leaf.IsEnclosed)
    (hdistinct : (leaves.map fun leaf => sourceText leaf.kept).Nodup) :
    RendersAs schema (unionOf (leaves.map ofType)) (barred (spaced leaves)) where
  cut := by
    refine ⟨Text.join " | " (leaves.map fun leaf => sourceText leaf.kept), ?_, lexes_barred hne h⟩
    have hsome : (leaves.map fun leaf => sourceText leaf.kept).isEmpty = false := by simpa using hne
    refine Traced.outcome_bind_eq_ok.mpr ⟨_, renderArgs_enclosed h, ?_⟩
    simp [layoutUnion, hsome, eraseDups_of_nodup hdistinct]
  line := line_barred h

theorem shows_of_ofType (h : leaf.IsEnclosed) (htype : ofType type = ofType leaf)
    (hkeeps : type.Keeps fun run => .char '\n' ∉ sourceText run) (lead : List Trivia) :
    Shows type (leaf.withLead lead) := by
  rintro run rfl
  rw [ofType, keptText_eq hkeeps.2] at htype
  obtain heq | ⟨token, rfl⟩ := h.leaf
  · rw [heq, ofType, keptText_eq h.line] at htype
    have htext : sourceText run = sourceText leaf.kept := by simpa [Shape.text, Label.ofText] using htype
    rw [h.leaf.kept_withLead, sourceText_withLead]
    refine ⟨?_, htext⟩
    rw [heq]
    rfl
  · simp [ofType, Shape.text, Shape.name, Label.ofText, Label.ofName] at htype

theorem shows_of_map_ofType {types : List TypeExpr} (htypes : types.map ofType = leaves.map ofType)
    (h : ∀ leaf ∈ leaves, leaf.IsEnclosed) (hkeeps : keepTypes (fun run => .char '\n' ∉ sourceText run) types) :
    List.Forall₂ Shows types (spaced leaves) := by
  induction leaves generalizing types with
  | nil =>
    obtain rfl := List.map_eq_nil_iff.mp htypes
    exact .nil
  | cons leaf leaves ih =>
    obtain ⟨type, types, rfl, htype, htypes⟩ := List.map_eq_cons_iff.mp htypes
    obtain ⟨hleaf, hleaves⟩ := List.forall_mem_cons.mp h
    exact .cons (shows_of_ofType hleaf htype hkeeps.1 _) (ih htypes hleaves hkeeps.2)

theorem binds_spaced_iff (h : ∀ leaf ∈ leaves, leaf.IsEnclosed) (token : Token) :
    ((∀ leaf ∈ (spaced leaves).dropLast, leaf.BindsBefore bar) ∧ ∀ leaf ∈ (spaced leaves).getLast?,
        leaf.BindsBefore token) ↔
      (∀ leaf ∈ leaves.dropLast, leaf.BindsBefore bar) ∧ ∀ leaf ∈ leaves.getLast?, leaf.BindsBefore token := by
  have hbinds {leaf : TypeExpr} (hmem : leaf ∈ leaves) (token : Token) :
      (leaf.withLead [.blank " "]).BindsBefore token ↔ leaf.BindsBefore token := by
    obtain ⟨first, others, hkept, -⟩ := (h leaf hmem).exists_cons
    exact (h leaf hmem).leaf.bindsBefore_withLead (by simp [hkept]) _ token
  have hbars : (∀ leaf ∈ (spaced leaves).dropLast, leaf.BindsBefore bar) ↔
      ∀ leaf ∈ leaves.dropLast, leaf.BindsBefore bar := by
    rw [spaced, List.map_dropLast.symm, List.forall_mem_map]
    exact forall₂_congr fun leaf hmem => hbinds (List.mem_of_mem_dropLast hmem) bar
  have hlast : (∀ leaf ∈ (spaced leaves).getLast?, leaf.BindsBefore token) ↔
      ∀ leaf ∈ leaves.getLast?, leaf.BindsBefore token := by
    rw [spaced, List.getLast?_map]
    cases hlast : leaves.getLast? with
    | none => simp
    | some leaf => simpa using hbinds (List.mem_of_getLast? hlast) token
  rw [hbars, hlast]

theorem map_ofType_spaced (h : ∀ leaf ∈ leaves, leaf.IsEnclosed) : (spaced leaves).map ofType = leaves.map ofType := by
  rw [spaced, List.map_map]
  exact List.map_congr_left fun leaf hmem => ofType_withLead (h leaf hmem).leaf _

-- A union is read back if each of its members is one up to the bar behind it, and the last one up to the end.
theorem keepsBinding_union_iff (h : ∀ leaf ∈ leaves, leaf.IsEnclosed) (hseveral : 2 ≤ leaves.length)
    (hdistinct : (leaves.map fun leaf => sourceText leaf.kept).Nodup) :
    KeepsBinding schema (unionOf (leaves.map ofType)) ↔
      (∀ leaf ∈ leaves.dropLast, leaf.BindsBefore bar) ∧
        ∀ leaf ∈ leaves.getLast?, leaf.BindsBefore ⟨[], .mark, ";"⟩ := by
  have hrenders := @rendersAs_union schema _ (List.ne_nil_of_length_pos (by omega)) h hdistinct
  have hraw : ∀ leaf ∈ spaced leaves, leaf.IsRaw := List.forall_mem_map.mpr fun leaf hmem => (h leaf hmem).isRaw _
  have hbudget : budgetFor (barred (spaced leaves) ++ ending) = 8 * (barred (spaced leaves)).length + 22 + 2 := by
    simp only [budgetFor, ending, List.length_append, List.length_cons, List.length_nil]
    omega
  have hseveral' : 2 ≤ (spaced leaves).length := by rwa [spaced, List.length_map]
  have hmark : Token.isMark ";" ⟨[], .mark, ";"⟩ := rfl
  rw [← binds_spaced_iff h]
  constructor
  · intro hkeeps
    obtain ⟨type, after, hread, htype⟩ := hrenders.exists_parseType hkeeps
    have hline : .char '\n' ∉ fullText (barred (spaced leaves) ++ ending) := by
      rw [fullText_append, List.mem_append, not_or]
      exact ⟨hrenders.line, by decide⟩
    have hkept := (keeping _ _).type hread (passes_of_line hline ((bracketed _).type hread).suffix)
    rw [hbudget] at hread
    obtain ⟨leaf, us, hleaves⟩ := List.exists_cons_of_length_pos (Nat.lt_of_succ_lt hseveral')
    obtain ⟨second, others, rfl⟩ : ∃ second others, us = second :: others := by
      rw [hleaves] at hseveral'
      exact List.exists_cons_of_length_pos (Nat.lt_of_succ_lt_succ hseveral')
    rw [hleaves] at hread hraw
    have hfits : 8 * leaf.kept.length + 4 ≤ 8 * (barred (leaf :: second :: others)).length + 22 := by
      rw [barred_cons_cons, List.length_append]
      omega
    obtain ⟨run, rfl⟩ | ⟨first, next, types, middle, rfl, hfirst, htypes, hafter⟩ :=
        parseType_of_barred (hraw leaf (List.mem_cons_self ..)) hfits hread
    · rw [ofType] at htype
      cases htype
    · have hmap : (first :: next :: types).map ofType = leaves.map ofType := by
        rw [ofType, ofTypes_eq_map] at htype
        simpa [unionOf] using htype
      have hshows := shows_of_map_ofType hmap h hkept
      rw [hleaves] at hshows ⊢
      exact binds_of_parse_barred hraw hmark (by decide) hfirst htypes hafter hshows (by omega)
  · rintro ⟨hbars, hlast⟩
    refine hrenders.keepsBinding (.union (spaced leaves)) ?_ ?_
    · exact parseType_barred hseveral' hbars hlast hmark (by decide) (by omega)
    · rw [ofType_union hseveral', map_ofType_spaced h]

end Unions

section Binding

-- Which types keep their binding that a source has in parentheses and that are kept as their text. In an array it is
-- those whose text has an arrow, since only these get their parentheses back, and those that are complete by
-- themselves. In a union it is those that are read as one member up to the bar behind them, or the end.
theorem keepsBinding_iff (schema : Schema) (h : ∀ leaf ∈ leaves, leaf.IsEnclosed) :
    (∀ leaf ∈ leaves, ∀ depth, KeepsBinding schema (nested (depth + 1) (ofType leaf)) ↔
      Text.includes "=>" (sourceText leaf.kept) ∨ leaf.IsPrimary) ∧
    (2 ≤ leaves.length → (leaves.map fun leaf => sourceText leaf.kept).Nodup →
      (KeepsBinding schema (unionOf (leaves.map ofType)) ↔
        (∀ leaf ∈ leaves.dropLast, leaf.BindsBefore bar) ∧
          ∀ leaf ∈ leaves.getLast?, leaf.BindsBefore ⟨[], .mark, ";"⟩)) :=
  ⟨fun leaf hmem depth => keepsBinding_nested_iff (h leaf hmem) depth, keepsBinding_union_iff h⟩

private def intersected : TypeExpr :=
  .verbatim [⟨[], .word, "A"⟩, ⟨[.blank " "], .mark, "&"⟩, ⟨[.blank " "], .word, "B"⟩]

private def called : TypeExpr :=
  .verbatim [⟨[], .mark, "("⟩, ⟨[], .mark, ")"⟩, ⟨[.blank " "], .mark, "=>"⟩, ⟨[.blank " "], .word, "void"⟩]

theorem keepsBinding_iff_sample : (∀ leaf ∈ [intersected, called], leaf.IsEnclosed) ∧
    (∀ depth, ¬ KeepsBinding rowSchema (nested (depth + 1) (Shape.text "A & B"))) ∧
    (∀ depth, KeepsBinding rowSchema (nested (depth + 1) (Shape.text "() => void"))) ∧
    KeepsBinding rowSchema (unionOf [Shape.text "A & B", Shape.text "() => void"]) ∧
    ¬ KeepsBinding rowSchema (unionOf [Shape.text "() => void", Shape.text "A & B"]) := by
  -- in a source of their own, between parentheses
  let front : List Token := [⟨[], .word, "type"⟩, ⟨[.blank " "], .word, "T"⟩, ⟨[.blank " "], .mark, "="⟩]
  let opening : Token := ⟨[.blank " "], .mark, "("⟩
  let back : List Token := [⟨[], .mark, ")"⟩, ⟨[], .finish, []⟩]
  have hintersected : intersected.IsEnclosed :=
    ⟨.inl rfl, by decide, "type T = (A & B)", front, opening :: (intersected.kept ++ back), 40, [⟨[], .finish, []⟩],
      by decide +kernel, rfl⟩
  have hcalled : called.IsEnclosed :=
    ⟨.inl rfl, by decide, "type T = (() => void)", front, opening :: (called.kept ++ back), 40, [⟨[], .finish, []⟩],
      by decide +kernel, rfl⟩
  have hboth : ∀ leaf ∈ [intersected, called], leaf.IsEnclosed := by simp [hintersected, hcalled]
  obtain ⟨harrays, hunion⟩ := keepsBinding_iff rowSchema hboth
  obtain ⟨-, hturned⟩ := @keepsBinding_iff [called, intersected] rowSchema (by simp [hintersected, hcalled])
  have hprimary : ¬ intersected.IsPrimary := fun h => by
    cases h.complete
  have hbar : ¬ called.BindsBefore bar := fun h => by
    cases h
  refine ⟨hboth, fun depth => ?_, fun depth => ?_, ?_, ?_⟩
  · refine mt (harrays intersected (by simp) depth).mp ?_
    rintro (harrow | h)
    · exact absurd harrow (by decide)
    · exact hprimary h
  · exact (harrays called (by simp) depth).mpr (.inl (by decide))
  · refine (hunion (by decide) (by decide)).mpr ⟨?_, ?_⟩
    · intro leaf hmem
      obtain rfl := List.mem_singleton.mp hmem
      rfl
    · intro leaf hmem
      obtain rfl := Option.some.inj hmem
      rfl
  · exact mt (hturned (by decide) (by decide)).mp fun h => hbar (h.1 called (List.mem_singleton_self _))

end Binding

end Render

end HookGen
