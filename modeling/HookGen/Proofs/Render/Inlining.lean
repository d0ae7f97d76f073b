import HookGen.Proofs.Render.Acyclic

/-!
Rendering accesses against writing out their targets. Both give the same text, but for arrays whose
element leads to a type in parentheses by way of a second access: rendering looks through the first
one only.
-/

namespace HookGen.Render

-- What a shape consists of, the targets of its accesses included.
inductive Within (schema : Schema) : Shape → Shape → Prop
  | part {shape part : Shape} (hpart : shape.Part part) : Within schema shape part
  | target {shape target part : Shape} {label : Label} {path : List Text}
    (hlookup : shape.Part (.lookup label path)) (htarget : target? schema path = some target)
    (hpart : Within schema target part) : Within schema shape part

-- An access whose target is an access with a target in turn, and which leads on to a type that needs
-- parentheses. Rendering an array looks through the first access only.
def Misjudged (schema : Schema) (element : Shape) : Prop :=
  ∃ label path nextLabel next target, element = .lookup label path ∧
    target? schema path = some (.lookup nextLabel next) ∧ target? schema next = some target ∧
    needsParentheses (inline schema element)

-- No array in a shape has a misjudged element that can be rendered.
def Judged (schema : Schema) (shape : Shape) : Prop :=
  ∀ label element rest, Within schema shape (.array label (element :: rest)) →
    Misjudged schema element → ∀ indent, ∃ e, (render schema indent element).outcome = .error e

theorem Acyclic.within {schema : Schema} {shape part : Shape} (h : Acyclic schema shape)
    (hpart : Within schema shape part) : Acyclic schema part := by
  induction hpart with
  | part hpart => exact h.part hpart
  | target hlookup htarget _ ih =>
    exact ih (h.target (hlookup.lookups_subset (by simp [Shape.lookups])) htarget)

theorem Within.trans {schema : Schema} {shape part inner : Shape} (h : Within schema shape part)
    (hinner : Within schema part inner) : Within schema shape inner := by
  induction h with
  | part hpart =>
    cases hinner with
    | part hinner => exact .part (hpart.trans hinner)
    | target hlookup htarget hrest => exact .target (hpart.trans hlookup) htarget hrest
  | target hlookup htarget _ ih => exact .target hlookup htarget (ih hinner)

-- Writing out targets changes whether a type needs parentheses only where it is an access itself.
theorem needsParentheses_inlineWithin {schema : Schema} {shape : Shape} (depth : Nat)
    (h : ∀ label path, shape ≠ .lookup label path) :
    needsParentheses (inlineWithin schema depth shape) = needsParentheses shape := by
  cases depth with
  | zero => rfl
  | succ depth =>
    cases shape with
    | lookup label path => exact absurd rfl (h label path)
    | _ => simp [inlineWithin, substitute, needsParentheses]

-- What an array makes of its element is what it would make of the element written out, unless the
-- element is misjudged.
theorem resolvedElement_inlineWithin {schema : Schema} {budget : Nat} {resolving : List (List Text)}
    {element : Shape} {indent : Int} {t : Text}
    (h : Ready schema (budget + 1) resolving element) (hjudged : ¬ Misjudged schema element)
    (ht : (renderWithin schema 0 [] indent (inlineWithin schema (budget + 1) element)).outcome =
      .ok t) :
    needsParentheses <$> resolvedElement schema element =
      needsParentheses <$> resolvedElement schema (inlineWithin schema (budget + 1) element) := by
  rw [resolvedElement_of_rendered (fun path hp => h.target?_of_mem_inlineWithin hp) ht, Traced.map_ok]
  cases element with
  | lookup label path =>
    cases htarget : target? schema path with
    | none =>
      have hsame : inlineWithin schema (budget + 1) (.lookup label path) = .lookup label path := by
        simp [inlineWithin, substitute, htarget]
      rw [hsame] at ht
      rw [hsame, resolvedElement_of_rendered (by simp [Shape.lookups, htarget]) ht, Traced.map_ok]
    | some target =>
      have hinline : inlineWithin schema (budget + 1) (.lookup label path) =
          inlineWithin schema budget target := by
        simp [inlineWithin, substitute, htarget]
      have hresolved : resolvedElement schema (.lookup label path) = ⟨[], .ok target⟩ := by
        simp [resolvedElement, enumOfPath?_of_target htarget, targetOf_of_target htarget]
      rw [hresolved, Traced.map_ok]
      congr 2
      by_cases hlookup : ∃ nextLabel next, target = .lookup nextLabel next
      · obtain ⟨nextLabel, next, rfl⟩ := hlookup
        cases hnext : target? schema next with
        | none =>
          rw [hinline]
          cases budget <;> simp [inlineWithin, substitute, hnext]
        | some last =>
          have hfalse : needsParentheses (inline schema (.lookup label path)) = false := by
            rw [← Bool.not_eq_true]
            exact fun hp => hjudged ⟨label, path, nextLabel, next, last, rfl, htarget, hnext, hp⟩
          rw [h.inlineWithin_eq, hfalse]
          rfl
      · rw [hinline, needsParentheses_inlineWithin budget fun nextLabel next he =>
          hlookup ⟨nextLabel, next, he⟩]
  | _ =>
    rw [needsParentheses_inlineWithin _ (by simp)]
    simp [resolvedElement]

theorem Judged.within {schema : Schema} {shape part : Shape} (h : Judged schema shape)
    (hpart : Within schema shape part) : Judged schema part :=
  fun label element rest hw => h label element rest (hpart.trans hw)

-- Where no array is misjudged, a shape is rendered like the one with the targets written out.
theorem renderWithin_inlineWithin {schema : Schema} {budget : Nat} {resolving : List (List Text)}
    {shape : Shape} (h : Ready schema budget resolving shape) (hjudged : Judged schema shape)
    (indent : Int) :
    renderWithin schema budget resolving indent shape =
      renderWithin schema 0 [] indent (inlineWithin schema budget shape) := by
  induction budget generalizing resolving shape indent with
  | zero =>
    rw [inlineWithin]
    exact renderWithin_of_no_targets (by simp [h.lookups_eq_nil]) 0 resolving indent
  | succ budget ih =>
    rw [inlineWithin, renderWithin_eq_renderOver, renderWithin_eq_renderOver]
    apply renderOver_substitute
    constructor
    · intro path hpath hnone henum
      exact expansion_of_no_target (by simpa using hnone) henum resolving (budget + 1)
    · intro path hpath next hnext
      obtain ⟨target, htarget, rfl⟩ := Option.map_eq_some_iff.mp hnext
      refine ⟨enumOfPath?_of_target htarget, fun indent => ?_⟩
      obtain ⟨label, hpart⟩ := Shape.exists_part_of_mem_lookups shape hpath
      have hwithin : Within schema shape target := .target hpart htarget (.part (.self target))
      rw [expansion_of_target htarget (h.notMem hpath), ih (h.step hpath htarget)
        (hjudged.within hwithin) indent, renderWithin_eq_renderOver]
    · intro label element rest hpart indent t ht ht'
      have helement : shape.Part element :=
        hpart.trans (.arg (by simp [Shape.args]) (.self element))
      have hready := h.part helement
      rw [← renderWithin_eq_renderOver, hready.renderWithin_eq_render] at ht
      rw [← renderWithin_eq_renderOver] at ht'
      apply resolvedElement_inlineWithin hready _ ht'
      intro hmisjudged
      obtain ⟨e, he⟩ := hjudged label element rest (.part hpart) hmisjudged indent
      simp [he] at ht

theorem render_inline_of_judged {schema : Schema} {shape : Shape} (h : Acyclic schema shape)
    (hjudged : Judged schema shape) (indent : Int) :
    render schema indent (inline schema shape) = render schema indent shape := by
  have hready := Ready.start h
  calc render schema indent (inline schema shape)
      = renderWithin schema 0 [] indent (inline schema shape) :=
        renderWithin_of_no_targets (fun path hp => hready.target?_of_mem_inlineWithin hp) _ _ _
    _ = render schema indent shape := (renderWithin_inlineWithin hready hjudged indent).symm

theorem inline_array (schema : Schema) (label : Label) (element : Shape) (rest : List Shape) :
    ∃ others, inline schema (.array label (element :: rest)) =
      .array label (inline schema element :: others) :=
  ⟨_, rfl⟩

-- An array looks through the first access of a misjudged element only, and puts no parentheses.
theorem resolvedElement_of_misjudged {schema : Schema} {element : Shape}
    (h : Misjudged schema element) :
    ∃ label path, resolvedElement schema element = ⟨[], .ok (.lookup label path)⟩ := by
  obtain ⟨label, path, nextLabel, next, target, rfl, htarget, -, -⟩ := h
  exact ⟨nextLabel, next, by
    simp [resolvedElement, enumOfPath?_of_target htarget, targetOf_of_target htarget]⟩

theorem render_array_of_misjudged {schema : Schema} {label : Label} {element : Shape}
    {rest : List Shape} {indent : Int} {t : Text} (hmisjudged : Misjudged schema element)
    (ht : (render schema indent element).outcome = .ok t) :
    (render schema indent (.array label (element :: rest))).outcome = .ok (t ++ ("[]" : Text)) := by
  obtain ⟨nextLabel, next, hresolved⟩ := resolvedElement_of_misjudged hmisjudged
  rw [render, renderWithin_eq_renderOver] at ht
  rw [render, renderWithin_eq_renderOver, renderOver, Traced.outcome_bind, ht]
  simp [hresolved, needsParentheses, Except.bind]

-- With the targets written out the array has the parentheses.
theorem render_inline_array_of_misjudged {schema : Schema} {label : Label} {element : Shape}
    {rest : List Shape} {indent : Int} {t : Text} (h : Acyclic schema element)
    (hmisjudged : Misjudged schema element)
    (ht : (render schema indent (inline schema element)).outcome = .ok t) :
    (render schema indent (inline schema (.array label (element :: rest)))).outcome =
      .ok (inParentheses t ++ ("[]" : Text)) := by
  have hno : ∀ path ∈ (inline schema element).lookups, target? schema path = none :=
    fun path hp => (Ready.start h).target?_of_mem_inlineWithin hp
  have hparentheses : needsParentheses (inline schema element) = true := by
    obtain ⟨_, _, _, _, _, rfl, -, -, hp⟩ := hmisjudged
    exact hp
  have ht' := ht
  rw [render, renderWithin_of_no_targets hno] at ht'
  have hresolved := resolvedElement_of_rendered hno ht'
  obtain ⟨others, hinline⟩ := inline_array schema label element rest
  rw [render, renderWithin_eq_renderOver] at ht
  rw [hinline, render, renderWithin_eq_renderOver, renderOver, Traced.outcome_bind, ht]
  simp [hresolved, hparentheses, Except.bind]

-- Writing out the targets of accesses leaves every part of a shape with its text exactly where no
-- array that can be rendered is misjudged. What is written out has no targets left.
theorem render_inline_iff_judged (schema : Schema) (shape : Shape) (h : Acyclic schema shape) :
    (∀ path ∈ (inline schema shape).lookups, target? schema path = none) ∧
      ((∀ part, Within schema shape part → ∀ indent,
        render schema indent (inline schema part) = render schema indent part) ↔
          Judged schema shape) := by
  refine ⟨fun path hp => (Ready.start h).target?_of_mem_inlineWithin hp, ?_, ?_⟩
  · intro hsame label element rest harray hmisjudged indent
    have hpart : Within schema shape element :=
      harray.trans (.part (.arg (List.mem_cons_self ..) (.self element)))
    cases ht : (render schema indent element).outcome with
    | error e => exact ⟨e, rfl⟩
    | ok t =>
      have harrayText := @render_array_of_misjudged _ label _ rest _ _ hmisjudged ht
      rw [← hsame _ harray indent, render_inline_array_of_misjudged (h.within hpart) hmisjudged
        (by rw [hsame element hpart indent]; exact ht)] at harrayText
      have hlength := congrArg List.length (Except.ok.inj harrayText)
      simp only [inParentheses, List.length_append] at hlength
      have hopening : (Text.ofString "(").length = 1 := rfl
      omega
  · intro hjudged part hpart indent
    exact render_inline_of_judged (h.within hpart) (hjudged.within hpart) indent

-- A root type with two properties: an access to the second, and a union.
def chainSchema : Schema where
  root := .object .none [
    .mk "a" (.lookup .none [Text.ofString "Database", Text.ofString "b"]) false false,
    .mk "b" (.union .none [.text "string", .text "number"]) false false] []
  rootName := "Database"
  name := "public"
  tables := []
  routines := []
  enums := []
  baseTypes := []
  hasTables := false
  hasRoutines := false
  hasEnums := false
  sourceFile := none

-- An array of what the first property leads to.
def chainArray : Shape := .array .none [.lookup .none [Text.ofString "Database", Text.ofString "a"]]

theorem acyclic_chainArray : Acyclic chainSchema chainArray := by
  have hfirst : target? chainSchema [Text.ofString "Database", Text.ofString "a"] =
      some (.lookup .none [Text.ofString "Database", Text.ofString "b"]) := rfl
  have hsecond : target? chainSchema [Text.ofString "Database", Text.ofString "b"] =
      some (.union .none [.text "string", .text "number"]) := rfl
  apply acyclic_of_target rfl hfirst
  apply acyclic_of_target rfl hsecond
  intro path hpath
  exact absurd hpath List.not_mem_nil

theorem render_inline_iff_judged_chainArray : Acyclic chainSchema chainArray ∧
    (∀ path ∈ (inline chainSchema chainArray).lookups, target? chainSchema path = none) ∧
      ((∀ part, Within chainSchema chainArray part → ∀ indent,
        render chainSchema indent (inline chainSchema part) = render chainSchema indent part) ↔
          Judged chainSchema chainArray) :=
  ⟨acyclic_chainArray, render_inline_iff_judged chainSchema chainArray acyclic_chainArray⟩

-- Its text lacks the parentheses that the union has once it is written out.
theorem render_chainArray_ne_render_inline : Acyclic chainSchema chainArray ∧
    (render chainSchema 0 chainArray).outcome = .ok (Text.ofString "string | number[]") ∧
      (render chainSchema 0 (inline chainSchema chainArray)).outcome =
        .ok (Text.ofString "(string | number)[]") ∧
      Text.ofString "string | number[]" ≠ Text.ofString "(string | number)[]" :=
  ⟨acyclic_chainArray, rfl, rfl, by decide⟩

end HookGen.Render
