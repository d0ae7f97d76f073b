import HookGen.Proofs.Naming
import HookGen.Proofs.Render.Basic
import HookGen.Proofs.Render.Inlining
import Mathlib.Data.List.GetD

/-!
Rendering at an indentation. Where no text of a shape has a line feed, all line feeds are those of object types
on several lines, so that rendering further in is rendering as it is and moving what follows each of them. Texts
that differ still differ then, and a union keeps the same members.
-/

namespace HookGen

namespace Text

variable {width : Nat} {t : Text}

-- A text that is moved to the right, but for its first line.
def reindent (width : Nat) (t : Text) : Text := t.flatMap fun c => if c = .char '\n' then c :: spaces width else [c]

theorem reindent_append (width : Nat) (first second : Text) :
    reindent width (first ++ second) = reindent width first ++ reindent width second :=
  List.flatMap_append

theorem reindent_of_notMem (h : .char '\n' ∉ t) : reindent width t = t := by
  have hkept : ∀ c ∈ t, (if c = .char '\n' then c :: spaces width else [c]) = [c] := by
    intro c hc
    rw [if_neg]
    rintro rfl
    exact h hc
  rw [reindent, List.flatMap_congr hkept]
  exact List.flatMap_singleton' t

theorem reindent_between {front back : Text} (hfront : .char '\n' ∉ front) (hback : .char '\n' ∉ back) (t : Text) :
    reindent width (front ++ t ++ back) = front ++ reindent width t ++ back := by
  rw [reindent_append, reindent_append, reindent_of_notMem hfront, reindent_of_notMem hback]

theorem reindent_join {separator : Text} (h : .char '\n' ∉ separator) (texts : List Text) :
    reindent width (join separator texts) = join separator (texts.map (reindent width)) := by
  induction texts with
  | nil => rfl
  | cons first rest ih =>
    cases rest with
    | nil => rw [List.map_singleton, join_singleton, join_singleton]
    | cons second rest =>
      rw [List.map_cons, List.map_cons, join_cons_cons, join_cons_cons, reindent_append, reindent_append,
        reindent_of_notMem h, ih, List.map_cons]

-- What is put behind a line feed can be taken off again.
theorem reindent_injective (width : Nat) : Function.Injective (reindent width) := by
  intro first second h
  induction first generalizing second with
  | nil =>
    cases second with
    | nil => rfl
    | cons d second =>
      simp only [reindent, List.flatMap_nil, List.flatMap_cons] at h
      split at h <;> cases h
  | cons c first ih =>
    cases second with
    | nil =>
      simp only [reindent, List.flatMap_nil, List.flatMap_cons] at h
      split at h <;> cases h
    | cons d second =>
      have hhead : c = d := by
        have hfirst := congrArg List.head? h
        simp only [reindent, List.flatMap_cons] at hfirst
        split at hfirst <;> split at hfirst <;> simpa using hfirst
      subst hhead
      simp only [reindent, List.flatMap_cons] at h
      rw [ih (List.append_cancel_left h)]

end Text

namespace Shape

mutual

-- The texts of a shape that go into what is rendered for it: those of leaves, the names of generic types and
-- of properties, and the signatures of object types.
def writtenTexts : Shape → List Text
  | .leaf label => label.text.toList
  | .object _ members signatures => memberTexts members ++ signatures
  | .union _ args => argTexts args
  | .array _ args => argTexts args
  | .tuple _ args => argTexts args
  | .lookup _ _ => []
  | .generic label args => label.text.toList ++ argTexts args

def argTexts : List Shape → List Text
  | [] => []
  | arg :: rest => arg.writtenTexts ++ argTexts rest

def memberTexts : List Member → List Text
  | [] => []
  | .mk name shape _ _ :: rest => name :: shape.writtenTexts ++ memberTexts rest

end

-- Each of these texts is on one line.
def IsSingleLine (shape : Shape) : Prop := ∀ t ∈ shape.writtenTexts, .char '\n' ∉ t

instance (shape : Shape) : Decidable shape.IsSingleLine := inferInstanceAs (Decidable (∀ t ∈ _, _))

theorem mem_argTexts {t : Text} {args : List Shape} : t ∈ argTexts args ↔ ∃ arg ∈ args, t ∈ arg.writtenTexts := by
  induction args with
  | nil => simp [argTexts]
  | cons arg rest ih => simp [argTexts, ih]

theorem mem_memberTexts {t : Text} {members : List Member} :
    t ∈ memberTexts members ↔ ∃ member ∈ members, t = member.name ∨ t ∈ member.shape.writtenTexts := by
  induction members with
  | nil => simp [memberTexts]
  | cons member rest ih =>
    obtain ⟨name, shape, optional, readonly⟩ := member
    simp [memberTexts, Member.shape, Member.name, ih, or_assoc]

namespace IsSingleLine

variable {shape piece : Shape}

theorem arg {arg : Shape} (h : shape.IsSingleLine) (harg : arg ∈ shape.args) : arg.IsSingleLine := by
  intro t ht
  have hmem : t ∈ argTexts shape.args := mem_argTexts.mpr ⟨arg, harg, ht⟩
  cases shape with
  | leaf | object | lookup => cases harg
  | generic label args => exact h t (List.mem_append_right _ hmem)
  | _ => exact h t hmem

theorem member {member : Member} (h : shape.IsSingleLine) (hmember : member ∈ shape.members) :
    .char '\n' ∉ member.name ∧ member.shape.IsSingleLine := by
  cases shape with
  | object label members signatures =>
    have hall (t : Text) (ht : t = member.name ∨ t ∈ member.shape.writtenTexts) : .char '\n' ∉ t :=
      h t (List.mem_append_left _ (mem_memberTexts.mpr ⟨member, hmember, ht⟩))
    exact ⟨hall _ (.inl rfl), fun t ht => hall t (.inr ht)⟩
  | _ => cases hmember

theorem part (h : shape.IsSingleLine) (hpart : shape.Part piece) : piece.IsSingleLine := by
  induction hpart with
  | self => exact h
  | arg harg _ ih => exact ih (h.arg harg)
  | member hmember _ ih => exact ih (h.member hmember).2

end IsSingleLine

end Shape

namespace Render

open Shape

section Unions

variable {texts : List Text} {f : Text → Text}

-- The places of the texts that a union keeps: of those that do not occur further ahead.
def keptPlaces (texts : List Text) : List Nat :=
  (List.range texts.length).filter fun place => !(texts.take place).contains (texts.getD place [])

theorem lt_of_mem_keptPlaces {place : Nat} (h : place ∈ keptPlaces texts) : place < texts.length :=
  List.mem_range.mp (List.mem_of_mem_filter h)

theorem keptPlaces_append (texts : List Text) (t : Text) :
    keptPlaces (texts ++ [t]) = keptPlaces texts ++ if t ∈ texts then [] else [texts.length] := by
  have hbefore : (List.range texts.length).filter (fun place =>
      !((texts ++ [t]).take place).contains ((texts ++ [t]).getD place [])) = keptPlaces texts := by
    refine List.filter_congr fun place hplace => ?_
    have hlt := List.mem_range.mp hplace
    rw [List.take_append_of_le_length hlt.le, List.getD_append _ _ _ _ hlt]
  rw [keptPlaces, List.length_append, List.length_singleton, List.range_succ, List.filter_append, hbefore]
  by_cases h : t ∈ texts <;> simp [h]

-- These are what a union is laid out from.
theorem layoutUnion_eq (texts : List Text) : layoutUnion texts =
    if texts.isEmpty then Text.ofString "never" else Text.join " | " ((keptPlaces texts).map (texts.getD · [])) := by
  suffices heq : texts.eraseDups = (keptPlaces texts).map (texts.getD · []) by rw [layoutUnion, heq]
  induction texts using List.reverseRec with
  | nil => rfl
  | append_singleton texts t ih =>
    have hbefore : (keptPlaces texts).map ((texts ++ [t]).getD · []) = (keptPlaces texts).map (texts.getD · []) :=
      List.map_congr_left fun place hplace => List.getD_append _ _ _ _ (lt_of_mem_keptPlaces hplace)
    rw [List.eraseDups_append, ih, keptPlaces_append, List.map_append, hbefore]
    by_cases h : t ∈ texts <;> simp [h, List.removeAll, List.eraseDups_cons]

theorem keptPlaces_map (hf : Function.Injective f) (texts : List Text) :
    keptPlaces (texts.map f) = keptPlaces texts := by
  induction texts using List.reverseRec with
  | nil => rfl
  | append_singleton texts t ih =>
    rw [List.map_append, List.map_singleton, keptPlaces_append, keptPlaces_append, ih, List.length_map]
    simp only [List.mem_map_of_injective hf]

theorem reindent_layoutUnion (width : Nat) (texts : List Text) :
    Text.reindent width (layoutUnion texts) = layoutUnion (texts.map (Text.reindent width)) := by
  have hkept : (keptPlaces texts).map (fun place => (texts.map (Text.reindent width)).getD place []) =
      ((keptPlaces texts).map (texts.getD · [])).map (Text.reindent width) := by
    rw [List.map_map]
    refine List.map_congr_left fun place hplace => ?_
    have hlt := lt_of_mem_keptPlaces hplace
    rw [Function.comp_apply, List.getD_eq_getElem _ _ hlt, List.getD_eq_getElem _ _ (by simpa using hlt),
      List.getElem_map]
  rw [layoutUnion_eq, layoutUnion_eq, keptPlaces_map (Text.reindent_injective width), hkept, List.isEmpty_map]
  split
  · exact Text.reindent_of_notMem (by decide)
  · exact Text.reindent_join (by decide) _

end Unions

section Objects

variable {indent : Int}

theorem newline_notMem_indentation (indent : Int) : .char '\n' ∉ indentation indent := fun h =>
  absurd (List.eq_of_mem_replicate h) (by decide)

theorem indentation_add (h : 0 ≤ indent) (more : Nat) :
    indentation (indent + more) = Text.spaces (2 * more) ++ indentation indent := by
  have hlevels : 2 * (indent + more).toNat = 2 * more + 2 * indent.toNat := by omega
  rw [indentation, hlevels, indentation, Text.spaces, Text.spaces, Text.spaces, List.replicate_add]

-- Entries on lines of their own with the brace behind them.
def objectLines (indent : Int) (entries : List Text) : Text :=
  entries.flatMap (fun entry => indentation (indent + 1) ++ entry ++ Text.ofString ";\n") ++
    (indentation indent ++ "\x7d")

theorem layoutObject_eq (indent : Int) (first second : Text) (rest : List Text) :
    layoutObject indent (first :: second :: rest) =
      Text.ofString "\x7b\n" ++ objectLines indent (first :: second :: rest) := by
  simp only [layoutObject, objectLines, List.append_assoc]

theorem objectLines_cons (indent : Int) (entry : Text) (rest : List Text) :
    objectLines indent (entry :: rest) =
      indentation (indent + 1) ++ (entry ++ (Text.ofString ";\n" ++ objectLines indent rest)) := by
  simp only [objectLines, List.flatMap_cons, List.append_assoc]

-- A line feed stands in front of each of these lines.
theorem spaces_append_reindent_objectLines (h : 0 ≤ indent) (more : Nat) (entries : List Text) :
    Text.spaces (2 * more) ++ Text.reindent (2 * more) (objectLines indent entries) =
      objectLines (indent + more) (entries.map (Text.reindent (2 * more))) := by
  induction entries with
  | nil =>
    have hline : .char '\n' ∉ indentation indent ++ Text.ofString "\x7d" := by
      rw [List.mem_append, not_or]
      exact ⟨newline_notMem_indentation indent, by decide⟩
    rw [List.map_nil, objectLines, objectLines, List.flatMap_nil, List.flatMap_nil, List.nil_append, List.nil_append,
      Text.reindent_of_notMem hline, indentation_add h, List.append_assoc]
  | cons entry rest ih =>
    have hbreak : Text.reindent (2 * more) (Text.ofString ";\n") = Text.ofString ";\n" ++ Text.spaces (2 * more) := by
      simp [Text.reindent, Text.ofString, Text.ofChars]
    have hindent : indentation (indent + more + 1) = Text.spaces (2 * more) ++ indentation (indent + 1) := by
      rw [← indentation_add (by omega), Int.add_right_comm]
    rw [List.map_cons, objectLines_cons, objectLines_cons, Text.reindent_append, Text.reindent_append,
      Text.reindent_append, Text.reindent_of_notMem (newline_notMem_indentation _), hbreak, hindent, ← ih]
    simp only [List.append_assoc]

theorem reindent_layoutObject (h : 0 ≤ indent) (more : Nat) (entries : List Text) :
    Text.reindent (2 * more) (layoutObject indent entries) =
      layoutObject (indent + more) (entries.map (Text.reindent (2 * more))) := by
  match entries with
  | [] =>
    have hempty : .char '\n' ∉ Text.ofString "\x7b\x7d" := by decide
    exact Text.reindent_of_notMem hempty
  | [entry] =>
    have hopening : .char '\n' ∉ Text.ofString "\x7b " := by decide
    have hclosing : .char '\n' ∉ Text.ofString " \x7d" := by decide
    exact Text.reindent_between hopening hclosing entry
  | first :: second :: rest =>
    have hopening : Text.reindent (2 * more) (Text.ofString "\x7b\n") =
        Text.ofString "\x7b\n" ++ Text.spaces (2 * more) := by
      simp [Text.reindent, Text.ofString, Text.ofChars]
    rw [List.map_cons, List.map_cons, layoutObject_eq, layoutObject_eq, Text.reindent_append, hopening,
      List.append_assoc, spaces_append_reindent_objectLines h, List.map_cons, List.map_cons]

end Objects

section Rendering

variable {schema : Schema} {expand : List Text → Int → Rendering Text} {more : Nat}

-- What is rendered further in is what is rendered as it is, moved to the right.
def Shifts (more : Nat) (render : Int → Rendering Text) : Prop :=
  ∀ indent, 0 ≤ indent → render (indent + more) = Text.reindent (2 * more) <$> render indent

theorem newline_notMem_comma : .char '\n' ∉ Text.ofString ", " := by decide

theorem shifts_const {x : Rendering Text} (h : ∀ t, x.outcome = .ok t → .char '\n' ∉ t) : Shifts more fun _ => x := by
  intro indent _
  obtain ⟨notes, outcome⟩ := x
  cases outcome with
  | error e => rfl
  | ok t => rw [Traced.map_ok, Text.reindent_of_notMem (h t rfl)]

theorem newline_notMem_memberHead {member : Member} (h : .char '\n' ∉ member.name) :
    .char '\n' ∉ memberHead member := by
  have hmodifier : ∀ readonly : Bool, CodePoint.char '\n' ∉ if readonly then Text.ofString "readonly " else [] := by
    decide
  have hcolon : ∀ optional : Bool, CodePoint.char '\n' ∉ if optional then Text.ofString "?: " else ": " := by decide
  rw [memberHead, List.mem_append, List.mem_append, not_or, not_or]
  exact ⟨⟨hmodifier member.readonly, h⟩, hcolon member.optional⟩

theorem reindent_brackets (width : Nat) (parenthesized : Bool) (t : Text) :
    Text.reindent width ((if parenthesized then inParentheses t else t) ++ Text.ofString "[]") =
      (if parenthesized then inParentheses (Text.reindent width t) else Text.reindent width t) ++
        Text.ofString "[]" := by
  have hopening : .char '\n' ∉ Text.ofString "(" := by decide
  have hclosing : .char '\n' ∉ Text.ofString ")" := by decide
  have hbrackets : .char '\n' ∉ Text.ofString "[]" := by decide
  rw [Text.reindent_append, Text.reindent_of_notMem hbrackets]
  cases parenthesized with
  | false => rfl
  | true => exact congrArg (· ++ Text.ofString "[]") (Text.reindent_between hopening hclosing t)

mutual

theorem shifts_renderOver (hexpand : ∀ path, Shifts more (expand path)) : ∀ (shape : Shape),
    shape.IsSingleLine → Shifts more fun indent => renderOver schema expand indent shape
  | .leaf label, h => by
    simp only [renderOver]
    refine shifts_const fun t ht => ?_
    rw [noteReference_eq, Traced.bind_ok, Traced.pure_eq] at ht
    obtain rfl := Except.ok.inj ht
    split
    · rename_i c rest htext
      exact h _ (by simp [writtenTexts, htext])
    · decide
  | .object label members signatures, h => fun indent hindent => by
    have hmembers := renderMembers_shift hexpand members (fun member hm => h.member hm) (indent + 1) (by omega)
    rw [Int.add_right_comm] at hmembers
    have hsignatures : signatures.map (Text.reindent (2 * more)) = signatures :=
      (List.map_congr_left fun t ht => Text.reindent_of_notMem (h t (List.mem_append_right _ ht))).trans (List.map_id _)
    simp only [renderOver, bind_pure_comp, hmembers, Functor.map_map, reindent_layoutObject hindent, List.map_append,
      hsignatures]
  | .union label args, h => fun indent hindent => by
    have hargs := renderArgs_shift hexpand args (fun arg ha => h.arg ha) indent hindent
    simp only [renderOver, bind_pure_comp, hargs, Functor.map_map, reindent_layoutUnion]
  | .array label [], h => by
    simp only [renderOver]
    exact shifts_const fun t ht => Except.ok.inj ht ▸ by decide
  | .array label (element :: rest), h => fun indent hindent => by
    have helement := shifts_renderOver hexpand element (h.arg (List.mem_cons_self ..)) indent hindent
    simp only [renderOver, bind_pure_comp, helement, bind_map_left, map_bind, Functor.map_map, reindent_brackets]
  | .tuple label args, h => fun indent hindent => by
    have hargs := renderArgs_shift hexpand args (fun arg ha => h.arg ha) indent hindent
    have hopening : .char '\n' ∉ Text.ofString "[" := by decide
    have hclosing : .char '\n' ∉ Text.ofString "]" := by decide
    simp only [renderOver, bind_pure_comp, hargs, Functor.map_map, Text.reindent_between hopening hclosing,
      Text.reindent_join newline_notMem_comma]
  | .lookup label path, _ => by
    simp only [renderOver]
    split
    · exact shifts_const fun t ht => Except.ok.inj ht ▸ Naming.newline_notMem_typeName _
    · exact hexpand path
  | .generic label args, h => fun indent hindent => by
    have hargs := renderArgs_shift hexpand args (fun arg ha => h.arg ha) indent hindent
    have hopening : .char '\n' ∉ label.text.getD "None" ++ Text.ofString "<" := by
      rw [List.mem_append, not_or]
      refine ⟨?_, by decide⟩
      cases htext : label.text with
      | none => decide
      | some t => exact h t (List.mem_append_left _ (by simp [htext]))
    have hclosing : .char '\n' ∉ Text.ofString ">" := by decide
    simp only [renderOver, bind_pure_comp, hargs, map_bind, Functor.map_map, Text.reindent_between hopening hclosing,
      Text.reindent_join newline_notMem_comma]

theorem renderArgs_shift (hexpand : ∀ path, Shifts more (expand path)) : ∀ (args : List Shape),
    (∀ arg ∈ args, arg.IsSingleLine) → ∀ indent, 0 ≤ indent →
      renderArgs schema expand (indent + more) args =
        List.map (Text.reindent (2 * more)) <$> renderArgs schema expand indent args
  | [], _, indent, _ => by simp [renderArgs]
  | arg :: rest, h, indent, hindent => by
    have harg := shifts_renderOver hexpand arg (h arg (by simp)) indent hindent
    have hrest := renderArgs_shift hexpand rest (fun other ho => h other (by simp [ho])) indent hindent
    simp only [renderArgs, bind_pure_comp, harg, hrest, bind_map_left, map_bind, Functor.map_map, List.map_cons]

theorem renderMembers_shift (hexpand : ∀ path, Shifts more (expand path)) : ∀ (members : List Member),
    (∀ member ∈ members, .char '\n' ∉ member.name ∧ member.shape.IsSingleLine) → ∀ indent, 0 ≤ indent →
      renderMembers schema expand (indent + more) members =
        List.map (Text.reindent (2 * more)) <$> renderMembers schema expand indent members
  | [], _, indent, _ => by simp [renderMembers]
  | .mk name shape optional readonly :: rest, h, indent, hindent => by
    obtain ⟨hname, hline⟩ := h (.mk name shape optional readonly) (by simp)
    have hshape := shifts_renderOver hexpand shape hline indent hindent
    have hrest := renderMembers_shift hexpand rest (fun other ho => h other (by simp [ho])) indent hindent
    simp only [renderMembers, hshape, hrest]
    simp [Text.reindent_append, Text.reindent_of_notMem (newline_notMem_memberHead hname)]

end

theorem eq_unknown_of_unresolved {path : List Text} {t : Text} (h : (unresolved path).outcome = .ok t) :
    t = "unknown" := by
  cases path with
  | nil => simp [unresolved, shownPath] at h
  | cons root keys => simpa [unresolved, shownPath, Traced.note, eq_comm] using h

theorem shifts_unresolved (path : List Text) : Shifts more fun _ => unresolved path :=
  shifts_const fun _ ht => eq_unknown_of_unresolved ht ▸ by decide

-- Targets are parts of the root type, so that their texts are on one line as well.
theorem shifts_expansion (hroot : schema.root.IsSingleLine) (budget : Nat) (resolving : List (List Text))
    (path : List Text) : Shifts more (expansion schema resolving budget path) := by
  induction budget generalizing resolving path with
  | zero =>
    refine shifts_const fun t ht => ?_
    obtain ⟨_, -, hcut⟩ := Traced.outcome_bind_eq_ok.mp ht
    exact eq_unknown_of_unresolved hcut ▸ by decide
  | succ budget ih =>
    cases hresolve : schema.resolve path with
    | error e =>
      have hfails : expansion schema resolving (budget + 1) path = fun _ => ⟨[], .error (.literal e)⟩ := by
        funext indent
        simp [expansion, targetOf, hresolve]
      rw [hfails]
      refine shifts_const fun t ht => ?_
      cases ht
    | ok found =>
      cases found with
      | none =>
        have hcut : expansion schema resolving (budget + 1) path = fun _ => unresolved path := by
          funext indent
          simp [expansion, targetOf, hresolve]
        exact hcut ▸ shifts_unresolved path
      | some target =>
        have htarget : target.IsSingleLine := hroot.part (Schema.part_of_resolve hresolve)
        have hfollow : expansion schema resolving (budget + 1) path = fun indent =>
            if resolving.contains path then unresolved path
            else renderOver schema (expansion schema (path :: resolving) budget) indent target := by
          funext indent
          simp [expansion, targetOf, hresolve, renderWithin_eq_renderOver]
        rw [hfollow]
        split
        · exact shifts_unresolved path
        · exact shifts_renderOver (ih (path :: resolving)) target htarget

theorem shifts_render {shape : Shape} (hroot : schema.root.IsSingleLine) (hshape : shape.IsSingleLine) :
    Shifts more fun indent => render schema indent shape := by
  simp only [render, renderWithin_eq_renderOver]
  exact shifts_renderOver (shifts_expansion hroot _ []) shape hshape

end Rendering

-- All that one comes to from a shape by its parts and its targets is on one line.
theorem Within.isSingleLine {schema : Schema} {shape piece : Shape} (h : Within schema shape piece)
    (hroot : schema.root.IsSingleLine) (hshape : shape.IsSingleLine) : piece.IsSingleLine := by
  induction h with
  | part hpart => exact hshape.part hpart
  | target _ htarget _ ih => exact ih (hroot.part (Schema.part_of_resolve (resolve_of_target htarget)))

-- Where no text of a shape or of the root type has a line feed, rendering at an indentation gives the text that there
-- is without one, with two blanks for each level behind each line feed, and fails or takes notes alike. Wherever one
-- comes to a union on the way, it keeps the same members at all indentations.
theorem render_indented (schema : Schema) (shape : Shape) (hroot : schema.root.IsSingleLine)
    (hshape : shape.IsSingleLine) (indent : Nat) :
    render schema indent shape =
      ⟨(render schema 0 shape).notes, (render schema 0 shape).outcome.map (Text.reindent (2 * indent))⟩ ∧
    ∀ label args, Within schema shape (.union label args) → ∀ budget resolving (outer : Nat) (texts : List Text),
      (renderArgs schema (expansion schema resolving budget) outer args).outcome = .ok texts →
        ∃ others, (renderArgs schema (expansion schema resolving budget) indent args).outcome = .ok others ∧
          keptPlaces others = keptPlaces texts := by
  constructor
  · have hshift : render schema (0 + indent) shape = Text.reindent (2 * indent) <$> render schema 0 shape :=
      shifts_render hroot hshape 0 (Int.le_refl 0)
    rw [Int.zero_add] at hshift
    rw [hshift]
    obtain ⟨notes, outcome⟩ := render schema 0 shape
    cases outcome <;> simp [Except.map]
  · intro label args hunion budget resolving outer texts htexts
    have hargs : ∀ arg ∈ args, arg.IsSingleLine := fun arg ha => (hunion.isSingleLine hroot hshape).arg ha
    have hshift (more : Nat) : renderArgs schema (expansion schema resolving budget) (0 + more) args =
        List.map (Text.reindent (2 * more)) <$> renderArgs schema (expansion schema resolving budget) 0 args :=
      renderArgs_shift (shifts_expansion hroot budget resolving) args hargs 0 (Int.le_refl 0)
    simp only [Int.zero_add] at hshift
    rw [hshift, ← bind_pure_comp] at htexts
    obtain ⟨base, hbase, heq⟩ := Traced.outcome_bind_eq_ok.mp htexts
    obtain rfl := Except.ok.inj heq
    refine ⟨base.map (Text.reindent (2 * indent)), ?_, ?_⟩
    · rw [hshift, ← bind_pure_comp, Traced.outcome_bind, hbase]
      rfl
    · rw [keptPlaces_map (Text.reindent_injective _), keptPlaces_map (Text.reindent_injective _)]

section Sample

-- A root type whose property has a type on several lines, and a union of that type written out and by an access.
def pairType : Shape := .object .none [.mk "x" (.text "string") false false, .mk "y" (.text "number") true false] []

def pairSchema : Schema where
  root := .object .none [.mk "pair" pairType false false] []
  rootName := "Database"
  name := "public"
  tables := []
  routines := []
  enums := []
  baseTypes := []
  hasTables := false
  hasRoutines := false
  hasEnums := false
  sourceFile := none

def pairUnion : Shape :=
  .union .none [pairType, .lookup .none [Text.ofString "Database", Text.ofString "pair"], .text "null"]

-- Both members have one text at any indentation, and the union keeps the first.
theorem render_indented_pair : pairSchema.root.IsSingleLine ∧ pairUnion.IsSingleLine ∧
    (render pairSchema 2 pairUnion).outcome =
      .ok (Text.ofString "\x7b\n      x: string;\n      y?: number;\n    \x7d | null") := by
  have hroot : pairSchema.root.IsSingleLine := by decide
  have hshape : pairUnion.IsSingleLine := by decide
  refine ⟨hroot, hshape, ?_⟩
  rw [show (2 : Int) = (2 : Nat) from rfl, (render_indented pairSchema pairUnion hroot hshape 2).1]
  decide

end Sample

end Render

end HookGen
