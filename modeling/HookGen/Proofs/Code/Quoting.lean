import HookGen.Proofs.Code.Outline
import HookGen.Proofs.Schema.Access

/-!
Names in generated code. A name stands in a literal between single quotes or in a comment, and it is written there as
it is. What that makes of the literal or the comment is a matter of the characters of the name.
-/

namespace HookGen

namespace StringLiteral

variable {quote : CodePoint} {t : Text} {us : List UInt16}

theorem length_units_le (c : CodePoint) : (units c).length ≤ 2 := by
  rw [units]
  split <;> simp

theorem length_le_flatMap_units (t : Text) : t.length ≤ (t.flatMap units).length := by
  induction t with
  | nil => simp
  | cons c t ih =>
    have hpos : 0 < (units c).length := by
      rw [units]
      split <;> simp
    simp only [List.flatMap_cons, List.length_append, List.length_cons]
    omega

-- How many units a text has left that a value has not, at least.
def Exceeds (t : Text) (us : List UInt16) : Prop :=
  us.length + (if .char '\\' ∈ t then 1 else 0) ≤ (t.flatMap units).length

theorem Exceeds.escape (h : Exceeds t us) (consumed : Text) (out : List UInt16)
    (hout : out.length < (consumed.flatMap units).length) : Exceeds (consumed ++ t) (out ++ us) := by
  rw [Exceeds] at h ⊢
  rw [List.flatMap_append, List.length_append, List.length_append]
  split at h <;> split <;> omega

-- An escape has more units than it stands for.
theorem Spells.exceeds (h : Spells quote t us) : Exceeds t us := by
  induction h with
  | nil => simp [Exceeds]
  | plain _ hescape _ _ _ ih => simpa [Exceeds, Ne.symm hescape, Nat.add_assoc] using ih
  | @single e unit _ _ _ _ ih =>
    exact ih.escape [.char '\\', .char e] [unit] (length_le_flatMap_units [.char '\\', .char e])
  | null _ _ ih => exact ih.escape [.char '\\', .char '0'] [0] (length_le_flatMap_units [.char '\\', .char '0'])
  | @fixed letter _ n digits _ _ _ _ _ _ ih =>
    have hout := length_le_flatMap_units (.char '\\' :: .char letter :: digits)
    rw [List.length_cons, List.length_cons] at hout
    exact ih.escape (.char '\\' :: .char letter :: digits) [n.toUInt16] (by rw [List.length_singleton]; omega)
  | @braced c digits _ _ _ _ ih =>
    have hout := length_le_flatMap_units (.char '\\' :: .char 'u' :: .char '\x7b' :: (digits ++ [.char '\x7d']))
    simp only [List.length_cons, List.length_append, List.length_nil] at hout
    have hunits := length_units_le c
    have hnext :=
      ih.escape (.char '\\' :: .char 'u' :: .char '\x7b' :: (digits ++ [.char '\x7d'])) (units c) (by omega)
    simpa using hnext
  | @ordinary c _ _ _ _ ih =>
    refine ih.escape [.char '\\', c] (units c) ?_
    simp [units]
  | @continued lineEnd _ _ _ _ _ ih =>
    have hout := length_le_flatMap_units (.char '\\' :: lineEnd)
    rw [List.length_cons] at hout
    exact ih.escape (.char '\\' :: lineEnd) [] (by rw [List.length_nil]; omega)

theorem Spells.plain_of_notMem (h : Spells quote t us) (hescape : .char '\\' ∉ t) :
    ∀ c ∈ t, c ≠ quote ∧ c ≠ '\\' ∧ c ≠ '\n' ∧ c ≠ '\r' := by
  induction h with
  | nil => exact nofun
  | plain hquote hc hline hreturn _ ih =>
    exact List.forall_mem_cons.mpr
      ⟨⟨hquote, hc, hline, hreturn⟩, ih fun hmem => hescape (List.mem_cons_of_mem _ hmem)⟩
  | _ => exact absurd List.mem_cons_self hescape

-- A text spells itself only where nothing in it is special.
theorem spells_self_iff :
    Spells quote t (t.flatMap units) ↔ ∀ c ∈ t, c ≠ quote ∧ c ≠ '\\' ∧ c ≠ '\n' ∧ c ≠ '\r' := by
  refine ⟨fun h => h.plain_of_notMem fun hmem => ?_, spells_plain⟩
  have hexceeds := h.exceeds
  rw [Exceeds, if_pos hmem] at hexceeds
  omega

theorem isLiteral_self_iff : IsLiteral ("'" ++ t ++ "'") (t.flatMap units) ↔
    ∀ c ∈ t, c ≠ '\'' ∧ c ≠ '\\' ∧ c ≠ '\n' ∧ c ≠ '\r' := by
  rw [← spells_self_iff]
  constructor
  · rintro ⟨quote, body, -, heq, h⟩
    obtain ⟨rfl, heq⟩ := List.cons.inj heq
    obtain rfl := List.append_cancel_right heq
    exact h
  · exact fun h => ⟨.char '\'', t, .inr rfl, rfl, h⟩

end StringLiteral

namespace Code

-- Where a name stands in a generated text: a literal with the value that is meant, or a comment with what is between
-- its marks. A comment of one line has the end of the line for its mark.
inductive Slot
  | literal (value : Text)
  | block (body : Text)
  | line (body : Text)
  deriving DecidableEq, Repr

-- The end of a comment.
abbrev Closes (t : Text) : Prop := [CodePoint.char '*', CodePoint.char '/'] <:+: t

namespace Slot

def text : Slot → Text
  | .literal value => "'" ++ value ++ "'"
  | .block body => "/*" ++ body ++ "*/"
  | .line body => "//" ++ body ++ "\n"

-- A literal with its value, or a comment that its own mark is the first to end.
def IsFaithful : Slot → Prop
  | .literal value => StringLiteral.IsLiteral (Slot.literal value).text (value.flatMap StringLiteral.units)
  | .block body => ¬ Closes (body ++ "*")
  | .line body => ∀ c ∈ body, StringLiteral.isLineTerminator c = false

end Slot

-- A text that is the same for all names but for the slots in it.
inductive Fills : (Text → Text) → (Text → List Slot) → Prop
  | code (text : Text) : Fills (fun _ => text) fun _ => []
  | slot (slot : Text → Slot) : Fills (fun name => (slot name).text) fun name => [slot name]
  | append {first rest : Text → Text} {slots others : Text → List Slot} (h : Fills first slots)
    (h' : Fills rest others) :
    Fills (fun name => first name ++ rest name) fun name => slots name ++ others name

-- A text with some slots in it.
def HasSlots (text : Text) (slots : List Slot) : Prop := Fills (fun _ => text) fun _ => slots

section Fills

variable {first rest text : Text → Text} {slots others : Text → List Slot}

theorem Fills.congr (h : Fills first slots) (htext : ∀ name, text name = first name)
    (hslots : ∀ name, others name = slots name) : Fills text others := by
  rwa [funext htext, funext hslots]

theorem Fills.hasSlots (h : Fills text slots) (name : Text) : HasSlots (text name) (slots name) := by
  induction h with
  | code text => exact .code text
  | slot slot => exact .slot fun _ => slot name
  | append _ _ ih ih' => exact .append ih ih'

theorem Fills.isInfix (h : Fills text slots) (name : Text) : ∀ slot ∈ slots name, slot.text <:+: text name := by
  induction h with
  | code text => exact nofun
  | slot slot => exact List.forall_mem_singleton.mpr List.infix_rfl
  | append _ _ ih ih' =>
    exact List.forall_mem_append.mpr
      ⟨fun slot hslot => List.infix_append_of_infix_left (ih slot hslot),
        fun slot hslot => List.infix_append_of_infix_right (ih' slot hslot)⟩

theorem Fills.between (h : Fills text slots) (before after : Text) :
    Fills (fun name => before ++ text name ++ after) slots :=
  (((Fills.code before).append h).append (.code after)).congr (fun _ => rfl) fun _ => (List.append_nil _).symm

-- Texts that are put one behind the other, with something in front of each.
def FillsEach (separator : Text) (texts : Text → List Text) (slots : Text → List Slot) : Prop :=
  Fills (fun name => (texts name).flatMap (separator ++ ·)) slots

variable {separator : Text} {texts moreTexts : Text → List Text}

theorem FillsEach.single (h : Fills text slots) : FillsEach separator (fun name => [text name]) slots :=
  (h.between separator []).congr (fun _ => by simp) fun _ => rfl

theorem FillsEach.append (h : FillsEach separator texts slots) (h' : FillsEach separator moreTexts others) :
    FillsEach separator (fun name => texts name ++ moreTexts name) fun name => slots name ++ others name :=
  (Fills.append h h').congr (fun _ => List.flatMap_append) fun _ => rfl

theorem FillsEach.when (condition : Bool) (h : FillsEach separator texts slots) :
    FillsEach separator (fun name => if condition then texts name else []) fun name =>
      if condition then slots name else [] := by
  cases condition with
  | true => exact h
  | false => exact .code []

theorem fillsEach_code (separator : Text) (texts : List Text) : FillsEach separator (fun _ => texts) fun _ => [] :=
  .code _

end Fills

section Closing

variable {s t name before after : Text} {ts : List Text}

theorem pair_infix_append {a b : CodePoint} {s t : Text} : [a, b] <:+: s ++ t ↔
    [a, b] <:+: s ∨ [a, b] <:+: t ∨ s.getLast? = some a ∧ t.head? = some b := by
  have hhead {l : Text} : [b] <+: l ↔ l.head? = some b := by
    cases l with
    | nil => simp
    | cons d l => simp [List.cons_prefix_cons, eq_comm]
  induction s with
  | nil => simp
  | cons c s ih =>
    rw [List.cons_append, List.infix_cons_iff, List.infix_cons_iff, List.cons_prefix_cons, List.cons_prefix_cons,
      hhead, hhead]
    simp only [ih]
    cases s with
    | nil =>
      simp only [List.nil_append, List.head?_nil, List.getLast?_nil, List.getLast?_singleton, List.infix_nil,
        reduceCtorEq, and_false, false_and, false_or, Option.some.injEq]
      rw [eq_comm (a := a)]
      tauto
    | cons d s =>
      simp only [List.cons_append, List.head?_cons, List.getLast?_cons_cons]
      tauto

theorem closes_append : Closes (s ++ t) ↔
    Closes s ∨ Closes t ∨ s.getLast? = some (.char '*') ∧ t.head? = some (.char '/') := pair_infix_append

-- What can stand around a name such that a comment is not ended by both together.
structure Gap (before after : Text) : Prop where
  front : ¬ Closes before
  last : before.getLast? ≠ some (.char '*')
  back : ¬ Closes after
  head : after.head? ≠ some (.char '/')

instance (before after : Text) : Decidable (Gap before after) :=
  decidable_of_iff (¬ Closes before ∧ before.getLast? ≠ some (.char '*') ∧ ¬ Closes after ∧
      after.head? ≠ some (.char '/'))
    ⟨fun ⟨front, last, back, head⟩ => ⟨front, last, back, head⟩, fun h => ⟨h.front, h.last, h.back, h.head⟩⟩

theorem Gap.closes_iff (h : Gap before after) : Closes (before ++ name ++ after) ↔ Closes name := by
  rw [closes_append, closes_append]
  have hleft : ¬ (before.getLast? = some (.char '*') ∧ name.head? = some (.char '/')) := fun hpair => h.last hpair.1
  have hright : ¬ ((before ++ name).getLast? = some (.char '*') ∧ after.head? = some (.char '/')) :=
    fun hpair => h.head hpair.2
  simp only [h.front, h.back, hleft, hright, false_or, or_false]

theorem Gap.closes_append_iff (h : Gap before []) : Closes (before ++ name) ↔ Closes name := by
  have hcloses : Closes (before ++ name ++ []) ↔ Closes name := h.closes_iff
  rwa [List.append_nil] at hcloses

theorem closes_flatMap_lines : Closes (ts.flatMap (Text.ofString "\n" ++ ·)) ↔ ∃ t ∈ ts, Closes t := by
  induction ts with
  | nil => simp
  | cons t ts ih =>
    have hbreak : ¬ Closes (Text.ofString "\n") ∧ (Text.ofString "\n").getLast? ≠ some (.char '*') := by decide
    have hhead : (ts.flatMap (Text.ofString "\n" ++ ·)).head? ≠ some (.char '/') := by
      cases ts <;> simp [Text.ofString, Text.ofChars]
    simp only [List.flatMap_cons, List.mem_cons, exists_eq_or_imp]
    rw [closes_append, closes_append, ih]
    simp [hbreak.1, hbreak.2, hhead]

-- Where lines are joined no comment is ended.
theorem closes_joinLines : Closes (Text.joinLines ts) ↔ ∃ t ∈ ts, Closes t := by
  cases ts with
  | nil => simp [Text.joinLines, Text.join]
  | cons t ts =>
    have hhead : (ts.flatMap (Text.ofString "\n" ++ ·)).head? ≠ some (.char '/') := by
      cases ts <;> simp [Text.ofString, Text.ofChars]
    simp only [List.mem_cons, exists_eq_or_imp]
    rw [joinLines_cons, closes_append, closes_flatMap_lines]
    simp [hhead]

-- A text as it is laid out line by line at the outermost level.
def settled (t : Text) : Text := Text.joinLines (t.lines.map outerLine)

theorem closes_outerLine : Closes (outerLine t) ↔ Closes t := by
  rw [outerLine]
  split
  · rename_i hblank
    refine iff_of_false (by simp) fun h => ?_
    have hmem : CodePoint.char '*' ∈ t := h.subset (by simp)
    rw [isBlank_eq_false hmem (by decide)] at hblank
    cases hblank
  · rfl

theorem closes_settled : Closes (settled t) ↔ Closes t := by
  conv_rhs => rw [← joinLines_lines t]
  simp only [settled, closes_joinLines, List.mem_map, exists_exists_and_eq_and, closes_outerLine]

end Closing

section Comments

variable {name part before after : Text} {parts : List Text}

-- The slot of a documentation comment, of one that is laid out, of a banner, and of a comment of one line.
def docSlot (parts : List Text) : Slot := .block ("*\n" ++ Text.joinLines (docLines parts) ++ "\n ")

def laidDocSlot (part : Text) : Slot := .block ("*\n" ++ settled (Text.joinLines (docLines [part])) ++ "\n ")

def bannerSlot (text : Text) : Slot := .block ("* " ++ text ++ " ")

def lineSlot (text : Text) : Slot := .line (" " ++ text)

theorem text_docSlot (hne : parts ≠ []) : (docSlot parts).text = docComment parts := by
  obtain ⟨first, rest, rfl⟩ := List.exists_cons_of_ne_nil hne
  simp [docSlot, Slot.text, docComment_eq, joinLines_cons, docLines, Text.ofString, Text.ofChars]

theorem text_bannerSlot (t : Text) : (bannerSlot t).text = banner t := by
  simp [bannerSlot, Slot.text, banner, Text.ofString, Text.ofChars]

theorem closes_docLine : Closes (if part.isEmpty then Text.ofString " *" else " * " ++ part) ↔ Closes part := by
  have hgap : Gap " * " [] := by decide
  cases part with
  | nil => decide
  | cons c part => exact hgap.closes_append_iff

theorem closes_docLines : (∃ line ∈ docLines parts, Closes line) ↔ ∃ part ∈ parts, Closes part := by
  simp only [docLines, List.mem_map, exists_exists_and_eq_and, closes_docLine]

theorem isFaithful_docSlot : (docSlot parts).IsFaithful ↔ ∀ part ∈ parts, ¬ Closes part := by
  have hgap : Gap "*\n" "\n *" := by decide
  have hbody : ("*\n" ++ Text.joinLines (docLines parts) ++ "\n " ++ "*" : Text) =
      "*\n" ++ Text.joinLines (docLines parts) ++ "\n *" := by simp [Text.ofString, Text.ofChars]
  rw [docSlot, Slot.IsFaithful, hbody, hgap.closes_iff, closes_joinLines, closes_docLines]
  simp

theorem isFaithful_laidDocSlot : (laidDocSlot part).IsFaithful ↔ ¬ Closes part := by
  have hgap : Gap "*\n" "\n *" := by decide
  have hbody : ("*\n" ++ settled (Text.joinLines (docLines [part])) ++ "\n " ++ "*" : Text) =
      "*\n" ++ settled (Text.joinLines (docLines [part])) ++ "\n *" := by simp [Text.ofString, Text.ofChars]
  rw [laidDocSlot, Slot.IsFaithful, hbody, hgap.closes_iff, closes_settled, closes_joinLines,
    closes_docLines]
  simp

theorem isFaithful_bannerSlot {t : Text} : (bannerSlot t).IsFaithful ↔ ¬ Closes t := by
  have hgap : Gap "* " " *" := by decide
  have hbody : ("* " ++ t ++ " " ++ "*" : Text) = "* " ++ t ++ " *" := by simp [Text.ofString, Text.ofChars]
  rw [bannerSlot, Slot.IsFaithful, hbody, hgap.closes_iff]

end Comments

section Layouts

namespace Builder

-- A builder with more lines in front of its own.
def behind (lines : List Text) (builder : Builder) : Builder := { builder with lines := lines ++ builder.lines }

variable {lines : List Text}

theorem addLine_behind (builder : Builder) (t : Text) :
    (builder.behind lines).addLine t = (builder.addLine t).behind lines := by
  simp [behind, addLine]

theorem addLines_behind (texts : List Text) (builder : Builder) :
    (builder.behind lines).addLines texts = (builder.addLines texts).behind lines := by
  induction texts generalizing builder with
  | nil => rfl
  | cons t rest ih =>
    rw [addLines, addLines, List.foldl_cons, List.foldl_cons, addLine_behind]
    exact ih _

theorem apply_behind (step : Step) (builder : Builder) :
    (builder.behind lines).apply step = (builder.apply step).behind lines := by
  cases step with
  | line t => exact addLine_behind builder t
  | lines t => exact addLines_behind t.lines builder
  | indent => rfl
  | dedent => rfl
  | openBlock opening closing =>
    rw [apply, addLine_behind]
    rfl
  | closeBlock =>
    obtain ⟨size, lines, level, closings⟩ := builder
    cases closings with
    | nil => rfl
    | cons closing outer => exact addLine_behind ⟨size, lines, level - 1, outer⟩ closing

-- Lines that are written do not change what is written behind them.
theorem run_behind (steps : List Step) (builder : Builder) :
    (builder.behind lines).run steps = (builder.run steps).behind lines := by
  induction steps generalizing builder with
  | nil => rfl
  | cons step rest ih =>
    rw [run, run, List.foldl_cons, List.foldl_cons, apply_behind]
    exact ih _

theorem addLines_empty (size : Nat) (texts : List Text) :
    (empty size).addLines texts = (empty size).behind (texts.map outerLine) := by
  induction texts with
  | nil => rfl
  | cons t rest ih =>
    have hfirst : (empty size).addLine t = (empty size).behind [outerLine t] := by
      simp [addLine, empty, behind, outerLine, Text.spaces]
    rw [addLines, List.foldl_cons, hfirst, ← addLines, addLines_behind, ih]
    simp [behind]

-- A line that is not blank is written as it is, at a place that does not depend on it.
theorem exists_lines_run (builder : Builder) (before after : List Step) :
    ∃ (above below : List Text) (indent : Text),
    ∀ t, t.isBlank = false → (builder.run (before ++ .line t :: after)).lines = above ++ (indent ++ t) :: below := by
  obtain ⟨reached, hreached⟩ : ∃ reached, builder.run before = reached := ⟨_, rfl⟩
  let others : Builder := { reached with lines := [] }
  refine ⟨reached.lines, (others.run after).lines, Text.spaces (reached.level * reached.indentSize), fun t ht => ?_⟩
  have hline : reached.addLine t =
      others.behind (reached.lines ++ [Text.spaces (reached.level * reached.indentSize) ++ t]) := by
    simp [addLine, ht, behind, others]
  have hsteps : builder.run (before ++ .line t :: after) = (reached.addLine t).run after := by
    rw [← hreached, run, List.foldl_append]
    rfl
  rw [hsteps, hline, run_behind]
  simp [behind]

end Builder

theorem flatMap_lines {ts : List Text} (hne : ts ≠ []) :
    ts.flatMap (Text.ofString "\n" ++ ·) = "\n" ++ Text.joinLines ts := by
  obtain ⟨first, rest, rfl⟩ := List.exists_cons_of_ne_nil hne
  rw [joinLines_cons, List.flatMap_cons, List.append_assoc]

theorem lines_append_break (first second : Text) :
    Text.lines (first ++ "\n" ++ second) = first.lines ++ second.lines := by
  rw [List.append_assoc]
  exact Text.splitOn_append_cons ..

-- A comment in front of what is laid out.
theorem layout_docComment (part : Text) (steps : List Step) : layout (.lines (docComment [part]) :: steps) =
    (laidDocSlot part).text ++ ((Builder.empty 2).run steps).lines.flatMap (Text.ofString "\n" ++ ·) := by
  have hopening : (Text.lines (Text.ofString "/**")).map outerLine = [Text.ofString "/**"] := by decide
  have hclosing : (Text.lines (Text.ofString " */")).map outerLine = [Text.ofString " */"] := by decide
  have hcomment : docComment [part] = "/**" ++ "\n" ++ (Text.joinLines (docLines [part]) ++ "\n" ++ " */") := by
    simp [docComment_eq, joinLines_cons, docLines, List.append_assoc]
  have hmiddle : (Text.joinLines (docLines [part])).lines.map outerLine ≠ [] := by
    rw [Ne, List.map_eq_nil_iff]
    exact Text.splitOn_ne_nil '\n' _
  rw [layout, Builder.run, List.foldl_cons, ← Builder.run, Builder.apply, Builder.addLines_empty, Builder.run_behind,
    Builder.text, Builder.behind, hcomment, lines_append_break, lines_append_break, List.map_append, List.map_append,
    hopening, hclosing, List.singleton_append, List.cons_append, joinLines_cons, List.flatMap_append,
    List.flatMap_append, flatMap_lines hmiddle]
  simp [laidDocSlot, Slot.text, settled, Text.ofString, Text.ofChars]

-- What is laid out behind a comment that has a name in it, and the same with a name in one more line.
theorem fills_layout (part : Text → Text) (steps : List Step) :
    Fills (fun name => layout (.lines (docComment [part name]) :: steps)) fun name => [laidDocSlot (part name)] :=
  ((Fills.slot fun name => laidDocSlot (part name)).append (.code _)).congr
    (fun _ => layout_docComment ..) fun _ => rfl

theorem fills_layout_literal (front back : Text) (part : Text → Text) (before after : List Step)
    (hfront : front.isBlank = false) :
    Fills (fun name => layout (.lines (docComment [part name]) ::
      (before ++ .line (front ++ (Slot.literal name).text ++ back) :: after))) fun name =>
      [laidDocSlot (part name), .literal name] := by
  obtain ⟨above, below, indent, hlines⟩ := (Builder.empty 2).exists_lines_run before after
  have hblank (name : Text) : (front ++ (Slot.literal name).text ++ back).isBlank = false := by
    rw [Text.isBlank, List.all_append, List.all_append, ← Text.isBlank, hfront]
    rfl
  have hliteral : FillsEach (Text.ofString "\n")
      (fun name => above ++ [indent ++ front ++ (Slot.literal name).text ++ back] ++ below)
      fun name => [.literal name] :=
    (((fillsEach_code _ above).append (.single ((Fills.slot .literal).between (indent ++ front) back))).append
      (fillsEach_code _ below)).congr (fun _ => rfl) fun _ => rfl
  refine ((Fills.slot fun name => laidDocSlot (part name)).append hliteral).congr (fun name => ?_) fun _ => rfl
  rw [layout_docComment, hlines _ (hblank name)]
  simp

end Layouts

end Code

end HookGen
