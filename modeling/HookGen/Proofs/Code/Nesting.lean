import HookGen.Code.Layout
import Mathlib.Algebra.BigOperators.Group.List.Basic
import Mathlib.Algebra.Ring.Int.Defs
import Mathlib.Order.Bounds.Basic
import Mathlib.Order.MinMax

/-!
Layouts within layouts. Steps that end the blocks and the indentations they have begun leave a builder at
the level where it was, and their lines are those of a builder of their own, moved to that level. Any other
steps make the level a counter that stays at zero where it would fall below.
-/

namespace HookGen

namespace Text

-- A line moved to the right. A blank one stays as it is.
def indentedBy (width : Nat) (line : Text) : Text := if line.isBlank then line else spaces width ++ line

theorem isBlank_spaces_append (width : Nat) (line : Text) : isBlank (spaces width ++ line) = line.isBlank := by
  have hspaces : (spaces width).all CodePoint.isBlank = true :=
    List.all_eq_true.mpr fun c hc => List.eq_of_mem_replicate hc ▸ by decide
  rw [isBlank, List.all_append, hspaces, Bool.true_and, isBlank]

theorem indentedBy_spaces_append {line : Text} (h : line.isBlank = false) (width inner : Nat) :
    indentedBy width (spaces inner ++ line) = spaces (width + inner) ++ line := by
  rw [indentedBy, isBlank_spaces_append, h, if_neg Bool.false_ne_true, spaces, spaces, spaces, List.replicate_add,
    List.append_assoc]

end Text

namespace Code

section Bracketing

-- How many blocks and how many indentations are open.
structure Depth where
  blocks : Nat
  indents : Nat

-- What a step makes of the depth. It ends only what is open, and one kind may end within the other.
inductive Step.Turns : Step → Depth → Depth → Prop
  | line (text : Text) (depth : Depth) : Turns (.line text) depth depth
  | lines (text : Text) (depth : Depth) : Turns (.lines text) depth depth
  | indent (blocks indents : Nat) : Turns .indent ⟨blocks, indents⟩ ⟨blocks, indents + 1⟩
  | dedent (blocks indents : Nat) : Turns .dedent ⟨blocks, indents + 1⟩ ⟨blocks, indents⟩
  | openBlock (opening closing : Text) (blocks indents : Nat) :
    Turns (.openBlock opening closing) ⟨blocks, indents⟩ ⟨blocks + 1, indents⟩
  | closeBlock (blocks indents : Nat) : Turns .closeBlock ⟨blocks + 1, indents⟩ ⟨blocks, indents⟩

-- Steps behind which nothing is open any more.
inductive Ends : Depth → List Step → Prop
  | nil : Ends ⟨0, 0⟩ []
  | cons {step : Step} {rest : List Step} {depth next : Depth} (hstep : step.Turns depth next)
    (hrest : Ends next rest) : Ends depth (step :: rest)

-- Steps that end what they begin, and nothing else.
def WellBracketed (steps : List Step) : Prop := Ends ⟨0, 0⟩ steps

variable {step : Step} {depth next outer : Depth} {body rest : List Step}

theorem Step.Turns.add (h : step.Turns depth next) (outer : Depth) :
    step.Turns ⟨depth.blocks + outer.blocks, depth.indents + outer.indents⟩
      ⟨next.blocks + outer.blocks, next.indents + outer.indents⟩ := by
  cases h with
  | line text => exact .line text _
  | lines text => exact .lines text _
  | indent blocks indents => exact Nat.add_right_comm indents 1 _ ▸ .indent ..
  | dedent blocks indents => exact Nat.add_right_comm indents 1 _ ▸ .dedent ..
  | openBlock opening closing blocks indents => exact Nat.add_right_comm blocks 1 _ ▸ .openBlock ..
  | closeBlock blocks indents => exact Nat.add_right_comm blocks 1 _ ▸ .closeBlock ..

-- What one part leaves open, the part behind it may end.
theorem Ends.append (hbody : Ends depth body) (hrest : Ends outer rest) :
    Ends ⟨depth.blocks + outer.blocks, depth.indents + outer.indents⟩ (body ++ rest) := by
  induction hbody with
  | nil => simpa using hrest
  | cons hstep _ ih => exact .cons (hstep.add outer) ih

namespace WellBracketed

theorem single (h : step.Turns ⟨0, 0⟩ ⟨0, 0⟩) : WellBracketed [step] := .cons h .nil

theorem append (hbody : WellBracketed body) (hrest : WellBracketed rest) : WellBracketed (body ++ rest) :=
  Ends.append hbody hrest

theorem block (opening closing : Text) (h : WellBracketed body) : WellBracketed (block opening closing body) :=
  .cons (.openBlock ..) (by simpa using Ends.append h (.cons (.closeBlock 0 0) .nil))

theorem indented (h : WellBracketed body) : WellBracketed (indented body) :=
  .cons (.indent ..) (by simpa using Ends.append h (.cons (.dedent 0 0) .nil))

end WellBracketed

end Bracketing

namespace Builder

section Nesting

variable {front closings : List Text} {base : Nat} {builder : Builder} {depth next : Depth} {step : Step}
  {steps : List Step}

-- A builder with its lines behind others and at a higher level, where more blocks are open.
def within (front : List Text) (base : Nat) (closings : List Text) (builder : Builder) : Builder where
  indentSize := builder.indentSize
  lines := front ++ builder.lines.map (Text.indentedBy (base * builder.indentSize))
  level := base + builder.level
  closings := builder.closings ++ closings

-- What a builder has open itself.
structure HasDepth (builder : Builder) (depth : Depth) : Prop where
  closings : builder.closings.length = depth.blocks
  level : builder.level = depth.blocks + depth.indents

theorem addLine_within (t : Text) :
    (builder.within front base closings).addLine t = (builder.addLine t).within front base closings := by
  have hline : (if t.isBlank then [] else Text.spaces ((base + builder.level) * builder.indentSize) ++ t) =
      Text.indentedBy (base * builder.indentSize)
        (if t.isBlank then [] else Text.spaces (builder.level * builder.indentSize) ++ t) := by
    cases hblank : t.isBlank with
    | true => rfl
    | false =>
      rw [if_neg Bool.false_ne_true, if_neg Bool.false_ne_true, Text.indentedBy_spaces_append hblank, Nat.add_mul]
  simp [addLine, within, hline]

theorem addLines_within (texts : List Text) :
    (builder.within front base closings).addLines texts = (builder.addLines texts).within front base closings := by
  induction texts generalizing builder with
  | nil => rfl
  | cons t rest ih =>
    rw [addLines, List.foldl_cons, addLine_within]
    exact ih

-- Lines open and close nothing.
theorem addLines_eq (texts : List Text) (builder : Builder) :
    builder.addLines texts = { builder with lines := (builder.addLines texts).lines } := by
  induction texts generalizing builder with
  | nil => rfl
  | cons t rest ih => exact ih (builder.addLine t)

theorem indentSize_apply (step : Step) (builder : Builder) : (builder.apply step).indentSize = builder.indentSize := by
  cases step with
  | lines t => rw [apply, addLines_eq]
  | closeBlock =>
    rw [apply]
    split <;> rfl
  | _ => rfl

theorem indentSize_run (steps : List Step) (builder : Builder) :
    (builder.run steps).indentSize = builder.indentSize := by
  induction steps generalizing builder with
  | nil => rfl
  | cons step rest ih => exact (ih (builder.apply step)).trans (indentSize_apply step builder)

-- A step that ends only what is open does at a higher level what it does anyway.
theorem apply_within (hstep : step.Turns depth next) (h : builder.HasDepth depth) :
    (builder.within front base closings).apply step = (builder.apply step).within front base closings ∧
      (builder.apply step).HasDepth next := by
  cases hstep with
  | line t => exact ⟨addLine_within t, h.closings, h.level⟩
  | lines t =>
    refine ⟨addLines_within t.lines, ?_⟩
    rw [apply, addLines_eq]
    exact ⟨h.closings, h.level⟩
  | indent blocks indents => exact ⟨rfl, h.closings, congrArg (· + 1) h.level⟩
  | dedent blocks indents =>
    have hlevel : builder.level = blocks + (indents + 1) := h.level
    -- the level is above zero, so that it falls at a higher level as well
    have hlower : base + builder.level - 1 = base + (builder.level - 1) := by omega
    refine ⟨?_, h.closings, ?_⟩
    · simp only [apply, within, hlower]
    · simp only [apply]
      omega
  | openBlock opening closing blocks indents =>
    have hlevel : builder.level = blocks + indents := h.level
    refine ⟨?_, congrArg (· + 1) h.closings, ?_⟩
    · rw [apply, addLine_within]
      rfl
    · simp only [apply, addLine]
      omega
  | closeBlock blocks indents =>
    have hlevel : builder.level = blocks + 1 + indents := h.level
    have hlower : base + builder.level - 1 = base + (builder.level - 1) := by omega
    obtain ⟨closing, others, hopen⟩ := List.exists_cons_of_length_eq_add_one h.closings
    have hothers : others.length = blocks := by simpa [hopen] using h.closings
    simp only [apply, within, hopen, List.cons_append, hlower]
    refine ⟨@addLine_within _ _ _ { builder with level := builder.level - 1, closings := others } closing, hothers, ?_⟩
    simp only [addLine]
    omega

theorem run_within (hsteps : Ends depth steps) (h : builder.HasDepth depth) :
    (builder.within front base closings).run steps = (builder.run steps).within front base closings ∧
      (builder.run steps).HasDepth ⟨0, 0⟩ := by
  induction hsteps generalizing builder with
  | nil => exact ⟨rfl, h⟩
  | cons hstep _ ih =>
    obtain ⟨happly, hnext⟩ := apply_within hstep h
    rw [run, run, List.foldl_cons, List.foldl_cons, happly]
    exact ih hnext

end Nesting

section Levels

-- What a step adds to the level while some blocks are open. Where there is none, there is none to close.
def change (blocks : Nat) : Step → Int
  | .indent => 1
  | .dedent => -1
  | .openBlock _ _ => 1
  | .closeBlock => if blocks = 0 then 0 else -1
  | _ => 0

def blocksAfter (blocks : Nat) : Step → Nat
  | .openBlock _ _ => blocks + 1
  | .closeBlock => blocks - 1
  | _ => blocks

def changes : Nat → List Step → List Int
  | _, [] => []
  | blocks, step :: rest => change blocks step :: changes (blocksAfter blocks step) rest

theorem level_apply (step : Step) (builder : Builder) :
    ((builder.apply step).level : Int) = max 0 (builder.level + change builder.closings.length step) ∧
      (builder.apply step).closings.length = blocksAfter builder.closings.length step := by
  cases step with
  | line t => simp [apply, addLine, change, blocksAfter]
  | lines t =>
    rw [apply, addLines_eq]
    simp [change, blocksAfter]
  | indent =>
    simp only [apply, change, blocksAfter, and_true]
    omega
  | dedent =>
    simp only [apply, change, blocksAfter, and_true]
    omega
  | openBlock opening closing =>
    simp only [apply, addLine, change, blocksAfter, List.length_cons, and_true]
    omega
  | closeBlock =>
    cases hopen : builder.closings with
    | nil => simp [apply, hopen, change, blocksAfter]
    | cons closing others =>
      simp only [apply, hopen, addLine, change, blocksAfter, List.length_cons, Nat.add_sub_cancel, Nat.succ_ne_zero,
        if_false, and_true]
      omega

-- What the level may come to: what it is with all changes, or what the last changes come to from zero.
def Levels (level : Int) (changes : List Int) : Set Int :=
  insert (level + changes.sum) {sum | ∃ late, late <:+ changes ∧ sum = late.sum}

-- Staying at zero once changes nothing about the greatest of these.
theorem isGreatest_levels_cons {level change : Int} {changes : List Int} {last : Int} (hlevel : 0 ≤ level)
    (h : IsGreatest (Levels (max 0 (level + change)) changes) last) :
    IsGreatest (Levels level (change :: changes)) last := by
  obtain ⟨hmem, hgreatest⟩ := h
  have hall : max 0 (level + change) + changes.sum ≤ last := hgreatest (Set.mem_insert ..)
  constructor
  · rcases hmem with rfl | ⟨late, hlate, rfl⟩
    · rcases max_choice 0 (level + change) with hmax | hmax
      · exact .inr ⟨changes, List.suffix_cons .., by rw [hmax, zero_add]⟩
      · exact .inl (by rw [hmax, List.sum_cons, add_assoc])
    · exact .inr ⟨late, hlate.trans (List.suffix_cons ..), rfl⟩
  · rintro _ (rfl | ⟨late, hlate, rfl⟩)
    · rw [List.sum_cons]
      omega
    · rcases List.suffix_cons_iff.mp hlate with rfl | hlate
      · rw [List.sum_cons]
        omega
      · exact hgreatest (.inr ⟨late, hlate, rfl⟩)

theorem isGreatest_level_run (steps : List Step) (builder : Builder) :
    IsGreatest (Levels builder.level (changes builder.closings.length steps)) ((builder.run steps).level : Int) := by
  induction steps generalizing builder with
  | nil =>
    refine ⟨.inl (by simp [changes, run]), ?_⟩
    rintro _ (rfl | ⟨late, hlate, rfl⟩)
    · simp [changes, run]
    · rw [changes, List.suffix_nil] at hlate
      simp [hlate]
  | cons step rest ih =>
    obtain ⟨hlevel, hblocks⟩ := level_apply step builder
    have hrest := ih (builder.apply step)
    rw [hlevel, hblocks] at hrest
    exact isGreatest_levels_cons (Int.natCast_nonneg _) hrest

end Levels

-- Steps that end what they begin leave all but the lines as they were, wherever they are run, and add the lines that
-- a builder of their own would have, each moved to the level where they begin. After any steps, the level is the
-- greatest of what it would be with all changes, and of what the last of the changes come to, be they none: it goes
-- along with the changes, but is never below zero.
theorem run_nested (steps : List Step) (builder : Builder) :
    (WellBracketed steps → builder.run steps = { builder with
      lines := builder.lines ++ ((empty builder.indentSize).run steps).lines.map
        (Text.indentedBy (builder.level * builder.indentSize)) }) ∧
    IsGreatest (Levels builder.level (changes builder.closings.length steps)) ((builder.run steps).level : Int) := by
  refine ⟨fun hsteps => ?_, isGreatest_level_run steps builder⟩
  have hinner : builder = (empty builder.indentSize).within builder.lines builder.level builder.closings := by
    simp [within, empty]
  have hdepth : (empty builder.indentSize).HasDepth ⟨0, 0⟩ := ⟨rfl, rfl⟩
  obtain ⟨hrun, hclosings, hlevel⟩ := @run_within builder.lines builder.closings builder.level _ _ _ hsteps hdepth
  rw [← hinner] at hrun
  rw [hrun, within, indentSize_run, hlevel, List.length_eq_zero_iff.mp hclosings]
  rfl

section Sample

-- A block within an indentation, and an indentation that ends behind the block it begins in.
def crossing : List Step :=
  indented (block "f(" ");" [.lines "a\n\nb", .line " "]) ++
    [.openBlock "if" "end", .indent, .line "c", .closeBlock, .line "d", .dedent]

theorem wellBracketed_crossing : WellBracketed crossing :=
  have hbody : WellBracketed [.lines "a\n\nb", .line " "] :=
    (WellBracketed.single (.lines ..)).append (.single (.line ..))
  (hbody.block "f(" ");").indented.append <|
    .cons (.openBlock ..) <| .cons (.indent ..) <| .cons (.line ..) <| .cons (.closeBlock ..) <| .cons (.line ..) <|
      .cons (.dedent ..) .nil

-- In the middle of a block, with three blanks for each level.
def inBlock : Builder := ⟨3, ["\x7b"], 1, ["\x7d"]⟩

theorem run_nested_crossing : WellBracketed crossing ∧
    inBlock.run crossing = { inBlock with
      lines := (["\x7b", "      f(", "         a", "", "         b", "", "      );", "   if", "         c", "      end",
        "      d"].map Text.ofString) } :=
  ⟨wellBracketed_crossing, ((run_nested crossing inBlock).1 wellBracketed_crossing).trans (by decide)⟩

end Sample

end Builder

end Code

end HookGen
