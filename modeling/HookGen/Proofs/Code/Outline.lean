import HookGen.Code.Layout
import HookGen.Code.Statement
import HookGen.Naming
import HookGen.Proofs.Code.Joining
import HookGen.Proofs.Path
import HookGen.Proofs.Schema.Introspection
import HookGen.Proofs.Text.Sort
import Mathlib.Data.List.Forall2

/-!
Outlines of generated modules: what a module takes from others and what it exports. A module is made of
sections, and a section of pieces that stand on lines of their own. The scope of a module says in addition
which names it declares, exported or not.
-/

namespace HookGen.Code

-- A statement that takes names from another module, or hands on what that exports.
inductive Link
  | named (typeOnly : Bool) (names : List Text) (source : Text)
  | all (source : Text)
  deriving DecidableEq, Repr

namespace Link

def source : Link → Text
  | .named _ _ source => source
  | .all source => source

def text : Link → Text
  | .named typeOnly names source =>
    let keyword : Text := if typeOnly then "import type" else "import"
    keyword ++ " \x7b " ++ Text.join ", " names ++ " \x7d from '" ++ source ++ "';"
  | .all source => reexport source

-- The names that are bound by a statement.
def names : Link → List Text
  | .named _ names _ => names
  | .all _ => []

end Link

inductive Piece
  | comment (text : Text)
  | link (statement : Link)
  -- a declaration with what follows its name
  | declaration (exported : Bool) (keyword name rest : Text)
  -- the declaration of a name as it was found in a source
  | copied (name text : Text)
  deriving DecidableEq, Repr

-- The statement that a source declares a name with, as it is exported.
def IsDeclared (name text : Text) : Prop :=
  ∃ source declarations, Source.parseDeclarations source = some declarations ∧
    ∃ declaration ∈ declarations, declaration.name = name ∧ text = Introspection.exportedSource declaration

def keywords : List Text := ["type", "interface", "const", "function"].map Text.ofString

namespace Piece

def text : Piece → Text
  | .comment text => text
  | .link statement => statement.text
  | .declaration exported keyword name rest =>
    (if exported then Text.ofString "export " else []) ++ keyword ++ " " ++ name ++ rest
  | .copied _ text => text

-- Comments are marked as such, and what follows a name is no part of it.
def IsProper : Piece → Prop
  | .comment text => ("/**" : Text) <+: text ∧ ("*/" : Text) <:+ text ∨ ("// " : Text) <+: text ∧ .char '\n' ∉ text
  | .link _ => True
  | .declaration _ keyword _ rest => keyword ∈ keywords ∧ rest.head?.any (!Naming.continuesIdentifier ·)
  | .copied name text => IsDeclared name text

def links : Piece → List Link
  | .link statement => [statement]
  | _ => []

-- The name that a copied declaration is exported under, which is not its own where it is the default.
def copiedName (name text : Text) : Text :=
  if Source.startsWithWord "default" ((Source.tokens text).drop 1) then "default" else name

def exports : Piece → List Text
  | .declaration true _ name _ => [name]
  | .copied name text => [copiedName name text]
  | _ => []

-- The name that is declared, by which it is known in the module itself.
def declares : Piece → List Text
  | .declaration _ _ name _ => [name]
  | .copied name _ => [name]
  | _ => []

end Piece

structure Outline where
  links : List Link
  exports : List Text
  deriving DecidableEq, Repr

namespace Outline

def ofPieces (pieces : List Piece) : Outline := ⟨pieces.flatMap Piece.links, pieces.flatMap Piece.exports⟩

instance : Append Outline := ⟨fun first second => ⟨first.links ++ second.links, first.exports ++ second.exports⟩⟩

theorem append_eq (links links' : List Link) (exports exports' : List Text) :
    (⟨links, exports⟩ : Outline) ++ ⟨links', exports'⟩ = ⟨links ++ links', exports ++ exports'⟩ := rfl

theorem append_assoc (first second third : Outline) : first ++ second ++ third = first ++ (second ++ third) := by
  cases first
  cases second
  cases third
  simp only [append_eq, List.append_assoc]

end Outline

-- An outline with the names of all declarations.
structure Scope extends Outline where
  declared : List Text
  deriving DecidableEq, Repr

namespace Scope

def ofPieces (pieces : List Piece) : Scope := ⟨.ofPieces pieces, pieces.flatMap Piece.declares⟩

-- The scope of a text that exports all it declares.
def ofOutline (outline : Outline) : Scope := ⟨outline, outline.exports⟩

-- The scopes of a text that only takes names, of one that only declares them, and of one declaration.
def taking (links : List Link) : Scope := ⟨⟨links, []⟩, []⟩

def exporting (names : List Text) : Scope := ⟨⟨[], names⟩, names⟩

def declaring (exported : Bool) (name : Text) : Scope := ⟨⟨[], if exported then [name] else []⟩, [name]⟩

instance : Append Scope :=
  ⟨fun first second => ⟨first.toOutline ++ second.toOutline, first.declared ++ second.declared⟩⟩

theorem append_eq (outline outline' : Outline) (declared declared' : List Text) :
    (⟨outline, declared⟩ : Scope) ++ ⟨outline', declared'⟩ = ⟨outline ++ outline', declared ++ declared'⟩ := rfl

theorem append_assoc (first second third : Scope) : first ++ second ++ third = first ++ (second ++ third) := by
  obtain ⟨_, _⟩ := first
  obtain ⟨_, _⟩ := second
  obtain ⟨_, _⟩ := third
  simp only [append_eq, Outline.append_assoc, List.append_assoc]

theorem append_empty (scope : Scope) : scope ++ taking [] = scope := by
  obtain ⟨⟨_, _⟩, _⟩ := scope
  simp only [taking, append_eq, Outline.append_eq, List.append_nil]

theorem taking_append (links : List Link) (names declared : List Text) :
    taking links ++ ⟨⟨[], names⟩, declared⟩ = ⟨⟨links, names⟩, declared⟩ := by
  simp only [taking, append_eq, Outline.append_eq, List.append_nil, List.nil_append]

-- All names that are bound at the outermost level.
def bound (scope : Scope) : List Text := scope.links.flatMap Link.names ++ scope.declared

end Scope

-- What a section takes and exports.
def IsSection (text : Text) (outline : Outline) : Prop :=
  ∃ pieces : List Piece, (∀ piece ∈ pieces, piece.IsProper) ∧ text = Text.joinLines (pieces.map Piece.text) ∧
    outline = .ofPieces pieces

-- What sections take and export together.
inductive HasSections : List Text → Outline → Prop
  | nil : HasSections [] ⟨[], []⟩
  | cons {text : Text} {texts : List Text} {outline others : Outline} (head : IsSection text outline)
    (tail : HasSections texts others) : HasSections (text :: texts) (outline ++ others)

-- What a module takes and exports.
def HasOutline (content : Text) (outline : Outline) : Prop :=
  ∃ texts, HasSections texts outline ∧ content = joinSections texts

-- The scope of a section, of sections together, and of a module.
def IsScoped (text : Text) (scope : Scope) : Prop :=
  ∃ pieces : List Piece, (∀ piece ∈ pieces, piece.IsProper) ∧ text = Text.joinLines (pieces.map Piece.text) ∧
    scope = .ofPieces pieces

inductive HasScopes : List Text → Scope → Prop
  | nil : HasScopes [] (.taking [])
  | cons {text : Text} {texts : List Text} {scope others : Scope} (head : IsScoped text scope)
    (tail : HasScopes texts others) : HasScopes (text :: texts) (scope ++ others)

def HasScope (content : Text) (scope : Scope) : Prop :=
  ∃ texts, HasScopes texts scope ∧ content = joinSections texts

theorem IsScoped.isSection {text : Text} {scope : Scope} (h : IsScoped text scope) :
    IsSection text scope.toOutline := by
  obtain ⟨pieces, hproper, htext, rfl⟩ := h
  exact ⟨pieces, hproper, htext, rfl⟩

theorem HasScope.hasOutline {content : Text} {scope : Scope} (h : HasScope content scope) :
    HasOutline content scope.toOutline := by
  obtain ⟨texts, hscopes, rfl⟩ := h
  refine ⟨texts, ?_, rfl⟩
  induction hscopes with
  | nil => exact .nil
  | cons head _ ih => exact .cons head.isSection ih

theorem HasScopes.append {texts others : List Text} {scope scope' : Scope} (h : HasScopes texts scope)
    (h' : HasScopes others scope') : HasScopes (texts ++ others) (scope ++ scope') := by
  induction h with
  | nil => exact h'
  | @cons text texts first rest head _ ih =>
    rw [List.cons_append, Scope.append_assoc]
    exact .cons head ih

theorem HasScopes.single {text : Text} {scope : Scope} (h : IsScoped text scope) : HasScopes [text] scope := by
  have hscopes := HasScopes.cons h .nil
  rwa [Scope.append_empty] at hscopes

-- Sections that export one name each.
theorem HasScopes.of_names {texts names : List Text}
    (h : List.Forall₂ (fun text name => IsScoped text (.exporting [name])) texts names) :
    HasScopes texts (.exporting names) := by
  induction h with
  | nil => exact .nil
  | cons head _ ih => exact .cons head ih

-- A section that is left out unless a condition holds.
theorem HasScopes.when {text name : Text} (condition : Bool) (h : IsScoped text (.exporting [name])) :
    HasScopes (if condition then [text] else []) (.exporting (if condition then [name] else [])) := by
  cases condition
  · exact .nil
  · exact .single h

theorem isScoped_comment {text : Text} (h : Piece.IsProper (.comment text)) : IsScoped text (.taking []) :=
  ⟨[.comment text], by simpa using h, (Text.join_singleton ..).symm, rfl⟩

theorem isScoped_links (links : List Link) :
    IsScoped (Text.joinLines (links.map Link.text)) (.taking links) := by
  refine ⟨links.map .link, ?_, ?_, ?_⟩
  · rintro piece hpiece
    obtain ⟨link, -, rfl⟩ := List.mem_map.mp hpiece
    trivial
  · rw [List.map_map]
    rfl
  · simp [Scope.taking, Scope.ofPieces, Outline.ofPieces, List.flatMap_map, Piece.links, Piece.exports, Piece.declares]

theorem isScoped_declaration {exported : Bool} {keyword name rest : Text}
    (h : Piece.IsProper (.declaration exported keyword name rest)) :
    IsScoped (Piece.text (.declaration exported keyword name rest)) (.declaring exported name) := by
  refine ⟨[.declaration exported keyword name rest], by simpa using h, (Text.join_singleton ..).symm, ?_⟩
  cases exported <;> rfl

theorem isScoped_copied {name text : Text} (h : IsDeclared name text) :
    IsScoped text ⟨⟨[], [Piece.copiedName name text]⟩, [name]⟩ :=
  ⟨[.copied name text], List.forall_mem_singleton.mpr h, (Text.join_singleton ..).symm, rfl⟩

theorem joinLines_append {first rest : List Text} (hfirst : first ≠ []) (hrest : rest ≠ []) :
    Text.joinLines (first ++ rest) = Text.joinLines first ++ "\n" ++ Text.joinLines rest := by
  obtain ⟨line, others, rfl⟩ := List.exists_cons_of_ne_nil hrest
  induction first with
  | nil => exact absurd rfl hfirst
  | cons start more ih =>
    cases more with
    | nil => simp [Text.joinLines, Text.join_singleton, Text.join_cons_cons]
    | cons second more =>
      have hmore := ih (by simp)
      simp only [Text.joinLines, List.cons_append] at hmore ⊢
      rw [Text.join_cons_cons, hmore, Text.join_cons_cons]
      simp only [List.append_assoc]

-- A comment in front of something.
theorem IsScoped.under_comment {comment text : Text} {scope : Scope}
    (hcomment : Piece.IsProper (.comment comment)) (h : IsScoped text scope) (hne : text ≠ []) :
    IsScoped (comment ++ "\n" ++ text) scope := by
  obtain ⟨pieces, hproper, rfl, rfl⟩ := h
  have hpieces : pieces.map Piece.text ≠ [] := by
    rintro hnil
    rw [hnil] at hne
    exact hne rfl
  refine ⟨.comment comment :: pieces, List.forall_mem_cons.mpr ⟨hcomment, hproper⟩, ?_, rfl⟩
  rw [List.map_cons, ← List.singleton_append, joinLines_append (by simp) hpieces]
  simp [Text.joinLines, Text.join_singleton, Piece.text]

section Indexes

variable {banner : Text} {modules : List Text}

theorem isProper_lineComment {t : Text} (h : .char '\n' ∉ t) : Piece.IsProper (.comment ("// " ++ t)) := by
  refine .inr ⟨List.prefix_append .., ?_⟩
  rw [List.mem_append, not_or]
  exact ⟨by decide, h⟩

-- An index under a comment.
theorem hasScope_reexportIndex (hbanner : .char '\n' ∉ banner) (hmodules : modules ≠ []) :
    HasScope (reexportIndex banner modules) (.taking (modules.map .all)) := by
  refine ⟨["// " ++ banner, Text.joinLines ((modules.map Link.all).map Link.text)],
    .cons (isScoped_comment (isProper_lineComment hbanner)) (.single (isScoped_links _)), ?_⟩
  obtain ⟨first, rest, rfl⟩ := List.exists_cons_of_ne_nil hmodules
  simp [reexportIndex, joinSections, Text.joinLines, Text.join_cons_cons, Text.join_singleton,
    Function.comp_def, Link.text, Text.ofString, Text.ofChars]

end Indexes

section Layouts

variable {builder : Builder}

theorem prefix_lines_addLine (builder : Builder) (text : Text) :
    builder.lines <+: (builder.addLine text).lines := List.prefix_append ..

theorem prefix_lines_addLines (texts : List Text) (builder : Builder) :
    builder.lines <+: (builder.addLines texts).lines := by
  induction texts generalizing builder with
  | nil => exact List.prefix_refl _
  | cons text rest ih => exact (prefix_lines_addLine builder text).trans (ih _)

theorem prefix_lines_apply (builder : Builder) (step : Step) :
    builder.lines <+: (builder.apply step).lines := by
  cases step with
  | line text => exact prefix_lines_addLine builder text
  | lines text => exact prefix_lines_addLines _ builder
  | indent => exact List.prefix_refl _
  | dedent => exact List.prefix_refl _
  | openBlock opening closing => exact prefix_lines_addLine builder opening
  | closeBlock =>
    rw [Builder.apply]
    split
    · exact List.prefix_refl _
    · exact List.prefix_append ..

-- Lines that are written stay.
theorem prefix_lines_run (steps : List Step) (builder : Builder) :
    builder.lines <+: (builder.run steps).lines := by
  induction steps generalizing builder with
  | nil => exact List.prefix_refl _
  | cons step rest ih => exact (prefix_lines_apply builder step).trans (ih _)

-- A line as it is written at the outermost level: one of blanks is left empty.
def outerLine (text : Text) : Text := if text.isBlank then [] else text

theorem lines_addLine (hlevel : builder.level = 0) (text : Text) :
    (builder.addLine text).lines = builder.lines ++ [outerLine text] := by
  simp [Builder.addLine, outerLine, hlevel, Text.spaces]

theorem level_addLines (texts : List Text) (builder : Builder) :
    (builder.addLines texts).level = builder.level := by
  induction texts generalizing builder with
  | nil => rfl
  | cons text rest ih => exact ih (builder.addLine text)

theorem lines_addLines (hlevel : builder.level = 0) (texts : List Text) :
    (builder.addLines texts).lines = builder.lines ++ texts.map outerLine := by
  induction texts generalizing builder with
  | nil => exact (List.append_nil _).symm
  | cons text rest ih =>
    have hrest := @ih (builder.addLine text) hlevel
    rw [Builder.addLines, List.foldl_cons]
    rw [Builder.addLines] at hrest
    rw [hrest, lines_addLine hlevel, List.append_assoc, List.map_cons, List.singleton_append]

theorem isBlank_eq_false {t : Text} {c : CodePoint} (hmem : c ∈ t) (hc : c.isBlank = false) :
    t.isBlank = false := by
  rw [Text.isBlank, List.all_eq_false]
  exact ⟨c, hmem, by simp [hc]⟩

-- The lines between the first and the last one of a documentation comment.
def docLines (parts : List Text) : List Text :=
  parts.map fun part => if part.isEmpty then Text.ofString " *" else " * " ++ part

theorem docComment_eq (parts : List Text) :
    docComment parts = Text.joinLines (Text.ofString "/**" :: docLines parts ++ [Text.ofString " */"]) := rfl

theorem isProper_commentLines (lines : List Text) :
    Piece.IsProper (.comment (Text.joinLines (Text.ofString "/**" :: lines ++ [Text.ofString " */"]))) := by
  have hlast : Text.joinLines [Text.ofString " */"] = " */" := Text.join_singleton ..
  refine .inl ⟨?_, ?_⟩
  · rw [List.cons_append, ← List.singleton_append, joinLines_append (by simp) (by simp), List.append_assoc,
      Text.joinLines, Text.join_singleton]
    exact List.prefix_append ..
  · rw [joinLines_append (by simp) (by simp), hlast]
    exact (List.suffix_cons (.char ' ') _).trans (List.suffix_append ..)

theorem isProper_docComment (parts : List Text) : Piece.IsProper (.comment (docComment parts)) :=
  isProper_commentLines (docLines parts)

-- What a comment is cut into when it is laid out begins and ends as it does.
theorem lines_docComment (parts : List Text) :
    ∃ lines, (docComment parts).lines = Text.ofString "/**" :: lines ++ [Text.ofString " */"] := by
  have hopening : Text.lines (Text.ofString "/**") = [Text.ofString "/**"] := by decide
  have hclosing : Text.lines (Text.ofString " */") = [Text.ofString " */"] := by decide
  have hsplit (first second : Text) : Text.lines (first ++ "\n" ++ second) = first.lines ++ second.lines := by
    rw [List.append_assoc]
    exact Text.splitOn_append_cons ..
  rw [docComment_eq, List.cons_append, ← List.singleton_append, joinLines_append (by simp) (by simp), hsplit]
  cases hlines : docLines parts with
  | nil => exact ⟨[], by simp [Text.joinLines, Text.join_singleton, hopening, hclosing]⟩
  | cons first rest =>
    refine ⟨(Text.joinLines (first :: rest)).lines, ?_⟩
    rw [joinLines_append (by simp) (by simp), hsplit]
    simp [Text.joinLines, Text.join_singleton, hopening, hclosing]

-- What is laid out begins with the line that opens its first block.
theorem layout_block {opening : Text} (hopening : opening.isBlank = false) (closing : Text) (steps : List Step) :
    ∃ rest, layout (.openBlock opening closing :: steps) = Text.joinLines (opening :: rest) := by
  obtain ⟨rest, hrest⟩ := prefix_lines_run steps ((Builder.empty 2).apply (.openBlock opening closing))
  have hopened : ((Builder.empty 2).apply (.openBlock opening closing)).lines = [opening] :=
    (lines_addLine rfl opening).trans (by simp [outerLine, hopening, Builder.empty])
  rw [hopened, List.singleton_append] at hrest
  exact ⟨rest, congrArg Text.joinLines hrest.symm⟩

-- A comment comes before it.
theorem layout_doc (parts : List Text) {opening : Text} (hopening : opening.isBlank = false) (closing : Text)
    (steps : List Step) :
    ∃ comment rest, Piece.IsProper (.comment comment) ∧
      layout (.lines (docComment parts) :: .openBlock opening closing :: steps) =
        comment ++ "\n" ++ Text.joinLines (opening :: rest) := by
  obtain ⟨lines, hlines⟩ := lines_docComment parts
  have hfirst : outerLine (Text.ofString "/**") = "/**" := by decide
  have hlast : outerLine (Text.ofString " */") = " */" := by decide
  have hdoc := @lines_addLines (.empty 2) rfl (docComment parts).lines
  obtain ⟨rest, hrest⟩ := prefix_lines_run steps
    (((Builder.empty 2).apply (.lines (docComment parts))).apply (.openBlock opening closing))
  have hopened : (((Builder.empty 2).apply (.lines (docComment parts))).apply (.openBlock opening closing)).lines =
      (Text.ofString "/**" :: lines.map outerLine ++ [Text.ofString " */"]) ++ [opening] := by
    refine (lines_addLine (level_addLines _ _) opening).trans ?_
    rw [Builder.apply, hdoc, hlines, outerLine, hopening]
    simp [Builder.empty, hfirst, hlast]
  refine ⟨_, rest, isProper_commentLines (lines.map outerLine), ?_⟩
  rw [layout, Builder.text, Builder.run, List.foldl_cons, List.foldl_cons]
  rw [Builder.run] at hrest
  rw [← hrest, hopened, List.append_assoc _ [opening], List.singleton_append,
    joinLines_append (by simp) (by simp)]

variable {exported : Bool} {keyword name rest closing : Text}

theorem isBlank_declaration (h : Piece.IsProper (.declaration exported keyword name rest)) :
    (Piece.text (.declaration exported keyword name rest)).isBlank = false := by
  have hkeyword : ∀ keyword ∈ keywords, ∃ c ∈ keyword, c.isBlank = false := by decide
  obtain ⟨c, hc, hblank⟩ := hkeyword keyword h.1
  exact isBlank_eq_false (by simp [Piece.text, hc]) hblank

-- More text behind a declaration belongs to it.
theorem isScoped_declaration_append (h : Piece.IsProper (.declaration exported keyword name rest)) (more : Text) :
    IsScoped (Piece.text (.declaration exported keyword name rest) ++ more)
      (.declaring exported name) := by
  have hproper : Piece.IsProper (.declaration exported keyword name (rest ++ more)) := by
    refine ⟨h.1, ?_⟩
    cases hrest : rest with
    | nil => simpa [hrest] using h.2
    | cons c others => simpa [hrest] using h.2
  have htext : Piece.text (.declaration exported keyword name rest) ++ more =
      Piece.text (.declaration exported keyword name (rest ++ more)) := by
    simp [Piece.text]
  rw [htext]
  exact isScoped_declaration hproper

theorem isScoped_joinLines (h : Piece.IsProper (.declaration exported keyword name rest)) (lines : List Text) :
    IsScoped (Text.joinLines (Piece.text (.declaration exported keyword name rest) :: lines))
      (.declaring exported name) := by
  rw [joinLines_cons]
  exact isScoped_declaration_append h _

theorem joinLines_declaration_ne_nil (h : Piece.IsProper (.declaration exported keyword name rest))
    (lines : List Text) :
    Text.joinLines (Piece.text (.declaration exported keyword name rest) :: lines) ≠ [] := by
  rw [joinLines_cons]
  intro hnil
  have hblank := isBlank_declaration h
  rw [(List.append_eq_nil_iff.mp hnil).1] at hblank
  cases hblank

theorem isScoped_layout_block (h : Piece.IsProper (.declaration exported keyword name rest)) (steps : List Step) :
    IsScoped (layout (.openBlock (Piece.text (.declaration exported keyword name rest)) closing :: steps))
      (.declaring exported name) := by
  obtain ⟨lines, hlines⟩ := layout_block (isBlank_declaration h) closing steps
  rw [hlines]
  exact isScoped_joinLines h lines

theorem isScoped_layout_doc (parts : List Text) (h : Piece.IsProper (.declaration exported keyword name rest))
    (steps : List Step) :
    IsScoped (layout (.lines (docComment parts) ::
      .openBlock (Piece.text (.declaration exported keyword name rest)) closing :: steps))
      (.declaring exported name) := by
  obtain ⟨comment, lines, hcomment, hlines⟩ := layout_doc parts (isBlank_declaration h) closing steps
  rw [hlines]
  exact (isScoped_joinLines h lines).under_comment hcomment (joinLines_declaration_ne_nil h lines)

section Else

theorem isScoped_joinElse (h : Piece.IsProper (.declaration exported keyword name rest))
    (hline : .char '\n' ∉ Piece.text (.declaration exported keyword name rest)) (steps : List Step) :
    IsScoped (joinElse
      (layout (.openBlock (Piece.text (.declaration exported keyword name rest)) closing :: steps)))
      (.declaring exported name) := by
  obtain ⟨lines, hlines⟩ := layout_block (isBlank_declaration h) closing steps
  have hsplit : ∃ others, Text.lines (Text.joinLines
      (Piece.text (.declaration exported keyword name rest) :: lines)) =
      Piece.text (.declaration exported keyword name rest) :: others := by
    cases lines with
    | nil =>
      rw [Text.joinLines, Text.join_singleton]
      exact ⟨[], Text.splitOn_of_notMem hline⟩
    | cons second more =>
      rw [Text.joinLines, Text.join_cons_cons, List.append_assoc]
      exact ⟨_, Text.splitOn_append hline _⟩
  obtain ⟨others, hothers⟩ := hsplit
  have hfirst : ¬ ClosesBlock (Piece.text (.declaration exported keyword name rest)) := by
    have hkeyword : ∀ keyword ∈ keywords, ∃ c ∈ keyword, c.isBlank = false ∧ c ≠ .char '\x7d' := by
      decide
    obtain ⟨c, hc, hblank, hbrace⟩ := hkeyword keyword h.1
    exact not_closesBlock_of_mem (by simp [Piece.text, hc]) hblank hbrace
  obtain ⟨joined, hjoined, _⟩ := (joined_joinElseOnto _).exists_cons hfirst
  rw [hlines, joinElse, hothers, hjoined]
  exact isScoped_joinLines h joined

end Else

end Layouts

end HookGen.Code
