import HookGen.Proofs.Code.Outline

/-!
Reading the scope of a module off its text, for texts that do not depend on anything. What is read is
checked against the text.
-/

namespace HookGen.Code

-- Cut a text in front of each place where a mark occurs.
def cutBefore (mark : Text) : Text → List Text
  | [] => [[]]
  | c :: rest =>
    match cutBefore mark rest with
    | [] => [[c]]
    | first :: others =>
      if mark.isPrefixOf (c :: rest) then [] :: (c :: first) :: others else (c :: first) :: others

-- Break a text behind the first place where a mark occurs.
def breakBehind (mark : Text) : Text → Text × Text
  | [] => ([], [])
  | c :: rest =>
    if mark.isPrefixOf (c :: rest) then (mark, (c :: rest).drop mark.length)
    else
      let (before, after) := breakBehind mark rest
      (c :: before, after)

def readDeclaration (t : Text) : Piece :=
  let exported := Text.startsWith "export " t
  let plain := if exported then t.drop 7 else t
  let keyword := plain.takeWhile (· != .char ' ')
  let named := plain.drop (keyword.length + 1)
  .declaration exported keyword (named.takeWhile Naming.continuesIdentifier)
    (named.dropWhile Naming.continuesIdentifier)

-- A declaration, or a comment with a declaration under it or without one.
def readSection (t : Text) : List Piece :=
  if Text.startsWith "/**" t then
    let (comment, rest) := breakBehind "*/" t
    if rest.isEmpty then [.comment comment] else [.comment comment, readDeclaration (rest.drop 1)]
  else [readDeclaration t]

-- The sections of a text. All but the first begin with comments behind empty lines.
def readSections (t : Text) : List (List Piece) :=
  match cutBefore "\n\n/**" t.dropLast with
  | [] => []
  | first :: rest => readSection first :: rest.map fun section_ => readSection (section_.drop 2)

-- Whether a piece that was read is a comment or a declaration as it should be.
def isReadPiece : Piece → Bool
  | .comment text =>
    decide (("/**" : Text) <+: text ∧ ("*/" : Text) <:+ text ∨ ("// " : Text) <+: text ∧ .char '\n' ∉ text)
  | .declaration _ keyword _ rest =>
    decide (keyword ∈ keywords ∧ rest.head?.any (!Naming.continuesIdentifier ·))
  | _ => false

theorem isProper_of_isReadPiece {piece : Piece} (h : isReadPiece piece) : piece.IsProper := by
  cases piece with
  | comment text => simpa [isReadPiece, Piece.IsProper] using h
  | declaration exported keyword name rest => simpa [isReadPiece, Piece.IsProper] using h
  | link statement => cases h
  | copied name text => cases h

-- A text that is made of the sections that are read, with the scope of these.
structure ReadsAs (t : Text) (scope : Scope) : Prop where
  proper : ∀ pieces ∈ readSections t, ∀ piece ∈ pieces, isReadPiece piece
  text : t = joinSections ((readSections t).map fun pieces => Text.joinLines (pieces.map Piece.text))
  outline : Scope.ofPieces (readSections t).flatten = scope

theorem readsAs_iff {t : Text} {scope : Scope} : ReadsAs t scope ↔
    (∀ pieces ∈ readSections t, ∀ piece ∈ pieces, isReadPiece piece) ∧
      t = joinSections ((readSections t).map fun pieces => Text.joinLines (pieces.map Piece.text)) ∧
      Scope.ofPieces (readSections t).flatten = scope :=
  ⟨fun h => ⟨h.1, h.2, h.3⟩, fun h => ⟨h.1, h.2.1, h.2.2⟩⟩

instance (t : Text) (scope : Scope) : Decidable (ReadsAs t scope) := decidable_of_iff _ readsAs_iff.symm

theorem hasScopes_pieces {sections : List (List Piece)}
    (h : ∀ pieces ∈ sections, ∀ piece ∈ pieces, piece.IsProper) :
    HasScopes (sections.map fun pieces => Text.joinLines (pieces.map Piece.text))
      (.ofPieces sections.flatten) := by
  induction sections with
  | nil => exact .nil
  | cons pieces rest ih =>
    obtain ⟨hpieces, hrest⟩ := List.forall_mem_cons.mp h
    have happend : Scope.ofPieces (pieces :: rest).flatten = .ofPieces pieces ++ .ofPieces rest.flatten := by
      simp [Scope.ofPieces, Outline.ofPieces, Scope.append_eq, Outline.append_eq]
    rw [happend]
    exact .cons ⟨pieces, hpieces, rfl, rfl⟩ (ih hrest)

theorem ReadsAs.hasScope {t : Text} {scope : Scope} (h : ReadsAs t scope) : HasScope t scope := by
  have hscopes := hasScopes_pieces fun pieces hpieces piece hpiece =>
    isProper_of_isReadPiece (h.proper pieces hpieces piece hpiece)
  rw [h.outline] at hscopes
  exact ⟨_, hscopes, h.text⟩

end HookGen.Code
