import HookGen.Proofs.Schema.Access
import HookGen.Proofs.Source.Keeping
import HookGen.Proofs.Source.Streams

/-!
Which types are taken for string literals. A shape knows of a literal and of the index of an access only the
text, and looks at its first and its last character: these are the same quote for a literal, and also for what
merely begins and ends with literals.
-/

namespace HookGen

open Source Shape

namespace StringLiteral

variable {t : Text}

theorem isQuoted_ends (c d : CodePoint) (t : Text) :
    isQuoted (c :: (t ++ [d])) = (c == d && c.isIn ['"', '\'']) := by
  rw [isQuoted, Text.getLast?_ends]
  simp

-- Blanks inside a text do not tell whether it is quoted.
theorem isQuoted_filter (h : t.Trimmed) : isQuoted (t.filter Text.isSolid) = isQuoted t := by
  obtain ⟨c, rfl⟩ | ⟨c, middle, d, rfl⟩ := Text.exists_of_trimmed h
  · have hc : Text.isSolid c := by simpa using h.1
    rw [List.filter_cons_of_pos hc, List.filter_nil]
  · have hc : Text.isSolid c := by simpa using h.1
    have hd : Text.isSolid d := by simpa [Text.getLast?_ends] using h.2
    rw [List.filter_cons_of_pos hc, List.filter_append, List.filter_cons_of_pos hd, List.filter_nil, isQuoted_ends,
      isQuoted_ends]

end StringLiteral

namespace Source

variable {token first last : Token} {source : List Token}

-- A character that can be the first or the last of a token other than a string.
def isPlain (c : CodePoint) : Bool := !c.isIn ['"', '\''] && Text.isSolid c

-- What the lexical grammar asks of a token: a string ends with the quote that it begins with, and any other
-- token has neither a quote nor a blank at its ends.
def Token.IsSound (token : Token) : Prop :=
  (token.kind = .string → isString token.text) ∧
    (token.kind ≠ .string → token.text.head?.any isPlain ∧ token.text.getLast?.any isPlain)

instance : DecidablePred Token.IsSound := fun token =>
  inferInstanceAs (Decidable ((token.kind = .string → isString token.text = true) ∧
    (token.kind ≠ .string → token.text.head?.any isPlain = true ∧ token.text.getLast?.any isPlain = true)))

def Sound (source : List Token) : Prop := ∀ token ∈ source, token.IsSound

-- A string and nothing else.
def IsLiteral (source : List Token) : Prop := ∃ token, source = [token] ∧ token.kind = .string

-- A run of tokens that begins and ends with strings in the same quote.
def Delimited (source : List Token) : Prop :=
  ∃ first ∈ source.head?, ∃ last ∈ source.getLast?,
    first.kind = .string ∧ last.kind = .string ∧ first.text.head? = last.text.head?

theorem IsLiteral.delimited (h : IsLiteral source) : Delimited source := by
  obtain ⟨token, rfl, hkind⟩ := h
  exact ⟨token, rfl, token, rfl, hkind, hkind, rfl⟩

theorem Token.IsSound.string (h : token.IsSound) (hkind : token.kind = .string) :
    ∃ quote body, (quote = .char '"' ∨ quote = .char '\'') ∧ token.text = quote :: (body ++ [quote]) :=
  exists_of_isString (h.1 hkind)

theorem Token.IsSound.trimmed (h : token.IsSound) : token.text.Trimmed := by
  by_cases hkind : token.kind = .string
  · obtain ⟨quote, body, hquote, htext⟩ := h.string hkind
    have hsolid : Text.isSolid quote := by obtain rfl | rfl := hquote <;> decide
    rw [htext]
    exact ⟨hsolid, by rw [Text.getLast?_ends]; exact hsolid⟩
  · have hplain {c : Option CodePoint} (h : c.any isPlain) : c.any Text.isSolid := by
      cases c with
      | none => exact h
      | some c => exact (Bool.and_eq_true_iff.mp h).2
    exact ⟨hplain (h.2 hkind).1, hplain (h.2 hkind).2⟩

theorem Sound.trimmed (h : Sound source) : ∀ token ∈ source, token.text.Trimmed :=
  fun token hmem => (h token hmem).trimmed

-- A quote at either end of a token is one of a string, which has it at both.
theorem Token.IsSound.quote (h : token.IsSound) {c : CodePoint} (hquote : c.isIn ['"', '\''])
    (hc : token.text.head? = some c ∨ token.text.getLast? = some c) :
    token.kind = .string ∧ token.text.head? = some c ∧ token.text.getLast? = some c := by
  by_cases hkind : token.kind = .string
  · obtain ⟨quote, body, -, htext⟩ := h.string hkind
    rw [htext, Text.getLast?_ends, List.head?_cons, or_self] at hc
    rw [htext, Text.getLast?_ends]
    exact ⟨hkind, hc, hc⟩
  · have hplain : isPlain c := by
      obtain hc | hc := hc
      · simpa [hc] using (h.2 hkind).1
      · simpa [hc] using (h.2 hkind).2
    simp [isPlain, hquote] at hplain

-- A source is quoted where strings are at its ends.
theorem isQuoted_sourceText (hne : source ≠ []) (h : Sound source) :
    StringLiteral.isQuoted (sourceText source) ↔ Delimited source := by
  obtain ⟨first, hfirst⟩ : ∃ first, source.head? = some first := ⟨_, List.head?_eq_some_head hne⟩
  obtain ⟨last, hlast⟩ : ∃ last, source.getLast? = some last := ⟨_, List.getLast?_eq_some_getLast hne⟩
  have hsound := h first (List.mem_of_head? hfirst)
  have hsound' := h last (List.mem_of_getLast? hlast)
  have hhead : (sourceText source).head? = first.text.head? := by
    rw [head?_sourceText h.trimmed, hfirst]
    rfl
  have hend : (sourceText source).getLast? = last.text.getLast? := by
    rw [getLast?_sourceText h.trimmed, hlast]
    rfl
  constructor
  · intro hquoted
    rw [StringLiteral.isQuoted, hhead, hend, Bool.and_eq_true, Bool.and_eq_true, beq_iff_eq] at hquoted
    obtain ⟨⟨-, heq⟩, hquote⟩ := hquoted
    obtain ⟨c, hc, hquote⟩ := (Option.any_eq_true _ _).mp hquote
    obtain ⟨hkind, hc, -⟩ := hsound.quote hquote (.inl hc)
    obtain ⟨hkind', hc', -⟩ := hsound'.quote hquote (.inr (heq.symm.trans hc))
    exact ⟨first, hfirst, last, hlast, hkind, hkind', hc.trans hc'.symm⟩
  · rintro ⟨first', hfirst', last', hlast', hkind, hkind', heq⟩
    obtain rfl := Option.some.inj (hfirst.symm.trans hfirst')
    obtain rfl := Option.some.inj (hlast.symm.trans hlast')
    obtain ⟨quote, body, hquote, htext⟩ := hsound.string hkind
    have hquote : quote.isIn ['"', '\''] := by obtain rfl | rfl := hquote <;> rfl
    have hc : first.text.head? = some quote := by rw [htext, List.head?_cons]
    obtain ⟨-, -, hc'⟩ := hsound'.quote hquote (.inl (heq.symm.trans hc))
    have hlength : 2 ≤ (sourceText source).length := by
      obtain ⟨rest, rfl⟩ := List.head?_eq_some_iff.mp hfirst
      simp only [sourceText, htext, List.length_append, List.length_cons]
      omega
    rw [StringLiteral.isQuoted, hhead, hend, hc, hc']
    simpa [hquote] using hlength

end Source

namespace Shape

variable {P P' : List Token → Prop} {source : List Token} {type part : TypeExpr}

theorem isQuoted_keptText (hne : source ≠ []) (h : Sound source) :
    StringLiteral.isQuoted (keptText source) ↔ Delimited source := by
  have htrimmed := trimmed_sourceText hne h.trimmed
  rw [← isQuoted_sourceText hne h, keptText]
  split
  · have hflatten : (sourceText source).words.flatten = (sourceText source).filter Text.isSolid :=
      Text.flatten_wordsFrom _
    obtain ⟨c, hc, hsolid⟩ := (Option.any_eq_true _ _).mp htrimmed.1
    have hjoined := Text.trimmed_join_words (Text.words_ne_nil (List.mem_of_head? hc) hsolid)
    rw [← StringLiteral.isQuoted_filter hjoined,
      Text.filter_join fun _ hmem => (Text.isSolid_of_mem_words hmem).2, hflatten,
      StringLiteral.isQuoted_filter htrimmed]
  · rfl

-- A type that is kept as a source with a property, whatever parentheses stand around it.
inductive Around (P : List Token → Prop) : TypeExpr → Prop
  | verbatim {source : List Token} (h : P source) : Around P (.verbatim source)
  | grouped {inner : TypeExpr} (h : Around P inner) : Around P (.grouped inner)
  -- a bar in front of a single type
  | alone {only : TypeExpr} (h : Around P only) : Around P (.union [only])

-- A chain of indexed accesses on a name, with indexes that have a property.
inductive Chain (P : List Token → Prop) : TypeExpr → Prop
  | first {name : Token} {index : TypeExpr} {indexSource source : List Token} (h : P indexSource) :
    Chain P (.access (.name name) index indexSource source)
  | next {target index : TypeExpr} {indexSource source : List Token} (htarget : Chain P target) (h : P indexSource) :
    Chain P (.access target index indexSource source)

theorem Around.imp (himp : ∀ source, P source → P' source) (h : Around P type) : Around P' type := by
  induction h with
  | verbatim h => exact .verbatim (himp _ h)
  | grouped _ ih => exact .grouped ih
  | alone _ ih => exact .alone ih

theorem Chain.imp (himp : ∀ source, P source → P' source) (h : Chain P type) : Chain P' type := by
  induction h with
  | first h => exact .first (himp _ h)
  | next _ h ih => exact .next ih (himp _ h)

theorem isSome_path? : ∀ type : TypeExpr, type.Keeps Sound → ((path? type).isSome ↔ Chain Delimited type)
  | .access target index indexSource source, h => by
    obtain ⟨htarget, -, ⟨hne, hindex⟩, -⟩ := h
    have hquoted := isQuoted_sourceText hne hindex
    have hstart : (start? target).isSome ↔ (∃ token, target = .name token) ∨ Chain Delimited target := by
      rw [← isSome_path? target htarget]
      cases target <;> simp [start?, path?]
    rw [path?_access, (trimmed_sourceText hne hindex.trimmed).trim]
    constructor
    · intro hsome
      split at hsome
      · rename_i hq
        rw [Option.isSome_map, hstart] at hsome
        obtain ⟨token, rfl⟩ | hchain := hsome
        · exact .first (hquoted.mp hq)
        · exact .next hchain (hquoted.mp hq)
      · cases hsome
    · rintro (h | ⟨hchain, h⟩)
      · rw [if_pos (hquoted.mpr h)]
        rfl
      · rw [if_pos (hquoted.mpr h), Option.isSome_map, hstart]
        exact .inr hchain
  | .verbatim _, _ | .name _, _ | .grouped _, _ | .object _, _ | .union _, _ | .array _, _ | .tuple _, _
  | .apply _ _, _ => by
    constructor
    · intro h
      simp [path?] at h
    · rintro ⟨⟩

theorem isStringLiteral_text (t : Text) : (text t).isStringLiteral = StringLiteral.isQuoted t := rfl

-- What begins with the name of a type or ends with a bracket is not quoted.
theorem isStringLiteral_access {target index : TypeExpr} {indexSource : List Token}
    (h : (TypeExpr.access target index indexSource source).Keeps Sound) :
    (ofType (.access target index indexSource source)).isStringLiteral = false := by
  obtain ⟨-, -, -, ⟨hne, hsource⟩, closing, hclosing, hmark⟩ := h
  rw [ofType]
  split
  · rfl
  · rw [isStringLiteral_text, Bool.eq_false_iff, Ne, isQuoted_keptText hne hsource]
    rintro ⟨first, -, last, hlast, -, hkind, -⟩
    obtain rfl := Option.some.inj (hlast.symm.trans hclosing)
    simp [Token.isMark, hkind] at hmark

theorem isStringLiteral_name {token : Token} (h : (TypeExpr.name token).Keeps Sound) :
    (ofType (.name token)).isStringLiteral = false := by
  obtain ⟨hsound, hword⟩ := h
  have hsource : sourceText [token] = token.text := by simp [sourceText]
  change StringLiteral.isQuoted token.text = false
  rw [← hsource, Bool.eq_false_iff, Ne, isQuoted_sourceText (List.cons_ne_nil token []) hsound]
  rintro ⟨first, hfirst, -, -, hkind, -⟩
  obtain rfl := Option.some.inj hfirst
  rw [hword] at hkind
  cases hkind

-- A shape is taken for a string literal where a type is kept as a source with strings at its ends.
theorem isStringLiteral_ofType : ∀ type : TypeExpr, type.Keeps Sound →
    ((ofType type).isStringLiteral ↔ Around Delimited type)
  | .verbatim source, h => by
    rw [ofType, isStringLiteral_text, isQuoted_keptText h.1 h.2]
    exact ⟨.verbatim, fun | .verbatim h => h⟩
  | .grouped inner, h => by
    rw [ofType, isStringLiteral_ofType inner h]
    exact ⟨.grouped, fun | .grouped h => h⟩
  | .union [only], h => by
    have honly : ofType (.union [only]) = ofType only := by rw [ofType, ofTypes, ofTypes]
    rw [honly, isStringLiteral_ofType only h.1]
    exact ⟨.alone, fun | .alone h => h⟩
  | .name token, h => by
    rw [isStringLiteral_name h]
    exact ⟨nofun, nofun⟩
  | .access target index indexSource source, h => by
    rw [isStringLiteral_access h]
    exact ⟨nofun, nofun⟩
  | .union [], _ | .union (_ :: _ :: _), _ | .object _, _ | .array _, _ | .tuple _, _ | .apply _ _, _ =>
    ⟨nofun, nofun⟩

-- What a type consists of, as far as it is taken apart.
inductive TypePart : TypeExpr → TypeExpr → Prop
  | self (type : TypeExpr) : TypePart type type
  | grouped {inner part : TypeExpr} (h : TypePart inner part) : TypePart (.grouped inner) part
  | property {entries : List Entry} {name : List Token} {optional readonly : Bool} {type part : TypeExpr}
    (hentry : .property name optional readonly (some type) ∈ entries) (h : TypePart type part) :
    TypePart (.object entries) part
  | member {members : List TypeExpr} {member part : TypeExpr} (hmember : member ∈ members)
    (h : TypePart member part) : TypePart (.union members) part
  | array {element part : TypeExpr} (h : TypePart element part) : TypePart (.array element) part
  | element {elements : List TypeExpr} {element part : TypeExpr} (helement : element ∈ elements)
    (h : TypePart element part) : TypePart (.tuple elements) part
  | target {target index part : TypeExpr} {indexSource source : List Token} (h : TypePart target part) :
    TypePart (.access target index indexSource source) part
  | index {target index part : TypeExpr} {indexSource source : List Token} (h : TypePart index part) :
    TypePart (.access target index indexSource source) part
  | argument {name : List Token} {arguments : List TypeExpr} {argument part : TypeExpr}
    (hargument : argument ∈ arguments) (h : TypePart argument part) : TypePart (.apply name arguments) part

theorem keeps_of_mem {types : List TypeExpr} (h : keepTypes P types) (hmem : type ∈ types) : type.Keeps P := by
  induction types with
  | nil => cases hmem
  | cons first types ih =>
    obtain rfl | hmem := List.mem_cons.mp hmem
    · exact h.1
    · exact ih h.2 hmem

theorem keeps_of_mem_entries {entries : List Entry} {name : List Token} {optional readonly : Bool}
    (h : keepEntries P entries) (hmem : .property name optional readonly (some type) ∈ entries) : type.Keeps P := by
  induction entries with
  | nil => cases hmem
  | cons first entries ih =>
    obtain rfl | hmem := List.mem_cons.mp hmem
    · exact h.1
    · exact ih (keepEntries_cons_iff.mp h).2 hmem

theorem TypePart.keeps (hpart : TypePart type part) (h : type.Keeps P) : part.Keeps P := by
  induction hpart with
  | self => exact h
  | grouped _ ih => exact ih h
  | property hentry _ ih => exact ih (keeps_of_mem_entries h hentry)
  | member hmember _ ih => exact ih (keeps_of_mem h hmember)
  | array _ ih => exact ih h
  | element helement _ ih => exact ih (keeps_of_mem h helement)
  | target _ ih => exact ih h.1
  | index _ ih => exact ih h.2.1
  | argument hargument _ ih => exact ih (keeps_of_mem h hargument)

-- Only string literals are taken for string literals: a type is one exactly if its shape is, and an access is a
-- lookup exactly if it is a chain on a name whose indexes are. Any other access stays its text.
structure Faithful (type : TypeExpr) : Prop where
  literal : (ofType type).isStringLiteral ↔ Around IsLiteral type
  lookup : ∀ target index indexSource source, type = .access target index indexSource source →
    (Chain IsLiteral type ∧ ∃ path, ofType type = .lookup .none path) ∨
      (¬ Chain IsLiteral type ∧ ofType type = text (keptText source))

-- A type, or the indexes of an access, which begin and end with strings as if these were one.
def Disguised (type : TypeExpr) : Prop :=
  (Around Delimited type ∧ ¬ Around IsLiteral type) ∨ (Chain Delimited type ∧ ¬ Chain IsLiteral type)

theorem faithful_iff (h : type.Keeps Sound) : Faithful type ↔ ¬ Disguised type := by
  have hliteral := isStringLiteral_ofType type h
  have hlookup := isSome_path? type h
  have haround : Around IsLiteral type → Around Delimited type := .imp fun _ => IsLiteral.delimited
  have hchain : Chain IsLiteral type → Chain Delimited type := .imp fun _ => IsLiteral.delimited
  constructor
  · rintro hfaithful (⟨hends, hnot⟩ | ⟨hends, hnot⟩)
    · exact hnot (hfaithful.literal.mp (hliteral.mpr hends))
    · cases type with
      | access target index indexSource source =>
        obtain ⟨hall, -⟩ | ⟨-, htext⟩ := hfaithful.lookup _ _ _ _ rfl
        · exact hnot hall
        · obtain ⟨path, hpath⟩ := Option.isSome_iff_exists.mp (hlookup.mpr hends)
          rw [ofType, hpath] at htext
          cases htext
      | _ => cases hends
  · intro hplain
    refine ⟨hliteral.trans ⟨fun hends => ?_, haround⟩, ?_⟩
    · by_contra hnot
      exact hplain (.inl ⟨hends, hnot⟩)
    · rintro target index indexSource source rfl
      by_cases hends : Chain Delimited (.access target index indexSource source)
      · obtain ⟨path, hpath⟩ := Option.isSome_iff_exists.mp (hlookup.mpr hends)
        refine .inl ⟨?_, path, by rw [ofType, hpath]⟩
        by_contra hnot
        exact hplain (.inr ⟨hends, hnot⟩)
      · refine .inr ⟨fun hall => hends (hchain hall), ?_⟩
        have hpath : path? (.access target index indexSource source) = none :=
          Option.not_isSome_iff_eq_none.mp fun hsome => hends (hlookup.mp hsome)
        rw [ofType, hpath]

-- In a source with sound tokens, strings at both ends are all that can pass for a literal.
theorem parts_faithful {source : Text} {declarations : List Declaration} {declaration : Declaration}
    (hparsed : parseDeclarations source = some declarations)
    (hsound : ∀ token ∈ (tokens source).dropLast, token.IsSound) (hmem : declaration ∈ declarations)
    (hpart : TypePart declaration.value part) : Faithful part ↔ ¬ Disguised part :=
  faithful_iff (hpart.keeps (keeps_parseDeclarations hparsed hsound declaration hmem))

section Sample

-- The kinds of the tokens that a type is kept as, parentheses aside.
def keptKinds : TypeExpr → List Kind
  | .verbatim source => source.map Token.kind
  | .grouped inner => keptKinds inner
  | .union [only] => keptKinds only
  | _ => []

theorem around_isLiteral_iff : ∀ type : TypeExpr, Around IsLiteral type ↔ keptKinds type = [.string]
  | .verbatim source => by
    rw [keptKinds, List.map_eq_singleton_iff]
    exact ⟨fun | .verbatim h => h, fun h => .verbatim h⟩
  | .grouped inner => by
    rw [keptKinds, ← around_isLiteral_iff inner]
    exact ⟨fun | .grouped h => h, .grouped⟩
  | .union [only] => by
    rw [keptKinds, ← around_isLiteral_iff only]
    exact ⟨fun | .alone h => h, .alone⟩
  | .name _ | .object _ | .union [] | .union (_ :: _ :: _) | .array _ | .tuple _ | .access _ _ _ _ | .apply _ _ =>
    ⟨nofun, nofun⟩

theorem Chain.keptKinds_eq_nil (h : Chain P type) : keptKinds type = [] := by
  cases h <;> rfl

theorem parts_faithful_grouped :
    (∀ token ∈ (tokens "type T = (\"it's\")").dropLast, token.IsSound) ∧
      ∃ declaration, parseDeclarations "type T = (\"it's\")" = some [declaration] ∧
        TypePart declaration.value declaration.value ∧ Faithful declaration.value := by
  have hsound : ∀ token ∈ (tokens "type T = (\"it's\")").dropLast, token.IsSound := by decide +kernel
  have hkinds : (parseDeclarations "type T = (\"it's\")").map (·.map (keptKinds ·.value)) = some [[.string]] := by
    decide +kernel
  obtain ⟨declarations, hparsed, hkinds⟩ := Option.map_eq_some_iff.mp hkinds
  obtain ⟨declaration, rfl, hkind⟩ := List.map_eq_singleton_iff.mp hkinds
  have hliteral := (around_isLiteral_iff _).mpr hkind
  have hplain : ¬ Disguised declaration.value := by
    rintro (⟨-, hnot⟩ | ⟨hchain, -⟩)
    · exact hnot hliteral
    · rw [hchain.keptKinds_eq_nil] at hkind
      cases hkind
  exact ⟨hsound, declaration, hparsed, .self _,
    (parts_faithful hparsed hsound (List.mem_singleton_self _) (.self _)).mpr hplain⟩

-- An intersection of two literals.
theorem intersection_not_faithful :
    (∀ token ∈ (tokens "type T = \"a\" & \"b\"").dropLast, token.IsSound) ∧
      ∃ declaration, parseDeclarations "type T = \"a\" & \"b\"" = some [declaration] ∧
        ¬ Faithful declaration.value := by
  have hkinds : (parseDeclarations "type T = \"a\" & \"b\"").map
      (·.map fun declaration => (keptKinds declaration.value, (ofType declaration.value).isStringLiteral)) =
        some [([.string, .mark, .string], true)] := by decide +kernel
  obtain ⟨declarations, hparsed, hkinds⟩ := Option.map_eq_some_iff.mp hkinds
  obtain ⟨declaration, rfl, hkind⟩ := List.map_eq_singleton_iff.mp hkinds
  obtain ⟨hkind, htaken⟩ := Prod.mk.inj hkind
  refine ⟨by decide +kernel, declaration, hparsed, fun hfaithful => ?_⟩
  have hliteral := (around_isLiteral_iff _).mp (hfaithful.literal.mp htaken)
  rw [hkind] at hliteral
  cases hliteral

end Sample

end Shape

end HookGen
