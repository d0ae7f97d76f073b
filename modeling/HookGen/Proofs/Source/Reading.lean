import HookGen.Proofs.Source.Following

/-!
What the parsers of types make of tokens that have been written out: one lemma for each way in which
types are put together. A type that is read leaves alone whatever can follow it.
-/

namespace HookGen.Source

variable {token bar : Token} {tokens ts us rest : List Token} {type : TypeExpr} {types : List TypeExpr}

-- Tokens of one operand, which is `type`: the operand parser comes to its end, where brackets may
-- follow, with at most eight calls open for each token.
structure ReadsOperand (type : TypeExpr) (ts : List Token) : Prop where
  arrowless : Arrowless ts
  begins : BeginsOperand ts
  unnamed : ∀ rest, FollowsOperand rest → skipElementName (ts ++ rest) = none
  reads : ∀ budget context rest, 8 * ts.length ≤ budget → FollowsOperand rest → Arrowless rest →
    ∃ left, budget ≤ left + 8 * ts.length ∧
      parseOperand budget context (ts ++ rest) = parsePostfix left context (ts ++ rest) type rest

-- Tokens of the members of a union with bars between them.
structure ReadsMembers (types : List TypeExpr) (ts : List Token) : Prop where
  arrowless : Arrowless ts
  begins : BeginsOperand ts
  unnamed : ∀ rest, FollowsOperand rest → skipElementName (ts ++ rest) = none
  reads : ∀ budget context bar rest, 8 * ts.length + 3 ≤ budget → bar.isMark "|" →
    FollowsType rest → Arrowless rest →
    parseAlternatives budget context (bar :: (ts ++ rest)) = some (types, rest)

-- Tokens of one type.
structure ReadsType (type : TypeExpr) (ts : List Token) : Prop where
  arrowless : Arrowless ts
  begins : BeginsOperand ts
  unnamed : ∀ rest, FollowsOperand rest → skipElementName (ts ++ rest) = none
  reads : ∀ budget context rest, 8 * ts.length + 4 ≤ budget → FollowsType rest → Arrowless rest →
    parseType budget context (ts ++ rest) = some (type, rest)

-- A union of several members; one member stands for itself.
def joinTypes : List TypeExpr → TypeExpr
  | [type] => type
  | types => .union types

theorem parsePostfix_of_follows {left : Nat} {context : Context} (hrest : FollowsMember rest)
    (hleft : 0 < left) : parsePostfix left context tokens type rest = some (type, rest) := by
  obtain ⟨left, rfl⟩ : ∃ n, left = n + 1 := ⟨left - 1, by omega⟩
  have hbracket : startsWithMark "[" rest = false := hrest.not_mark (by decide) (by decide)
  simp [parsePostfix, hbracket]

theorem parseAlternatives_of_follows {budget : Nat} {context : Context} (hrest : FollowsType rest)
    (hbudget : 0 < budget) : parseAlternatives budget context rest = some ([], rest) := by
  obtain ⟨budget, rfl⟩ : ∃ n, budget = n + 1 := ⟨budget - 1, by omega⟩
  have hbar : startsWithMark "|" rest = false := hrest.not_mark (by decide) (by decide)
  simp [parseAlternatives, hbar]

theorem ReadsOperand.parseIntersection {budget : Nat} {context : Context} (h : ReadsOperand type ts)
    (hbudget : 8 * ts.length + 2 ≤ budget) (hrest : FollowsMember rest) (harrow : Arrowless rest) :
    parseIntersection budget context (ts ++ rest) = some (type, rest) := by
  obtain ⟨budget, rfl⟩ : ∃ n, budget = n + 2 := ⟨budget - 2, by omega⟩
  have hleading : startsWithMark "&" (ts ++ rest) = false :=
    h.begins.append.not_mark (by decide) (by decide)
  have hfollowing : startsWithMark "&" rest = false := hrest.not_mark (by decide) (by decide)
  obtain ⟨left, hleft, hoperand⟩ := h.reads (budget + 1) context rest (by omega) hrest.operand harrow
  rw [parsePostfix_of_follows hrest (by omega)] at hoperand
  simp [Source.parseIntersection, hleading, hoperand, skipIntersected, hfollowing]

theorem ReadsOperand.member (h : ReadsOperand type ts) : ReadsMembers [type] ts where
  arrowless := h.arrowless
  begins := h.begins
  unnamed := h.unnamed
  reads := by
    intro budget context bar rest hbudget hbar hrest harrow
    obtain ⟨budget, rfl⟩ : ∃ n, budget = n + 1 := ⟨budget - 1, by omega⟩
    have hfirst : Source.parseIntersection budget context (ts ++ rest) = some (type, rest) :=
      h.parseIntersection (by omega) hrest.member harrow
    have hothers : parseAlternatives budget context rest = some ([], rest) :=
      parseAlternatives_of_follows hrest (by omega)
    simp [parseAlternatives, hbar, hfirst, hothers]

theorem ReadsMembers.cons (h : ReadsOperand type ts) (hbar : bar.isMark "|")
    (hs : ReadsMembers types us) : ReadsMembers (type :: types) (ts ++ bar :: us) where
  arrowless :=
    arrowless_append.mpr ⟨h.arrowless, arrowless_mark hbar (by decide) hs.arrowless⟩
  begins := h.begins.append
  unnamed := by
    intro rest hrest
    rw [List.append_assoc]
    exact h.unnamed _ (Begins.mark '|' hbar (by decide))
  reads := by
    intro budget context first rest hbudget hfirst hrest harrow
    simp only [List.length_append, List.length_cons] at hbudget
    obtain ⟨budget, rfl⟩ : ∃ n, budget = n + 1 := ⟨budget - 1, by omega⟩
    have harrow' : Arrowless (bar :: us ++ rest) :=
      arrowless_append.mpr ⟨arrowless_mark hbar (by decide) hs.arrowless, harrow⟩
    have hmember : Source.parseIntersection budget context (ts ++ (bar :: us ++ rest)) =
        some (type, bar :: us ++ rest) :=
      h.parseIntersection (by omega) (.mark '|' hbar (by decide)) harrow'
    have hothers := hs.reads budget context bar rest (by omega) hbar hrest harrow
    rw [List.append_assoc]
    simp only [List.cons_append] at hmember hothers ⊢
    simp [parseAlternatives, hfirst, hmember, hothers]

-- Operands with bars between them, as members of a union.
inductive Alternatives : List TypeExpr → List Token → Prop
  | single {type : TypeExpr} {ts : List Token} (h : ReadsOperand type ts) : Alternatives [type] ts
  | cons {type : TypeExpr} {types : List TypeExpr} {ts us : List Token} {bar : Token}
    (h : ReadsOperand type ts) (hbar : bar.isMark "|") (hs : Alternatives types us) :
    Alternatives (type :: types) (ts ++ bar :: us)

theorem Alternatives.append {others : List TypeExpr} (h : Alternatives types ts) (hbar : bar.isMark "|")
    (hs : Alternatives others us) : Alternatives (types ++ others) (ts ++ bar :: us) := by
  induction h with
  | single h => exact .cons h hbar hs
  | cons h hfirst _ ih =>
    rw [List.append_assoc, List.cons_append]
    exact .cons h hfirst ih

theorem Alternatives.ne_nil (h : Alternatives types ts) : types ≠ [] := by
  cases h <;> simp

theorem Alternatives.members (h : Alternatives types ts) : ReadsMembers types ts := by
  induction h with
  | single h => exact h.member
  | cons h hbar _ ih => exact .cons h hbar ih

-- A union is read like its members behind a bar.
theorem parseUnion_eq {budget : Nat} {context : Context} (hleading : startsWithMark "|" tokens = false)
    (hbar : bar.isMark "|") :
    parseUnion (budget + 1) context tokens =
      (parseAlternatives (budget + 1) context (bar :: tokens)).map fun (types, rest) =>
        (joinTypes types, rest) := by
  cases hfirst : parseIntersection budget context tokens with
  | none => simp [parseUnion, parseAlternatives, hleading, hbar, hfirst]
  | some read =>
    obtain ⟨first, rest⟩ := read
    cases hothers : parseAlternatives budget context rest with
    | none => simp [parseUnion, parseAlternatives, hleading, hbar, hfirst, hothers]
    | some read =>
      obtain ⟨others, rest⟩ := read
      cases others <;> simp [parseUnion, parseAlternatives, hleading, hbar, hfirst, hothers, joinTypes]

theorem ReadsMembers.joined (h : ReadsMembers types ts) : ReadsType (joinTypes types) ts where
  arrowless := h.arrowless
  begins := h.begins
  unnamed := h.unnamed
  reads := by
    intro budget context rest hbudget hrest harrow
    obtain ⟨budget, rfl⟩ : ∃ n, budget = n + 2 := ⟨budget - 2, by omega⟩
    have hleading : startsWithMark "|" (ts ++ rest) = false :=
      h.begins.append.not_mark (by decide) (by decide)
    have hextends : startsWithWord "extends" rest = false :=
      not_word_of_not_kind (hrest.not_kind (by decide) (by decide))
    have hunion : parseUnion (budget + 1) context (ts ++ rest) = some (joinTypes types, rest) := by
      have hbar : Token.isMark "|" ⟨[], .mark, "|"⟩ := rfl
      rw [parseUnion_eq hleading hbar, h.reads _ _ _ _ (by omega) hbar hrest harrow]
      rfl
    simp [parseType, hunion, hextends]

-- Tokens of the elements of a tuple with its closing bracket.
structure ReadsElements (types : List TypeExpr) (ts : List Token) : Prop where
  arrowless : Arrowless ts
  reads : ∀ budget rest, 8 * ts.length ≤ budget → Arrowless rest →
    parseElements budget (ts ++ rest) = some (types, rest)

-- Tokens of type arguments with the closing bracket.
structure ReadsArguments (types : List TypeExpr) (ts : List Token) : Prop where
  arrowless : Arrowless ts
  reads : ∀ budget rest, 8 * ts.length ≤ budget → Arrowless rest →
    parseArguments budget (ts ++ rest) = some (types, rest)

theorem ReadsType.parseElement {budget : Nat} (h : ReadsType type ts) (hbudget : 8 * ts.length + 5 ≤ budget)
    (hrest : FollowsType rest) (harrow : Arrowless rest) :
    parseElement budget (ts ++ rest) = some (type, rest) := by
  obtain ⟨budget, rfl⟩ : ∃ n, budget = n + 1 := ⟨budget - 1, by omega⟩
  have hspread : startsWithMark "..." (ts ++ rest) = false :=
    h.begins.append.not_mark (by decide) (by decide)
  have hoptional : startsWithMark "?" rest = false := hrest.not_mark (by decide) (by decide)
  have htype := h.reads budget .inside rest (by omega) hrest harrow
  simp [Source.parseElement, hspread, h.unnamed rest hrest.member.operand, htype, hoptional]

namespace ReadsElements

theorem close (hclose : token.isMark "]") : ReadsElements [] [token] where
  arrowless := arrowless_mark hclose (by decide) arrowless_nil
  reads := by
    intro budget rest hbudget harrow
    obtain ⟨budget, rfl⟩ : ∃ n, budget = n + 1 := ⟨budget - 1, by simp at hbudget; omega⟩
    simp [parseElements, hclose]

theorem last (h : ReadsType type ts) (hclose : token.isMark "]") :
    ReadsElements [type] (ts ++ [token]) where
  arrowless := arrowless_append.mpr ⟨h.arrowless, arrowless_mark hclose (by decide) arrowless_nil⟩
  reads := by
    intro budget rest hbudget harrow
    simp only [List.length_append, List.length_cons, List.length_nil] at hbudget
    obtain ⟨budget, rfl⟩ : ∃ n, budget = n + 1 := ⟨budget - 1, by omega⟩
    have hfirst : startsWithMark "]" (ts ++ token :: rest) = false :=
      h.begins.append.not_mark (by decide) (by decide)
    have helement : parseElement budget (ts ++ token :: rest) = some (type, token :: rest) :=
      h.parseElement (by omega) (.mark ']' hclose (by decide)) (arrowless_mark hclose (by decide) harrow)
    simp [parseElements, hfirst, helement, hclose]

theorem cons (h : ReadsType type ts) (hcomma : token.isMark ",") (hs : ReadsElements types us) :
    ReadsElements (type :: types) (ts ++ token :: us) where
  arrowless := arrowless_append.mpr ⟨h.arrowless, arrowless_mark hcomma (by decide) hs.arrowless⟩
  reads := by
    intro budget rest hbudget harrow
    simp only [List.length_append, List.length_cons] at hbudget
    obtain ⟨budget, rfl⟩ : ∃ n, budget = n + 1 := ⟨budget - 1, by omega⟩
    have hfirst : startsWithMark "]" (ts ++ token :: (us ++ rest)) = false :=
      h.begins.append.not_mark (by decide) (by decide)
    have helement : parseElement budget (ts ++ token :: (us ++ rest)) = some (type, token :: (us ++ rest)) :=
      h.parseElement (by omega) (.mark ',' hcomma (by decide))
        (arrowless_mark hcomma (by decide) (arrowless_append.mpr ⟨hs.arrowless, harrow⟩))
    have hnotLast : token.isMark "]" = false := Token.not_isMark hcomma (by decide)
    have hothers := hs.reads budget rest (by omega) harrow
    simp [parseElements, hfirst, helement, hnotLast, expectMark, hcomma, hothers]

end ReadsElements

namespace ReadsArguments

theorem last (h : ReadsType type ts) (hclose : token.isMark ">") :
    ReadsArguments [type] (ts ++ [token]) where
  arrowless := arrowless_append.mpr ⟨h.arrowless, arrowless_mark hclose (by decide) arrowless_nil⟩
  reads := by
    intro budget rest hbudget harrow
    simp only [List.length_append, List.length_cons, List.length_nil] at hbudget
    obtain ⟨budget, rfl⟩ : ∃ n, budget = n + 1 := ⟨budget - 1, by omega⟩
    have htype := h.reads budget .inside (token :: rest) (by omega) (.mark '>' hclose (by decide))
      (arrowless_mark hclose (by decide) harrow)
    simp [parseArguments, htype, hclose]

-- Behind a comma another argument has to follow.
theorem cons (h : ReadsType type ts) (hcomma : token.isMark ",") (hs : ReadsArguments types us)
    (hbegins : BeginsOperand us) : ReadsArguments (type :: types) (ts ++ token :: us) where
  arrowless := arrowless_append.mpr ⟨h.arrowless, arrowless_mark hcomma (by decide) hs.arrowless⟩
  reads := by
    intro budget rest hbudget harrow
    simp only [List.length_append, List.length_cons] at hbudget
    obtain ⟨budget, rfl⟩ : ∃ n, budget = n + 1 := ⟨budget - 1, by omega⟩
    have htype := h.reads budget .inside (token :: (us ++ rest)) (by omega)
      (.mark ',' hcomma (by decide))
      (arrowless_mark hcomma (by decide) (arrowless_append.mpr ⟨hs.arrowless, harrow⟩))
    have hnotLast : token.isMark ">" = false := Token.not_isMark hcomma (by decide)
    have hgoesOn : startsWithMark ">" (us ++ rest) = false :=
      hbegins.append.not_mark (by decide) (by decide)
    have hothers := hs.reads budget rest (by omega) harrow
    simp [parseArguments, htype, hnotLast, expectMark, hcomma, hgoesOn, hothers]

end ReadsArguments

-- Tokens of one entry of an object type.
structure ReadsEntry (entry : Entry) (ts : List Token) : Prop where
  arrowless : Arrowless ts
  begins : Begins [.word, .number, .string] [] ts
  reads : ∀ budget rest, 8 * ts.length ≤ budget → FollowsType rest → Arrowless rest →
    parseEntry budget (ts ++ rest) = some (entry, rest)

-- Tokens of the entries of an object type with its closing brace.
structure ReadsEntries (entries : List Entry) (ts : List Token) : Prop where
  arrowless : Arrowless ts
  reads : ∀ budget rest, 8 * ts.length ≤ budget → Arrowless rest →
    parseEntries budget (ts ++ rest) = some (entries, rest)

-- A token that can be the whole name of a property.
def isSimpleName (token : Token) : Bool :=
  token.kind == .word || token.kind == .number || token.kind == .string

theorem not_isMark_of_isSimpleName {mark : Text} (h : isSimpleName token) : token.isMark mark = false := by
  simp only [isSimpleName, Bool.or_eq_true, beq_iff_eq] at h
  rcases h with (h | h) | h <;> simp [Token.isMark, h]

theorem startsName_of_isSimpleName (h : isSimpleName token) : startsName token = true := by
  simp only [isSimpleName, Bool.or_eq_true, beq_iff_eq] at h
  rcases h with (h | h) | h <;> simp [startsName, h]

-- Marks behind the name of a property do not begin another name.
theorem not_startsName {c : Char} (h : token.isMark [.char c]) (hc : c ≠ '[') :
    startsName token = false := by
  have hboth : token.kind = .mark ∧ token.text = [.char c] := Token.isMark_iff.mp h
  have hbracket : token.isMark "[" = false :=
    Token.not_isMark h (by simpa [Text.ofString, Text.ofChars] using hc)
  simp [startsName, hboth.1, hbracket]

section Property

variable {name next : Token} {readonly : Bool}

theorem dropModifiers_name (hnext : startsName next = false) :
    dropModifiers readonly (name :: next :: rest) = (readonly, name :: next :: rest) := by
  simp [dropModifiers, usesModifier, hnext]

theorem dropModifiers_readonly (hword : token.isWord "readonly") (hname : isSimpleName name)
    (hline : name.startsLine = false) (hnext : startsName next = false) :
    dropModifiers false (token :: name :: next :: rest) = (true, name :: next :: rest) := by
  have hboth : token.kind = .word ∧ token.text = ("readonly" : Text) :=
    Token.isWord_iff.mp hword
  have hmodifier : ("readonly" : Text) ∈ modifierWords := by decide
  rw [dropModifiers, if_pos (by simp [usesModifier, hboth, hmodifier, startsName_of_isSimpleName hname, hline]),
    hword, dropModifiers_name hnext]
  rfl

theorem dropAccessors_name (hname : isSimpleName name) (hnext : startsName next = false) :
    dropAccessors false (name :: next :: rest) = (false, name :: next :: rest) := by
  simp [dropAccessors, usesModifier, hnext, not_isMark_of_isSimpleName hname]

theorem readName_simple (hname : isSimpleName name) :
    readName (name :: rest) = some ([name], rest) := by
  simp [readName, not_isMark_of_isSimpleName hname, startsName_of_isSimpleName hname]

-- What stands between the name of a property and its type.
inductive Colons : Bool → List Token → Prop
  | colon {colon : Token} (h : colon.isMark ":") : Colons false [colon]
  | optional {mark colon : Token} (hmark : mark.isMark "?") (h : colon.isMark ":") : Colons true [mark, colon]

theorem Colons.arrowless {optional : Bool} (h : Colons optional ts) : Arrowless ts := by
  cases h with
  | colon hcolon => exact arrowless_mark hcolon (by decide) arrowless_nil
  | optional hmark hcolon =>
    exact arrowless_mark hmark (by decide) (arrowless_mark hcolon (by decide) arrowless_nil)

theorem Colons.exists_next {optional : Bool} (h : Colons optional ts) :
    ∃ next after, ts = next :: after ∧ startsName next = false ∧ next.isMark "(" = false ∧
      next.isMark "<" = false := by
  cases h with
  | colon hcolon =>
    exact ⟨_, _, rfl, not_startsName hcolon (by decide), Token.not_isMark hcolon (by decide),
      Token.not_isMark hcolon (by decide)⟩
  | optional hmark hcolon =>
    exact ⟨_, _, rfl, not_startsName hmark (by decide), Token.not_isMark hmark (by decide),
      Token.not_isMark hmark (by decide)⟩

-- The beginning of a property is passed over up to its type, and nothing else begins there.
theorem parseEntry_property {budget : Nat} {optional : Bool} {colons : List Token}
    (hname : isSimpleName name) (hcolons : Colons optional colons)
    (hdrop : dropModifiers false tokens = (readonly, name :: (colons ++ rest)))
    (hbegins : Begins [.word, .number, .string] [] tokens)
    (hnew : startsWithWord "new" tokens → tokens = name :: (colons ++ rest)) :
    parseEntry (budget + 1) tokens = (parseType budget .line rest).map fun (type, rest) =>
      (.property [name] optional readonly (some type), rest) := by
  obtain ⟨next, after, rfl, hnext, hparen, hangle⟩ := hcolons.exists_next
  have hmark (mark : Text) : startsWithMark mark tokens = false := hbegins.not_mark (by decide) (by simp)
  have hbracket : name.isMark "[" = false := not_isMark_of_isSimpleName hname
  have hindex : startsIndexSignature (name :: next :: (after ++ rest)) = false := by
    cases after ++ rest <;> simp [startsIndexSignature, hbracket]
  have hconstructor : (startsWithWord "new" tokens &&
      (startsWithMark "(" (tokens.drop 1) || startsWithMark "<" (tokens.drop 1))) = false := by
    cases hword : startsWithWord "new" tokens with
    | false => rfl
    | true => simp [hnew hword, hparen, hangle]
  rw [parseEntry]
  simp only [hmark, Bool.or_self, Bool.false_eq_true, if_false, hdrop, hindex, hconstructor,
    List.cons_append, dropAccessors_name hname hnext, readName_simple hname, Option.bind_eq_bind,
    Option.bind_some]
  cases hcolons with
  | colon hcolon =>
    have hquestion : next.isMark "?" = false := Token.not_isMark hcolon (by decide)
    simp only [List.nil_append, startsWithMark_cons, hquestion, hangle, hparen, hcolon, Bool.false_eq_true,
      Bool.false_and, Bool.or_self, if_false, if_true, List.drop_one, List.tail_cons]
    cases parseType budget .line rest <;> rfl
  | @optional _ colon hquestion hcolon =>
    have hangle' : colon.isMark "<" = false := Token.not_isMark hcolon (by decide)
    have hparen' : colon.isMark "(" = false := Token.not_isMark hcolon (by decide)
    simp only [List.cons_append, List.nil_append, startsWithMark_cons, hquestion, hangle', hparen', hcolon,
      Bool.false_eq_true, Bool.false_and, Bool.or_self, if_false, if_true, List.drop_one, List.tail_cons]
    cases parseType budget .line rest <;> rfl

theorem begins_of_isSimpleName (h : isSimpleName name) : Begins [.word, .number, .string] [] (name :: rest) := by
  refine ⟨name, rest, rfl, .inl ?_⟩
  simp only [isSimpleName, Bool.or_eq_true, beq_iff_eq] at h
  rcases h with (h | h) | h <;> simp [h]

theorem isSimpleName_of_isWord {word : Text} (h : token.isWord word) : isSimpleName token := by
  have hkind : token.kind = .word ∧ token.text = word := Token.isWord_iff.mp h
  simp [isSimpleName, hkind.1]

theorem arrowless_of_isSimpleName (h : isSimpleName name) (hs : Arrowless ts) : Arrowless (name :: ts) :=
  arrowless_cons.mpr ⟨not_isMark_of_isSimpleName h, hs⟩

-- A property with a type, behind `readonly` or not.
theorem ReadsEntry.property {optional : Bool} {colons : List Token} (hname : isSimpleName name)
    (hcolons : Colons optional colons) (h : ReadsType type ts) :
    ReadsEntry (.property [name] optional false (some type)) (name :: (colons ++ ts)) where
  arrowless :=
    arrowless_of_isSimpleName hname (arrowless_append.mpr ⟨hcolons.arrowless, h.arrowless⟩)
  begins := begins_of_isSimpleName hname
  reads := by
    intro budget rest hbudget hrest harrow
    obtain ⟨next, after, hcolonsEq, hnext, -, -⟩ := hcolons.exists_next
    simp only [List.length_cons, List.length_append] at hbudget
    obtain ⟨budget, rfl⟩ : ∃ n, budget = n + 1 := ⟨budget - 1, by omega⟩
    have hlength : 0 < colons.length := by simp [hcolonsEq]
    have hdrop : dropModifiers false (name :: (colons ++ (ts ++ rest))) =
        (false, name :: (colons ++ (ts ++ rest))) := by
      rw [hcolonsEq]
      exact dropModifiers_name hnext
    rw [List.cons_append, List.append_assoc,
      parseEntry_property hname hcolons hdrop (begins_of_isSimpleName hname) fun _ => rfl,
      h.reads budget .line rest (by omega) hrest harrow]
    rfl

theorem ReadsEntry.readonlyProperty {optional : Bool} {colons : List Token} (hword : token.isWord "readonly")
    (hname : isSimpleName name) (hline : name.startsLine = false) (hcolons : Colons optional colons)
    (h : ReadsType type ts) :
    ReadsEntry (.property [name] optional true (some type)) (token :: name :: (colons ++ ts)) where
  arrowless :=
    arrowless_of_isSimpleName (isSimpleName_of_isWord hword) (arrowless_of_isSimpleName hname
      (arrowless_append.mpr ⟨hcolons.arrowless, h.arrowless⟩))
  begins := begins_of_isSimpleName (isSimpleName_of_isWord hword)
  reads := by
    intro budget rest hbudget hrest harrow
    obtain ⟨next, after, hcolonsEq, hnext, -, -⟩ := hcolons.exists_next
    have hnotNew : token.isWord "new" = false := Token.not_isWord hword (by decide)
    simp only [List.length_cons, List.length_append] at hbudget
    obtain ⟨budget, rfl⟩ : ∃ n, budget = n + 1 := ⟨budget - 1, by omega⟩
    have hlength : 0 < colons.length := by simp [hcolonsEq]
    have hdrop : dropModifiers false (token :: name :: (colons ++ (ts ++ rest))) =
        (true, name :: (colons ++ (ts ++ rest))) := by
      rw [hcolonsEq]
      exact dropModifiers_readonly hword hname hline hnext
    rw [List.cons_append, List.cons_append, List.append_assoc,
      parseEntry_property hname hcolons hdrop (begins_of_isSimpleName (isSimpleName_of_isWord hword))
        fun hnew => by simp [hnotNew] at hnew,
      h.reads budget .line rest (by omega) hrest harrow]
    rfl

end Property

namespace ReadsEntries

variable {entry : Entry} {entries : List Entry}

theorem close (hclose : token.isMark "\x7d") : ReadsEntries [] [token] where
  arrowless := arrowless_mark hclose (by decide) arrowless_nil
  reads := by
    intro budget rest hbudget harrow
    obtain ⟨budget, rfl⟩ : ∃ n, budget = n + 1 := ⟨budget - 1, by simp at hbudget; omega⟩
    simp [parseEntries, hclose]

-- The brace can stand right behind the last entry.
theorem last (h : ReadsEntry entry ts) (hclose : token.isMark "\x7d") :
    ReadsEntries [entry] (ts ++ [token]) where
  arrowless := arrowless_append.mpr ⟨h.arrowless, arrowless_mark hclose (by decide) arrowless_nil⟩
  reads := by
    intro budget rest hbudget harrow
    simp only [List.length_append, List.length_cons, List.length_nil] at hbudget
    obtain ⟨budget, rfl⟩ : ∃ n, budget = n + 2 := ⟨budget - 2, by omega⟩
    have hfirst (mark : Text) : startsWithMark mark (ts ++ token :: rest) = false :=
      h.begins.append.not_mark (by decide) (by simp)
    have hentry : parseEntry (budget + 1) (ts ++ token :: rest) = some (entry, token :: rest) :=
      h.reads _ _ (by omega) (.mark '\x7d' hclose (by decide)) (arrowless_mark hclose (by decide) harrow)
    have hothers : parseEntries (budget + 1) (token :: rest) = some ([], rest) := by
      simp [parseEntries, hclose]
    rw [List.append_assoc, List.singleton_append, parseEntries]
    simp [hfirst, hentry, hclose, hothers]

theorem cons (h : ReadsEntry entry ts) (hend : token.isMark ";") (hs : ReadsEntries entries us) :
    ReadsEntries (entry :: entries) (ts ++ token :: us) where
  arrowless := arrowless_append.mpr ⟨h.arrowless, arrowless_mark hend (by decide) hs.arrowless⟩
  reads := by
    intro budget rest hbudget harrow
    simp only [List.length_append, List.length_cons] at hbudget
    obtain ⟨budget, rfl⟩ : ∃ n, budget = n + 2 := ⟨budget - 2, by omega⟩
    have hfirst (mark : Text) : startsWithMark mark (ts ++ token :: (us ++ rest)) = false :=
      h.begins.append.not_mark (by decide) (by simp)
    have hentry : parseEntry (budget + 1) (ts ++ token :: (us ++ rest)) = some (entry, token :: (us ++ rest)) :=
      h.reads _ _ (by omega) (.mark ';' hend (by decide))
        (arrowless_mark hend (by decide) (arrowless_append.mpr ⟨hs.arrowless, harrow⟩))
    have hnotLast : token.isMark "\x7d" = false := Token.not_isMark hend (by decide)
    have hothers : parseEntries (budget + 1) (token :: (us ++ rest)) = some (entries, rest) := by
      rw [parseEntries]
      simp [hnotLast, hend, hs.reads budget rest (by omega) harrow]
    rw [List.append_assoc, List.cons_append, parseEntries]
    simp [hfirst, hentry, hend, hothers]

end ReadsEntries

end HookGen.Source
