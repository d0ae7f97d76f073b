import HookGen.Proofs.Source.Reading

/-!
What the parsers make of the tokens of one operand: a literal, a name, or something between brackets, with
brackets of arrays behind it.
-/

namespace HookGen.Source

variable {token : Token} {tokens ts us rest : List Token} {type : TypeExpr} {types : List TypeExpr}

-- The words that begin a type with an operator.
def prefixWords : List Text := ["readonly", "keyof", "new"].map Text.ofString

-- Tokens at which no operator begins: what stands there is no such word, and no word with another behind it.
structure Operatorless (tokens : List Token) : Prop where
  words : ∀ word ∈ prefixWords, startsWithWord word tokens = false
  pair : startsWithKind .word tokens → startsWithKind .word (tokens.drop 1) = false

-- Tokens of a type that is complete before any brackets of arrays.
structure ReadsPrimary (type : TypeExpr) (ts : List Token) : Prop where
  arrowless : Arrowless ts
  begins : BeginsOperand ts
  operatorless : ∀ rest, FollowsOperand rest → Operatorless (ts ++ rest)
  unnamed : ∀ rest, FollowsOperand rest → skipElementName (ts ++ rest) = none
  reads : ∀ budget rest, 8 * ts.length ≤ budget + 1 → FollowsOperand rest → Arrowless rest →
    parsePrimary budget (ts ++ rest) = some (type, rest)

theorem parseOperand_of_operatorless {budget : Nat} {context : Context} (h : Operatorless tokens)
    (harrow : Arrowless tokens) :
    parseOperand (budget + 1) context tokens =
      (parsePrimary budget tokens).bind fun (type, rest) =>
        parsePostfix budget context tokens type rest := by
  have hreadonly := h.words "readonly" (by decide)
  have hkeyof := h.words "keyof" (by decide)
  have hnew := h.words "new" (by decide)
  have hword {word : Text} (hstart : startsWithKind .word tokens = false) :
      startsWithWord word tokens = false := not_word_of_not_kind hstart
  have habstract : (startsWithWord "abstract" tokens && startsWithWord "new" (tokens.drop 1)) = false := by
    cases hkind : startsWithKind .word tokens with
    | false => simp [hword hkind]
    | true => rw [not_word_of_not_kind (h.pair hkind), Bool.and_false]
  have hinfer : (startsWithWord "infer" tokens && startsWithKind .word (tokens.drop 1)) = false := by
    cases hkind : startsWithKind .word tokens with
    | false => simp [hword hkind]
    | true => rw [h.pair hkind, Bool.and_false]
  rw [parseOperand]
  simp only [harrow.not_startsFunction, hreadonly, hkeyof, hnew, habstract, hinfer, Bool.or_self,
    Bool.false_eq_true, if_false]
  rfl

theorem ReadsPrimary.operand (h : ReadsPrimary type ts) : ReadsOperand type ts where
  arrowless := h.arrowless
  begins := h.begins
  unnamed := h.unnamed
  reads := by
    intro budget context rest hbudget hrest harrow
    have hlength : 0 < ts.length := by
      obtain ⟨first, others, rfl, -⟩ := h.begins
      simp
    obtain ⟨budget, rfl⟩ : ∃ n, budget = n + 1 := ⟨budget - 1, by omega⟩
    refine ⟨budget, by omega, ?_⟩
    rw [parseOperand_of_operatorless (h.operatorless rest hrest) (arrowless_append.mpr ⟨h.arrowless, harrow⟩),
      h.reads budget rest hbudget hrest harrow]
    rfl

theorem operatorless_of_not_word (h : startsWithKind .word tokens = false) : Operatorless tokens where
  words := fun _ _ => not_word_of_not_kind h
  pair := fun hword => by simp [h] at hword

theorem skipElementName_of_not_word (h : token.kind ≠ .word) : skipElementName (token :: ts) = none := by
  cases ts <;> simp [skipElementName, h]

-- A type that does not begin with a word.
theorem ReadsPrimary.of_not_word (hbegins : BeginsOperand (token :: ts)) (hword : token.kind ≠ .word)
    (harrow : Arrowless (token :: ts))
    (hreads : ∀ budget rest, 8 * (ts.length + 1) ≤ budget + 1 → FollowsOperand rest → Arrowless rest →
      parsePrimary budget (token :: (ts ++ rest)) = some (type, rest)) :
    ReadsPrimary type (token :: ts) where
  arrowless := harrow
  begins := hbegins
  operatorless := fun rest _ => operatorless_of_not_word (by simp [hword])
  unnamed := fun rest _ => skipElementName_of_not_word hword
  reads := hreads

section Literals

variable {number : Token}

theorem ReadsPrimary.literal (h : token.kind = .string ∨ token.kind = .number) :
    ReadsPrimary (.verbatim [token]) [token] := by
  have hword : token.kind ≠ .word := by rcases h with h | h <;> simp [h]
  have hmark (mark : Text) : token.isMark mark = false := by rcases h with h | h <;> simp [Token.isMark, h]
  refine .of_not_word ⟨token, [], rfl, .inl ?_⟩ hword (arrowless_cons.mpr ⟨hmark _, arrowless_nil⟩) ?_
  · rcases h with h | h <;> simp [h]
  · intro budget rest hbudget _ _
    obtain ⟨budget, rfl⟩ : ∃ n, budget = n + 1 := ⟨budget - 1, by omega⟩
    rw [parsePrimary]
    rcases h with h | h <;> simp [h]

theorem ReadsPrimary.signed (hsign : token.isMark "-" ∨ token.isMark "+") (hnumber : number.kind = .number) :
    ReadsPrimary (.verbatim [token, number]) [token, number] := by
  have hkind : token.kind = .mark := by rcases hsign with h | h <;> simp_all [Token.isMark]
  have hother (mark : Text) (hminus : Text.ofString "-" ≠ mark) (hplus : Text.ofString "+" ≠ mark) :
      token.isMark mark = false := by
    rcases hsign with h | h
    · exact Token.not_isMark h hminus
    · exact Token.not_isMark h hplus
  have hplain : number.isMark "=>" = false := by simp [Token.isMark, hnumber]
  refine .of_not_word ?_ (by simp [hkind]) ?_ ?_
  · rcases hsign with h | h
    · exact .mark '-' h (by decide)
    · exact .mark '+' h (by decide)
  · exact arrowless_cons.mpr ⟨hother _ (by decide) (by decide), arrowless_cons.mpr ⟨hplain, arrowless_nil⟩⟩
  · intro budget rest hbudget _ _
    obtain ⟨budget, rfl⟩ : ∃ n, budget = n + 1 := ⟨budget - 1, by omega⟩
    have hparen : token.isMark "(" = false := hother _ (by decide) (by decide)
    have hbracket : token.isMark "[" = false := hother _ (by decide) (by decide)
    have hbrace : token.isMark "\x7b" = false := hother _ (by decide) (by decide)
    rw [parsePrimary]
    simp [hkind, hparen, hbracket, hbrace, hnumber, hsign]

end Literals

section Brackets

variable {closing : Token}

theorem ReadsPrimary.grouped (hopen : token.isMark "(") (h : ReadsType type ts) (hclose : closing.isMark ")") :
    ReadsPrimary (.grouped type) (token :: (ts ++ [closing])) := by
  have hboth : token.kind = .mark ∧ token.text = ("(" : Text) := Token.isMark_iff.mp hopen
  refine .of_not_word (.mark '(' hopen (by decide)) (by simp [hboth.1]) (arrowless_mark hopen (by decide)
    (arrowless_append.mpr ⟨h.arrowless, arrowless_mark hclose (by decide) arrowless_nil⟩)) ?_
  intro budget rest hbudget hrest harrow
  simp only [List.length_append, List.length_cons, List.length_nil] at hbudget
  obtain ⟨budget, rfl⟩ : ∃ n, budget = n + 1 := ⟨budget - 1, by omega⟩
  have hinner : parseType budget .inside (ts ++ closing :: rest) = some (type, closing :: rest) :=
    h.reads budget .inside (closing :: rest) (by omega) (.mark ')' hclose (by decide))
      (arrowless_mark hclose (by decide) harrow)
  rw [List.append_assoc, List.singleton_append, parsePrimary]
  simp [hboth.1, hopen, hinner, expectMark, hclose]

theorem ReadsPrimary.tuple (hopen : token.isMark "[") (h : ReadsElements types ts) :
    ReadsPrimary (.tuple types) (token :: ts) := by
  have hboth : token.kind = .mark ∧ token.text = ("[" : Text) := Token.isMark_iff.mp hopen
  have hparen : token.isMark "(" = false := Token.not_isMark hopen (by decide)
  refine .of_not_word (.mark '[' hopen (by decide)) (by simp [hboth.1])
    (arrowless_mark hopen (by decide) h.arrowless) ?_
  intro budget rest hbudget hrest harrow
  obtain ⟨budget, rfl⟩ : ∃ n, budget = n + 1 := ⟨budget - 1, by omega⟩
  rw [parsePrimary]
  simp [hboth.1, hparen, hopen, h.reads budget rest (by omega) harrow]

theorem ReadsPrimary.object {entries : List Entry} (hopen : token.isMark "\x7b") (h : ReadsEntries entries ts) :
    ReadsPrimary (.object entries) (token :: ts) := by
  have hboth : token.kind = .mark ∧ token.text = ("\x7b" : Text) := Token.isMark_iff.mp hopen
  have hparen : token.isMark "(" = false := Token.not_isMark hopen (by decide)
  have hbracket : token.isMark "[" = false := Token.not_isMark hopen (by decide)
  refine .of_not_word (.mark '\x7b' hopen (by decide)) (by simp [hboth.1])
    (arrowless_mark hopen (by decide) h.arrowless) ?_
  intro budget rest hbudget hrest harrow
  obtain ⟨budget, rfl⟩ : ∃ n, budget = n + 1 := ⟨budget - 1, by omega⟩
  rw [parsePrimary]
  simp [hboth.1, hparen, hbracket, hopen, h.reads budget rest (by omega) harrow]

theorem ReadsOperand.array (h : ReadsOperand type ts) (hopen : token.isMark "[")
    (hline : token.startsLine = false) (hclose : closing.isMark "]") :
    ReadsOperand (.array type) (ts ++ [token, closing]) where
  arrowless := arrowless_append.mpr ⟨h.arrowless,
    arrowless_mark hopen (by decide) (arrowless_mark hclose (by decide) arrowless_nil)⟩
  begins := h.begins.append
  unnamed := by
    intro rest hrest
    rw [List.append_assoc]
    exact h.unnamed _ (.mark '[' hopen (by decide))
  reads := by
    intro budget context rest hbudget hrest harrow
    simp only [List.length_append, List.length_cons, List.length_nil] at hbudget
    obtain ⟨left, hleft, hoperand⟩ := h.reads budget context (token :: closing :: rest) (by omega)
      (.mark '[' hopen (by decide))
      (arrowless_mark hopen (by decide) (arrowless_mark hclose (by decide) harrow))
    obtain ⟨left, rfl⟩ : ∃ n, left = n + 1 := ⟨left - 1, by omega⟩
    refine ⟨left, by simp only [List.length_append, List.length_cons, List.length_nil]; omega, ?_⟩
    rw [List.append_assoc]
    refine hoperand.trans ?_
    rw [parsePostfix]
    simp [hopen, hline, hclose]

end Brackets

section Names

-- The words that are no names of types.
def reservedWords : List Text := keywordTypes ++ prefixWords ++ ["typeof", "import"].map Text.ofString

-- A token that is the name of a type.
structure IsTypeName (token : Token) : Prop where
  kind : token.kind = .word
  free : token.text ∉ reservedWords

-- The rest of a dotted name.
def IsDots : List Token → Prop
  | [] => True
  | [_] => False
  | point :: word :: rest => point.isMark "." ∧ word.kind = .word ∧ IsDots rest

theorem not_isMark_of_word {mark : Text} (h : token.kind = .word) : token.isMark mark = false := by
  simp [Token.isMark, h]

theorem IsTypeName.not_isWord (h : IsTypeName token) {word : Text} (hword : word ∈ reservedWords) :
    token.isWord word = false := by
  have hne : token.text ≠ word := fun heq => h.free (heq ▸ hword)
  simp [Token.isWord, hne]

theorem IsDots.spanDots_append {dots : List Token} (h : IsDots dots)
    (hrest : startsWithMark "." rest = false) : spanDots (dots ++ rest) = (dots, rest) := by
  induction dots using IsDots.induct with
  | case1 =>
    cases rest with
    | nil => rfl
    | cons first rest =>
      cases rest with
      | nil => rfl
      | cons second rest =>
        have hfirst : first.isMark "." = false := hrest
        simp [spanDots, hfirst]
  | case2 => cases h
  | case3 point word dots ih =>
    obtain ⟨hpoint, hword, hdots⟩ := h
    rw [List.cons_append, List.cons_append, spanDots]
    simp [hpoint, hword, ih hdots]

theorem IsDots.arrowless {dots : List Token} (h : IsDots dots) : Arrowless dots := by
  induction dots using IsDots.induct with
  | case1 => exact arrowless_nil
  | case2 => cases h
  | case3 point word dots ih =>
    obtain ⟨hpoint, hword, hdots⟩ := h
    exact arrowless_mark hpoint (by decide) (arrowless_cons.mpr ⟨not_isMark_of_word hword, ih hdots⟩)

theorem operatorless_of_word (h : ∀ word ∈ prefixWords, token.isWord word = false)
    (hrest : startsWithKind .word rest = false) : Operatorless (token :: rest) :=
  ⟨h, fun _ => hrest⟩

theorem skipElementName_of_mark (hcolon : startsWithMark ":" rest = false)
    (hquestion : startsWithMark "?" rest = false) : skipElementName (token :: rest) = none := by
  cases rest with
  | nil => rfl
  | cons next rest =>
    have hnext : next.isMark ":" = false ∧ next.isMark "?" = false := ⟨hcolon, hquestion⟩
    simp [skipElementName, hnext]

theorem FollowsOperand.not_word (h : FollowsOperand rest) : startsWithKind .word rest = false :=
  h.not_kind (by decide) (by decide)

-- A type that is one word.
theorem ReadsPrimary.of_word (hword : token.kind = .word)
    (hwords : ∀ word ∈ prefixWords, token.isWord word = false)
    (hreads : ∀ budget rest, FollowsOperand rest →
      parsePrimary (budget + 1) (token :: rest) = some (type, rest)) : ReadsPrimary type [token] where
  arrowless := arrowless_cons.mpr ⟨not_isMark_of_word hword, arrowless_nil⟩
  begins := ⟨token, [], rfl, .inl (by simp [hword])⟩
  operatorless := fun rest hrest => operatorless_of_word hwords hrest.not_word
  unnamed := fun rest hrest =>
    skipElementName_of_mark (hrest.not_mark (by decide) (by decide)) (hrest.not_mark (by decide) (by decide))
  reads := by
    intro budget rest hbudget hrest _
    obtain ⟨budget, rfl⟩ : ∃ n, budget = n + 1 := ⟨budget - 1, by simp at hbudget; omega⟩
    exact hreads budget rest hrest

theorem ReadsPrimary.keyword (hword : token.kind = .word) (hkeyword : token.text ∈ keywordTypes) :
    ReadsPrimary (.verbatim [token]) [token] := by
  refine .of_word hword ?_ fun budget rest _ => ?_
  · intro word hmem
    have hdisjoint : ∀ keyword ∈ keywordTypes, ∀ word ∈ prefixWords, keyword ≠ word := by decide
    simp [Token.isWord, hdisjoint _ hkeyword word hmem]
  · rw [parsePrimary]
    simp [hword, hkeyword]

-- Behind the name of a type the parser looks for points and for arguments.
theorem parsePrimary_of_isTypeName {budget : Nat} {dots : List Token} (h : IsTypeName token)
    (hrest : startsWithKind .word (dots ++ rest) = false) (hdots : IsDots dots)
    (hpoint : startsWithMark "." rest = false) :
    parsePrimary (budget + 1) (token :: (dots ++ rest)) =
      if startsWithMark "<" rest then
        (parseArguments budget (rest.drop 1)).map fun (arguments, rest) => (.apply (token :: dots) arguments, rest)
      else if dots.isEmpty then some (.name token, rest)
      else some (.verbatim (token :: dots), rest) := by
  have hkeyword : token.text ∉ keywordTypes := fun hmem => h.free (by simp [reservedWords, hmem])
  have hsymbol : startsWithWord "symbol" (dots ++ rest) = false := not_word_of_not_kind hrest
  have hquery : token.isWord "typeof" = false := h.not_isWord (by decide)
  have himport : token.isWord "import" = false := h.not_isWord (by decide)
  rw [parsePrimary]
  simp only [h.kind, List.contains_iff_mem, hkeyword, hsymbol, hquery, himport, Bool.and_false, Bool.false_eq_true,
    if_false, hdots.spanDots_append hpoint]
  split
  · cases parseArguments budget (rest.drop 1) <;> rfl
  · cases dots <;> rfl

theorem ReadsPrimary.named (h : IsTypeName token) : ReadsPrimary (.name token) [token] := by
  refine .of_word h.kind (fun word hmem => h.not_isWord (by simp [reservedWords, hmem])) fun budget rest hrest => ?_
  have hangle : startsWithMark "<" rest = false := hrest.not_mark (by decide) (by decide)
  have hpoint : startsWithMark "." rest = false := hrest.not_mark (by decide) (by decide)
  have hdots : IsDots [] := trivial
  refine (parsePrimary_of_isTypeName h (by exact hrest.not_word) hdots hpoint).trans ?_
  rw [hangle]
  rfl

theorem IsDots.begins {dots : List Token} {angle : Token} (h : IsDots dots) (hopen : angle.isMark "<") :
    Begins [] ['.', '<'] (dots ++ angle :: ts) := by
  cases dots with
  | nil => exact .mark '<' hopen (by decide)
  | cons point dots =>
    cases dots with
    | nil => cases h
    | cons word dots => exact .mark '.' h.1 (by decide)

theorem ReadsPrimary.apply {dots : List Token} {angle : Token} (h : IsTypeName token) (hdots : IsDots dots)
    (hopen : angle.isMark "<") (harguments : ReadsArguments types ts) :
    ReadsPrimary (.apply (token :: dots) types) (token :: (dots ++ angle :: ts)) where
  arrowless := arrowless_cons.mpr ⟨not_isMark_of_word h.kind,
    arrowless_append.mpr ⟨hdots.arrowless, arrowless_mark hopen (by decide) harguments.arrowless⟩⟩
  begins := ⟨token, _, rfl, .inl (by simp [h.kind])⟩
  operatorless := fun rest _ => operatorless_of_word
    (fun word hmem => h.not_isWord (by simp [reservedWords, hmem]))
    ((hdots.begins hopen).append.not_kind (by decide) (by decide))
  unnamed := fun rest _ => skipElementName_of_mark
    ((hdots.begins hopen).append.not_mark (by decide) (by decide))
    ((hdots.begins hopen).append.not_mark (by decide) (by decide))
  reads := by
    intro budget rest hbudget hrest harrow
    simp only [List.length_append, List.length_cons] at hbudget
    obtain ⟨budget, rfl⟩ : ∃ n, budget = n + 1 := ⟨budget - 1, by omega⟩
    rw [List.cons_append, List.append_assoc, List.cons_append, parsePrimary_of_isTypeName h
      ((hdots.begins hopen).not_kind (by decide) (by decide)) hdots (Token.not_isMark hopen (by decide)),
      startsWithMark_cons, hopen, if_pos rfl, List.drop_one, List.tail_cons,
      harguments.reads budget rest (by omega) harrow]
    rfl

end Names

end HookGen.Source
