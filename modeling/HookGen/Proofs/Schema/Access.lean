import HookGen.Proofs.Render.Written
import HookGen.Proofs.Schema.Introspection
import HookGen.Proofs.Source.Alias
import HookGen.Proofs.Text.StringLiteral
import HookGen.Proofs.Text.Utf8

/-!
Indexed accesses on the root type. Each is read as a lookup of what stands between the quotes, escapes and
all, while properties are found by the values of their names: what an access names is found as long as no
index has an escape.
-/

namespace HookGen

open Source Shape

namespace StringLiteral

variable {c quote : CodePoint} {t digits l value s : Text}

-- A literal of the grammar with a value.
def HasValue (l value : Text) : Prop := ∃ us, IsLiteral l us ∧ ofUnits us = value

-- In front of a text that its quote closes there may be more characters that are neither quote nor backslash.
theorem closes_append {rest : Text} (hquote : quote ∉ t) (hescape : .char '\\' ∉ t) (h : closes quote rest) :
    closes quote (t ++ rest) := by
  induction t with
  | nil => exact h
  | cons c t ih =>
    obtain ⟨hc, ht⟩ := List.ne_and_not_mem_of_not_mem_cons hquote
    obtain ⟨hc', ht'⟩ := List.ne_and_not_mem_of_not_mem_cons hescape
    have hothers := ih ht ht'
    rw [List.cons_append]
    cases hrest : t ++ rest with
    | nil =>
      rw [hrest] at hothers
      cases hothers
    | cons d others =>
      rw [closes, if_neg hc'.symm, ← hrest, hothers]
      simp [hc.symm]

-- The text of a literal is closed by the quote behind it.
theorem Spells.closes {us : List UInt16} (hquote : quote = .char '"' ∨ quote = .char '\'')
    (h : Spells quote t us) : closes quote (t ++ [quote]) := by
  have hplain {digits rest : Text} {n : Nat} (hn : Hexadecimal digits n) (hrest : Source.closes quote rest) :
      Source.closes quote (digits ++ rest) := by
    refine closes_append ?_ (hn.notMem (by decide)) hrest
    obtain rfl | rfl := hquote <;> exact hn.notMem (by decide)
  induction h with
  | nil => simp [Source.closes]
  | @plain c t _ hc hescape _ _ _ ih =>
    exact closes_append (t := [c]) (by simpa using hc.symm) (by simpa using hescape.symm) ih
  | single _ _ ih => exact ih
  | null _ _ ih => exact ih
  | fixed _ hn _ _ ih =>
    rw [List.cons_append, List.cons_append, List.append_assoc]
    exact hplain hn ih
  | @braced _ digits t _ hn _ ih =>
    have hbrace (brace : Char) (hb : brace = '\x7b' ∨ brace = '\x7d') {rest : Text}
        (hrest : Source.closes quote rest) : Source.closes quote (.char brace :: rest) := by
      refine closes_append (t := [.char brace]) ?_ ?_ hrest
      · obtain rfl | rfl := hquote <;> obtain rfl | rfl := hb <;> decide
      · obtain rfl | rfl := hb <;> decide
    have hall := hbrace '\x7b' (.inl rfl) (hplain hn (hbrace '\x7d' (.inr rfl) ih))
    simpa [Source.closes] using hall
  | ordinary _ _ ih => exact ih
  | @continued lineEnd _ _ hend _ _ ih =>
    simp only [lineEnds, List.mem_cons, List.not_mem_nil, or_false] at hend
    obtain rfl | rfl | rfl | rfl | rfl := hend
    · exact ih
    · exact ih
    · refine closes_append (t := [.char '\n']) ?_ (by decide) ih
      obtain rfl | rfl := hquote <;> decide
    · exact ih
    · exact ih

theorem IsLiteral.isString {us : List UInt16} (h : IsLiteral l us) : isString l := by
  obtain ⟨quote, body, hquote, rfl, hbody⟩ := h
  rw [Source.isString, hbody.closes hquote]
  simpa using hquote

theorem length_value_le {escape : Escape} (h : escape.value = .ok value) : value.length ≤ 1 := by
  cases escape with
  | numeric n =>
    rw [Escape.value] at h
    split at h
    · obtain rfl := Except.ok.inj h
      rfl
    · cases h
  | lineContinuation => exact (Except.ok.inj h) ▸ Nat.zero_le 1
  | character c => exact (Except.ok.inj h) ▸ Nat.le_refl 1

theorem length_decodeEscapes_le (h : decodeEscapes t = .ok s) : s.length ≤ t.length := by
  fun_induction decodeEscapes t generalizing s with
  | case1 =>
    obtain rfl := Except.ok.inj h
    exact Nat.le_refl 0
  | case2 c rest escape =>
    rename_i ih
    obtain ⟨value, hvalue, h⟩ := except_bind_eq_ok.mp h
    obtain ⟨others, hothers, h⟩ := except_bind_eq_ok.mp h
    obtain rfl := Except.ok.inj h
    have hlength := length_value_le hvalue
    have hrest := ih hothers
    simp only [List.length_drop, List.length_append, List.length_cons] at hrest ⊢
    omega
  | case3 c rest hrest ih =>
    obtain ⟨others, hothers, h⟩ := except_bind_eq_ok.mp h
    obtain rfl := Except.ok.inj h
    exact Nat.succ_le_succ (ih hothers)

-- An escape is longer than what it stands for. Only the quote cannot be escaped that closes the text.
theorem length_decodeEscapes_lt (h : decodeEscapes t = .ok s) (hclosed : closes quote (t ++ [quote]))
    (hescape : .char '\\' ∈ t) : s.length < t.length := by
  fun_induction decodeEscapes t generalizing s with
  | case1 => cases hescape
  | case2 c rest escape =>
    obtain ⟨value, hvalue, h⟩ := except_bind_eq_ok.mp h
    obtain ⟨others, hothers, h⟩ := except_bind_eq_ok.mp h
    obtain rfl := Except.ok.inj h
    have hlength := length_value_le hvalue
    have hrest := length_decodeEscapes_le hothers
    simp only [List.length_drop, List.length_append, List.length_cons] at hrest ⊢
    omega
  | case3 c rest hrest ih =>
    obtain ⟨others, hothers, h⟩ := except_bind_eq_ok.mp h
    obtain rfl := Except.ok.inj h
    cases rest with
    | nil =>
      obtain rfl := List.mem_singleton.mp hescape
      cases hclosed
    | cons d rest =>
      have hc : c ≠ .char '\\' := fun heq => hrest d rest heq rfl
      rw [List.cons_append, List.cons_append, closes, if_neg hc, Bool.and_eq_true] at hclosed
      exact Nat.succ_lt_succ (ih hothers hclosed.2 ((List.mem_cons.mp hescape).resolve_left hc.symm))

theorem decodeEscapes_of_plain (h : .char '\\' ∉ t) : decodeEscapes t = .ok t := by
  induction t with
  | nil => rw [decodeEscapes]
  | cons c t ih =>
    obtain ⟨hc, ht⟩ := List.ne_and_not_mem_of_not_mem_cons h
    rw [Json.decodeEscapes_cons hc.symm, ih ht]
    rfl

theorem length_joinPairs_le (t : Text) : (joinPairs t).length ≤ t.length := by
  fun_induction joinPairs t with
  | case1 high low rest _ ih => simp only [List.length_cons]; omega
  | case2 high low rest _ ih => simpa using ih
  | case3 c rest _ ih => simpa using ih
  | case4 => simp

theorem joinPairs_of_isScalar (h : Utf8.IsScalar t) : joinPairs t = t :=
  Json.joinPairs_of_unpaired (Json.unpaired_of_scalar fun offset hmem => nomatch h (.surrogate offset) hmem)

-- The value of a literal is what stands between its quotes where there is no escape, and only there.
theorem HasValue.inner_eq (h : HasValue l value) (hscalar : Utf8.IsScalar l) : inner l = value ↔ .char '\\' ∉ l := by
  obtain ⟨us, ⟨quote, body, hquote, rfl, hbody⟩, rfl⟩ := h
  obtain ⟨s, hs, rfl⟩ := hbody.decodeEscapes
  have hmem : .char '\\' ∈ quote :: (body ++ [quote]) ↔ .char '\\' ∈ body := by
    obtain rfl | rfl := hquote <;> simp
  rw [inner_of_quote, ofUnits_flatMap_units, hmem]
  constructor
  · intro heq hescape
    have hshorter := length_decodeEscapes_lt hs (hbody.closes hquote) hescape
    have hlength := length_joinPairs_le s
    rw [← heq] at hlength
    omega
  · intro hplain
    obtain rfl := Except.ok.inj ((decodeEscapes_of_plain hplain).symm.trans hs)
    exact (joinPairs_of_isScalar fun c hc => hscalar c (by simp [hc])).symm

-- Characters that need no escape stand for themselves.
theorem spells_plain (h : ∀ c ∈ t, c ≠ quote ∧ c ≠ '\\' ∧ c ≠ '\n' ∧ c ≠ '\r') : Spells quote t (t.flatMap units) := by
  induction t with
  | nil => exact .nil
  | cons c t ih =>
    obtain ⟨⟨hquote, hescape, hline, hreturn⟩, ht⟩ := List.forall_mem_cons.mp h
    exact .plain hquote hescape hline hreturn (ih ht)

theorem hasValue_plain (hquote : quote = .char '"' ∨ quote = .char '\'')
    (h : ∀ c ∈ t, c ≠ quote ∧ c ≠ '\\' ∧ c ≠ '\n' ∧ c ≠ '\r') (hscalar : Utf8.IsScalar t) :
    HasValue (quote :: (t ++ [quote])) t :=
  ⟨_, ⟨quote, t, hquote, rfl, spells_plain h⟩, (ofUnits_flatMap_units t).trans (joinPairs_of_isScalar hscalar)⟩

end StringLiteral

namespace Shape

-- The path that a type begins: the name that an access can be on, or the path of an access.
def start? : TypeExpr → Option (List Text)
  | .name token => some [token.text]
  | type => path? type

theorem path?_access (target index : TypeExpr) (indexSource source : List Token) :
    path? (.access target index indexSource source) =
      if StringLiteral.isQuoted (sourceText indexSource).trim then
        (start? target).map (· ++ [StringLiteral.inner (sourceText indexSource).trim])
      else none := by
  have hbind : path? (.access target index indexSource source) = (start? target).bind fun start =>
      if StringLiteral.isQuoted (sourceText indexSource).trim then
        some (start ++ [StringLiteral.inner (sourceText indexSource).trim])
      else none := by
    cases target <;> simp only [path?, start?] <;> rfl
  rw [hbind]
  split <;> cases start? target <;> rfl

end Shape

namespace Source

variable {token closing : Token} {ts us rest : List Token} {type index : TypeExpr} {t l : Text} {path : List Text}

-- An index in brackets behind an operand.
theorem ReadsOperand.access (h : ReadsOperand type ts) (hopen : token.isMark "[") (hline : token.startsLine = false)
    (hindex : ReadsType index us) (hclose : closing.isMark "]") :
    ReadsOperand (.access type index us (ts ++ token :: (us ++ [closing]))) (ts ++ token :: (us ++ [closing])) where
  arrowless := arrowless_append.mpr ⟨h.arrowless, arrowless_mark hopen (by decide)
    (arrowless_append.mpr ⟨hindex.arrowless, arrowless_mark hclose (by decide) arrowless_nil⟩)⟩
  begins := h.begins.append
  unnamed := by
    intro rest hrest
    rw [List.append_assoc]
    exact h.unnamed _ (.mark '[' hopen (by decide))
  reads := by
    intro budget context rest hbudget hrest harrow
    simp only [List.length_append, List.length_cons, List.length_nil] at hbudget
    have harrow' : Arrowless (closing :: rest) := arrowless_mark hclose (by decide) harrow
    obtain ⟨left, hleft, hoperand⟩ := h.reads budget context (token :: (us ++ closing :: rest)) (by omega)
      (.mark '[' hopen (by decide))
      (arrowless_mark hopen (by decide) (arrowless_append.mpr ⟨hindex.arrowless, harrow'⟩))
    obtain ⟨left, rfl⟩ : ∃ n, left = n + 1 := ⟨left - 1, by omega⟩
    have hread : parseType left .inside (us ++ closing :: rest) = some (index, closing :: rest) :=
      hindex.reads left .inside (closing :: rest) (by omega) (.mark ']' hclose (by decide)) harrow'
    have hfilled : startsWithMark "]" (us ++ closing :: rest) = false :=
      hindex.begins.append.not_mark (by decide) (by decide)
    have hsplit : ts ++ token :: (us ++ [closing]) ++ rest = ts ++ token :: (us ++ closing :: rest) := by simp
    have hwhole := consumed_append_self (ts ++ token :: (us ++ [closing])) rest
    rw [hsplit] at hwhole ⊢
    refine ⟨left, by simp only [List.length_append, List.length_cons, List.length_nil]; omega, ?_⟩
    rw [hoperand, parsePostfix]
    simp [hopen, hline, hfilled, hread, hwhole, consumed_append_self, expectMark, hclose]

-- A text that is read as an operand that begins a path.
structure IsPath (t : Text) (path : List Text) : Prop where
  visible : Visible t
  reads : ∀ lead, ∃ type ts, Lexes lead t ts ∧ ReadsOperand type ts ∧ start? type = some path

theorem isPath_name {name : Text} (h : isTypeName name) : IsPath name [name] := by
  obtain ⟨hword, hfree⟩ := isTypeName_iff.mp h
  refine ⟨.of_isWord hword, fun lead => ⟨.name ⟨lead, .word, name⟩, _, .word hword, ?_, rfl⟩⟩
  exact (ReadsPrimary.named ⟨rfl, hfree⟩).operand

theorem exists_of_closes {quote : CodePoint} (h : closes quote t) : ∃ body, t = body ++ [quote] := by
  induction t using closes.induct with
  | case1 => cases h
  | case2 c =>
    obtain rfl : c = quote := by simpa [closes] using h
    exact ⟨[], rfl⟩
  | case3 d t ih =>
    rw [closes, if_pos rfl] at h
    obtain ⟨body, rfl⟩ := ih h
    exact ⟨.char '\\' :: d :: body, rfl⟩
  | case4 c d t hc ih =>
    rw [closes, if_neg hc, Bool.and_eq_true] at h
    obtain ⟨body, hbody⟩ := ih h.2
    exact ⟨c :: body, by rw [hbody, List.cons_append]⟩

theorem exists_of_isString (h : isString l) :
    ∃ quote body, (quote = .char '"' ∨ quote = .char '\'') ∧ l = quote :: (body ++ [quote]) := by
  cases l with
  | nil => cases h
  | cons quote rest =>
    simp only [isString, Bool.and_eq_true, Bool.or_eq_true, decide_eq_true_eq] at h
    obtain ⟨body, rfl⟩ := exists_of_closes h.2
    exact ⟨quote, body, h.1, rfl⟩

theorem trim_of_isString (h : isString l) : l.trim = l := by
  obtain ⟨quote, body, hquote, rfl⟩ := exists_of_isString h
  have hblank : ¬ quote.isBlank := by obtain rfl | rfl := hquote <;> decide
  rw [Text.trim, List.dropWhile_cons_of_neg hblank, List.reverse_cons, List.reverse_append, List.reverse_singleton,
    List.singleton_append, List.cons_append, List.dropWhile_cons_of_neg hblank]
  simp

-- A text that is read as a type with the shape, whatever stands in front of it.
def IsReadAs (t : Text) (shape : Shape) : Prop :=
  ∀ lead, ∃ type ts, Lexes lead t ts ∧ ReadsType type ts ∧ ofType type = shape

-- An index between its brackets.
def indexText (l : Text) : Text := "[" ++ l ++ "]"

-- An index that is a string continues a path, and makes a lookup of it.
theorem IsPath.access (h : IsPath t path) (hl : isString l) :
    IsPath (t ++ indexText l) (path ++ [StringLiteral.inner l]) ∧
      IsReadAs (t ++ indexText l) (.lookup .none (path ++ [StringLiteral.inner l])) := by
  have hreads (lead : List Trivia) : ∃ target index indexSource source ts,
      Lexes lead (t ++ indexText l) ts ∧ ReadsOperand (.access target index indexSource source) ts ∧
        path? (.access target index indexSource source) = some (path ++ [StringLiteral.inner l]) := by
    obtain ⟨type, ts, hlexes, hreads, hstart⟩ := h.reads lead
    have hclose : Lexes [] "]" [⟨[], .mark, "]"⟩] := .singleMark rfl .nil
    have hindex : Lexes [] (l ++ "]") [⟨[], .string, l⟩, ⟨[], .mark, "]"⟩] :=
      (Lexes.string hl).append hclose (bounded_cons (by decide))
    have hopen : Lexes [] (indexText l) [⟨[], .mark, "["⟩, ⟨[], .string, l⟩, ⟨[], .mark, "]"⟩] :=
      .singleMark rfl hindex
    have hliteral : ReadsType (joinTypes [.verbatim [⟨[], .string, l⟩]]) [⟨[], .string, l⟩] :=
      (ReadsPrimary.literal (.inl rfl)).operand.member.joined
    have hopening : Token.isMark "[" ⟨[], .mark, "["⟩ := rfl
    have hclosing : Token.isMark "]" ⟨[], .mark, "]"⟩ := rfl
    refine ⟨_, _, _, _, _, hlexes.append hopen (bounded_cons (by decide)),
      hreads.access hopening rfl hliteral hclosing, ?_⟩
    obtain ⟨quote, body, hquote, hbody⟩ := exists_of_isString hl
    have hquoted : StringLiteral.isQuoted l := hbody ▸ StringLiteral.isQuoted_of_quote hquote
    have hsource : (sourceText [⟨[], .string, l⟩]).trim = l := by
      rw [sourceText, List.flatMap_nil, List.append_nil, trim_of_isString hl]
    rw [path?_access, hsource, if_pos hquoted, hstart]
    rfl
  refine ⟨⟨h.visible.append, fun lead => ?_⟩, fun lead => ?_⟩
  · obtain ⟨target, index, indexSource, source, ts, hlexes, hreads, hpath⟩ := hreads lead
    exact ⟨_, ts, hlexes, hreads, hpath⟩
  · obtain ⟨target, index, indexSource, source, ts, hlexes, hreads, hpath⟩ := hreads lead
    refine ⟨_, ts, hlexes, hreads.member.joined, ?_⟩
    rw [joinTypes, ofType, hpath]

-- The source of an indexed access on a name.
def accessText (name : Text) (literals : List Text) : Text := name ++ literals.flatMap indexText

theorem isReadAs_accessText {name : Text} {literals : List Text} (hname : isTypeName name)
    (h : ∀ l ∈ literals, isString l) (hne : literals ≠ []) :
    IsReadAs (accessText name literals) (.lookup .none (name :: literals.map StringLiteral.inner)) := by
  have hall (t : Text) (path : List Text) (hpath : IsPath t path) :
      IsReadAs (t ++ literals.flatMap indexText) (.lookup .none (path ++ literals.map StringLiteral.inner)) := by
    clear hname
    induction literals generalizing t path with
    | nil => exact absurd rfl hne
    | cons l rest ih =>
      obtain ⟨hl, hrest⟩ := List.forall_mem_cons.mp h
      obtain ⟨hcontinued, hread⟩ := hpath.access hl
      cases rest with
      | nil => simpa using hread
      | cons second others => simpa using ih hrest (by simp) _ _ hcontinued
  exact hall name [name] (isPath_name hname)

end Source

namespace Schema

variable {root target : Shape} {member : Member} {members : List Member} {key name : Text} {keys literals : List Text}

-- The properties of an object type have keys, and no two the same.
def HasKeys (members : List Member) (keys : List Text) : Prop :=
  members.map Member.key = keys.map .ok ∧ keys.Nodup

-- Object types nested in each other, down to what a chain of properties with given keys comes to.
inductive Nested : Shape → List Text → Shape → Prop
  | self (shape : Shape) : Nested shape [] shape
  | property {label : Label} {members : List Member} {signatures : List Text} {member : Member} {key : Text}
      {keys rest : List Text} {target : Shape} (hkeys : HasKeys members keys) (hmember : member ∈ members)
      (hkey : member.key = .ok key) (h : Nested member.shape rest target) :
      Nested (.object label members signatures) (key :: rest) target

theorem find?_of_hasKeys (h : HasKeys members keys) (hmember : member ∈ members) (hkey : member.key = .ok key) :
    Member.find? key members = .ok (some member) := by
  obtain ⟨hkeys, hdistinct⟩ := h
  induction members generalizing keys with
  | nil => cases hmember
  | cons first rest ih =>
    cases keys with
    | nil => cases hkeys
    | cons firstKey restKeys =>
      obtain ⟨hfirst, hrest⟩ := List.cons.inj hkeys
      obtain ⟨hnew, hdistinct⟩ := List.nodup_cons.mp hdistinct
      rw [Member.find?, hfirst]
      obtain rfl | hmember := List.mem_cons.mp hmember
      · obtain rfl := Except.ok.inj (hfirst.symm.trans hkey)
        exact if_pos rfl
      · have hmem : .ok key ∈ restKeys.map (Except.ok (ε := StringLiteral.DecodeError)) :=
          hrest ▸ hkey ▸ List.mem_map_of_mem hmember
        have hne : firstKey ≠ key := by
          rintro rfl
          simp [hnew] at hmem
        exact (if_neg hne).trans (ih hmember hrest hdistinct)

-- A chain of keys finds what they are nested around.
theorem Nested.descend (h : Nested root keys target) : descend root keys = .ok (some target) := by
  induction h with
  | self => rfl
  | @property label members signatures member key keys rest target hkeys hmember hkey _ ih =>
    have hfound : (Shape.object label members signatures).property? key = .ok (some member.shape) := by
      rw [Shape.property?, Shape.member?, Shape.members, find?_of_hasKeys hkeys hmember hkey]
      rfl
    rw [Schema.descend, hfound]
    exact ih

-- Whether the path of an access finds what the values of its indexes name, whatever the root type is declared as.
def Finds (name : Text) (literals keys : List Text) : Prop :=
  ∀ (file : DeclarationFile) (source : Text) (schema : Schema) (target : Shape),
    parseDeclarations source = some file.declarations → file.type? name = some schema.root → schema.rootName = name →
    Nested schema.root keys target →
    schema.resolve (name :: literals.map StringLiteral.inner) = .ok (some target)

theorem finds_of_inner (h : literals.map StringLiteral.inner = keys) : Finds name literals keys := by
  intro file source schema target _ _ hname hnested
  rw [resolve, if_pos hname.symm, h, hnested.descend]

-- The source of an object type in an object type, for each of some names of properties.
def nestedText : List Text → Text
  | [] => "string"
  | l :: rest => "\x7b" ++ l ++ ":" ++ nestedText rest ++ "\x7d"

def nestedShape : List Text → Shape
  | [] => .text "string"
  | l :: rest => .object .none [.mk l (nestedShape rest) false false] []

theorem reads_nestedText (h : ∀ l ∈ literals, isString l) (lead : List Trivia) : ∃ type ts,
    Lexes lead (nestedText literals) ts ∧ ReadsOperand type ts ∧ ofType type = nestedShape literals := by
  induction literals generalizing lead with
  | nil =>
    have hword : isWord (nestedText []) := by decide
    have hkeyword : nestedText [] ∈ keywordTypes := by decide
    exact ⟨_, _, .word hword, (ReadsPrimary.keyword rfl hkeyword).operand, rfl⟩
  | cons l rest ih =>
    obtain ⟨hl, hrest⟩ := List.forall_mem_cons.mp h
    obtain ⟨type, ts, hlexes, hreads, hshape⟩ := ih hrest []
    have hclose : Lexes [] "\x7d" [⟨[], .mark, "\x7d"⟩] := .singleMark rfl .nil
    have hcolon : Lexes [] (":" ++ (nestedText rest ++ "\x7d")) (⟨[], .mark, ":"⟩ :: (ts ++ [⟨[], .mark, "\x7d"⟩])) :=
      .singleMark rfl (hlexes.append hclose (bounded_cons (by decide)))
    have hname : Lexes [] (l ++ (":" ++ (nestedText rest ++ "\x7d")))
        (⟨[], .string, l⟩ :: ⟨[], .mark, ":"⟩ :: (ts ++ [⟨[], .mark, "\x7d"⟩])) :=
      (Lexes.string hl).append hcolon (bounded_cons (by decide))
    have hall : Lexes lead ("\x7b" ++ (l ++ (":" ++ (nestedText rest ++ "\x7d"))))
        (⟨lead, .mark, "\x7b"⟩ :: ⟨[], .string, l⟩ :: ⟨[], .mark, ":"⟩ :: (ts ++ [⟨[], .mark, "\x7d"⟩])) :=
      .singleMark rfl hname
    have hentry : ReadsEntry (.property [⟨[], .string, l⟩] false false (some (joinTypes [type])))
        (⟨[], .string, l⟩ :: ([⟨[], .mark, ":"⟩] ++ ts)) := .property rfl (.colon rfl) hreads.member.joined
    have hopening : Token.isMark "\x7b" ⟨lead, .mark, "\x7b"⟩ := rfl
    have hclosing : Token.isMark "\x7d" ⟨[], .mark, "\x7d"⟩ := rfl
    refine ⟨_, _, ?_, (ReadsPrimary.object hopening (.last hentry hclosing)).operand, ?_⟩
    · simpa [nestedText] using hall
    · simp [ofType, membersOf, signaturesOf, joinTypes, hshape, sourceText, nestedShape]

theorem visible_nestedText (literals : List Text) : Visible (nestedText literals) := by
  cases literals with
  | nil => exact .of_isWord (by decide)
  | cons l rest => exact ⟨_, _, rfl, by decide⟩

theorem key_of_hasValue {l value : Text} (h : StringLiteral.HasValue l value) (shape : Shape)
    (optional readonly : Bool) : (Member.mk l shape optional readonly).key = .ok value := by
  obtain ⟨us, hliteral, rfl⟩ := h
  have hquoted : StringLiteral.isQuoted l := by
    obtain ⟨quote, body, hquote, rfl, -⟩ := hliteral
    exact StringLiteral.isQuoted_of_quote hquote
  rw [Member.key, Member.name, if_pos hquoted, hliteral.decode]

-- Properties that are named by literals are found by the values of these.
theorem nested_nestedShape (h : List.Forall₂ StringLiteral.HasValue literals keys) :
    Nested (nestedShape literals) keys (.text "string") := by
  induction h with
  | nil => exact .self _
  | @cons l value rest _ hvalue _ ih =>
    have hkey := key_of_hasValue hvalue (nestedShape rest) false false
    have hkeys : HasKeys [.mk l (nestedShape rest) false false] [value] :=
      ⟨by rw [List.map_singleton, List.map_singleton, hkey], by simp⟩
    exact .property hkeys (List.mem_singleton_self _) hkey ih

theorem eq_of_descend (h : List.Forall₂ StringLiteral.HasValue literals keys) {path : List Text}
    (hlength : path.length = literals.length) (hfound : descend (nestedShape literals) path = .ok (some target)) :
    path = keys := by
  induction h generalizing path with
  | nil => exact List.length_eq_zero_iff.mp hlength
  | @cons l value rest keys hvalue _ ih =>
    cases path with
    | nil => cases hlength
    | cons key path =>
      have hkey := key_of_hasValue hvalue (nestedShape rest) false false
      have hproperty : (nestedShape (l :: rest)).property? key =
          .ok (if value = key then some (nestedShape rest) else none) := by
        have hfind : Member.find? key [.mk l (nestedShape rest) false false] =
            .ok (if value = key then some (.mk l (nestedShape rest) false false) else none) := by
          rw [Member.find?, hkey]
          change (if value = key then _ else _) = _
          split <;> rfl
        rw [Shape.property?, Shape.member?, nestedShape, Shape.members, hfind]
        split <;> rfl
      rw [descend, hproperty] at hfound
      by_cases heq : value = key
      · rw [if_pos heq] at hfound
        rw [heq, ih (Nat.succ.inj hlength) hfound]
      · rw [if_neg heq] at hfound
        cases hfound

theorem inner_of_finds (hname : isWord name) (hstrings : ∀ l ∈ literals, isString l)
    (h : List.Forall₂ StringLiteral.HasValue literals keys)
    (hfinds : Finds name literals keys) : literals.map StringLiteral.inner = keys := by
  obtain ⟨type, ts, hlexes, hreads, hshape⟩ := reads_nestedText hstrings [.blank " "]
  obtain ⟨source, hparsed⟩ := parseDeclarations_alias hname hreads.member.joined hlexes (visible_nestedText literals)
  let file : DeclarationFile := ⟨[], [⟨name, type, source, false, false, true⟩]⟩
  let schema : Schema := ⟨nestedShape literals, name, [], [], [], [], [], false, false, false, none⟩
  have hroot : file.type? name = some schema.root := by
    simp [file, schema, DeclarationFile.type?, hshape]
  have hfound := hfinds file _ schema _ hparsed hroot rfl (nested_nestedShape h)
  rw [resolve, if_pos rfl] at hfound
  exact eq_of_descend h (by rw [List.length_map]) hfound

theorem map_inner_eq (h : List.Forall₂ StringLiteral.HasValue literals keys)
    (hscalar : ∀ l ∈ literals, Utf8.IsScalar l) :
    literals.map StringLiteral.inner = keys ↔ ∀ l ∈ literals, .char '\\' ∉ l := by
  induction h with
  | nil => simp
  | cons hvalue _ ih =>
    obtain ⟨hl, hrest⟩ := List.forall_mem_cons.mp hscalar
    rw [List.map_cons, List.cons.injEq, List.forall_mem_cons, hvalue.inner_eq hl, ih hrest]

-- An access on a root type by literals is read as a lookup. It comes to what the values of the literals name,
-- whatever the root type is, as long as no literal has an escape, and then only.
theorem accessText_finds (hname : isTypeName name) (h : List.Forall₂ StringLiteral.HasValue literals keys)
    (hne : literals ≠ []) (hscalar : ∀ l ∈ literals, Utf8.IsScalar l) :
    IsReadAs (accessText name literals) (.lookup .none (name :: literals.map StringLiteral.inner)) ∧
      (Finds name literals keys ↔ ∀ l ∈ literals, .char '\\' ∉ l) := by
  have hstrings : ∀ l ∈ literals, isString l := by
    clear hne hscalar
    induction h with
    | nil => simp
    | cons hvalue _ ih =>
      obtain ⟨us, hliteral, -⟩ := hvalue
      exact List.forall_mem_cons.mpr ⟨hliteral.isString, ih⟩
  refine ⟨isReadAs_accessText hname hstrings hne, ?_⟩
  rw [← map_inner_eq h hscalar]
  exact ⟨inner_of_finds (isTypeName_iff.mp hname).1 hstrings h, finds_of_inner⟩

section Sample

theorem accessText_finds_its :
    isTypeName "Database" ∧ (∀ l ∈ (["'public'", "\"it's\""] : List Text), Utf8.IsScalar l) ∧
      IsReadAs "Database['public'][\"it's\"]" (.lookup .none ["Database", "public", "it's"]) ∧
      Finds "Database" ["'public'", "\"it's\""] ["public", "it's"] := by
  have hname : isTypeName "Database" := by decide
  have hscalar : ∀ l ∈ (["'public'", "\"it's\""] : List Text), Utf8.IsScalar l := by decide
  have hpublic : StringLiteral.HasValue "'public'" "public" :=
    StringLiteral.hasValue_plain (t := "public") (.inr rfl) (by decide) (by decide)
  have hits : StringLiteral.HasValue "\"it's\"" "it's" :=
    StringLiteral.hasValue_plain (t := "it's") (.inl rfl) (by decide) (by decide)
  have hboth := accessText_finds hname (.cons hpublic (.cons hits .nil)) (by simp) hscalar
  exact ⟨hname, hscalar, hboth.1, hboth.2.mpr (by decide)⟩

-- The root type that is read from a source.
def rootOf (source name : Text) : Option Shape :=
  (parseDeclarations source).bind fun declarations => DeclarationFile.type? ⟨[], declarations⟩ name

-- An escape stays in the path, where the key has its character.
theorem escaped_not_finds :
    StringLiteral.HasValue "\"a\\u0062\"" "ab" ∧
      (rootOf "type Row = Database[\"a\\u0062\"]" "Row").map Shape.lookups =
        some [(["Database", "a\\u0062"] : List Text)] ∧
      (rootOf "type Database = \x7b ab: string \x7d" "Database").map
        (fun root => (root.isObject, root.members.map Member.key)) = some (true, [.ok "ab"]) ∧
      ¬ Finds "Database" ["\"a\\u0062\""] ["ab"] := by
  have hdigits : StringLiteral.Hexadecimal "0062" 0x62 :=
    StringLiteral.hexadecimal_hexNumber (by decide) (by decide)
  have hvalue : StringLiteral.HasValue "\"a\\u0062\"" "ab" := by
    refine ⟨[0x61, 0x62], ⟨'"', "a\\u0062", .inl rfl, by decide, ?_⟩, by decide⟩
    exact .plain (by decide) (by decide) (by decide) (by decide) (.fixed (by decide) hdigits rfl .nil)
  have hkeys : (rootOf "type Database = \x7b ab: string \x7d" "Database").map
      (fun root => (root.isObject, root.members.map Member.key)) = some (true, [.ok "ab"]) := by decide +kernel
  have hmissed : (rootOf "type Database = \x7b ab: string \x7d" "Database").map
      (fun root => (descend root ["a\\u0062"]).map Option.isSome) = some (.ok false) := by decide +kernel
  refine ⟨hvalue, by decide +kernel, hkeys, fun hfinds => ?_⟩
  obtain ⟨root, hroot, hroots⟩ := Option.map_eq_some_iff.mp hkeys
  obtain ⟨declarations, hparsed, hdeclared⟩ := Option.bind_eq_some_iff.mp hroot
  rw [hroot, Option.map_some, Option.some.injEq] at hmissed
  cases root with
  | object label members signatures =>
    have hmembers : members.map Member.key = [.ok "ab"] := (Prod.mk.inj hroots).2
    obtain ⟨member, rfl, hkey⟩ := List.map_eq_singleton_iff.mp hmembers
    have hunique : HasKeys [member] ["ab"] := ⟨hmembers, by simp⟩
    have hnested : Nested (.object label [member] signatures) ["ab"] member.shape :=
      .property hunique (List.mem_singleton_self member) hkey (.self _)
    let schema : Schema :=
      ⟨.object label [member] signatures, "Database", [], [], [], [], [], false, false, false, none⟩
    have hfound := hfinds ⟨[], declarations⟩ _ schema _ hparsed hdeclared rfl hnested
    rw [resolve, if_pos rfl] at hfound
    change descend _ ["a\\u0062"] = _ at hfound
    rw [hfound] at hmissed
    cases hmissed
  | _ => cases (Prod.mk.inj hroots).1

end Sample

end Schema

end HookGen
