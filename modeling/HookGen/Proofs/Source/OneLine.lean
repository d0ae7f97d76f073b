import HookGen.Proofs.Source.Keeping

/-!
Types on one line. Where no token begins a line, it does not matter whether a type can end with its line. Nor does it
matter what stands in front of the first token of a type.
-/

namespace HookGen.Source

variable {token : Token} {tokens rest : List Token} {budget : Nat} {context : Context}

section Lines

-- Tokens none of which is the first of its line.
def Unbroken (tokens : List Token) : Prop := ∀ token ∈ tokens, token.startsLine = false

theorem Unbroken.of_suffix (h : Unbroken tokens) (hrest : rest <:+ tokens) : Unbroken rest :=
  fun token hmem => h token (hrest.subset hmem)

theorem Unbroken.drop (h : Unbroken tokens) (n : Nat) : Unbroken (tokens.drop n) :=
    h.of_suffix (List.drop_suffix n tokens)

theorem Unbroken.breaksLine (h : Unbroken tokens) : breaksLine tokens = false := by
  cases tokens with
  | nil => rfl
  | cons token tokens => exact h token (List.mem_cons_self ..)

-- A context in which no type ends with its line.
def Context.joined (context : Context) : Context := ⟨false, context.conditional⟩

-- With a budget the parsers read tokens without line breaks as if no line could end a type.
structure Joins (budget : Nat) : Prop where
  type : ∀ {tokens}, Unbroken tokens → ∀ context, parseType budget context tokens =
      parseType budget context.joined tokens
  union : ∀ {tokens}, Unbroken tokens → ∀ context, parseUnion budget context tokens =
      parseUnion budget context.joined tokens
  alternatives : ∀ {tokens}, Unbroken tokens → ∀ context,
    parseAlternatives budget context tokens = parseAlternatives budget context.joined tokens
  intersection : ∀ {tokens}, Unbroken tokens → ∀ context,
    parseIntersection budget context tokens = parseIntersection budget context.joined tokens
  intersected : ∀ {tokens}, Unbroken tokens → ∀ context,
    skipIntersected budget context tokens = skipIntersected budget context.joined tokens
  operand : ∀ {tokens}, Unbroken tokens → ∀ context,
    parseOperand budget context tokens = parseOperand budget context.joined tokens
  result : ∀ {tokens}, Unbroken tokens → ∀ context,
    skipResult budget context tokens = skipResult budget context.joined tokens
  indices : ∀ {tokens}, Unbroken tokens → ∀ context start type,
    parsePostfix budget context start type tokens = parsePostfix budget context.joined start type tokens

variable {start : List Token} {type : TypeExpr}

theorem joins_type (ih : Joins budget) (h : Unbroken tokens) (context : Context) :
    parseType (budget + 1) context tokens = parseType (budget + 1) context.joined tokens := by
  simp only [parseType, Option.bind_eq_bind, ← ih.union h context]
  refine Option.bind_congr ?_
  rintro ⟨first, after⟩ hfirst
  have hafter : Unbroken after := h.of_suffix ((bracketed budget).union hfirst).suffix
  simp only [hafter.breaksLine, Bool.and_false, Bool.not_false, Bool.and_true, Context.joined]
  split
  · refine Option.bind_congr ?_
    rintro ⟨_, bound⟩ hbound
    refine Option.bind_congr fun question hquestion => Option.bind_congr ?_
    rintro ⟨_, yes⟩ hyes
    refine Option.bind_congr fun colon hcolon => ?_
    have hbound' : Unbroken bound :=
        hafter.of_suffix (((bracketed budget).type hbound).suffix.trans (List.drop_suffix 1 _))
    have hyes' : Unbroken yes := hbound'.of_suffix
      (((bracketed budget).type hyes).suffix.trans (Takes.expectMark (by decide) hquestion).suffix)
    rw [ih.type (hyes'.of_suffix (Takes.expectMark (by decide) hcolon).suffix) context]
    rfl
  · rfl

theorem joins_union (ih : Joins budget) (h : Unbroken tokens) (context : Context) :
    parseUnion (budget + 1) context tokens = parseUnion (budget + 1) context.joined tokens := by
  have hmembers : Unbroken (if startsWithMark "|" tokens then tokens.drop 1 else tokens) := by
    split
    · exact h.drop 1
    · exact h
  simp only [parseUnion, Option.bind_eq_bind, ← ih.intersection hmembers context]
  refine Option.bind_congr ?_
  rintro ⟨first, after⟩ hfirst
  rw [ih.alternatives (hmembers.of_suffix ((bracketed budget).intersection hfirst).suffix) context]

theorem joins_alternatives (ih : Joins budget) (h : Unbroken tokens) (context : Context) :
    parseAlternatives (budget + 1) context tokens = parseAlternatives (budget + 1) context.joined tokens := by
  simp only [parseAlternatives, Option.bind_eq_bind, ← ih.intersection (h.drop 1) context]
  split
  · refine Option.bind_congr ?_
    rintro ⟨first, after⟩ hfirst
    rw [ih.alternatives ((h.drop 1).of_suffix ((bracketed budget).intersection hfirst).suffix) context]
  · rfl

theorem joins_intersection (ih : Joins budget) (h : Unbroken tokens) (context : Context) :
    parseIntersection (budget + 1) context tokens = parseIntersection (budget + 1) context.joined tokens := by
  have hoperands : Unbroken (if startsWithMark "&" tokens then tokens.drop 1 else tokens) := by
    split
    · exact h.drop 1
    · exact h
  simp only [parseIntersection, Option.bind_eq_bind, ← ih.operand hoperands context]
  refine Option.bind_congr ?_
  rintro ⟨first, after⟩ hfirst
  rw [ih.intersected (hoperands.of_suffix ((bracketed budget).operand hfirst).suffix) context]

theorem joins_intersected (ih : Joins budget) (h : Unbroken tokens) (context : Context) :
    skipIntersected (budget + 1) context tokens = skipIntersected (budget + 1) context.joined tokens := by
  simp only [skipIntersected, Option.bind_eq_bind, ← ih.operand (h.drop 1) context]
  split
  · refine Option.bind_congr ?_
    rintro ⟨first, after⟩ hfirst
    exact ih.intersected ((h.drop 1).of_suffix ((bracketed budget).operand hfirst).suffix) context
  · rfl

theorem joins_operand (ih : Joins budget) (h : Unbroken tokens) (context : Context) :
    parseOperand (budget + 1) context tokens = parseOperand (budget + 1) context.joined tokens := by
  have harrow {parameters after tail : List Token} (hparameters : parameters <:+ tokens)
      (hskip : skipParameters parameters = some after) (hmark : expectMark "=>" after = some tail) : Unbroken tail :=
    h.of_suffix (((Takes.expectMark (by decide) hmark).suffix.trans (skipParameters_suffix hskip)).trans hparameters)
  simp only [parseOperand, Option.bind_eq_bind, ← ih.type (h.drop 1) context, ← ih.operand (h.drop 1) context,
    ← ih.union ((h.drop 2).drop 1) context]
  split
  · refine Option.bind_congr fun after hafter => Option.bind_congr fun tail htail => ?_
    rw [ih.result (harrow List.suffix_rfl hafter htail) context]
  split
  · rfl
  split
  · rfl
  split
  · refine Option.bind_congr fun after hafter => Option.bind_congr fun tail htail => ?_
    rw [ih.operand (harrow (List.drop_suffix _ _) hafter htail) context]
  split
  · rfl
  · refine Option.bind_congr ?_
    rintro ⟨first, after⟩ hfirst
    exact ih.indices (h.of_suffix ((bracketed budget).primary hfirst).suffix) context tokens first

theorem joins_result (ih : Joins budget) (h : Unbroken tokens) (context : Context) :
    skipResult (budget + 1) context tokens = skipResult (budget + 1) context.joined tokens := by
  simp only [skipResult, ← ih.type (h.drop 2) context, ← ih.type (h.drop 3) context, ← ih.type h context]

theorem joins_indices (ih : Joins budget) (h : Unbroken tokens) (context : Context)
    (start : List Token) (type : TypeExpr) :
    parsePostfix (budget + 1) context start type tokens =
        parsePostfix (budget + 1) context.joined start type tokens := by
  simp only [parsePostfix, Option.bind_eq_bind, h.breaksLine, Bool.and_false, Bool.not_false, Bool.and_true,
    ← ih.indices (h.drop 2) context]
  split
  · split
    · rfl
    · refine Option.bind_congr ?_
      rintro ⟨index, after⟩ hindex
      refine Option.bind_congr fun last hlast => ?_
      have hafter := (h.drop 1).of_suffix ((bracketed budget).type hindex).suffix
      obtain ⟨closing, rfl, -⟩ := exists_of_expectMark hlast
      exact ih.indices (hafter.of_suffix (List.suffix_cons _ _)) context _ _
  · rfl

theorem joins (budget : Nat) : Joins budget := by
  induction budget with
  | zero =>
    constructor <;> simp [parseType, parseUnion, parseAlternatives, parseIntersection, skipIntersected, parseOperand,
      skipResult, parsePostfix]
  | succ budget ih => exact ⟨joins_type ih, joins_union ih, joins_alternatives ih, joins_intersection ih,
      joins_intersected ih, joins_operand ih, joins_result ih, joins_indices ih⟩

-- The value of an alias on one line is read as if it stood in brackets.
theorem parseType_line (h : Unbroken tokens) : parseType budget .line tokens = parseType budget .inside tokens :=
  (joins budget).type h .line

end Lines

section Leads

variable {lead : List Trivia} {type : TypeExpr}

-- Tokens with something else in front of the first.
def withLead (lead : List Trivia) : List Token → List Token
  | [] => []
  | token :: rest => { token with lead := lead } :: rest

-- A type with something else in front of its first token, where it keeps that.
def TypeExpr.withLead (lead : List Trivia) : TypeExpr → TypeExpr
  | .verbatim source => .verbatim (Source.withLead lead source)
  | .name token => .name { token with lead := lead }
  | .array element => .array (element.withLead lead)
  | .access target index indexSource source =>
      .access (target.withLead lead) index indexSource (Source.withLead lead source)
  | .apply path arguments => .apply (Source.withLead lead path) arguments
  | type => type

-- What is read, with something else in front of it.
def relead (lead : List Trivia) (read : TypeExpr × List Token) : TypeExpr × List Token := (read.1.withLead lead, read.2)

@[simp] theorem drop_withLead (lead : List Trivia) (tokens : List Token) (n : Nat) :
    (withLead lead tokens).drop (n + 1) = tokens.drop (n + 1) := by
  cases tokens <;> rfl

@[simp] theorem head_any_withLead {p : Token → Bool} (hp : ∀ token : Token, p { token with lead := lead } = p token)
    (tokens : List Token) : (withLead lead tokens).head?.any p = tokens.head?.any p := by
  cases tokens with
  | nil => rfl
  | cons token tokens => exact hp token

@[simp] theorem startsWithMark_withLead (mark : Text) (tokens : List Token) :
    startsWithMark mark (withLead lead tokens) = startsWithMark mark tokens := head_any_withLead (fun _ => rfl) tokens

@[simp] theorem startsWithWord_withLead (word : Text) (tokens : List Token) :
    startsWithWord word (withLead lead tokens) = startsWithWord word tokens := head_any_withLead (fun _ => rfl) tokens

@[simp] theorem startsWithKind_withLead (kind : Kind) (tokens : List Token) :
    startsWithKind kind (withLead lead tokens) = startsWithKind kind tokens := head_any_withLead (fun _ => rfl) tokens

theorem consumed_withLead (tokens rest : List Token) :
    consumed (withLead lead tokens) rest = withLead lead (consumed tokens rest) := by
  cases tokens with
  | nil => simp [consumed, withLead]
  | cons token tokens =>
    simp only [consumed, withLead, List.length_cons]
    cases tokens.length + 1 - rest.length <;> rfl

theorem skipGroup_withLead (angles : Bool) (tokens : List Token) :
    skipGroup angles (withLead lead tokens) = skipGroup angles tokens := by
  cases tokens <;> rfl

theorem skipParameters_withLead (tokens : List Token) :
    skipParameters (withLead lead tokens) = skipParameters tokens := by
  simp only [skipParameters, skipAngles, startsWithMark_withLead, skipGroup_withLead]
  split
  · rfl
  · simp [skipGroup_withLead]

theorem startsFunction_withLead (tokens : List Token) :
    startsFunction (withLead lead tokens) = startsFunction tokens := by
  simp only [startsFunction, startsWithMark_withLead, skipParameters_withLead]

theorem parsePrimary_withLead (lead : List Trivia) (budget : Nat) (tokens : List Token) :
    parsePrimary budget (withLead lead tokens) = (parsePrimary budget tokens).map (relead lead) := by
  cases budget with
  | zero => rfl
  | succ budget =>
    cases tokens with
    | nil => rfl
    | cons token tokens =>
      obtain ⟨own, kind, t⟩ := token
      have hmark (mark : Text) : Token.isMark mark ⟨lead, kind, t⟩ = Token.isMark mark ⟨own, kind, t⟩ := rfl
      have hword (word : Text) : Token.isWord word ⟨lead, kind, t⟩ = Token.isWord word ⟨own, kind, t⟩ := rfl
      have hconsumed (rest : List Token) : consumed (⟨lead, kind, t⟩ :: tokens) rest =
          withLead lead (consumed (⟨own, kind, t⟩ :: tokens) rest) := consumed_withLead (⟨own, kind, t⟩ :: tokens) rest
      rw [withLead, parsePrimary, parsePrimary]
      simp only [hmark, hword, hconsumed]
      cases kind with
      | finish => rfl
      | regex => rfl
      | string => rfl
      | template => rfl
      | number => rfl
      | mark =>
        dsimp only
        split
        · cases parseType budget .inside tokens with
          | none => rfl
          | some read => cases hclose : expectMark ")" read.2 <;> simp [hclose, relead, TypeExpr.withLead]
        split
        · cases parseElements budget tokens <;> rfl
        split
        · cases parseEntries budget tokens <;> rfl
        split <;> rfl
      | word =>
        dsimp only
        split
        · rfl
        split
        · rfl
        split
        · cases skipQueried tokens <;> rfl
        split
        · cases skipGroup false tokens with
          | none => rfl
          | some rest => cases hangles : skipAngles (skipDots rest) <;> simp [hangles, relead, TypeExpr.withLead]
        split
        · cases parseArguments budget ((spanDots tokens).2.drop 1) <;> rfl
        split <;> rfl

theorem parsePostfix_withLead (lead : List Trivia) (budget : Nat) (context : Context)
    (start : List Token) (type : TypeExpr)
    (tokens : List Token) : parsePostfix budget context (withLead lead start) (type.withLead lead) tokens =
      (parsePostfix budget context start type tokens).map (relead lead) := by
  induction budget generalizing type tokens with
  | zero => rfl
  | succ budget ih =>
    rw [parsePostfix, parsePostfix]
    split
    · split
      · exact ih (.array type) _
      · cases parseType budget .inside (tokens.drop 1) with
        | none => rfl
        | some read =>
          obtain ⟨index, rest⟩ := read
          cases hclose : expectMark "]" rest with
          | none => simp [hclose]
          | some after =>
            have hindex := ih (.access type index (consumed (tokens.drop 1) rest) (consumed start after)) after
            rw [TypeExpr.withLead] at hindex
            simpa [hclose, consumed_withLead] using hindex
    · rfl

theorem parseOperand_withLead (lead : List Trivia) (budget : Nat) (context : Context) (tokens : List Token) :
    parseOperand budget context (withLead lead tokens) = (parseOperand budget context tokens).map (relead lead) := by
  cases budget with
  | zero => rfl
  | succ budget =>
    have hdrop (short : Bool) : (withLead lead tokens).drop (if short then 1 else 2) =
        tokens.drop (if short then 1 else 2) := by
      cases short <;> exact drop_withLead ..
    simp only [parseOperand, startsFunction_withLead, startsWithWord_withLead, drop_withLead, hdrop,
      skipParameters_withLead, consumed_withLead, parsePrimary_withLead, Option.bind_eq_bind, Option.pure_def]
    split
    · cases skipParameters tokens with
      | none => rfl
      | some after =>
        cases harrow : expectMark "=>" after with
        | none => simp [harrow]
        | some tail =>
          cases hresult : skipResult budget context tail <;> simp [harrow, hresult, relead, TypeExpr.withLead]
    split
    · cases parseType budget context (tokens.drop 1) <;> rfl
    split
    · cases parseOperand budget context (tokens.drop 1) <;> rfl
    split
    · cases skipParameters (tokens.drop (if startsWithWord "new" tokens then 1 else 2)) with
      | none => rfl
      | some after =>
        cases harrow : expectMark "=>" after with
        | none => simp [harrow]
        | some tail =>
          cases hresult : parseOperand budget context tail <;> simp [harrow, hresult, relead, TypeExpr.withLead]
    split
    · split
      · cases parseUnion budget context ((tokens.drop 2).drop 1) <;> rfl
      · rfl
    · cases parsePrimary budget tokens with
      | none => rfl
      | some read => exact parsePostfix_withLead lead budget context tokens read.1 read.2

theorem parseIntersection_withLead (lead : List Trivia) (budget : Nat) (context : Context) (tokens : List Token) :
    parseIntersection budget context (withLead lead tokens) =
      (parseIntersection budget context tokens).map (relead lead) := by
  cases budget with
  | zero => rfl
  | succ budget =>
    simp only [parseIntersection, startsWithMark_withLead, drop_withLead, consumed_withLead, Option.bind_eq_bind,
      Option.pure_def]
    split
    · rename_i hleading
      cases parseOperand budget context (tokens.drop 1) with
      | none => rfl
      | some read =>
        cases hafter : skipIntersected budget context read.2 <;> simp [hafter, hleading, relead, TypeExpr.withLead]
    · rename_i hleading
      rw [parseOperand_withLead]
      cases parseOperand budget context tokens with
      | none => rfl
      | some read =>
        cases hafter : skipIntersected budget context read.2 with
        | none => simp [hafter, relead]
        | some after =>
          by_cases hand : startsWithMark "&" read.2 <;> simp [hafter, hleading, hand, relead, TypeExpr.withLead]

-- A union may begin with a bar, which none of its members keeps.
theorem parseUnion_withLead (lead : List Trivia) (h : parseUnion budget context tokens = some (type, rest)) :
    ∃ type', parseUnion budget context (withLead lead tokens) = some (type', rest) ∧
      (type' = type.withLead lead ∨ ∃ members, type = .union members) := by
  cases budget with
  | zero => cases h
  | succ budget =>
    simp only [parseUnion, startsWithMark_withLead, drop_withLead, Option.bind_eq_bind, Option.pure_def] at h ⊢
    split at h
    · rename_i hleading
      rw [if_pos hleading, h]
      refine ⟨type, rfl, .inr ?_⟩
      simp only [Option.bind_eq_some_iff] at h
      obtain ⟨⟨first, after⟩, -, ⟨others, last⟩, -, h⟩ := h
      rw [if_pos (by simp [hleading])] at h
      exact ⟨_, (Prod.mk.inj (Option.some.inj h)).1.symm⟩
    · rename_i hleading
      simp only [Option.bind_eq_some_iff] at h
      obtain ⟨⟨first, after⟩, hfirst, ⟨others, last⟩, hothers, h⟩ := h
      rw [if_neg hleading, parseIntersection_withLead, hfirst]
      simp only [Option.map_some, relead, Option.bind_some, hothers]
      split at h
      · rename_i hunion
        obtain ⟨rfl, rfl⟩ := Prod.mk.inj (Option.some.inj h)
        exact ⟨_, if_pos hunion, .inr ⟨_, rfl⟩⟩
      · rename_i hunion
        obtain ⟨rfl, rfl⟩ := Prod.mk.inj (Option.some.inj h)
        exact ⟨_, if_neg hunion, .inl rfl⟩

theorem parseType_withLead (lead : List Trivia) (h : parseType budget context tokens = some (type, rest))
    (hunion : ∀ members, type ≠ .union members) :
    parseType budget context (withLead lead tokens) = some (type.withLead lead, rest) := by
  cases budget with
  | zero => cases h
  | succ budget =>
    simp only [parseType, Option.bind_eq_bind, Option.pure_def, Option.bind_eq_some_iff] at h ⊢
    obtain ⟨⟨first, after⟩, hfirst, h⟩ := h
    obtain ⟨first', hfirst', hsame⟩ := parseUnion_withLead lead hfirst
    refine ⟨(first', after), hfirst', ?_⟩
    split at h
    · rename_i hextends
      simp only [Option.bind_eq_some_iff] at h
      obtain ⟨bound, hbound, question, hquestion, yes, hyes, colon, hcolon, no, hno, h⟩ := h
      obtain ⟨rfl, rfl⟩ := Prod.mk.inj (Option.some.inj h)
      rw [if_pos hextends]
      simp only [hbound, hquestion, hyes, hcolon, hno, Option.bind_some, consumed_withLead, TypeExpr.withLead]
    · rename_i hextends
      obtain ⟨rfl, rfl⟩ := Prod.mk.inj (Option.some.inj h)
      obtain rfl | ⟨members, rfl⟩ := hsame
      · rw [if_neg hextends]
      · exact absurd rfl (hunion members)

end Leads

end HookGen.Source
