import HookGen.Proofs.Source.Replacing

/-!
What a parser reads does not depend on what stands far behind it, nor on how much more budget it has than it needs.
-/

namespace HookGen.Source

variable {α : Type} {token : Token} {ts us front rest rest' : List Token} {budget budget' : Nat} {context : Context}

section Parsers

-- What is read with a budget in front of a rest is read with any budget that is enough for its tokens in front of
-- all that can replace the rest.
def Rereads (extra : Nat) (read : Nat → List Token → Option (α × List Token)) (budget : Nat) : Prop :=
  ∀ (ts : List Token) ⦃rest : List Token⦄ (rest' : List Token) ⦃result : α⦄ (budget' : Nat),
      read budget (ts ++ rest) = some (result, rest) →
    Replaces ts rest rest' → 8 * ts.length + extra ≤ budget' → read budget' (ts ++ rest') = some (result, rest')

-- What is only skipped.
def Reskips (extra : Nat) (skip : Nat → List Token → Option (List Token)) (budget : Nat) : Prop :=
  ∀ (ts : List Token) ⦃rest : List Token⦄ (rest' : List Token) (budget' : Nat),
      skip budget (ts ++ rest) = some rest → Replaces ts rest rest' →
    8 * ts.length + extra ≤ budget' → skip budget' (ts ++ rest') = some rest'

-- What the parsers read with a budget. Those that come to the mark which closes a bracket are not concerned with what
-- stands behind it.
structure Rereading (budget : Nat) : Prop where
  type : ∀ context, Rereads 4 (parseType · context) budget
  union : ∀ context, Rereads 3 (parseUnion · context) budget
  alternatives : ∀ context, Rereads 1 (parseAlternatives · context) budget
  intersection : ∀ context, Rereads 2 (parseIntersection · context) budget
  intersected : ∀ context, Reskips 1 (skipIntersected · context) budget
  operand : ∀ context, Rereads 1 (parseOperand · context) budget
  result : ∀ context, Reskips 5 (skipResult · context) budget
  indices : ∀ {context rest type result} start ts rest' budget',
    parsePostfix budget context (start ++ (ts ++ rest)) type (ts ++ rest) = some (result, rest) →
    Replaces ts rest rest' → 8 * ts.length + 1 ≤ budget' →
    parsePostfix budget' context (start ++ (ts ++ rest')) type (ts ++ rest') = some (result, rest')
  primary : Rereads 0 parsePrimary budget
  arguments : ∀ {rest types} ts budget', parseArguments budget (ts ++ rest) = some (types, rest) →
    8 * ts.length ≤ budget' → ∀ rest', parseArguments budget' (ts ++ rest') = some (types, rest')
  elements : ∀ {rest types} ts budget', parseElements budget (ts ++ rest) = some (types, rest) →
    8 * ts.length ≤ budget' → ∀ rest', parseElements budget' (ts ++ rest') = some (types, rest')
  element : Rereads 5 parseElement budget
  entries : ∀ {rest entries} ts budget', parseEntries budget (ts ++ rest) = some (entries, rest) →
    8 * ts.length ≤ budget' → ∀ rest', parseEntries budget' (ts ++ rest') = some (entries, rest')
  entry : Rereads 0 parseEntry budget
  resultType : Reskips 1 skipResultType budget

theorem exists_budget {extra : Nat} (h : 8 * (token :: ts).length + extra ≤ budget') :
    ∃ n, budget' = n + 1 ∧ 8 * ts.length + 7 + extra ≤ n := by
  rw [List.length_cons] at h
  exact ⟨budget' - 1, by omega, by omega⟩

-- A parser that takes something reads some tokens.
theorem exists_cons_of_takes (h : Takes (ts ++ rest) rest) : ∃ token us, ts = token :: us := by
  refine List.exists_cons_of_ne_nil ?_
  rintro rfl
  exact absurd h.shorter (Nat.lt_irrefl _)

theorem not_point_of_mark {mark : Text} (h : token.isMark mark) (hmark : mark ≠ ".") : token.isMark "." = false :=
  Token.not_isMark h hmark

theorem not_point_of_word {word : Text} (h : token.isWord word) : token.isMark "." = false := by
  have hboth : token.kind = .word ∧ token.text = word := Token.isWord_iff.mp h
  simp [Token.isMark, hboth.1]

-- A test of the first token that also looks for the end of a line.
theorem head_any_and_not_breaksLine (p : Token → Bool) (lineEnds : Bool) (ts : List Token) :
    (ts.head?.any p && !(lineEnds && breaksLine ts)) =
      ts.head?.any fun token => p token && !(lineEnds && token.startsLine) := by
  cases ts <;> rfl

theorem Replaces.not_open {p : Token → Bool} {lineEnds : Bool} (h : Replaces ts rest rest')
    (hp : ∀ token, token.Stops → p token = false)
    (hrest : (rest.head?.any p && !(lineEnds && breaksLine rest)) = false) :
    (rest'.head?.any p && !(lineEnds && breaksLine rest')) = false := by
  rw [head_any_and_not_breaksLine] at hrest ⊢
  exact h.not (fun token hstops => by rw [hp token hstops, Bool.false_and]) hrest

theorem rereads_type (ih : Rereading budget) (context : Context) : Rereads 4 (parseType · context) (budget + 1) := by
  intro ts rest rest' type budget' h hrest hbudget
  obtain ⟨token, us, rfl⟩ := exists_cons_of_takes ((bracketed (budget + 1)).type h)
  obtain ⟨budget', rfl, hbudget⟩ := exists_budget hbudget
  simp only [parseType, Option.bind_eq_bind, Option.bind_eq_some_iff, Option.pure_def] at h ⊢
  obtain ⟨⟨first, after⟩, hfirst, h⟩ := h
  split at h
  · rename_i hextends
    simp only [Option.bind_eq_some_iff] at h
    obtain ⟨⟨_, _⟩, hbound, _, hquestion, ⟨_, _⟩, hyes, _, hcolon, ⟨_, _⟩, hno, h⟩ := h
    obtain ⟨rfl, rfl⟩ := Prod.mk.inj (Option.some.inj h)
    -- the tokens of each part
    obtain ⟨no, rfl⟩ := ((bracketed budget).type hno).suffix
    obtain ⟨colon, rfl, hcolonMark⟩ := exists_of_expectMark hcolon
    obtain ⟨yes, rfl⟩ := ((bracketed budget).type hyes).suffix
    obtain ⟨question, rfl, hquestionMark⟩ := exists_of_expectMark hquestion
    obtain ⟨bound, hboundEq⟩ := ((bracketed budget).type hbound).suffix
    obtain ⟨word, after, rfl⟩ : ∃ word others, after = word :: others := by
      refine List.exists_cons_of_ne_nil ?_
      rintro rfl
      simp [startsWithWord] at hextends
    subst hboundEq
    obtain ⟨union, hunion⟩ := ((bracketed budget).union hfirst).suffix
    have hts : token :: us = union ++ word :: (bound ++ question :: (yes ++ colon :: no)) :=
      List.append_cancel_right (by simpa using hunion.symm)
    have hlength := congrArg List.length hts
    simp only [List.length_append, List.length_cons] at hlength
    rw [hts] at hrest ⊢
    have hword : word.isWord "extends" := by
      simp only [startsWithWord_cons, Bool.and_eq_true] at hextends
      exact hextends.1.2
    have hunion' :
        parseUnion budget' context (union ++ word :: (bound ++ question :: (yes ++ colon :: (no ++ rest')))) =
        some (first, word :: (bound ++ question :: (yes ++ colon :: (no ++ rest')))) :=
      ih.union context _ _ _ (by simpa [← hunion] using hfirst) (.cons (not_point_of_word hword)) (by omega)
    have hbound' := ih.type ⟨false, false⟩ _ (question :: (yes ++ colon :: (no ++ rest'))) budget'
      hbound (.cons (not_point_of_mark hquestionMark (by decide))) (by omega)
    have hyes' := ih.type .inside _ (colon :: (no ++ rest')) budget'
      hyes (.cons (not_point_of_mark hcolonMark (by decide))) (by omega)
    have hno' := ih.type context _ rest' budget' hno
      (.of_append (union ++ word :: (bound ++ question :: (yes ++ [colon]))) (by simpa using hrest)) (by omega)
    have hsource (tail : List Token) : consumed (union ++ word :: (bound ++ question :: (yes ++ colon :: (no ++ tail))))
        tail = union ++ word :: (bound ++ question :: (yes ++ colon :: no)) := by
      simpa using consumed_append_self (union ++ word :: (bound ++ question :: (yes ++ colon :: no))) tail
    simp only [List.append_assoc, List.cons_append]
    refine ⟨_, hunion', ?_⟩
    rw [if_pos (by simpa using hextends)]
    simp only [List.drop_succ_cons, List.drop_zero, hbound', hyes', hno', expectMark, hquestionMark, hcolonMark,
      if_true, Option.bind_some, hsource]
  · rename_i hextends
    obtain ⟨rfl, rfl⟩ := Prod.mk.inj (Option.some.inj h)
    refine ⟨_, ih.union context _ _ _ hfirst hrest (by rw [List.length_cons]; omega), ?_⟩
    have hnot : (context.conditional && startsWithWord "extends" rest' &&
        !(context.lineEnds && breaksLine rest')) = false := by
      cases hconditional : context.conditional with
      | false => rfl
      | true =>
        rw [hconditional, Bool.true_and, Bool.not_eq_true] at hextends
        exact hrest.not_open (fun _ hstops => hstops.not_word (by decide)) hextends
    rw [if_neg (by rw [hnot]; decide)]

-- A mark in front is one of the tokens.
theorem drop_leading (mark : Text) (token : Token) (ts rest : List Token) :
    (if startsWithMark mark (token :: ts ++ rest) then (token :: ts ++ rest).drop 1 else token :: ts ++ rest) =
      (if token.isMark mark then ts else token :: ts) ++ rest := by
  rw [List.cons_append, startsWithMark_cons]
  split <;> rfl

theorem length_leading (mark : Text) (token : Token) (ts : List Token) :
    (if token.isMark mark then ts else token :: ts).length ≤ ts.length + 1 := by
  split <;> simp

theorem Replaces.leading (mark : Text) (h : Replaces (token :: ts) rest rest') :
    Replaces (if token.isMark mark then ts else token :: ts) rest rest' := by
  split
  · exact h.of_append [token]
  · exact h

theorem not_point_of_alternatives {types : List TypeExpr}
    (h : parseAlternatives budget context (ts ++ rest) = some (types, rest)) : startsWithMark "." ts = false := by
  cases ts with
  | nil => rfl
  | cons token ts =>
    cases budget with
    | zero => simp [parseAlternatives] at h
    | succ budget =>
      rw [parseAlternatives] at h
      split at h
      · rename_i hbar
        exact not_point_of_mark (by simpa using hbar) (by decide)
      · exact absurd (eq_nil_of_append_eq _ (Prod.mk.inj (Option.some.inj h)).2) (List.cons_ne_nil _ _)

theorem rereads_union (ih : Rereading budget) (context : Context) : Rereads 3 (parseUnion · context) (budget + 1) := by
  intro ts rest rest' type budget' h hrest hbudget
  obtain ⟨token, us, rfl⟩ := exists_cons_of_takes ((bracketed (budget + 1)).union h)
  obtain ⟨budget', rfl, hbudget⟩ := exists_budget hbudget
  have hlength := length_leading "|" token us
  have hinside := hrest.leading "|"
  simp only [parseUnion, Option.bind_eq_bind, Option.bind_eq_some_iff, Option.pure_def, drop_leading] at h ⊢
  generalize (if token.isMark "|" = true then us else token :: us) = ts at h hlength hinside
  obtain ⟨⟨first, after⟩, hfirst, ⟨others, last⟩, hothers, h⟩ := h
  dsimp only at h hothers
  obtain rfl : last = rest := by
    split at h <;> exact (Prod.mk.inj (Option.some.inj h)).2
  obtain ⟨member, members, rfl, rfl⟩ := exists_split _ ((bracketed budget).intersection hfirst).suffix
    ((bracketed budget).alternatives hothers).suffix
  rw [List.length_append] at hlength
  have hfirst' := ih.intersection context _ (members ++ rest') budget'
    (by simpa using hfirst) (hinside.before (not_point_of_alternatives hothers)) (by omega)
  have hothers' := ih.alternatives context _ _ budget' hothers (hinside.of_append _) (by omega)
  refine ⟨(first, members ++ rest'), by simpa using hfirst', (others, rest'), hothers', ?_⟩
  split at h
  · rename_i hunion
    rw [if_pos (by simpa using hunion), ← (Prod.mk.inj (Option.some.inj h)).1]
  · rename_i hunion
    rw [if_neg (by simpa using hunion), ← (Prod.mk.inj (Option.some.inj h)).1]

-- A parser that takes something behind some tokens reads those tokens.
theorem lt_length_of_drop {n : Nat} (h : Takes ((ts ++ rest).drop n) us) (hrest : rest <:+ us) : n < ts.length := by
  have hshorter := h.shorter
  have hle := hrest.length_le
  rw [List.length_drop, List.length_append] at hshorter
  omega

theorem exists_cons_of_drop (h : Takes ((ts ++ rest).drop 1) us) (hrest : rest <:+ us) :
    ∃ token us, ts = token :: us :=
  List.exists_cons_of_length_pos (Nat.zero_lt_of_lt (lt_length_of_drop h hrest))

-- All that is read is the first token.
theorem exists_singleton_of_drop {p : Token → Bool} (hp : (ts ++ rest).head?.any p) (h : (ts ++ rest).drop 1 = rest) :
    ∃ token, ts = [token] := by
  cases ts with
  | nil =>
    cases rest with
    | nil => cases hp
    | cons => exact absurd (congrArg List.length h) (by simp)
  | cons token ts =>
    obtain rfl := eq_nil_of_append_eq ts h
    exact ⟨token, rfl⟩

theorem rereads_alternatives (ih : Rereading budget) (context : Context) :
    Rereads 1 (parseAlternatives · context) (budget + 1) := by
  intro ts rest rest' types budget' h hrest hbudget
  obtain ⟨budget', rfl⟩ : ∃ n, budget' = n + 1 := ⟨budget' - 1, by omega⟩
  dsimp only at h ⊢
  rw [parseAlternatives] at h ⊢
  split at h
  · rename_i hbar
    simp only [Option.bind_eq_bind, Option.bind_eq_some_iff, Option.pure_def] at h
    obtain ⟨⟨first, after⟩, hfirst, ⟨others, last⟩, hothers, h⟩ := h
    obtain ⟨rfl, rfl⟩ := Prod.mk.inj (Option.some.inj h)
    have hafter := ((bracketed budget).alternatives hothers).suffix
    obtain ⟨token, ts, rfl⟩ := exists_cons_of_drop ((bracketed budget).intersection hfirst) hafter
    rw [List.cons_append, List.drop_succ_cons, List.drop_zero] at hfirst
    obtain ⟨member, members, rfl, rfl⟩ := exists_split _ ((bracketed budget).intersection hfirst).suffix hafter
    simp only [List.length_cons, List.length_append] at hbudget
    have hinside : Replaces (member ++ members) last rest' := hrest.of_append [token]
    have hfirst' := ih.intersection context _ (members ++ rest') budget'
      (by simpa using hfirst) (hinside.before (not_point_of_alternatives hothers)) (by omega)
    have hothers' := ih.alternatives context _ _ budget' hothers (hinside.of_append _) (by omega)
    rw [if_pos (by simpa using hbar)]
    simp [hfirst', hothers']
  · rename_i hbar
    obtain ⟨rfl, hts⟩ := Prod.mk.inj (Option.some.inj h)
    obtain rfl := eq_nil_of_append_eq _ hts
    rw [if_neg (by simpa using hrest.not_mark (by decide) (by simpa using hbar))]
    rfl

theorem not_point_of_intersected (h : skipIntersected budget context (ts ++ rest) = some rest) :
    startsWithMark "." ts = false := by
  cases ts with
  | nil => rfl
  | cons token ts =>
    cases budget with
    | zero => simp [skipIntersected] at h
    | succ budget =>
      rw [skipIntersected] at h
      split at h
      · rename_i hamp
        exact not_point_of_mark (by simpa using hamp) (by decide)
      · exact absurd (eq_nil_of_append_eq _ (Option.some.inj h)) (List.cons_ne_nil _ _)

-- No operand is left where the operands end.
theorem startsWithMark_of_intersected (h : skipIntersected budget context (ts ++ rest) = some rest)
    (hrest : Replaces ts rest rest') : startsWithMark "&" (ts ++ rest') = startsWithMark "&" (ts ++ rest) := by
  cases ts with
  | cons => rfl
  | nil =>
    have hnone : startsWithMark "&" rest = false := by
      cases budget with
      | zero => simp [skipIntersected] at h
      | succ budget =>
        rw [skipIntersected] at h
        split at h
        · simp only [Option.bind_eq_bind, Option.bind_eq_some_iff] at h
          obtain ⟨⟨_, after⟩, hoperand, h⟩ := h
          obtain ⟨_, _, hts⟩ := exists_cons_of_drop ((bracketed budget).operand hoperand)
              ((bracketed budget).intersected h).suffix
          cases hts
        · rename_i hamp
          simpa using hamp
    rw [List.nil_append, List.nil_append, hnone, hrest.not_mark (by decide) hnone]

theorem rereads_intersection (ih : Rereading budget) (context : Context) :
    Rereads 2 (parseIntersection · context) (budget + 1) := by
  intro ts rest rest' type budget' h hrest hbudget
  obtain ⟨token, us, rfl⟩ := exists_cons_of_takes ((bracketed (budget + 1)).intersection h)
  obtain ⟨budget', rfl, hbudget⟩ := exists_budget hbudget
  have hlength := length_leading "&" token us
  have hinside := hrest.leading "&"
  simp only [parseIntersection, Option.bind_eq_bind, Option.bind_eq_some_iff, Option.pure_def, drop_leading] at h ⊢
  generalize (if token.isMark "&" = true then us else token :: us) = ts at h hlength hinside
  obtain ⟨⟨first, after⟩, hfirst, last, hothers, h⟩ := h
  dsimp only at h hothers
  have hlast : last = rest := by
    split at h
    · exact (Prod.mk.inj (Option.some.inj h)).2
    · rename_i hnone
      obtain rfl := (Prod.mk.inj (Option.some.inj h)).2
      simp only [Bool.or_eq_true, not_or, Bool.not_eq_true] at hnone
      cases budget with
      | zero => simp [skipIntersected] at hothers
      | succ budget =>
        rw [skipIntersected, if_neg (by simp [hnone.2])] at hothers
        exact (Option.some.inj hothers).symm
  subst hlast
  obtain ⟨operand, operands, rfl, rfl⟩ := exists_split _ ((bracketed budget).operand hfirst).suffix
    ((bracketed budget).intersected hothers).suffix
  rw [List.length_append] at hlength
  have hfirst' := ih.operand context _ (operands ++ rest') budget'
    (by simpa using hfirst) (hinside.before (not_point_of_intersected hothers)) (by omega)
  have hothers' := ih.intersected context _ _ budget' hothers (hinside.of_append _) (by omega)
  refine ⟨(first, operands ++ rest'), by simpa using hfirst', rest', hothers', ?_⟩
  have htest : (startsWithMark "&" (token :: us ++ rest') || startsWithMark "&" (operands ++ rest')) =
      (startsWithMark "&" (token :: us ++ last) || startsWithMark "&" (operands ++ last)) := by
    rw [startsWithMark_of_intersected hothers (hinside.of_append _)]
    rfl
  rw [consumed_append_self] at h ⊢
  split at h
  · rename_i hand
    rw [if_pos (htest ▸ hand), (Prod.mk.inj (Option.some.inj h)).1]
  · rename_i hand
    obtain ⟨rfl, hafter⟩ := Prod.mk.inj (Option.some.inj h)
    obtain rfl := eq_nil_of_append_eq _ hafter
    rw [if_neg (htest ▸ hand)]
    rfl

theorem rereads_intersected (ih : Rereading budget) (context : Context) :
    Reskips 1 (skipIntersected · context) (budget + 1) := by
  intro ts rest rest' budget' h hrest hbudget
  obtain ⟨budget', rfl⟩ : ∃ n, budget' = n + 1 := ⟨budget' - 1, by omega⟩
  dsimp only at h ⊢
  have hamp := startsWithMark_of_intersected h hrest
  rw [skipIntersected] at h ⊢
  rw [hamp]
  split at h
  · rename_i hopen
    simp only [Option.bind_eq_bind, Option.bind_eq_some_iff] at h
    obtain ⟨⟨first, after⟩, hfirst, hothers⟩ := h
    have hafter := ((bracketed budget).intersected hothers).suffix
    obtain ⟨token, ts, rfl⟩ := exists_cons_of_drop ((bracketed budget).operand hfirst) hafter
    rw [List.cons_append, List.drop_succ_cons, List.drop_zero] at hfirst
    obtain ⟨operand, operands, rfl, rfl⟩ := exists_split _ ((bracketed budget).operand hfirst).suffix hafter
    simp only [List.length_cons, List.length_append] at hbudget
    have hinside : Replaces (operand ++ operands) rest rest' := hrest.of_append [token]
    have hfirst' := ih.operand context _ (operands ++ rest') budget'
      (by simpa using hfirst) (hinside.before (not_point_of_intersected hothers)) (by omega)
    have hothers' := ih.intersected context _ _ budget' hothers (hinside.of_append _) (by omega)
    rw [if_pos hopen]
    simp [hfirst', hothers']
  · rename_i hopen
    obtain rfl := eq_nil_of_append_eq _ (Option.some.inj h)
    rw [if_neg hopen]
    rfl

-- A group without an arrow is a type in parentheses, which is closed.
theorem skipParameters_of_primary {type : TypeExpr} (hopen : token.isMark "(")
    (h : parsePrimary budget (token :: ts) = some (type, rest)) : skipParameters (token :: ts) = some rest := by
  have hboth : token.kind = .mark ∧ token.text = "(" := Token.isMark_iff.mp hopen
  cases budget with
  | zero => simp [parsePrimary] at h
  | succ budget =>
    rw [parsePrimary] at h
    simp only [hboth.1, hopen, if_true, Option.bind_eq_bind, Option.bind_eq_some_iff, Option.pure_def] at h
    obtain ⟨⟨inner, middle⟩, hinner, after, hclose, h⟩ := h
    obtain ⟨-, rfl⟩ := Prod.mk.inj (Option.some.inj h)
    have hclosed := (Closes.of_expectMark (by decide) ((bracketed budget).type hinner).toSpans hclose).closed []
    have hgroup : skipGroup false (token :: ts) = some after := by
      rw [skipGroup]
      simpa [closingMark?, hboth, skipOpen] using hclosed
    have hangle : token.isMark "<" = false := Token.not_isMark hopen (by decide)
    simp [skipParameters, skipAngles, hangle, hopen, hgroup]

theorem startsFunction_of_not_marks (h : token.isMark "<" = false) (hopen : token.isMark "(" = false) :
    startsFunction (token :: ts) = false := by
  simp [startsFunction, h, hopen]

-- What begins with a mark and is no function is read as it stands, with the brackets behind it.
theorem parseOperand_of_mark (hkind : token.kind = .mark) (hfunction : startsFunction (token :: ts) = false) :
    parseOperand (budget + 1) context (token :: ts) =
      (parsePrimary budget (token :: ts)).bind fun read => parsePostfix budget context (token :: ts) read.1 read.2 := by
  simp [parseOperand, hfunction, Token.isWord, hkind]

-- The arrow of a function that is read is one of its tokens.
theorem startsFunction_append {type : TypeExpr}
    (h : parseOperand (budget + 1) context (token :: ts ++ rest) = some (type, rest))
    (hfunction : startsFunction (token :: ts ++ rest)) (rest' : List Token) :
    startsFunction (token :: ts ++ rest') := by
  rw [parseOperand, if_pos hfunction] at h
  simp only [Option.bind_eq_bind, Option.bind_eq_some_iff, Option.pure_def] at h
  obtain ⟨after, hparameters, result, harrow, last, hresult, h⟩ := h
  obtain ⟨-, rfl⟩ := Prod.mk.inj (Option.some.inj h)
  obtain ⟨arrow, rfl, hmark⟩ := exists_of_expectMark harrow
  obtain ⟨result, rfl⟩ := ((bracketed budget).result hresult).suffix
  obtain ⟨front, back, hts, hback⟩ := exists_split _ (skipParameters_suffix hparameters)
    ((List.suffix_append result last).trans (List.suffix_cons arrow _))
  obtain rfl : arrow :: result = back := List.append_cancel_right hback
  rw [hts, List.append_assoc] at hparameters ⊢
  have hparameters' := skipParameters_replace hparameters (arrow :: result ++ rest')
  have hopen := (Bool.and_eq_true_iff.mp hfunction).1
  rw [hts, List.append_assoc] at hopen
  have hfront : front ≠ [] := by
    rintro rfl
    exact absurd (Takes.skipParameters hparameters).shorter (Nat.lt_irrefl _)
  obtain ⟨first, front, rfl⟩ := List.exists_cons_of_ne_nil hfront
  simp only [List.cons_append] at hparameters' hopen ⊢
  simp only [startsFunction, hparameters', Option.any_some, startsWithMark_cons, hmark, Bool.and_true] at hopen ⊢
  exact hopen

theorem startsFunction_replace {type : TypeExpr}
    (h : parseOperand (budget + 1) context (token :: ts ++ rest) = some (type, rest))
    (hrest : Replaces (token :: ts) rest rest') :
    startsFunction (token :: ts ++ rest') = startsFunction (token :: ts ++ rest) := by
  cases hfunction : startsFunction (token :: ts ++ rest) with
  | true => exact startsFunction_append h hfunction rest'
  | false =>
    by_cases hmark : token.kind = .mark
    · rw [List.cons_append] at h hfunction
      rw [parseOperand_of_mark hmark hfunction] at h
      obtain ⟨⟨first, after⟩, hprimary, hindices⟩ := Option.bind_eq_some_iff.mp h
      by_cases hopen : token.isMark "("
      · have hparameters := skipParameters_of_primary hopen hprimary
        have hangle : token.isMark "<" = false := Token.not_isMark hopen (by decide)
        have harrow : startsWithMark "=>" after = false := by
          simpa [startsFunction, hopen, hparameters] using hfunction
        obtain ⟨front, back, hts, rfl⟩ := exists_split (token :: ts) ((bracketed budget).primary hprimary).suffix
          ((bracketed budget).indices hindices).suffix
        have harrow' : startsWithMark "=>" (back ++ rest') = false := by
          cases back with
          | nil => exact hrest.not_mark (by decide) harrow
          | cons => exact harrow
        rw [← List.cons_append, hts, List.append_assoc] at hparameters
        have hparameters' := skipParameters_replace hparameters (back ++ rest')
        rw [← List.append_assoc, ← hts, List.cons_append] at hparameters'
        simp [startsFunction, hparameters', harrow']
      · have hangle : token.isMark "<" = false := by
          by_contra hangle
          cases budget with
          | zero => simp [parsePrimary] at hprimary
          | succ budget =>
            have hboth : token.kind = .mark ∧ token.text = "<" := Token.isMark_iff.mp (eq_true_of_ne_false hangle)
            simp [parsePrimary, hboth, Token.isMark, Text.ofString, Text.ofChars] at hprimary
        exact startsFunction_of_not_marks hangle (by simpa using hopen)
    · exact startsFunction_of_not_marks (by simp [Token.isMark, hmark]) (by simp [Token.isMark, hmark])

-- The tokens of parameters with their arrow, and what follows them.
theorem exists_arrow (ts : List Token) {after tail : List Token} (h : skipParameters (ts ++ rest) = some after)
    (harrow : expectMark "=>" after = some tail) (htail : rest <:+ tail) :
    ∃ front back, ts = front ++ back ∧ tail = back ++ rest ∧ back.length < ts.length ∧ ∀ rest',
      ∃ after', skipParameters (ts ++ rest') = some after' ∧ expectMark "=>" after' = some (back ++ rest') := by
  obtain ⟨arrow, rfl, hmark⟩ := exists_of_expectMark harrow
  obtain ⟨front, back, rfl, hback⟩ := exists_split _ (skipParameters_suffix h)
      (htail.trans (List.suffix_cons arrow tail))
  have hne : back ≠ [] := by
    rintro rfl
    have hlength := htail.length_le
    rw [← List.nil_append rest, ← hback, List.length_cons] at hlength
    omega
  obtain ⟨first, back, rfl⟩ := List.exists_cons_of_ne_nil hne
  obtain ⟨rfl, rfl⟩ := List.cons.inj hback
  rw [List.append_assoc] at h
  refine ⟨front ++ [arrow], back, by simp, rfl, by simp; omega, fun rest' =>
    ⟨arrow :: back ++ rest', ?_, by simp [expectMark, hmark]⟩⟩
  rw [List.append_assoc]
  exact skipParameters_replace h _

-- What does not stand behind some tokens does not stand there in front of another rest.
theorem Replaces.not_behind {p : Token → Bool} (front ts : List Token) (h : Replaces (front ++ ts) rest rest')
    (hp : ∀ token, token.Stops → p token = false) (hrest : (ts ++ rest).head?.any p = false) :
    (ts ++ rest').head?.any p = false := by
  cases ts with
  | nil => exact h.not hp hrest
  | cons => exact hrest

theorem not_point_of_indices {type result : TypeExpr} {start : List Token}
    (h : parsePostfix budget context start type (ts ++ rest) = some (result, rest)) :
    startsWithMark "." ts = false := by
  cases ts with
  | nil => rfl
  | cons token ts =>
    cases budget with
    | zero => simp [parsePostfix] at h
    | succ budget =>
      rw [parsePostfix] at h
      split at h
      · rename_i hopen
        exact not_point_of_mark (by simpa using (Bool.and_eq_true_iff.mp hopen).1) (by decide)
      · exact absurd (eq_nil_of_append_eq _ (Prod.mk.inj (Option.some.inj h)).2) (List.cons_ne_nil _ _)

-- Whether a word is the name that `infer` binds.
theorem infers_replace (h : Replaces (token :: ts) rest rest') :
    (token.isWord "infer" && startsWithKind .word (ts ++ rest')) =
      (token.isWord "infer" && startsWithKind .word (ts ++ rest)) := by
  cases ts with
  | cons => rfl
  | nil =>
    obtain ⟨_, _, _, rfl, rfl⟩ | ⟨-, hkind | hlast⟩ := h.head
    · rfl
    · rw [List.nil_append, List.nil_append, hkind]
    · simp [hlast token rfl]

-- What follows the words in front of the parameters of a constructor.
theorem reread_constructor (ts : List Token) {n : Nat} (limit : Nat) {after tail : List Token} {type : TypeExpr}
    (ih : Rereading budget)
    (hparameters : skipParameters ((ts ++ rest).drop n) = some after) (harrow : expectMark "=>" after = some tail)
    (hresult : parseOperand budget context tail = some (type, rest)) (hrest : Replaces ts rest rest')
    (hlimit : 8 * ts.length ≤ limit) :
    n < ts.length ∧ ∃ after' tail', skipParameters ((ts ++ rest').drop n) = some after' ∧
      expectMark "=>" after' = some tail' ∧ parseOperand limit context tail' = some (type, rest') := by
  have hread := (bracketed budget).operand hresult
  have hlt : n < ts.length := lt_length_of_drop
    ((Takes.skipParameters hparameters).andThen (Takes.expectMark (by decide) harrow).toSpans) hread.suffix
  rw [List.drop_append_of_le_length hlt.le] at hparameters ⊢
  obtain ⟨front, back, hts, rfl, hshort, hreplaced⟩ := exists_arrow _ hparameters harrow hread.suffix
  obtain ⟨after', hparameters', harrow'⟩ := hreplaced rest'
  rw [List.length_drop] at hshort
  exact ⟨hlt, after', _, hparameters', harrow',
    ih.operand context _ _ _ hresult (.of_append front (hts ▸ hrest.drop n)) (by omega)⟩

theorem rereads_operand (ih : Rereading budget) (context : Context) :
    Rereads 1 (parseOperand · context) (budget + 1) := by
  intro ts rest rest' type budget' h hrest hbudget
  dsimp only at h ⊢
  obtain ⟨token, us, rfl⟩ := exists_cons_of_takes ((bracketed (budget + 1)).operand h)
  obtain ⟨limit, rfl, hlimit⟩ := exists_budget hbudget
  have hinside : Replaces us rest rest' := hrest.of_append [token]
  have hsource (tail : List Token) : consumed (token :: (us ++ tail)) tail = token :: us := by
    simpa using consumed_append_self (token :: us) tail
  have hfunction := startsFunction_replace h hrest
  rw [List.cons_append, List.cons_append] at hfunction
  rw [List.cons_append, parseOperand, startsWithWord_cons, startsWithWord_cons, startsWithWord_cons,
    startsWithWord_cons, startsWithWord_cons] at h ⊢
  rw [hfunction]
  simp only [Option.bind_eq_bind, Option.pure_def, List.drop_succ_cons, List.drop_zero] at h ⊢
  split at h
  · rename_i hstarts
    rw [if_pos hstarts]
    simp only [Option.bind_eq_some_iff] at h
    obtain ⟨after, hparameters, tail, harrow, last, hresult, h⟩ := h
    obtain ⟨rfl, rfl⟩ := Prod.mk.inj (Option.some.inj h)
    obtain ⟨front, back, hts, rfl, hshort, hreplaced⟩ := exists_arrow (token :: us) hparameters harrow
      ((bracketed budget).result hresult).suffix
    obtain ⟨after', hparameters', harrow'⟩ := hreplaced rest'
    rw [List.length_cons] at hshort
    have hresult' := ih.result context _ _ limit hresult (.of_append front (hts ▸ hrest)) (by omega)
    rw [List.cons_append] at hparameters'
    simp only [hparameters', harrow', hresult', Option.bind_some, hsource]
  rename_i hstarts
  rw [if_neg hstarts]
  split at h
  · rename_i hreadonly
    obtain ⟨⟨_, last⟩, htype, h⟩ := Option.bind_eq_some_iff.mp h
    obtain ⟨rfl, rfl⟩ := Prod.mk.inj (Option.some.inj h)
    have htype' := ih.type context us _ limit htype hinside (by omega)
    dsimp only at htype'
    simp only [if_pos hreadonly, htype', Option.bind_some, hsource]
  rename_i hreadonly
  rw [if_neg hreadonly]
  split at h
  · rename_i hkeyof
    obtain ⟨⟨_, last⟩, hoperand, h⟩ := Option.bind_eq_some_iff.mp h
    obtain ⟨rfl, rfl⟩ := Prod.mk.inj (Option.some.inj h)
    have hoperand' := ih.operand context us _ limit hoperand hinside (by omega)
    dsimp only at hoperand'
    simp only [if_pos hkeyof, hoperand', Option.bind_some, hsource]
  rename_i hkeyof
  rw [if_neg hkeyof]
  split at h
  · rename_i hnew
    simp only [Option.bind_eq_some_iff] at h
    obtain ⟨after, hparameters, tail, harrow, ⟨_, last⟩, hoperand, h⟩ := h
    obtain ⟨rfl, rfl⟩ := Prod.mk.inj (Option.some.inj h)
    obtain ⟨n, hn⟩ : ∃ n, (if token.isWord "new" then 1 else 2) = n := ⟨_, rfl⟩
    rw [hn] at hparameters ⊢
    obtain ⟨hlt, after', tail', hparameters', harrow', hoperand'⟩ := reread_constructor (token :: us) limit
      ih hparameters harrow hoperand hrest (by rw [List.length_cons]; omega)
    rw [List.cons_append] at hparameters'
    have hnew' : (token.isWord "new" || token.isWord "abstract" && startsWithWord "new" (us ++ rest')) := by
      cases us with
      | cons => exact hnew
      | nil =>
        have hword : token.isWord "new" := by
          by_contra hword
          rw [if_neg hword] at hn
          simp [← hn] at hlt
        rw [hword, Bool.true_or]
    rw [if_pos hnew']
    simp only [hparameters', harrow', hoperand', Option.bind_some, hsource]
  rename_i hnew
  have hnew' : (token.isWord "new" || token.isWord "abstract" && startsWithWord "new" (us ++ rest')) = false := by
    simp only [Bool.not_eq_true, Bool.or_eq_false_iff, Bool.and_eq_false_iff] at hnew ⊢
    exact ⟨hnew.1, hnew.2.imp_right (hinside.not_behind [] us fun _ hstops => hstops.not_word (by decide))⟩
  rw [if_neg (by simp [hnew']), infers_replace hrest]
  split at h
  · rename_i hinfer
    rw [if_pos hinfer]
    obtain ⟨name, us, rfl⟩ : ∃ name names, us = name :: names := by
      refine List.exists_cons_of_ne_nil ?_
      rintro rfl
      have hword : startsWithKind .word rest := (Bool.and_eq_true_iff.mp hinfer).2
      have hle : rest.length ≤ (rest.drop 1).length := by
        split at h
        · obtain ⟨⟨_, last⟩, hunion, h⟩ := Option.bind_eq_some_iff.mp h
          obtain ⟨-, rfl⟩ := Prod.mk.inj (Option.some.inj h)
          exact (((bracketed budget).union hunion).suffix.trans (List.drop_suffix 1 _)).length_le
        · exact (congrArg List.length (Prod.mk.inj (Option.some.inj h)).2).ge
      cases rest with
      | nil => cases hword
      | cons => exact absurd hle (by simp)
    rw [List.length_cons] at hlimit
    simp only [List.cons_append, List.drop_succ_cons, List.drop_zero] at h hsource ⊢
    split at h
    · rename_i hextends
      obtain ⟨⟨_, last⟩, hunion, h⟩ := Option.bind_eq_some_iff.mp h
      obtain ⟨rfl, rfl⟩ := Prod.mk.inj (Option.some.inj h)
      obtain ⟨word, us, rfl⟩ := exists_cons_of_drop ((bracketed budget).union hunion) (List.suffix_refl _)
      rw [List.length_cons] at hlimit
      rw [List.cons_append, List.drop_succ_cons, List.drop_zero] at hunion
      have hunion' := ih.union context _ _ limit hunion
        (hrest.of_append [token, name, word]) (by omega)
      dsimp only at hunion'
      rw [if_pos (by simpa using hextends)]
      simp only [List.cons_append, List.drop_succ_cons, List.drop_zero, hunion', Option.bind_some] at hsource ⊢
      rw [hsource, hsource]
    · rename_i hextends
      obtain ⟨rfl, hus⟩ := Prod.mk.inj (Option.some.inj h)
      obtain rfl := eq_nil_of_append_eq _ hus
      have hextends' := hrest.not_word (show ("extends" : Text) ≠ "export" by decide) (by simpa using hextends)
      simp only [List.nil_append] at hsource ⊢
      rw [if_neg (by simp [hextends']), hsource, hsource]
  rename_i hinfer
  rw [if_neg hinfer]
  obtain ⟨⟨first, after⟩, hprimary, hindices⟩ := Option.bind_eq_some_iff.mp h
  obtain ⟨front, back, hts, rfl⟩ := exists_split (token :: us) ((bracketed budget).primary hprimary).suffix
    ((bracketed budget).indices hindices).suffix
  have hlength := congrArg List.length hts
  simp only [List.length_cons, List.length_append] at hlength
  have hfront (tail : List Token) : token :: (us ++ tail) = front ++ (back ++ tail) := by
    rw [← List.cons_append, hts, List.append_assoc]
  rw [hfront] at hprimary hindices
  have hprimary' := ih.primary _ (back ++ rest') limit hprimary
    ((hts ▸ hrest).before (not_point_of_indices hindices)) (by omega)
  rw [hfront, hprimary', Option.bind_some]
  have hpos : 0 < front.length := by
    obtain ⟨_, _, rfl⟩ := exists_cons_of_takes ((bracketed budget).primary hprimary)
    simp
  exact ih.indices _ _ _ _ hindices (.of_append front (hts ▸ hrest)) (by omega)

-- What does not stand on the line behind some tokens does not stand there in front of another rest.
theorem Replaces.not_on_line {p : Token → Bool} (front ts : List Token) (h : Replaces (front ++ ts) rest rest')
    (hp : ∀ token, token.Stops → (p token && !token.startsLine) = false)
    (hrest : ((ts ++ rest).head?.any p && !breaksLine (ts ++ rest)) = false) :
    ((ts ++ rest').head?.any p && !breaksLine (ts ++ rest')) = false := by
  have hhead (us : List Token) := head_any_and_not_breaksLine p true us
  simp only [Bool.true_and] at hhead
  rw [hhead] at hrest ⊢
  exact h.not_behind _ _ hp hrest

theorem Token.Stops.not_kind (h : token.Stops) : (token.kind == .word && !token.startsLine) = false := by
  by_cases hkind : token.kind = .word
  · simp [h.startsLine hkind]
  · simp [hkind]

theorem rereads_result (ih : Rereading budget) (context : Context) :
    Reskips 5 (skipResult · context) (budget + 1) := by
  intro ts rest rest' budget' h hrest hbudget
  dsimp only at h ⊢
  obtain ⟨token, us, rfl⟩ := exists_cons_of_takes ((bracketed (budget + 1)).result h)
  obtain ⟨limit, rfl, hlimit⟩ := exists_budget hbudget
  have hinside : Replaces us rest rest' := hrest.drop 1
  rw [List.cons_append, skipResult] at h ⊢
  simp only [List.drop_succ_cons, List.drop_zero, startsWithKind_cons, startsWithWord_cons, Bool.and_assoc,
    Option.bind_eq_bind, Option.pure_def] at h ⊢
  split at h
  · rename_i his
    obtain ⟨⟨_, last⟩, htype, h⟩ := Option.bind_eq_some_iff.mp h
    obtain rfl := Option.some.inj h
    obtain ⟨word, us, rfl⟩ := exists_cons_of_drop ((bracketed budget).type htype) (List.suffix_refl _)
    have htype' := ih.type context _ _ limit htype (hinside.drop 1) (by rw [List.length_cons] at hlimit; omega)
    rw [if_pos (by exact his)]
    simp [htype']
  rename_i his
  -- a predicate that does not stand behind the subject
  have hon (us : List Token) (hinside : Replaces us rest rest')
      (h : (startsWithWord "is" (us ++ rest) && !breaksLine (us ++ rest)) = false) :
      (startsWithWord "is" (us ++ rest') && !breaksLine (us ++ rest')) = false :=
    hinside.not_on_line [] _ (fun _ hstops => by rw [hstops.not_word (by decide), Bool.false_and]) h
  have his' : (token.kind == .word && (startsWithWord "is" (us ++ rest') && !breaksLine (us ++ rest'))) = false :=
    Bool.and_eq_false_iff.mpr ((Bool.and_eq_false_iff.mp (Bool.not_eq_true _ ▸ his)).imp_right (hon us hinside))
  rw [if_neg (by simp [his'])]
  split at h
  · rename_i hasserts
    obtain ⟨name, us, rfl⟩ : ∃ name names, us = name :: names := by
      refine List.exists_cons_of_ne_nil ?_
      rintro rfl
      have hle : rest.length ≤ (rest.drop 1).length := by
        split at h
        · obtain ⟨⟨_, last⟩, htype, h⟩ := Option.bind_eq_some_iff.mp h
          obtain rfl := Option.some.inj h
          exact ((bracketed budget).type htype).suffix.length_le.trans (by simp; omega)
        · exact (congrArg List.length (Option.some.inj h)).ge
      cases rest with
      | nil => simp [startsWithKind] at hasserts
      | cons => exact absurd hle (by simp)
    rw [if_pos (by exact hasserts)]
    simp only [List.cons_append, List.drop_succ_cons, List.drop_zero] at h ⊢
    split at h
    · rename_i hpredicate
      obtain ⟨⟨_, last⟩, htype, h⟩ := Option.bind_eq_some_iff.mp h
      obtain rfl := Option.some.inj h
      obtain ⟨word, us, rfl⟩ := exists_cons_of_drop ((bracketed budget).type htype) (List.suffix_refl _)
      have htype' := ih.type context _ _ limit htype (hinside.drop 2)
        (by rw [List.length_cons, List.length_cons] at hlimit; omega)
      rw [if_pos (by exact hpredicate)]
      simp [htype']
    · rename_i hpredicate
      obtain rfl := eq_nil_of_append_eq _ (Option.some.inj h)
      rw [if_neg (by simpa using hon [] (hinside.drop 1) (by simpa using hpredicate))]
      rfl
  rename_i hasserts
  have hasserts' : (token.isWord "asserts" &&
      (startsWithKind .word (us ++ rest') && !breaksLine (us ++ rest'))) = false :=
    Bool.and_eq_false_iff.mpr ((Bool.and_eq_false_iff.mp (Bool.not_eq_true _ ▸ hasserts)).imp_right
      (hinside.not_on_line [] us fun _ hstops => hstops.not_kind))
  rw [if_neg (by simp [hasserts'])]
  obtain ⟨⟨_, last⟩, htype, h⟩ := Option.bind_eq_some_iff.mp h
  obtain rfl := Option.some.inj h
  have htype' := ih.type context (token :: us) _ limit htype hrest (by rw [List.length_cons]; omega)
  dsimp only at htype'
  rw [List.cons_append] at htype'
  simp [htype']

theorem rereads_indices {start : List Token} {type result : TypeExpr} (ih : Rereading budget)
    (h : parsePostfix (budget + 1) context (start ++ (ts ++ rest)) type (ts ++ rest) = some (result, rest))
    (hrest : Replaces ts rest rest') (hbudget : 8 * ts.length + 1 ≤ budget') :
    parsePostfix budget' context (start ++ (ts ++ rest')) type (ts ++ rest') = some (result, rest') := by
  cases hopen : startsWithMark "[" (ts ++ rest) && !(context.lineEnds && breaksLine (ts ++ rest)) with
  | false =>
    rw [parsePostfix, hopen] at h
    obtain ⟨rfl, hts⟩ := Prod.mk.inj (Option.some.inj h)
    obtain rfl := eq_nil_of_append_eq _ hts
    obtain ⟨limit, rfl⟩ : ∃ n, budget' = n + 1 := ⟨budget' - 1, by omega⟩
    have hopen' := hrest.not_open (fun _ hstops => hstops.not_mark (show ("[" : Text) ∉ stopMarks by decide)) hopen
    rw [parsePostfix]
    exact if_neg (by simpa [startsWithMark] using hopen')
  | true =>
    obtain ⟨token, us, rfl⟩ := exists_cons_of_takes (takes_indices (bracketed budget) hopen h)
    obtain ⟨limit, rfl, hlimit⟩ := exists_budget hbudget
    rw [parsePostfix, if_pos hopen] at h
    rw [parsePostfix, if_pos (by exact hopen)]
    simp only [List.cons_append, List.drop_succ_cons, List.drop_zero, Option.bind_eq_bind] at h ⊢
    split at h
    · rename_i hclose
      obtain ⟨close, us, rfl⟩ : ∃ close others, us = close :: others := by
        refine List.exists_cons_of_ne_nil ?_
        rintro rfl
        have hle := ((bracketed budget).indices h).suffix.length_le
        cases rest with
        | nil => cases hclose
        | cons => exact absurd hle (by simp)
      rw [List.length_cons] at hlimit
      have hindices := ih.indices (start ++ [token, close]) us rest' limit
        (by simpa using h) (hrest.drop 2) (by omega)
      rw [if_pos (by simpa using hclose)]
      simpa using hindices
    · rename_i hclose
      simp only [Option.bind_eq_some_iff] at h
      obtain ⟨⟨index, middle⟩, htype, after, hmark, h⟩ := h
      obtain ⟨close, rfl, hcloseMark⟩ := exists_of_expectMark hmark
      obtain ⟨back, rfl⟩ := ((bracketed budget).indices h).suffix
      obtain ⟨front, hfront⟩ := ((bracketed budget).type htype).suffix
      obtain rfl : front ++ close :: back = us := List.append_cancel_right (by simpa using hfront)
      have hread := (bracketed budget).type htype
      rw [List.append_assoc, List.cons_append] at hread
      obtain ⟨first, front, rfl⟩ := exists_cons_of_takes hread
      simp only [List.cons_append, List.length_cons, List.length_append] at hlimit
      have htype' := ih.type .inside (first :: front) (close :: (back ++ rest')) limit
        (by simpa using htype) (.cons (not_point_of_mark hcloseMark (by decide))) (by rw [List.length_cons]; omega)
      have hindex (tail : List Token) :
          consumed (first :: (front ++ close :: (back ++ tail))) (close :: (back ++ tail)) =
          first :: front := by
        simpa using consumed_append_self (first :: front) (close :: (back ++ tail))
      have hread (tail : List Token) : consumed (start ++ token :: first :: (front ++ close :: (back ++ tail)))
          (back ++ tail) = start ++ token :: first :: (front ++ [close]) := by
        simpa using consumed_append_self (start ++ token :: first :: (front ++ [close])) (back ++ tail)
      have hindices := ih.indices (start ++ token :: first :: (front ++ [close])) back rest' limit
          (by simpa [hindex, hread] using h)
        (.of_append (token :: first :: (front ++ [close])) (by simpa using hrest)) (by omega)
      rw [if_neg (by simpa using hclose)]
      dsimp only at htype'
      simp only [List.cons_append, List.append_assoc, List.nil_append] at htype' hindices ⊢
      simp [htype', expectMark, hcloseMark, hindex, hread, hindices]

theorem reread_primary (ts : List Token) {type : TypeExpr} (ih : Rereading budget)
    (h : parsePrimary (budget + 1) (ts ++ rest) = some (type, rest)) (hrest : Borders rest rest')
    (hbudget : 8 * ts.length ≤ budget') : parsePrimary budget' (ts ++ rest') = some (type, rest') := by
  obtain ⟨token, us, rfl⟩ := exists_cons_of_takes ((bracketed (budget + 1)).primary h)
  obtain ⟨limit, rfl, hlimit⟩ := exists_budget (show 8 * (token :: us).length + 0 ≤ budget' from hbudget)
  rw [List.cons_append, parsePrimary] at h ⊢
  simp only [Option.bind_eq_bind, Option.pure_def] at h ⊢
  have hsource (tail : List Token) : consumed (token :: (us ++ tail)) tail = token :: us := by
    simpa using consumed_append_self (token :: us) tail
  -- what is read up to the next token
  have hsingle {type' : TypeExpr} (h : some (type', us ++ rest) = some (type, rest)) :
      some (type', us ++ rest') = some (type, rest') := by
    obtain ⟨rfl, hus⟩ := Prod.mk.inj (Option.some.inj h)
    rw [eq_nil_of_append_eq _ hus]
    rfl
  -- what is read with the next token
  have hpair {p : Token → Bool} (hp : (us ++ rest).head?.any p)
      (h : some (TypeExpr.verbatim (token :: (us ++ rest).take 1), (us ++ rest).drop 1) = some (type, rest)) :
      ∃ next, us = [next] ∧ type = .verbatim [token, next] := by
    obtain ⟨rfl, hus⟩ := Prod.mk.inj (Option.some.inj h)
    obtain ⟨next, rfl⟩ := exists_singleton_of_drop hp hus
    exact ⟨next, rfl, rfl⟩
  cases hkind : token.kind with
  | finish => simp [hkind] at h
  | regex => simp [hkind] at h
  | string =>
    rw [hkind] at h
    exact hsingle h
  | template =>
    rw [hkind] at h
    exact hsingle h
  | number =>
    rw [hkind] at h
    exact hsingle h
  | mark =>
    simp only [hkind] at h ⊢
    split at h
    · rename_i hparen
      rw [if_pos hparen]
      simp only [Option.bind_eq_some_iff] at h
      obtain ⟨⟨inner, middle⟩, htype, after, hclose, h⟩ := h
      obtain ⟨rfl, rfl⟩ := Prod.mk.inj (Option.some.inj h)
      obtain ⟨close, rfl, hmark⟩ := exists_of_expectMark hclose
      obtain ⟨front, hfront⟩ := ((bracketed budget).type htype).suffix
      obtain rfl : front ++ [close] = us := List.append_cancel_right (by simpa using hfront)
      rw [List.length_append] at hlimit
      have htype' := ih.type .inside front (close :: rest') limit (by simpa using htype)
        (.cons (not_point_of_mark hmark (by decide))) (by simp at hlimit; omega)
      dsimp only at htype'
      simp [htype', expectMark, hmark]
    rename_i hparen
    rw [if_neg hparen]
    split at h
    · rename_i hbracket
      obtain ⟨⟨elements, last⟩, helements, h⟩ := Option.bind_eq_some_iff.mp h
      obtain ⟨rfl, rfl⟩ := Prod.mk.inj (Option.some.inj h)
      rw [if_pos hbracket, ih.elements _ limit helements (by omega) rest']
      rfl
    rename_i hbracket
    rw [if_neg hbracket]
    split at h
    · rename_i hbrace
      obtain ⟨⟨entries, last⟩, hentries, h⟩ := Option.bind_eq_some_iff.mp h
      obtain ⟨rfl, rfl⟩ := Prod.mk.inj (Option.some.inj h)
      rw [if_pos hbrace, ih.entries _ limit hentries (by omega) rest']
      rfl
    rename_i hbrace
    rw [if_neg hbrace]
    split at h
    · rename_i hsigned
      obtain ⟨number, rfl, rfl⟩ := hpair (Bool.and_eq_true_iff.mp hsigned).2 h
      rw [if_pos (by simpa using hsigned)]
      rfl
    · cases h
  | word =>
    simp only [hkind] at h ⊢
    split at h
    · rename_i hkeyword
      rw [if_pos hkeyword]
      exact hsingle h
    rename_i hkeyword
    rw [if_neg hkeyword]
    split at h
    · rename_i hunique
      obtain ⟨symbol, rfl, rfl⟩ := hpair (Bool.and_eq_true_iff.mp hunique).2 h
      rw [if_pos (by simpa using hunique)]
      rfl
    rename_i hunique
    have hunique' : (token.isWord "unique" && startsWithWord "symbol" (us ++ rest')) = false := by
      refine Bool.and_eq_false_iff.mpr
          ((Bool.and_eq_false_iff.mp (Bool.not_eq_true _ ▸ hunique)).imp_right fun hsymbol => ?_)
      cases us with
      | nil => exact hrest.symbol hsymbol
      | cons => exact hsymbol
    rw [if_neg (by simp [hunique'])]
    split at h
    · rename_i hqueries
      obtain ⟨after, hqueried, h⟩ := Option.bind_eq_some_iff.mp h
      obtain ⟨rfl, rfl⟩ := Prod.mk.inj (Option.some.inj h)
      rw [if_pos hqueries, skipQueried_replace hqueried hrest, Option.bind_some, hsource, hsource]
    rename_i hqueries
    rw [if_neg hqueries]
    split at h
    · rename_i himport
      simp only [Option.bind_eq_some_iff] at h
      obtain ⟨after, hgroup, last, hangles, h⟩ := h
      obtain ⟨rfl, rfl⟩ := Prod.mk.inj (Option.some.inj h)
      obtain ⟨group, us, rfl, rfl⟩ := exists_split _ (skipGroup_suffix hgroup)
        ((Spans.skipAngles hangles).suffix.trans (Spans.skipDots after).suffix)
      simp only [List.append_assoc] at hgroup hsource ⊢
      rw [if_pos himport, skipGroup_replace _ hgroup, Option.bind_some, skipAngles_skipDots_replace hangles hrest,
        Option.bind_some, hsource, hsource]
    rename_i himport
    rw [if_neg himport]
    generalize hspan : spanDots (us ++ rest) = span at h
    obtain ⟨dots, after⟩ := span
    have happend : dots ++ after = us ++ rest := by simpa [hspan] using spanDots_append (us ++ rest)
    dsimp only at h
    split at h
    · rename_i hangle
      obtain ⟨⟨types, last⟩, harguments, h⟩ := Option.bind_eq_some_iff.mp h
      obtain ⟨rfl, rfl⟩ := Prod.mk.inj (Option.some.inj h)
      obtain ⟨angle, after, rfl⟩ : ∃ angle others, after = angle :: others := by
        refine List.exists_cons_of_ne_nil ?_
        rintro rfl
        cases hangle
      obtain ⟨back, hback⟩ := ((bracketed budget).arguments harguments).suffix
      rw [List.drop_succ_cons, List.drop_zero] at hback harguments
      subst hback
      obtain rfl : dots ++ angle :: back = us := List.append_cancel_right (by simpa using happend)
      rw [startsWithMark_cons] at hangle
      have hspan' : spanDots (dots ++ angle :: (back ++ rest')) = (dots, angle :: (back ++ rest')) :=
        spanDots_replace (by simpa using hspan) (not_point_of_mark hangle (by decide))
      rw [List.length_append, List.length_cons] at hlimit
      have harguments' := ih.arguments _ limit harguments (by omega) rest'
      simp [hspan', hangle, harguments']
    rename_i hangle
    split at h
    · rename_i hdots
      obtain ⟨rfl, hus⟩ := Prod.mk.inj (Option.some.inj h)
      obtain rfl := eq_nil_of_append_eq _ hus
      obtain rfl := List.isEmpty_iff.mp hdots
      obtain rfl : after = rest := by simpa using happend
      have hangle' := hrest.angle (by simpa using hangle)
      simp [spanDots_of_not_point hrest.point, hangle']
    · rename_i hdots
      obtain ⟨rfl, rfl⟩ := Prod.mk.inj (Option.some.inj h)
      obtain rfl := List.append_cancel_right happend
      have hangle' := hrest.angle (by simpa using hangle)
      simp [spanDots_replace hspan hrest.point, hangle', hdots]

theorem rereads_primary (ih : Rereading budget) : Rereads 0 parsePrimary (budget + 1) :=
  fun ts _ _ _ _ h hrest hbudget => reread_primary ts ih h hrest.borders hbudget

-- What is read in front of a mark that belongs to the same tokens.
theorem Rereads.exists_before {read : Nat → List Token → Option (α × List Token)} {extra : Nat} {result : α}
    {next : Token} {middle : List Token} (hread : Rereads extra read budget) (limit : Nat)
    (h : read budget (ts ++ rest) = some (result, next :: middle)) (hsuffix : next :: middle <:+ ts ++ rest)
    (hrest : rest <:+ middle) (hnext : next.isMark "." = false) (hlimit : 8 * ts.length + extra ≤ limit + 8) :
    ∃ front back, ts = front ++ next :: back ∧ middle = back ++ rest ∧
      ∀ rest', read limit (ts ++ rest') = some (result, next :: (back ++ rest')) := by
  obtain ⟨back, rfl⟩ := hrest
  obtain ⟨front, hfront⟩ := hsuffix
  obtain rfl : front ++ next :: back = ts := List.append_cancel_right (by simpa using hfront)
  rw [List.length_append, List.length_cons] at hlimit
  refine ⟨front, back, rfl, rfl, fun rest' => ?_⟩
  have hread' := hread front (next :: (back ++ rest')) limit (by simpa using h) (.cons hnext) (by omega)
  simpa using hread'

theorem exists_of_startsWithMark {mark : Text} (h : startsWithMark mark ts) :
    ∃ token us, ts = token :: us ∧ token.isMark mark := by
  cases ts with
  | nil => cases h
  | cons token us => exact ⟨token, us, rfl, h⟩

theorem rereads_arguments {types : List TypeExpr} (ih : Rereading budget)
    (h : parseArguments (budget + 1) (ts ++ rest) = some (types, rest)) (hbudget : 8 * ts.length ≤ budget')
    (rest' : List Token) : parseArguments budget' (ts ++ rest') = some (types, rest') := by
  obtain ⟨limit, rfl⟩ : ∃ limit, budget' = limit + 1 := by
    obtain ⟨token, us, rfl⟩ := exists_cons_of_takes ((bracketed (budget + 1)).arguments h)
    rw [List.length_cons] at hbudget
    exact ⟨budget' - 1, by omega⟩
  simp only [parseArguments, Option.bind_eq_bind, Option.bind_eq_some_iff, Option.pure_def] at h ⊢
  obtain ⟨⟨first, middle⟩, hfirst, h⟩ := h
  have hmiddle := ((bracketed budget).type hfirst).suffix
  dsimp only at h
  split at h
  · rename_i hclose
    obtain ⟨rfl, hrest⟩ := Prod.mk.inj (Option.some.inj h)
    obtain ⟨close, middle, rfl, hmark⟩ := exists_of_startsWithMark hclose
    obtain rfl : middle = rest := hrest
    obtain ⟨front, back, rfl, hback, hfirst'⟩ := (ih.type .inside).exists_before limit hfirst hmiddle
      (List.suffix_refl _) (not_point_of_mark hmark (by decide)) (by omega)
    obtain rfl := eq_nil_of_append_eq _ hback.symm
    exact ⟨_, hfirst' rest', by simp [hmark]⟩
  · rename_i hclose
    simp only [Option.bind_eq_some_iff] at h
    obtain ⟨next, hcomma, h⟩ := h
    obtain ⟨comma, rfl, hmark⟩ := exists_of_expectMark hcomma
    have hnot : comma.isMark ">" = false := by simpa using hclose
    have hnext : rest <:+ next := by
      split at h
      · obtain ⟨-, rfl⟩ := Prod.mk.inj (Option.some.inj h)
        exact List.drop_suffix 1 next
      · obtain ⟨⟨others, last⟩, hothers, h⟩ := Option.bind_eq_some_iff.mp h
        obtain ⟨-, rfl⟩ := Prod.mk.inj (Option.some.inj h)
        exact ((bracketed budget).arguments hothers).suffix
    obtain ⟨front, back, rfl, rfl, hfirst'⟩ := (ih.type .inside).exists_before limit hfirst hmiddle hnext
      (not_point_of_mark hmark (by decide)) (by omega)
    refine ⟨_, hfirst' rest', ?_⟩
    simp only [startsWithMark_cons, hnot, expectMark, hmark, if_true, Option.bind_some, Bool.false_eq_true, if_false]
    split at h
    · rename_i hlast
      obtain ⟨rfl, hrest⟩ := Prod.mk.inj (Option.some.inj h)
      obtain ⟨last, rfl⟩ := exists_singleton_of_drop hlast hrest
      rw [if_pos (by exact hlast)]
      rfl
    · rename_i hlast
      obtain ⟨⟨others, last⟩, hothers, h⟩ := Option.bind_eq_some_iff.mp h
      obtain ⟨rfl, rfl⟩ := Prod.mk.inj (Option.some.inj h)
      obtain ⟨next, back, rfl⟩ := exists_cons_of_takes ((bracketed budget).arguments hothers)
      rw [List.length_append, List.length_cons] at hbudget
      rw [if_neg (by exact hlast), ih.arguments _ limit hothers (by omega) rest']
      rfl

theorem Closes.exists_cons {closing : Text} (h : Closes closing (ts ++ rest) rest) : ∃ token us, ts = token :: us := by
  refine List.exists_cons_of_ne_nil ?_
  rintro rfl
  exact absurd (length_lt_of_skipOpen ((h.closed []).trans (by simp [skipOpen]))) (Nat.lt_irrefl _)

theorem rereads_elements {types : List TypeExpr} (ih : Rereading budget)
    (h : parseElements (budget + 1) (ts ++ rest) = some (types, rest)) (hbudget : 8 * ts.length ≤ budget')
    (rest' : List Token) : parseElements budget' (ts ++ rest') = some (types, rest') := by
  obtain ⟨token, us, rfl⟩ := ((bracketed (budget + 1)).elements h).exists_cons
  obtain ⟨limit, rfl⟩ : ∃ limit, budget' = limit + 1 := by
    rw [List.length_cons] at hbudget
    exact ⟨budget' - 1, by omega⟩
  rw [parseElements] at h ⊢
  split at h
  · rename_i hclose
    obtain ⟨rfl, hrest⟩ := Prod.mk.inj (Option.some.inj h)
    obtain rfl := eq_nil_of_append_eq us hrest
    rw [if_pos (by exact hclose)]
    rfl
  rename_i hclose
  rw [if_neg (by exact hclose)]
  simp only [Option.bind_eq_bind, Option.bind_eq_some_iff, Option.pure_def] at h ⊢
  obtain ⟨⟨first, middle⟩, hfirst, h⟩ := h
  have hmiddle := ((bracketed budget).element hfirst).suffix
  dsimp only at h
  split at h
  · rename_i hend
    obtain ⟨rfl, hrest⟩ := Prod.mk.inj (Option.some.inj h)
    obtain ⟨close, middle, rfl, hmark⟩ := exists_of_startsWithMark hend
    obtain rfl : middle = rest := hrest
    obtain ⟨front, back, hts, hback, hfirst'⟩ := ih.element.exists_before limit hfirst hmiddle
      (List.suffix_refl _) (not_point_of_mark hmark (by decide)) (by omega)
    obtain rfl := eq_nil_of_append_eq _ hback.symm
    exact ⟨_, hfirst' rest', by simp [hmark]⟩
  · rename_i hend
    simp only [Option.bind_eq_some_iff] at h
    obtain ⟨next, hcomma, ⟨others, last⟩, hothers, h⟩ := h
    obtain ⟨rfl, rfl⟩ := Prod.mk.inj (Option.some.inj h)
    obtain ⟨comma, rfl, hmark⟩ := exists_of_expectMark hcomma
    have hnot : comma.isMark "]" = false := by simpa using hend
    obtain ⟨front, back, hts, rfl, hfirst'⟩ := ih.element.exists_before limit hfirst hmiddle
      ((bracketed budget).elements hothers).suffix (not_point_of_mark hmark (by decide)) (by omega)
    rw [hts, List.length_append, List.length_cons] at hbudget
    refine ⟨_, hfirst' rest', ?_⟩
    simp [hnot, expectMark, hmark, ih.elements _ limit hothers (by omega) rest']

theorem rereads_element (ih : Rereading budget) : Rereads 5 parseElement (budget + 1) := by
  intro ts rest rest' type budget' h hrest hbudget
  obtain ⟨token, us, rfl⟩ := exists_cons_of_takes ((bracketed (budget + 1)).element h)
  obtain ⟨limit, rfl, hlimit⟩ := exists_budget hbudget
  have hlength := length_leading "..." token us
  have hinside := hrest.leading "..."
  simp only [parseElement, Option.bind_eq_bind, Option.pure_def, drop_leading] at h ⊢
  generalize (if token.isMark "..." = true then us else token :: us) = ts at h hlength hinside
  cases hname : skipElementName (ts ++ rest) with
  | some behind =>
    rw [hname] at h
    obtain ⟨⟨_, last⟩, htype, h⟩ := Option.bind_eq_some_iff.mp h
    obtain ⟨rfl, rfl⟩ := Prod.mk.inj (Option.some.inj h)
    obtain ⟨name, back, rfl, rfl⟩ := exists_split _ (Takes.elementName hname).suffix
        ((bracketed budget).type htype).suffix
    rw [List.append_assoc] at hname ⊢
    rw [List.length_append] at hlength
    have htype' := ih.type .inside _ _ limit htype (hinside.of_append _) (by omega)
    dsimp only at htype'
    rw [skipElementName_replace hname]
    dsimp only
    rw [htype', Option.bind_some, consumed_append_self, consumed_append_self]
  | none =>
    rw [hname] at h
    obtain ⟨⟨first, after⟩, htype, hkept⟩ := Option.bind_eq_some_iff.mp h
    clear h
    have hread := (bracketed budget).type htype
    dsimp only at hkept
    split at hkept
    · rename_i hquestion
      obtain ⟨rfl, hlast⟩ := Prod.mk.inj (Option.some.inj hkept)
      obtain ⟨question, after, rfl, hmark⟩ := exists_of_startsWithMark hquestion
      obtain rfl : after = rest := hlast
      obtain ⟨front, back, rfl, hback, htype'⟩ := (ih.type .inside).exists_before limit htype hread.suffix
        (List.suffix_refl _) (not_point_of_mark hmark (by decide)) (by omega)
      obtain rfl := eq_nil_of_append_eq _ hback.symm
      rw [List.append_assoc] at hread
      obtain ⟨first, front, rfl⟩ := exists_cons_of_takes hread
      have hname' := skipElementName_none hname (by simp) (by simp) hinside
      rw [hname']
      simp only [htype', Option.bind_some, startsWithMark_cons, hmark, if_true, List.drop_succ_cons, List.drop_zero,
        List.nil_append, consumed_append_self]
    · rename_i hquestion
      obtain rfl : after = rest := by
        split at hkept <;> exact (Prod.mk.inj (Option.some.inj hkept)).2
      obtain ⟨first, ts, rfl⟩ := exists_cons_of_takes hread
      have hname' := skipElementName_none hname (by simp) (by simpa using fun _ => hquestion) hinside
      have hquestion' := hrest.not_mark (show ("?" : Text) ∉ stopMarks by decide) (by simpa using hquestion)
      have htype' := ih.type .inside _ _ limit htype hinside (by omega)
      dsimp only at htype'
      rw [hname']
      simp only [htype', Option.bind_some, hquestion', Bool.false_eq_true, if_false, consumed_append_self] at hkept ⊢
      split at hkept
      · rename_i hspread
        rw [if_pos (by exact hspread), (Prod.mk.inj (Option.some.inj hkept)).1]
      · rename_i hspread
        rw [if_neg (by exact hspread), (Prod.mk.inj (Option.some.inj hkept)).1]

theorem dropModifiers_of_not_uses {readonly : Bool} (h : usesModifier modifierWords (token :: ts) = false) :
    dropModifiers readonly (token :: ts) = (readonly, token :: ts) := by
  rw [dropModifiers, if_neg (by simp [h])]

theorem dropModifiers_of_not_word {readonly : Bool} (h : token.kind ≠ .word) :
    dropModifiers readonly (token :: ts) = (readonly, token :: ts) := by
  refine dropModifiers_of_not_uses ?_
  by_contra huses
  exact h (kind_of_usesModifier (by simpa using huses))

theorem dropAccessors_of_mark {found : Bool} {mark : Text} (h : token.isMark mark) (hmark : mark ≠ "*") :
    dropAccessors found (token :: ts) = (found, token :: ts) := by
  have hboth : token.kind = .mark ∧ token.text = mark := Token.isMark_iff.mp h
  have huses : usesModifier accessorWords (token :: ts) = false := by
    by_contra huses
    exact absurd (kind_of_usesModifier (by simpa using huses)) (by simp [hboth.1])
  have hstar : token.isMark "*" = false := Token.not_isMark h hmark
  simp [dropAccessors, huses, hstar]

-- No entry begins with a point.
theorem not_point_of_entries {entries : List Entry} (h : parseEntries budget ts = some (entries, rest)) :
    startsWithMark "." ts = false := by
  by_contra hpoint
  obtain ⟨token, ts, rfl, hmark⟩ := exists_of_startsWithMark (by simpa using hpoint)
  have hother {mark : Text} (hdifferent : mark ≠ ".") : token.isMark mark = false :=
    Token.not_isMark hmark hdifferent.symm
  have hkind : token.kind = .mark := by
    have hboth : token.kind = .mark ∧ token.text = "." := Token.isMark_iff.mp hmark
    exact hboth.1
  have hword (word : Text) : token.isWord word = false := by simp [Token.isWord, hkind]
  cases budget with
  | zero => simp [parseEntries] at h
  | succ budget =>
    cases budget with
    | zero => simp (disch := decide) [parseEntries, parseEntry, hother] at h
    | succ budget =>
      have hmodifiers := @dropModifiers_of_not_word token ts false (by simp [hkind])
      have hsignature := not_startsIndexSignature (hother (by decide)) ts
      have haccessors := @dropAccessors_of_mark token ts false _ hmark (by decide)
      have hname : readName (token :: ts) = none := by
        simp (disch := decide) [readName, startsName, hkind, hother]
      simp (disch := decide) [parseEntries, parseEntry, hother, hword, hmodifiers, hsignature, haccessors, hname] at h

theorem rereads_entries {entries : List Entry} (ih : Rereading budget)
    (h : parseEntries (budget + 1) (ts ++ rest) = some (entries, rest)) (hbudget : 8 * ts.length ≤ budget')
    (rest' : List Token) : parseEntries budget' (ts ++ rest') = some (entries, rest') := by
  obtain ⟨token, us, rfl⟩ := ((bracketed (budget + 1)).entries h).exists_cons
  obtain ⟨limit, rfl⟩ : ∃ limit, budget' = limit + 1 := by
    rw [List.length_cons] at hbudget
    exact ⟨budget' - 1, by omega⟩
  rw [parseEntries] at h ⊢
  split at h
  · rename_i hclose
    obtain ⟨rfl, hrest⟩ := Prod.mk.inj (Option.some.inj h)
    obtain rfl := eq_nil_of_append_eq us hrest
    rw [if_pos (by exact hclose)]
    rfl
  rename_i hclose
  rw [if_neg (by exact hclose)]
  split at h
  · rename_i hend
    rw [if_pos (by exact hend)]
    rw [List.length_cons] at hbudget
    exact ih.entries us limit h (by omega) rest'
  rename_i hend
  rw [if_neg (by exact hend)]
  simp only [Option.bind_eq_bind, Option.bind_eq_some_iff, Option.pure_def] at h ⊢
  obtain ⟨⟨first, after⟩, hfirst, h⟩ := h
  split at h
  · rename_i hends
    obtain ⟨⟨others, last⟩, hothers, h⟩ := Option.bind_eq_some_iff.mp h
    obtain ⟨rfl, rfl⟩ := Prod.mk.inj (Option.some.inj h)
    have hread := (bracketed budget).entry hfirst
    obtain ⟨front, back, hts, rfl⟩ := exists_split _ hread.suffix ((bracketed budget).entries hothers).suffix
    obtain ⟨next, back, rfl⟩ := ((bracketed budget).entries hothers).exists_cons
    have hpoint := not_point_of_entries hothers
    rw [hts, List.append_assoc] at hfirst hread
    obtain ⟨first', front, rfl⟩ := exists_cons_of_takes hread
    rw [hts, List.length_append, List.length_cons, List.length_cons] at hbudget
    have hfirst' := ih.entry _ (next :: back ++ rest') limit hfirst (.cons (by simpa using hpoint))
      (by rw [List.length_cons]; omega)
    have hothers' := ih.entries _ limit hothers (by rw [List.length_cons]; omega) rest'
    refine ⟨_, by rw [hts, List.append_assoc]; exact hfirst', ?_⟩
    rw [if_pos (by exact hends)]
    simp only [hothers', Option.bind_some]
  · cases h

-- A mark that may stand in front of what follows it.
theorem exists_dropped {p : Token → Bool} (hp : ∀ token, token.Stops → p token = false)
    (h : rest <:+ if (ts ++ rest).head?.any p then (ts ++ rest).drop 1 else ts ++ rest) :
    ∃ us, (if (ts ++ rest).head?.any p then (ts ++ rest).drop 1 else ts ++ rest) = us ++ rest ∧ us <:+ ts ∧
      ∀ rest', Replaces ts rest rest' → (ts ++ rest').head?.any p = (ts ++ rest).head?.any p ∧
        (if (ts ++ rest').head?.any p then (ts ++ rest').drop 1 else ts ++ rest') = us ++ rest' := by
  cases ts with
  | cons token ts =>
    by_cases hmark : p token
    · exact ⟨ts, by simp [hmark], List.suffix_cons _ _, fun rest' _ => by simp [hmark]⟩
    · exact ⟨token :: ts, by simp [hmark], List.suffix_refl _, fun rest' _ => by simp [hmark]⟩
  | nil =>
    have hnone : rest.head?.any p = false := by
      by_contra hmark
      rw [List.nil_append, if_pos (by simpa using hmark)] at h
      cases rest with
      | nil => exact hmark rfl
      | cons => exact absurd h.length_le (by simp)
    refine ⟨[], by simp [hnone], List.suffix_refl _, fun rest' hrest => ?_⟩
    have hnone' := hrest.not hp hnone
    exact ⟨by rw [List.nil_append, List.nil_append, hnone, hnone'], by rw [List.nil_append, if_neg (by simp [hnone'])]⟩

theorem startsWithMark_or (mark other : Text) (ts : List Token) :
    (startsWithMark mark ts || startsWithMark other ts) =
      ts.head?.any fun token => token.isMark mark || token.isMark other := by
  cases ts <;> rfl

-- What is read behind the name of a property or method in an object type.
def parseMember (budget : Nat) (tokens name : List Token) (accessor optional readonly : Bool) (behind : List Token) :
    Option (Entry × List Token) :=
  if startsWithMark "<" behind || (startsWithMark "(" behind && !breaksLine behind) then
    (skipParameters behind).bind fun after => (skipResultType budget after).bind fun rest =>
      some (.other (consumed tokens rest), rest)
  else if accessor then none
  else if startsWithMark ":" behind then
    (parseType budget .line (behind.drop 1)).bind fun read =>
        some (.property name optional readonly (some read.1), read.2)
  else some (.property name optional readonly none, behind)

theorem spans_member {entry : Entry} {behind tokens name : List Token} {accessor optional readonly : Bool}
    (h : parseMember budget tokens name accessor optional readonly behind = some (entry, rest)) :
    Spans behind rest := by
  rw [parseMember] at h
  split at h
  · simp only [Option.bind_eq_some_iff] at h
    obtain ⟨after, hparameters, last, hresult, h⟩ := h
    obtain ⟨-, rfl⟩ := Prod.mk.inj (Option.some.inj h)
    exact (Spans.skipParameters hparameters).trans ((bracketed budget).resultType hresult)
  split at h
  · cases h
  split at h
  · rename_i hcolon
    obtain ⟨⟨_, last⟩, htype, h⟩ := Option.bind_eq_some_iff.mp h
    obtain ⟨-, rfl⟩ := Prod.mk.inj (Option.some.inj h)
    exact ((Takes.mark (by decide) hcolon).trans ((bracketed budget).type htype)).toSpans
  · obtain ⟨-, rfl⟩ := Prod.mk.inj (Option.some.inj h)
    exact .refl _

-- The name of an entry is part of it, and so is the bracket that it begins with.
theorem exists_named {entry : Entry} (h : parseEntry (budget + 1) (ts ++ rest) = some (entry, rest)) :
    ∃ readonly unsigned named,
      (if startsWithMark "+" (ts ++ rest) || startsWithMark "-" (ts ++ rest) then (ts ++ rest).drop 1 else ts ++ rest) =
        unsigned ++ rest ∧
      unsigned <:+ ts ∧ dropModifiers false (unsigned ++ rest) = (readonly, named ++ rest) ∧ named ≠ [] ∧
      (startsWithMark "[" named → ∃ after, skipGroup false (named ++ rest) = some after ∧ rest <:+ after) := by
  have hread := (bracketed (budget + 1)).entry h
  obtain ⟨token, us, rfl⟩ := exists_cons_of_takes hread
  simp only [parseEntry, Option.bind_eq_bind, Option.pure_def] at h
  have hunsigned : Spans (token :: us ++ rest) (if startsWithMark "+" (token :: us ++ rest) ||
      startsWithMark "-" (token :: us ++ rest) then (token :: us ++ rest).drop 1 else token :: us ++ rest) :=
    .dropSign _
  generalize hsign : (if startsWithMark "+" (token :: us ++ rest) || startsWithMark "-" (token :: us ++ rest) then
    (token :: us ++ rest).drop 1 else token :: us ++ rest) = unsigned at h hunsigned ⊢
  have hdropped := Spans.dropModifiers false unsigned
  generalize hmodifiers : dropModifiers false unsigned = dropped at h hdropped
  obtain ⟨readonly, named⟩ := dropped
  dsimp only at h hdropped
  have hfinish (hread : Takes named rest)
      (hbracket : startsWithMark "[" named → ∃ after, skipGroup false named = some after ∧ rest <:+ after) :
      ∃ readonly unsigned' named, unsigned = unsigned' ++ rest ∧ unsigned' <:+ token :: us ∧
        dropModifiers false (unsigned' ++ rest) = (readonly, named ++ rest) ∧ named ≠ [] ∧
        (startsWithMark "[" named → ∃ after, skipGroup false (named ++ rest) = some after ∧ rest <:+ after) := by
    obtain ⟨name, rfl⟩ := hread.suffix
    obtain ⟨first, name, rfl⟩ := exists_cons_of_takes hread
    obtain ⟨modifiers, rfl⟩ := hdropped.suffix
    obtain ⟨signs, hsigns⟩ := hunsigned.suffix
    exact ⟨readonly, modifiers ++ first :: name, first :: name, by simp,
      ⟨signs, List.append_cancel_right (by simpa using hsigns)⟩,
      by simpa using hmodifiers, List.cons_ne_nil _ _, hbracket⟩
  -- nothing is dropped in front of the parameters of a signature
  have hsame (hplus : token.isMark "+" = false) (hminus : token.isMark "-" = false)
      (huses : usesModifier modifierWords (token :: us ++ rest) = false) : named = token :: us ++ rest := by
    have hkept : unsigned = token :: us ++ rest := by simp [← hsign, hplus, hminus]
    rw [hkept, List.cons_append, dropModifiers_of_not_uses (by simpa using huses)] at hmodifiers
    exact (Prod.mk.inj hmodifiers).2.symm
  split at h
  · simp only [Option.bind_eq_some_iff] at h
    obtain ⟨after, hgroup, last, hresult, h⟩ := h
    obtain ⟨-, rfl⟩ := Prod.mk.inj (Option.some.inj h)
    have hbehind :=
        ((Spans.dropSign after).trans (.dropMark (by decide) _)).trans ((bracketed budget).resultType hresult)
    exact hfinish ((Takes.skipGroup hgroup).andThen hbehind) fun _ => ⟨after, hgroup, hbehind.suffix⟩
  split at h
  · rename_i hopen
    have hboth : token.kind = .mark ∧ (token.text = "(" ∨ token.text = "<") := by
      simpa [Token.isMark, ← and_or_left] using hopen
    have huses : usesModifier modifierWords (token :: us ++ rest) = false := by
      by_contra huses
      exact absurd (kind_of_usesModifier (by simpa using huses)) (by simp [hboth.1])
    have hother {mark : Text} (hmark : mark ≠ "(" ∧ mark ≠ "<") : token.isMark mark = false := by
      obtain htext | htext := hboth.2 <;> simp [Token.isMark, hboth.1, htext, hmark.1.symm, hmark.2.symm]
    rw [hsame (hother (by decide)) (hother (by decide)) huses] at hfinish
    exact hfinish hread fun hbracket => by
      simp [hother (show ("[" : Text) ≠ "(" ∧ ("[" : Text) ≠ "<" by decide)] at hbracket
  split at h
  · rename_i hnew
    have hboth : token.kind = .word ∧ token.text = "new" :=
      Token.isWord_iff.mp (Bool.and_eq_true_iff.mp hnew).1
    have huses : usesModifier modifierWords (token :: us ++ rest) = false := by
      cases htail : us ++ rest with
      | nil => simp [htail, usesModifier]
      | cons next tail =>
        have hother : token.text ∉ modifierWords := by
          rw [hboth.2]
          decide
        simp [htail, usesModifier, hother]
    have hother (mark : Text) : token.isMark mark = false := by simp [Token.isMark, hboth.1]
    rw [hsame (hother _) (hother _) huses] at hfinish
    exact hfinish hread fun hbracket => by simp [hother] at hbracket
  · obtain ⟨⟨name, afterName⟩, hname, h⟩ := Option.bind_eq_some_iff.mp h
    have hbehind : Spans afterName rest := by
      have hoptional : Spans afterName (if startsWithMark "?" afterName then afterName.drop 1 else afterName) :=
        .dropMark (by decide) afterName
      exact hoptional.trans (spans_member h)
    refine hfinish (Takes.after (.dropAccessors false named) ((Takes.readName hname).andThen hbehind)) fun hbracket =>
        ?_
    obtain ⟨bracket, named, rfl, hmark⟩ := exists_of_startsWithMark hbracket
    rw [dropAccessors_of_mark hmark (by decide), readName, if_pos hmark] at hname
    obtain ⟨after, hgroup, hname⟩ := Option.map_eq_some_iff.mp hname
    obtain ⟨-, rfl⟩ := Prod.mk.inj hname
    exact ⟨after, hgroup, hbehind.suffix⟩

theorem Replaces.of_suffix (h : Replaces ts rest rest') (hsuffix : us <:+ ts) : Replaces us rest rest' := by
  obtain ⟨front, rfl⟩ := hsuffix
  exact h.of_append _

-- Parameters and what follows them in an object type.
theorem reread_signature (limit : Nat) {after : List Token} (ih : Rereading budget)
    (hparameters : skipParameters (ts ++ rest) = some after) (hresult : skipResultType budget after = some rest)
    (hrest : Replaces ts rest rest') (hlimit : 8 * ts.length ≤ limit + 7) :
    ∃ after', skipParameters (ts ++ rest') = some after' ∧ skipResultType limit after' = some rest' := by
  obtain ⟨front, back, rfl, rfl⟩ := exists_split _ (skipParameters_suffix hparameters)
    ((bracketed budget).resultType hresult).suffix
  have hshorter := (Takes.skipParameters hparameters).shorter
  simp only [List.length_append] at hshorter hlimit
  rw [List.append_assoc] at hparameters ⊢
  exact ⟨_, skipParameters_replace hparameters _, ih.resultType _ _ _ hresult (hrest.of_append _) (by omega)⟩

theorem reread_member (limit : Nat) {entry : Entry} {source name : List Token} {accessor optional readonly : Bool}
    (ih : Rereading budget)
    (h : parseMember budget (source ++ rest) name accessor optional readonly (ts ++ rest) = some (entry, rest))
    (hrest : Replaces ts rest rest') (hlimit : 8 * ts.length ≤ limit + 4) :
    parseMember limit (source ++ rest') name accessor optional readonly (ts ++ rest') = some (entry, rest') := by
  rw [parseMember] at h ⊢
  split at h
  · rename_i hopen
    simp only [Option.bind_eq_some_iff] at h
    obtain ⟨after, hparameters, last, hresult, h⟩ := h
    obtain ⟨rfl, rfl⟩ := Prod.mk.inj (Option.some.inj h)
    obtain ⟨after', hparameters', hresult'⟩ := reread_signature limit ih hparameters hresult hrest (by omega)
    obtain ⟨first, ts, rfl⟩ := exists_cons_of_takes
      ((Takes.skipParameters hparameters).andThen ((bracketed budget).resultType hresult))
    rw [if_pos (by exact hopen), hparameters', Option.bind_some, hresult', Option.bind_some, consumed_append_self,
      consumed_append_self]
  rename_i hopen
  simp only [Bool.not_eq_true, Bool.or_eq_false_iff] at hopen
  have hangle :=
    hrest.not_behind [] _ (fun _ hstops => hstops.not_mark (show ("<" : Text) ∉ stopMarks by decide)) hopen.1
  have hparen := hrest.not_on_line [] _ (p := Token.isMark "(")
    (fun _ hstops => by rw [hstops.not_mark (by decide), Bool.false_and]) hopen.2
  have hopen' : (startsWithMark "<" (ts ++ rest') ||
      (startsWithMark "(" (ts ++ rest') && !breaksLine (ts ++ rest'))) = false :=
    Bool.or_eq_false_iff.mpr ⟨hangle, hparen⟩
  rw [if_neg (by rw [hopen']; exact Bool.false_ne_true)]
  split at h
  · cases h
  rename_i haccessor
  rw [if_neg haccessor]
  split at h
  · rename_i hcolon
    obtain ⟨⟨type, last⟩, htype, h⟩ := Option.bind_eq_some_iff.mp h
    obtain ⟨rfl, rfl⟩ := Prod.mk.inj (Option.some.inj h)
    obtain ⟨colon, ts, rfl⟩ := exists_cons_of_drop ((bracketed budget).type htype) (List.suffix_refl _)
    rw [List.length_cons] at hlimit
    have htype' := ih.type .line ts _ limit htype (hrest.drop 1) (by omega)
    rw [if_pos (by exact hcolon)]
    exact Option.bind_eq_some_iff.mpr ⟨_, htype', rfl⟩
  · rename_i hcolon
    obtain ⟨rfl, hts⟩ := Prod.mk.inj (Option.some.inj h)
    obtain rfl := eq_nil_of_append_eq _ hts
    have hcolon' := hrest.not_mark (show (":" : Text) ∉ stopMarks by decide) (by simpa using hcolon)
    rw [if_neg (by rw [List.nil_append, hcolon']; exact Bool.false_ne_true)]
    rfl

theorem rereads_entry (ih : Rereading budget) : Rereads 0 parseEntry (budget + 1) := by
  intro ts rest rest' entry budget' h hrest hbudget
  obtain ⟨readonly, unsigned, named, hsign, hsuffix, hmodifiers, hnamed, hbracket⟩ := exists_named h
  obtain ⟨token, us, rfl⟩ := exists_cons_of_takes ((bracketed (budget + 1)).entry h)
  obtain ⟨limit, rfl, hlimit⟩ := exists_budget hbudget
  have hunsigned := hrest.of_suffix hsuffix
  have hmodifiers' := dropModifiers_replace hmodifiers hnamed hunsigned
  have hsource (tail : List Token) : consumed (token :: us ++ tail) tail = token :: us := consumed_append_self _ _
  have hsign' : (if startsWithMark "+" (token :: us ++ rest') || startsWithMark "-" (token :: us ++ rest') then
      (token :: us ++ rest').drop 1 else token :: us ++ rest') = unsigned ++ rest' := by
    split at hsign
    · rename_i hmark
      obtain rfl : us = unsigned := List.append_cancel_right hsign
      rw [if_pos (by exact hmark)]
      rfl
    · rename_i hmark
      rw [if_neg (by exact hmark), List.append_cancel_right hsign]
  have hnamedSuffix : named <:+ unsigned := by
    have hspan := Spans.dropModifiers false (unsigned ++ rest)
    rw [hmodifiers] at hspan
    obtain ⟨modifiers, hmodified⟩ := hspan.suffix
    exact ⟨modifiers, List.append_cancel_right (by simpa using hmodified)⟩
  have hnamedRest := hunsigned.of_suffix hnamedSuffix
  have hlength := (hnamedSuffix.trans hsuffix).length_le
  rw [List.length_cons] at hlength
  simp only [parseEntry, Option.bind_eq_bind, Option.pure_def, hsign, hsign', hmodifiers, hmodifiers',
    startsIndexSignature_replace hnamed rest' hbracket] at h ⊢
  split at h
  · rename_i hsignature
    rw [if_pos hsignature]
    simp only [Option.bind_eq_some_iff] at h ⊢
    obtain ⟨after, hgroup, last, hresult, h⟩ := h
    obtain ⟨rfl, rfl⟩ := Prod.mk.inj (Option.some.inj h)
    have hquestioned := (Spans.dropMark (by decide) _).trans ((bracketed budget).resultType hresult)
    obtain ⟨group, back, rfl, rfl⟩ := exists_split _ (skipGroup_suffix hgroup)
        ((Spans.dropSign after).trans hquestioned).suffix
    rw [startsWithMark_or] at hresult hquestioned
    obtain ⟨unsigned', hunsigned', hback, hsigned⟩ := exists_dropped
      (fun _ hstops => by rw [hstops.not_mark (by decide), hstops.not_mark (by decide)]; rfl) hquestioned.suffix
    rw [hunsigned'] at hresult
    obtain ⟨result, hoptional, hresultSuffix, hasked⟩ :=
      exists_dropped (fun _ hstops => hstops.not_mark (show ("?" : Text) ∉ stopMarks by decide))
      ((bracketed budget).resultType hresult).suffix
    have hreplaced : Replaces back last rest' := hnamedRest.of_append _
    have hresultReplaced := (hreplaced.of_suffix hback).of_suffix hresultSuffix
    have hresultLength := (hresultSuffix.trans hback).length_le
    have hshorter := (Takes.skipGroup hgroup).shorter
    simp only [List.length_append] at hlength hshorter
    have hresult' := ih.resultType result _ limit (hoptional ▸ hresult) hresultReplaced (by omega)
    rw [List.append_assoc] at hgroup ⊢
    refine ⟨_, skipGroup_replace _ hgroup _, rest', ?_, by rw [hsource, hsource]⟩
    rw [startsWithMark_or, (hsigned rest' hreplaced).2]
    rw [← (hasked rest' (hreplaced.of_suffix hback)).2] at hresult'
    exact hresult'
  rename_i hsignature
  rw [if_neg hsignature]
  split at h
  · rename_i hopen
    rw [if_pos (by exact hopen)]
    simp only [Option.bind_eq_some_iff] at h ⊢
    obtain ⟨after, hparameters, last, hresult, h⟩ := h
    obtain ⟨rfl, rfl⟩ := Prod.mk.inj (Option.some.inj h)
    obtain ⟨after', hparameters', hresult'⟩ := reread_signature limit ih hparameters hresult hrest
      (by rw [List.length_cons]; omega)
    exact ⟨after', hparameters', rest', hresult', by rw [hsource, hsource]⟩
  rename_i hopen
  rw [if_neg (by exact hopen)]
  split at h
  · rename_i hnew
    simp only [Option.bind_eq_some_iff] at h
    obtain ⟨after, hparameters, last, hresult, h⟩ := h
    obtain ⟨rfl, rfl⟩ := Prod.mk.inj (Option.some.inj h)
    rw [List.cons_append, List.drop_succ_cons, List.drop_zero] at hparameters
    obtain ⟨after', hparameters', hresult'⟩ := reread_signature limit ih hparameters hresult (hrest.drop 1)
      (by omega)
    obtain ⟨first, us, rfl⟩ : ∃ first others, us = first :: others :=
      exists_cons_of_takes ((Takes.skipParameters hparameters).andThen ((bracketed budget).resultType hresult))
    rw [if_pos (by exact hnew)]
    simp only [List.cons_append, List.drop_succ_cons, List.drop_zero] at hparameters' hsource ⊢
    rw [hparameters']
    simp only [Option.bind_some, hresult', hsource]
  rename_i hnew
  have hnew' : (startsWithWord "new" (token :: us ++ rest') && (startsWithMark "(" ((token :: us ++ rest').drop 1) ||
      startsWithMark "<" ((token :: us ++ rest').drop 1))) = false := by
    refine Bool.and_eq_false_iff.mpr ((Bool.and_eq_false_iff.mp (Bool.not_eq_true _ ▸ hnew)).imp_right fun hopen => ?_)
    rw [startsWithMark_or] at hopen ⊢
    exact (hrest.drop 1).not_behind [] us
      (fun _ hstops => by rw [hstops.not_mark (by decide), hstops.not_mark (by decide)]; rfl) hopen
  rw [if_neg (by rw [hnew']; exact Bool.false_ne_true)]
  obtain ⟨⟨name, afterName⟩, hname, hmember⟩ := Option.bind_eq_some_iff.mp h
  clear h
  dsimp only at hmember
  have hbehind := spans_member hmember
  have hafter : Spans afterName rest := .trans (.dropMark (by decide) _) hbehind
  have hdropped := Spans.dropAccessors false (named ++ rest)
  generalize haccessors : dropAccessors false (named ++ rest) = dropped at hname hmember hdropped
  obtain ⟨accessor, bare⟩ := dropped
  dsimp only at hname hdropped hmember
  have hread := (Takes.readName hname).andThen hafter
  obtain ⟨accessors, bare, rfl, rfl⟩ := exists_split _ hdropped.suffix hread.suffix
  obtain ⟨first, bare, rfl⟩ := exists_cons_of_takes hread
  rw [dropAccessors_replace haccessors (List.cons_ne_nil _ _) hnamedRest]
  obtain ⟨front, back, hbare, rfl⟩ := exists_split _ (Takes.readName hname).suffix hafter.suffix
  rw [hbare, List.append_assoc] at hname ⊢
  rw [readName_replace hname, Option.bind_some]
  obtain ⟨behind, hdrop, hbehindSuffix, hasked⟩ :=
    exists_dropped (fun _ hstops => hstops.not_mark (show ("?" : Text) ∉ stopMarks by decide))
    hbehind.suffix
  have hbackSuffix : back <:+ accessors ++ first :: bare :=
      (hbare ▸ List.suffix_append front back).trans (List.suffix_append _ _)
  have hback := hnamedRest.of_suffix hbackSuffix
  have hbehindLength := (hbehindSuffix.trans hbackSuffix).length_le
  have hmember' : parseMember budget (token :: us ++ rest) name accessor (startsWithMark "?" (back ++ rest)) readonly
      (behind ++ rest) = some (entry, rest) := by
    rw [← hdrop]
    exact hmember
  have hreread := reread_member limit ih hmember' (hback.of_suffix hbehindSuffix) (by omega)
  obtain ⟨hoptional, hdrop'⟩ := hasked rest' hback
  rw [← hdrop'] at hreread
  simp only [startsWithMark, ← hoptional] at hreread ⊢
  exact hreread

theorem rereads_resultType (ih : Rereading budget) : Reskips 1 skipResultType (budget + 1) := by
  intro ts rest rest' budget' h hrest hbudget
  obtain ⟨limit, rfl⟩ : ∃ limit, budget' = limit + 1 := ⟨budget' - 1, by omega⟩
  rw [skipResultType] at h ⊢
  split at h
  · rename_i hcolon
    obtain ⟨token, ts, rfl⟩ := exists_cons_of_drop ((bracketed budget).result h) (List.suffix_refl _)
    rw [List.length_cons] at hbudget
    rw [if_pos (by simpa using hcolon)]
    exact ih.result .line ts _ limit h (hrest.drop 1) (by omega)
  · rename_i hcolon
    obtain rfl := eq_nil_of_append_eq _ (Option.some.inj h)
    rw [if_neg (by simpa using hrest.not_mark (by decide) (by simpa using hcolon))]
    rfl

theorem rereading (budget : Nat) : Rereading budget := by
  induction budget with
  | zero => constructor <;> simp [Rereads, Reskips, parseType, parseUnion, parseAlternatives, parseIntersection,
      skipIntersected, parseOperand, skipResult, parsePostfix, parsePrimary, parseArguments, parseElements,
      parseElement, parseEntries, parseEntry, skipResultType]
  | succ budget ih => exact ⟨rereads_type ih, rereads_union ih, rereads_alternatives ih, rereads_intersection ih,
      rereads_intersected ih, rereads_operand ih, rereads_result ih, fun _ _ _ _ => rereads_indices ih,
      rereads_primary ih, fun _ _ => rereads_arguments ih, fun _ _ => rereads_elements ih, rereads_element ih,
      fun _ _ => rereads_entries ih, rereads_entry ih, rereads_resultType ih⟩

end Parsers

end HookGen.Source
