import HookGen.Proofs.Source.Operators
import HookGen.Proofs.Source.Streams

/-!
Types that are kept as their tokens, as elements of arrays and members of unions: what they are read as where no
parentheses tell what belongs together.
-/

namespace HookGen.Source

variable {token : Token} {ts us rest rest' after : List Token} {budget budget' : Nat} {context : Context}
  {type leaf : TypeExpr}

section Conditionals

-- A conditional type: what it tests is read up to the word behind it.
def TypeExpr.IsConditional (type : TypeExpr) : Prop :=
  ∃ front word back first, type.kept = front ++ word :: back ∧ word.isWord "extends" ∧
    ∀ rest budget, 8 * front.length + 3 ≤ budget →
      parseUnion budget .inside (front ++ word :: rest) = some (first, word :: rest)

-- A union is its first member, and the others behind their bars.
theorem parseUnion_of_isLeaf (h : parseUnion budget context ts = some (leaf, rest)) (hleaf : leaf.IsLeaf) :
    startsWithMark "|" ts = false ∧ ∃ n, parseIntersection n context ts = some (leaf, rest) := by
  cases budget with
  | zero => cases h
  | succ budget =>
    simp only [parseUnion, Option.bind_eq_bind, Option.bind_eq_some_iff, Option.pure_def] at h
    obtain ⟨⟨first, middle⟩, hfirst, ⟨others, last⟩, hothers, h⟩ := h
    split at h
    · obtain ⟨rfl, -⟩ := Prod.mk.inj (Option.some.inj h)
      obtain heq | ⟨_, heq⟩ := hleaf <;> cases heq
    · rename_i hunion
      obtain ⟨rfl, rfl⟩ := Prod.mk.inj (Option.some.inj h)
      simp only [Bool.or_eq_true, Bool.not_eq_true', List.isEmpty_eq_false_iff, not_or, Bool.not_eq_true, not_not]
        at hunion
      obtain ⟨hleading, rfl⟩ := hunion
      rw [hleading] at hfirst
      cases budget with
      | zero => cases hfirst
      | succ budget =>
        rw [parseAlternatives] at hothers
        split at hothers
        · simp only [Option.bind_eq_bind, Option.bind_eq_some_iff, Option.pure_def] at hothers
          obtain ⟨_, -, _, -, hothers⟩ := hothers
          cases (Prod.mk.inj (Option.some.inj hothers)).1
        · obtain ⟨-, rfl⟩ := Prod.mk.inj (Option.some.inj hothers)
          exact ⟨hleading, _, hfirst⟩

theorem parseType_of_isLeaf (h : parseType budget .inside (leaf.kept ++ rest) = some (leaf, rest))
    (hleaf : leaf.IsLeaf) : leaf.IsConditional ∨ startsWithMark "|" (leaf.kept ++ rest) = false ∧
      ∃ n, parseIntersection n .inside (leaf.kept ++ rest) = some (leaf, rest) := by
  cases budget with
  | zero => cases h
  | succ budget =>
    simp only [parseType, Option.bind_eq_bind, Option.bind_eq_some_iff, Option.pure_def] at h
    obtain ⟨⟨first, after⟩, hfirst, h⟩ := h
    split at h
    · rename_i hextends
      left
      simp only [Option.bind_eq_some_iff] at h
      obtain ⟨⟨_, bound⟩, hbound, _, hquestion, ⟨_, yes⟩, hyes, _, hcolon, ⟨_, no⟩, hno, h⟩ := h
      obtain ⟨-, rfl⟩ := Prod.mk.inj (Option.some.inj h)
      have hword : startsWithWord "extends" after := (Bool.and_eq_true_iff.mp (Bool.and_eq_true_iff.mp hextends).1).2
      cases after with
      | nil => cases hword
      | cons word after =>
        have hyesRead := (((bracketed budget).type hbound).andThen
          (Takes.expectMark (by decide) hquestion).toSpans).trans ((bracketed budget).type hyes)
        have hread := (hyesRead.trans (Takes.expectMark (by decide) hcolon)).trans ((bracketed budget).type hno)
        have hsuffix : no <:+ after := hread.suffix
        obtain ⟨front, back, hkept, hback⟩ := exists_split leaf.kept ((bracketed budget).union hfirst).suffix
          (hsuffix.trans (List.suffix_cons word after))
        cases back with
        | nil =>
          have hle := hsuffix.length_le
          have hlength : (word :: after).length = no.length := congrArg List.length hback
          rw [List.length_cons] at hlength
          omega
        | cons first' back =>
          obtain ⟨rfl, rfl⟩ := List.cons.inj hback
          refine ⟨front, word, back, first, hkept, hword, fun rest n hn => ?_⟩
          rw [hkept, List.append_assoc] at hfirst
          exact (rereading budget).union .inside front _ n hfirst (.cons (not_point_of_word hword)) hn
    · obtain ⟨rfl, rfl⟩ := Prod.mk.inj (Option.some.inj h)
      exact .inr (parseUnion_of_isLeaf hfirst hleaf)

theorem parseType_of_isConditional (h : parseType budget .inside (leaf.kept ++ rest) = some (type, after))
    (hleaf : leaf.IsConditional) (hbudget : 8 * leaf.kept.length + 4 ≤ budget) :
    type = .verbatim (consumed (leaf.kept ++ rest) after) := by
  obtain ⟨front, word, back, first, hkept, hword, hunion⟩ := hleaf
  obtain ⟨n, rfl⟩ : ∃ n, budget = n + 1 := ⟨budget - 1, by omega⟩
  have hlength := congrArg List.length hkept
  rw [List.length_append, List.length_cons] at hlength
  have htest : parseUnion n .inside (leaf.kept ++ rest) = some (first, word :: (back ++ rest)) := by
    rw [hkept, List.append_assoc]
    exact hunion _ n (by omega)
  have hextends : (Context.inside.conditional && startsWithWord "extends" (word :: (back ++ rest)) &&
      !(Context.inside.lineEnds && breaksLine (word :: (back ++ rest)))) = true := by
    simp [Context.inside, hword]
  simp only [parseType, Option.bind_eq_bind, htest, Option.bind_some, hextends, if_true, Option.pure_def,
    Option.bind_eq_some_iff] at h
  obtain ⟨_, -, _, -, _, -, _, -, ⟨_, last⟩, -, h⟩ := h
  obtain ⟨rfl, rfl⟩ := Prod.mk.inj (Option.some.inj h)
  rfl

-- A type that is kept as its tokens, and read as such up to some mark.
structure TypeExpr.IsRaw (type : TypeExpr) : Prop where
  leaf : type.IsLeaf
  read : ∃ budget closing back, closing.kind = .mark ∧
    parseType budget .inside (type.kept ++ closing :: back) = some (type, closing :: back)
  solid : ∀ token ∈ type.kept, token.text ≠ []

-- One that is not conditional is read as a single member of a union.
theorem TypeExpr.IsRaw.member (h : leaf.IsRaw) (hconditional : ¬ leaf.IsConditional) :
    ∃ budget closing back, closing.kind = .mark ∧ startsWithMark "|" (leaf.kept ++ closing :: back) = false ∧
      parseIntersection budget .inside (leaf.kept ++ closing :: back) = some (leaf, closing :: back) := by
  obtain ⟨_, closing, back, hkind, hwhole⟩ := h.read
  obtain ⟨hbar, budget, hmember⟩ := (parseType_of_isLeaf hwhole h.leaf).resolve_left hconditional
  exact ⟨budget, closing, back, hkind, hbar, hmember⟩

-- It is complete by itself, or makes one type of all that its operator takes in.
theorem TypeExpr.IsRaw.isPrimary_or_verbatim (h : leaf.IsRaw) (hconditional : ¬ leaf.IsConditional) :
    leaf.IsPrimary ∨ ∀ ⦃rest' budget' type after⦄, 8 * leaf.kept.length + 2 ≤ budget' →
      parseIntersection budget' .inside (leaf.kept ++ rest') = some (type, after) →
      type = .verbatim (consumed (leaf.kept ++ rest') after) := by
  obtain ⟨n, closing, back, hkind, -, hmember⟩ := h.member hconditional
  exact parseIntersection_of_isLeaf hmember h.leaf (by simp [hkind])

-- In front of something else it is a part of what its operator takes in, or the beginning of the first member of a
-- union.
theorem TypeExpr.IsRaw.parseType (h : leaf.IsRaw) (hbudget : 8 * leaf.kept.length + 4 ≤ budget)
    (hread : parseType (budget + 2) .inside (leaf.kept ++ rest) = some (type, after)) :
    (∃ run, type = .verbatim run) ∨ ¬ leaf.IsConditional ∧ ∃ first others middle,
      parseIntersection budget .inside (leaf.kept ++ rest) = some (first, middle) ∧
      parseAlternatives budget .inside middle = some (others, after) ∧ startsWithWord "extends" after = false ∧
      type = if others.isEmpty then first else .union (first :: others) := by
  by_cases hconditional : leaf.IsConditional
  · exact .inl ⟨_, parseType_of_isConditional hread hconditional (by omega)⟩
  obtain ⟨n, closing, back, -, hbar, hmember⟩ := h.member hconditional
  obtain ⟨token, us, hkept⟩ := exists_cons_of_takes ((bracketed n).intersection hmember)
  have hbar' : startsWithMark "|" (leaf.kept ++ rest) = false := by
    rw [hkept] at hbar ⊢
    exact hbar
  rw [Source.parseType] at hread
  simp only [Option.bind_eq_bind, Option.bind_eq_some_iff, Option.pure_def] at hread
  obtain ⟨⟨union, middle⟩, hunion, hread⟩ := hread
  split at hread
  · simp only [Option.bind_eq_some_iff] at hread
    obtain ⟨_, -, _, -, _, -, _, -, _, -, hread⟩ := hread
    exact .inl ⟨_, (Prod.mk.inj (Option.some.inj hread)).1.symm⟩
  rename_i hextends
  obtain ⟨rfl, rfl⟩ := Prod.mk.inj (Option.some.inj hread)
  simp only [parseUnion, hbar', Bool.false_eq_true, if_false, Option.bind_eq_bind, Option.bind_eq_some_iff,
    Option.pure_def, Bool.false_or] at hunion
  obtain ⟨⟨first, behind⟩, hfirst, ⟨others, last⟩, hothers, hunion⟩ := hunion
  have hafter : startsWithWord "extends" middle = false := by
    simpa [Context.inside] using hextends
  refine .inr ⟨hconditional, first, others, behind, hfirst, ?_⟩
  cases hnone : others.isEmpty with
  | true =>
    rw [hnone] at hunion
    obtain ⟨rfl, rfl⟩ := Prod.mk.inj (Option.some.inj hunion)
    exact ⟨hothers, hafter, rfl⟩
  | false =>
    rw [hnone] at hunion
    obtain ⟨rfl, rfl⟩ := Prod.mk.inj (Option.some.inj hunion)
    exact ⟨hothers, hafter, rfl⟩

end Conditionals

section Kept

theorem kept_verbatim (h : rest <:+ ts) : (TypeExpr.verbatim (consumed ts rest)).kept ++ rest = ts := by
  obtain ⟨front, rfl⟩ := h
  rw [TypeExpr.kept, consumed_append_self]

-- What an operand without an operator can be: a leaf, which keeps all its tokens, a type in parentheses, or one with
-- parts.
theorem parsePrimary_cases (h : parsePrimary budget ts = some (type, rest)) :
    (type.IsLeaf ∧ type.kept ++ rest = ts) ∨
    (∃ opening us n inner closing, ts = opening :: us ∧ opening.isMark "(" ∧ closing.isMark ")" ∧
      parseType n .inside us = some (inner, closing :: rest) ∧ type = .grouped inner) ∨
    (∃ elements, type = .tuple elements) ∨ (∃ entries, type = .object entries) ∨
      ∃ name arguments, type = .apply name arguments := by
  have hsuffix := ((bracketed budget).primary h).suffix
  have hverbatim {source : List Token} (hkept : source ++ rest = ts) :
      (TypeExpr.verbatim source).IsLeaf ∧ (TypeExpr.verbatim source).kept ++ rest = ts := ⟨.inl rfl, hkept⟩
  cases budget with
  | zero => cases h
  | succ budget =>
    cases ts with
    | nil => cases h
    | cons token ts =>
      rw [parsePrimary] at h
      simp only [Option.bind_eq_bind, Option.pure_def] at h
      split at h
      · cases h
      · cases h
      · cases h
        exact .inl (hverbatim rfl)
      · cases h
        exact .inl (hverbatim rfl)
      · cases h
        exact .inl (hverbatim rfl)
      · split at h
        · rename_i hopening
          simp only [Option.bind_eq_some_iff] at h
          obtain ⟨⟨inner, after⟩, hinner, last, hclose, h⟩ := h
          obtain ⟨closing, rfl, hclosing⟩ := exists_of_expectMark hclose
          cases h
          exact .inr (.inl ⟨token, ts, budget, inner, closing, rfl, hopening, hclosing, hinner, rfl⟩)
        split at h
        · obtain ⟨_, -, h⟩ := Option.bind_eq_some_iff.mp h
          cases h
          exact .inr (.inr (.inl ⟨_, rfl⟩))
        split at h
        · obtain ⟨_, -, h⟩ := Option.bind_eq_some_iff.mp h
          cases h
          exact .inr (.inr (.inr (.inl ⟨_, rfl⟩)))
        split at h
        · cases h
          exact .inl (hverbatim (congrArg _ (List.take_append_drop 1 ts)))
        · cases h
      · split at h
        · cases h
          exact .inl (hverbatim rfl)
        split at h
        · cases h
          exact .inl (hverbatim (congrArg _ (List.take_append_drop 1 ts)))
        split at h
        · obtain ⟨after, -, h⟩ := Option.bind_eq_some_iff.mp h
          cases h
          exact .inl (hverbatim (kept_verbatim hsuffix))
        split at h
        · simp only [Option.bind_eq_some_iff] at h
          obtain ⟨_, -, after, -, h⟩ := h
          cases h
          exact .inl (hverbatim (kept_verbatim hsuffix))
        split at h
        · obtain ⟨_, -, h⟩ := Option.bind_eq_some_iff.mp h
          cases h
          exact .inr (.inr (.inr (.inr ⟨_, _, rfl⟩)))
        split at h
        · cases h
          exact .inl ⟨.inr ⟨token, rfl⟩, rfl⟩
        · cases h
          exact .inl (hverbatim (congrArg _ (spanDots_append ts)))

-- What is kept of a leaf is all that was read for it.
theorem kept_of_parsePrimary (h : parsePrimary budget ts = some (leaf, rest)) (hleaf : leaf.IsLeaf) :
    leaf.kept ++ rest = ts := by
  obtain ⟨-, hkept⟩ | ⟨_, _, _, _, _, -, -, -, -, rfl⟩ | ⟨_, rfl⟩ | ⟨_, rfl⟩ | ⟨_, _, rfl⟩ := parsePrimary_cases h
  · exact hkept
  all_goals obtain heq | ⟨_, heq⟩ := hleaf <;> cases heq

-- A type in parentheses is read between them.
theorem exists_of_grouped (h : parsePrimary budget ts = some (.grouped type, rest)) :
    ∃ opening us n closing, ts = opening :: us ∧ opening.isMark "(" ∧ closing.isMark ")" ∧
      parseType n .inside us = some (type, closing :: rest) := by
  obtain ⟨heq | ⟨_, heq⟩, -⟩ | ⟨opening, us, n, inner, closing, hts, hopening, hclosing, hinner, heq⟩ | ⟨_, heq⟩ |
    ⟨_, heq⟩ | ⟨_, _, heq⟩ := parsePrimary_cases h
  case inr.inl =>
    obtain rfl := TypeExpr.grouped.inj heq
    exact ⟨opening, us, n, closing, hts, hopening, hclosing, hinner⟩
  all_goals cases heq

theorem kept_of_parseIntersection (h : parseIntersection budget context ts = some (leaf, rest)) (hleaf : leaf.IsLeaf) :
    leaf.kept ++ rest = ts := by
  have hsuffix := ((bracketed budget).intersection h).suffix
  cases budget with
  | zero => cases h
  | succ budget =>
    simp only [parseIntersection, Option.bind_eq_bind, Option.bind_eq_some_iff, Option.pure_def] at h
    obtain ⟨⟨first, middle⟩, hfirst, last, hothers, h⟩ := h
    split at h
    · obtain ⟨rfl, rfl⟩ := Prod.mk.inj (Option.some.inj h)
      exact kept_verbatim hsuffix
    · rename_i hleading
      obtain ⟨rfl, rfl⟩ := Prod.mk.inj (Option.some.inj h)
      simp only [Bool.or_eq_true, not_or, Bool.not_eq_true] at hleading
      rw [hleading.1] at hfirst
      cases budget with
      | zero => cases hfirst
      | succ budget =>
        cases hoperated : operated ts with
        | true =>
          obtain ⟨rfl, -⟩ := parseOperand_of_operated hoperated hfirst
          exact kept_verbatim hsuffix
        | false => exact kept_of_parsePrimary (parsePrimary_of_isLeaf hfirst hleaf hoperated) hleaf

theorem kept_of_parseType (h : parseType budget context ts = some (leaf, rest)) (hleaf : leaf.IsLeaf) :
    leaf.kept ++ rest = ts := by
  have hsuffix := ((bracketed budget).type h).suffix
  cases budget with
  | zero => cases h
  | succ budget =>
    simp only [parseType, Option.bind_eq_bind, Option.bind_eq_some_iff, Option.pure_def] at h
    obtain ⟨⟨first, after⟩, hfirst, h⟩ := h
    split at h
    · simp only [Option.bind_eq_some_iff] at h
      obtain ⟨_, -, _, -, _, -, _, -, _, -, h⟩ := h
      obtain ⟨rfl, rfl⟩ := Prod.mk.inj (Option.some.inj h)
      exact kept_verbatim hsuffix
    · obtain ⟨rfl, rfl⟩ := Prod.mk.inj (Option.some.inj h)
      obtain ⟨-, n, hmember⟩ := parseUnion_of_isLeaf hfirst hleaf
      exact kept_of_parseIntersection hmember hleaf

end Kept

section Arrays

-- Pairs of brackets.
def brackets : Nat → List Token
  | 0 => []
  | depth + 1 => ⟨[], .mark, "["⟩ :: ⟨[], .mark, "]"⟩ :: brackets depth

theorem length_brackets (depth : Nat) : (brackets depth).length = 2 * depth := by
  induction depth with
  | zero => rfl
  | succ depth ih =>
    rw [brackets, List.length_cons, List.length_cons, ih]
    omega

theorem fullText_brackets_succ (depth : Nat) :
    fullText (brackets (depth + 1)) = "[]" ++ fullText (brackets depth) := rfl

theorem fullText_brackets_append (depth : Nat) :
    fullText (brackets depth) ++ "[]" = fullText (brackets (depth + 1)) := by
  induction depth with
  | zero => rfl
  | succ depth ih => rw [fullText_brackets_succ, List.append_assoc, ih, ← fullText_brackets_succ]

theorem parsePostfix_brackets {start : List Token} (depth : Nat) (hbudget : depth + 1 ≤ budget)
    (hrest : startsWithMark "[" rest = false) :
    parsePostfix budget .inside start type (brackets depth ++ rest) = some (TypeExpr.array^[depth] type, rest) := by
  induction depth generalizing budget type with
  | zero =>
    obtain ⟨budget, rfl⟩ : ∃ n, budget = n + 1 := ⟨budget - 1, by omega⟩
    simp [parsePostfix, brackets, hrest]
  | succ depth ih =>
    obtain ⟨budget, rfl⟩ : ∃ n, budget = n + 1 := ⟨budget - 1, by omega⟩
    have hopen : Token.isMark "[" ⟨[], .mark, "["⟩ := rfl
    have hclose : Token.isMark "]" ⟨[], .mark, "]"⟩ := rfl
    simp only [brackets, List.cons_append, parsePostfix, startsWithMark_cons, hopen, Context.inside, Bool.false_and,
      Bool.not_false, Bool.and_true, if_true, List.drop_succ_cons, List.drop_zero, hclose]
    exact ih (by omega)

-- An operand with nothing behind it that a type goes on with.
theorem parseType_of_operand (h : parseOperand budget .inside ts = some (type, token :: rest)) (hstop : token.Stops)
    (hamp : startsWithMark "&" ts = false) (hbar : startsWithMark "|" ts = false) :
    parseType (budget + 3) .inside ts = some (type, token :: rest) := by
  obtain ⟨budget, rfl⟩ : ∃ n, budget = n + 1 := by
    cases budget with
    | zero => cases h
    | succ n => exact ⟨n, rfl⟩
  have hamp' : token.isMark "&" = false := hstop.not_mark (by decide)
  have hbar' : token.isMark "|" = false := hstop.not_mark (by decide)
  have hextends : token.isWord "extends" = false := hstop.not_word (by decide)
  have hintersection : parseIntersection (budget + 2) .inside ts = some (type, token :: rest) := by
    simp [parseIntersection, skipIntersected, hamp, h, hamp']
  have hunion : parseUnion (budget + 3) .inside ts = some (type, token :: rest) := by
    simp [parseUnion, parseAlternatives, hbar, hintersection, hbar']
  rw [parseType, hunion]
  simp [hextends]

theorem not_mark_of_primary {mark : Text} (h : parsePrimary budget (token :: ts) = some (type, rest))
    (hmark : mark = "&" ∨ mark = "|") : token.isMark mark = false := by
  by_contra hand
  have hboth : token.kind = .mark ∧ token.text = mark := Token.isMark_iff.mp (eq_true_of_ne_false hand)
  cases budget with
  | zero => cases h
  | succ budget =>
    obtain rfl | rfl := hmark <;>
      simp [parsePrimary, hboth, Token.isMark, Text.ofString, Text.ofChars] at h

theorem TypeExpr.IsPrimary.not_operated (h : leaf.IsPrimary) (hleaf : leaf.IsLeaf)
    (hrest : startsWithKind .word rest = false) : operated (leaf.kept ++ rest) = false := by
  have hcomplete : parsePrimary (8 * leaf.kept.length) (leaf.kept ++ []) = some (leaf, []) := by
    rw [List.append_nil, h.complete]
  rw [operated_of_primary hcomplete hleaf rfl hrest, List.append_nil, h.operatorless]

-- It begins with neither of the marks between the parts of a type.
theorem TypeExpr.IsPrimary.not_mark {mark : Text} (h : leaf.IsPrimary) (hmark : mark = "&" ∨ mark = "|")
    (rest : List Token) : startsWithMark mark (leaf.kept ++ rest) = false := by
  have hcomplete := h.complete
  cases hkept : leaf.kept with
  | nil =>
    rw [hkept] at hcomplete
    cases hcomplete
  | cons token ts =>
    rw [hkept] at hcomplete
    exact not_mark_of_primary hcomplete hmark

theorem TypeExpr.IsPrimary.kept_ne_nil (h : leaf.IsPrimary) : leaf.kept ≠ [] := by
  intro hkept
  have hcomplete := h.complete
  rw [hkept] at hcomplete
  cases hcomplete

-- A type that is complete by itself is the element of an array in front of brackets.
theorem TypeExpr.IsPrimary.array (h : leaf.IsPrimary) (hleaf : leaf.IsLeaf) (depth : Nat)
    (hstop : token.Stops) (hkind : token.kind = .mark) (hbudget : 8 * leaf.kept.length + depth + 5 ≤ budget) :
    parseType budget .inside (leaf.kept ++ (brackets depth ++ token :: rest)) =
      some (TypeExpr.array^[depth] leaf, token :: rest) := by
  obtain ⟨budget, rfl⟩ : ∃ n, budget = n + 4 := ⟨budget - 4, by omega⟩
  have hhead {p : Token → Bool} (hbracket : p ⟨[], .mark, "["⟩ = false) (htoken : p token = false) :
      (brackets depth ++ token :: rest).head?.any p = false := by
    cases depth with
    | zero => exact htoken
    | succ depth => exact hbracket
  have hword : startsWithKind .word (brackets depth ++ token :: rest) = false := hhead rfl (by simp [hkind])
  have hprimary : parsePrimary budget (leaf.kept ++ (brackets depth ++ token :: rest)) =
      some (leaf, brackets depth ++ token :: rest) :=
    h.reads (by omega) (hhead rfl (hstop.not_mark (by decide))) (hhead rfl (hstop.not_mark (by decide))) hword
  refine parseType_of_operand ?_ hstop (h.not_mark (.inl rfl) _) (h.not_mark (.inr rfl) _)
  rw [parseOperand_of_not_operated (h.not_operated hleaf hword), hprimary]
  exact parsePostfix_brackets depth (by omega) (hstop.not_mark (by decide))

theorem Token.kind_of_isMark {mark : Text} (h : token.isMark mark) : token.kind = .mark := (isMark_iff.mp h).1

theorem Token.stops_of_isMark {mark : Text} (h : token.isMark mark) (hmark : mark ∈ stopMarks) : token.Stops := by
  have hboth : token.kind = .mark ∧ token.text = mark := Token.isMark_iff.mp h
  exact .inr (.inl ⟨hboth.1, hboth.2 ▸ hmark⟩)

-- Marks that no type goes on with can take the place of any marks.
theorem Replaces.of_mark {closing closing' : Token} {mark : Text} {back back' : List Token} (h : closing.kind = .mark)
    (h' : closing'.isMark mark) (hmark : mark ∈ stopMarks) : Replaces ts (closing :: back) (closing' :: back') := by
  have hstops := Token.stops_of_isMark h' hmark
  refine ⟨hstops.not_mark (by decide), .inr ⟨⟨closing', back', rfl, hstops⟩, .inl ?_⟩⟩
  simp [h, Token.kind_of_isMark h']

-- A type in parentheses is the element of an array in front of brackets.
theorem parseType_array_grouped {opening closing closing' : Token} {back : List Token} (depth : Nat)
    (h : parseType budget' .inside (ts ++ closing :: back) = some (type, closing :: back)) (hend : closing.kind = .mark)
    (hopening : opening.isMark "(") (hclosing : closing'.isMark ")") (hstop : token.Stops)
    (hbudget : 8 * ts.length + depth + 9 ≤ budget) :
    parseType budget .inside (opening :: (ts ++ closing' :: (brackets depth ++ token :: rest))) =
      some (TypeExpr.array^[depth] (.grouped type), token :: rest) := by
  obtain ⟨budget, rfl⟩ : ∃ n, budget = n + 5 := ⟨budget - 5, by omega⟩
  have hboth : opening.kind = .mark ∧ opening.text = "(" := Token.isMark_iff.mp hopening
  have hmark {mark : Text} (hmark : "(" ≠ mark) : opening.isMark mark = false := Token.not_isMark hopening hmark
  have htype := (rereading budget').type .inside ts (closing' :: (brackets depth ++ token :: rest)) budget h
    (.of_mark hend hclosing (by decide)) (by omega)
  have hprimary : parsePrimary (budget + 1) (opening :: (ts ++ closing' :: (brackets depth ++ token :: rest))) =
      some (.grouped type, brackets depth ++ token :: rest) := by
    dsimp only at htype
    simp [parsePrimary, hboth.1, hopening, htype, expectMark, hclosing]
  have harrow : startsWithMark "=>" (brackets depth ++ token :: rest) = false := by
    cases depth with
    | zero => exact hstop.not_mark (by decide)
    | succ depth => rfl
  have hfunction : startsFunction (opening :: (ts ++ closing' :: (brackets depth ++ token :: rest))) = false := by
    simp [startsFunction, skipParameters_of_primary hopening hprimary, harrow]
  refine parseType_of_operand ?_ hstop (hmark (by decide)) (hmark (by decide))
  rw [parseOperand_of_mark hboth.1 hfunction, hprimary]
  exact parsePostfix_brackets depth (by omega) (hstop.not_mark (by decide))

-- Any other becomes a part of something else there.
theorem TypeExpr.IsRaw.parseType_of_not_isPrimary (h : leaf.IsRaw) (hprimary : ¬ leaf.IsPrimary)
    (hbudget : 8 * leaf.kept.length + 4 ≤ budget)
    (hread : Source.parseType (budget + 2) .inside (leaf.kept ++ rest) = some (type, after)) :
    (∃ run, type = .verbatim run) ∨ ∃ first second others, type = .union (first :: second :: others) := by
  obtain hverbatim | ⟨hconditional, first, others, middle, hfirst, -, -, rfl⟩ := h.parseType hbudget hread
  · exact .inl hverbatim
  have hverbatim := (h.isPrimary_or_verbatim hconditional).resolve_left hprimary
  cases others with
  | nil => exact .inl ⟨_, hverbatim (by omega) hfirst⟩
  | cons second others => exact .inr ⟨first, second, others, rfl⟩

end Arrays

section Members

-- A bar between members of a union.
def bar : Token := ⟨[.blank " "], .mark, "|"⟩

-- The tokens of the members of a union.
def barred : List TypeExpr → List Token
  | [] => []
  | [leaf] => leaf.kept
  | leaf :: others => leaf.kept ++ bar :: barred others

theorem barred_cons_cons (leaf second : TypeExpr) (others : List TypeExpr) :
    barred (leaf :: second :: others) = leaf.kept ++ bar :: barred (second :: others) := rfl

-- A type that is one member of a union up to the given token.
def TypeExpr.BindsBefore (token : Token) (type : TypeExpr) : Prop :=
  parseIntersection (8 * type.kept.length + 2) .inside (type.kept ++ [token]) = some (type, [token])

theorem bindsBefore_iff (hpoint : token.isMark "." = false) (hbudget : 8 * leaf.kept.length + 2 ≤ budget)
    (rest : List Token) : leaf.BindsBefore token ↔
      parseIntersection budget .inside (leaf.kept ++ token :: rest) = some (leaf, token :: rest) :=
  ⟨fun h => (rereading _).intersection .inside _ _ budget h (.cons hpoint) hbudget,
    fun h => (rereading _).intersection .inside _ _ _ h (.cons hpoint) (Nat.le_refl _)⟩

-- No member begins with a bar.
theorem parseIntersection_of_bar (h : startsWithMark "|" ts) : parseIntersection budget context ts = none := by
  cases ts with
  | nil => cases h
  | cons token ts =>
    have hboth : token.kind = .mark ∧ token.text = "|" := Token.isMark_iff.mp h
    have hfunction : startsFunction (token :: ts) = false :=
      startsFunction_of_not_marks (Token.not_isMark h (by decide)) (Token.not_isMark h (by decide))
    have hamp : token.isMark "&" = false := Token.not_isMark h (by decide)
    have hprimary (n : Nat) : parsePrimary n (token :: ts) = none := by
      cases n with
      | zero => rfl
      | succ n => simp [parsePrimary, hboth, Token.isMark, Text.ofString, Text.ofChars]
    have hoperand (n : Nat) : parseOperand n context (token :: ts) = none := by
      cases n with
      | zero => rfl
      | succ n => simp [parseOperand_of_mark hboth.1 hfunction, hprimary]
    cases budget with
    | zero => rfl
    | succ budget => simp [parseIntersection, hamp, hoperand]

theorem not_startsWithMark_bar (h : parseIntersection budget context ts = some (type, rest)) :
    startsWithMark "|" ts = false := by
  by_contra hbar
  rw [parseIntersection_of_bar (eq_true_of_ne_false hbar)] at h
  cases h

-- Members that are read up to their bars, and the last up to the end.
theorem parse_barred {leaves : List TypeExpr} (hne : leaves ≠ [])
    (hbars : ∀ leaf ∈ leaves.dropLast, leaf.BindsBefore bar) (hlast : ∀ leaf ∈ leaves.getLast?, leaf.BindsBefore token)
    (hstop : token.Stops) (hbudget : 8 * (barred leaves).length + 2 ≤ budget) :
    ∃ first others middle, leaves = first :: others ∧
      parseIntersection budget .inside (barred leaves ++ token :: rest) = some (first, middle) ∧
      parseAlternatives budget .inside middle = some (others, token :: rest) := by
  induction leaves generalizing budget with
  | nil => exact absurd rfl hne
  | cons leaf others ih =>
    obtain ⟨budget, rfl⟩ : ∃ n, budget = n + 1 := ⟨budget - 1, by omega⟩
    cases others with
    | nil =>
      have hread := (bindsBefore_iff (hstop.not_mark (by decide)) hbudget rest).mp (hlast leaf rfl)
      have hend : token.isMark "|" = false := hstop.not_mark (by decide)
      exact ⟨leaf, [], token :: rest, rfl, hread, by simp [parseAlternatives, hend]⟩
    | cons second others =>
      rw [barred_cons_cons, List.length_append, List.length_cons] at hbudget
      obtain ⟨_, _, middle, hleaves, hfirst, hothers⟩ := @ih budget (List.cons_ne_nil _ _)
        (fun leaf hmem => hbars leaf (List.mem_cons_of_mem _ hmem)) hlast (by omega)
      obtain ⟨rfl, rfl⟩ := List.cons.inj hleaves
      have hread := (@bindsBefore_iff bar (budget + 1) leaf rfl (by omega)
        (barred (second :: others) ++ token :: rest)).mp (hbars leaf (List.mem_cons_self ..))
      rw [← List.cons_append, ← List.append_assoc] at hread
      refine ⟨leaf, second :: others, _, rfl, hread, ?_⟩
      have hbar : bar.isMark "|" := rfl
      simp [parseAlternatives, hbar, hfirst, hothers]

theorem parseType_barred {leaves : List TypeExpr} {mark : Text} (hseveral : 2 ≤ leaves.length)
    (hbars : ∀ leaf ∈ leaves.dropLast, leaf.BindsBefore bar) (hlast : ∀ leaf ∈ leaves.getLast?, leaf.BindsBefore token)
    (hmark : token.isMark mark) (hstop : mark ∈ stopMarks) (hbudget : 8 * (barred leaves).length + 4 ≤ budget) :
    parseType budget .inside (barred leaves ++ token :: rest) = some (.union leaves, token :: rest) := by
  obtain ⟨budget, rfl⟩ : ∃ n, budget = n + 2 := ⟨budget - 2, by omega⟩
  have hstops := Token.stops_of_isMark hmark hstop
  obtain ⟨first, others, middle, rfl, hfirst, hothers⟩ :=
    @parse_barred _ rest budget _ (List.ne_nil_of_length_pos (by omega)) hbars hlast hstops (by omega)
  have hbar := not_startsWithMark_bar hfirst
  have hne : others ≠ [] := by
    rintro rfl
    simp at hseveral
  have hunion : parseUnion (budget + 1) .inside (barred (first :: others) ++ token :: rest) =
      some (.union (first :: others), token :: rest) := by
    simp [parseUnion, hbar, hfirst, hothers, hne]
  have hextends : token.isWord "extends" = false := hstops.not_word (by decide)
  rw [parseType, hunion]
  simp [hextends]

theorem sourceText_append (hts : ts ≠ []) (us : List Token) : sourceText (ts ++ us) = sourceText ts ++ fullText us := by
  obtain ⟨token, ts, rfl⟩ := List.exists_cons_of_ne_nil hts
  simp [sourceText, fullText]

-- Tokens at the beginning of the same run that have the same text are the same.
theorem eq_of_sourceText (h : ts ++ rest = us ++ after) (hts : ts ≠ []) (hus : us ≠ [])
    (hsolid : ∀ token ∈ ts, token.text ≠ []) (hrest : ∀ token ∈ rest.head?, token.text ≠ [])
    (htext : sourceText us = sourceText ts) : us = ts ∧ after = rest := by
  have hnil {run more : List Token} (hne : run ≠ []) (hmore : ∀ token ∈ more.head?, token.text ≠ [])
      (heq : sourceText (run ++ more) = sourceText run) : more = [] := by
    rw [sourceText_append hne, List.append_right_eq_self] at heq
    cases more with
    | nil => rfl
    | cons token more =>
      rw [fullText_cons] at heq
      simp [hmore token rfl] at heq
  obtain ⟨more, rfl, rfl⟩ | ⟨more, rfl, rfl⟩ := List.append_eq_append_iff.mp h
  · obtain rfl := hnil hts (fun token hmem => hrest token (by
      rw [List.head?_append, Option.mem_def.mp hmem]
      rfl)) htext
    simp
  · obtain rfl := hnil hus (fun token hmem => hsolid token (List.mem_append_right _ (List.mem_of_mem_head? hmem)))
      htext.symm
    simp

-- A type that is read for a leaf and kept as its tokens has the text of the leaf.
def Shows (type leaf : TypeExpr) : Prop :=
  ∀ run, type = .verbatim run → leaf = .verbatim leaf.kept ∧ sourceText run = sourceText leaf.kept

theorem TypeExpr.IsPrimary.bindsBefore_bar (h : leaf.IsPrimary) (hleaf : leaf.IsLeaf) : leaf.BindsBefore bar := by
  have hamp : bar.isMark "&" = false := rfl
  have hopen : bar.isMark "[" = false := rfl
  have hprimary : parsePrimary (8 * leaf.kept.length) (leaf.kept ++ [bar]) = some (leaf, [bar]) :=
    h.reads (Nat.le_refl _) rfl rfl rfl
  obtain ⟨n, hn⟩ : ∃ n, 8 * leaf.kept.length = n + 1 :=
    Nat.exists_eq_add_one.mpr (Nat.mul_pos (by omega) (List.length_pos_iff.mpr h.kept_ne_nil))
  have hoperand : parseOperand (8 * leaf.kept.length + 1) .inside (leaf.kept ++ [bar]) = some (leaf, [bar]) := by
    rw [parseOperand_of_not_operated (h.not_operated hleaf rfl), hprimary, hn]
    simp [parsePostfix, hopen]
  simp [BindsBefore, parseIntersection, h.not_mark (.inl rfl), hoperand, skipIntersected, hamp]

-- What a conditional type tests ends in front of its word, which no union goes on with.
theorem extends_of_isConditional {first : TypeExpr} {others : List TypeExpr} {middle : List Token}
    (h : leaf.IsConditional) (hfirst : parseIntersection budget .inside (leaf.kept ++ rest) = some (first, middle))
    (hothers : parseAlternatives budget .inside middle = some (others, after))
    (hbudget : 8 * leaf.kept.length + 3 ≤ budget) : startsWithWord "extends" after := by
  obtain ⟨front, word, back, tested, hkept, hword, hunion⟩ := h
  have hbar := not_startsWithMark_bar hfirst
  have hlength := congrArg List.length hkept
  rw [List.length_append, List.length_cons] at hlength
  have hunion' := hunion (back ++ rest) (budget + 1) (by omega)
  rw [← List.cons_append, ← List.append_assoc, ← hkept] at hunion'
  simp only [parseUnion, hbar, Bool.false_eq_true, if_false, hfirst, hothers, Option.bind_eq_bind, Option.bind_some,
    Option.pure_def] at hunion'
  have hafter : after = word :: (back ++ rest) := by
    split at hunion'
    · exact (Prod.mk.inj (Option.some.inj hunion')).2
    · exact (Prod.mk.inj (Option.some.inj hunion')).2
  simp [hafter, hword]

-- A member that is read with its own text ends in front of its bar.
theorem TypeExpr.IsRaw.bindsBefore_bar {first : TypeExpr} {middle : List Token} (h : leaf.IsRaw)
    (hconditional : ¬ leaf.IsConditional)
    (hfirst : parseIntersection budget .inside (leaf.kept ++ bar :: rest) = some (first, middle))
    (hshows : Shows first leaf) (hbudget : 8 * leaf.kept.length + 2 ≤ budget) : leaf.BindsBefore bar := by
  obtain hprimary | hverbatim := h.isPrimary_or_verbatim hconditional
  · exact hprimary.bindsBefore_bar h.leaf
  have hkept : leaf.kept ≠ [] := by
    obtain ⟨n, closing, back, -, -, hmember⟩ := h.member hconditional
    obtain ⟨token, ts, heq⟩ := exists_cons_of_takes ((bracketed n).intersection hmember)
    simp [heq]
  have htakes := (bracketed budget).intersection hfirst
  obtain ⟨run, hrun⟩ := htakes.suffix
  have hrunNe : run ≠ [] := by
    rintro rfl
    exact absurd htakes.shorter (by simp [← hrun])
  have hrunEq := hverbatim hbudget hfirst
  rw [← hrun, consumed_append_self] at hrunEq
  obtain ⟨hleaf, htext⟩ := hshows run hrunEq
  obtain ⟨rfl, rfl⟩ := eq_of_sourceText hrun.symm hkept hrunNe h.solid (fun token hmem => by
    obtain rfl := Option.some.inj hmem
    exact List.cons_ne_nil _ _) htext
  rw [← hleaf] at hrunEq
  exact (bindsBefore_iff rfl hbudget rest).mpr (hrunEq ▸ hfirst)

-- Members that are read with their own texts, in front of something that no union goes on with.
theorem binds_of_parse_barred {leaves others : List TypeExpr} {first : TypeExpr} {middle : List Token} {mark : Text}
    (hraw : ∀ leaf ∈ leaves, leaf.IsRaw) (hmark : token.isMark mark) (hstop : mark ∈ stopMarks)
    (hfirst : parseIntersection budget .inside (barred leaves ++ token :: rest) = some (first, middle))
    (hothers : parseAlternatives budget .inside middle = some (others, after))
    (hafter : startsWithWord "extends" after = false) (hshows : List.Forall₂ Shows (first :: others) leaves)
    (hbudget : 8 * (barred leaves).length + 3 ≤ budget) :
    (∀ leaf ∈ leaves.dropLast, leaf.BindsBefore bar) ∧ ∀ leaf ∈ leaves.getLast?, leaf.BindsBefore token := by
  induction leaves generalizing budget first others middle with
  | nil => cases hshows
  | cons leaf leaves ih =>
    obtain ⟨hleaf, hleaves⟩ := List.forall_mem_cons.mp hraw
    cases leaves with
    | nil =>
      have hconditional : ¬ leaf.IsConditional := fun h => by
        have hextends := extends_of_isConditional h hfirst hothers hbudget
        rw [hafter] at hextends
        cases hextends
      obtain ⟨n, closing, back, hkind, -, hmember⟩ := hleaf.member hconditional
      refine ⟨nofun, fun last hlast => ?_⟩
      obtain rfl := Option.some.inj hlast
      exact (rereading n).intersection .inside _ _ _ hmember (.of_mark hkind hmark hstop) (Nat.le_refl _)
    | cons second leaves =>
      obtain ⟨budget, rfl⟩ : ∃ n, budget = n + 1 := ⟨budget - 1, by omega⟩
      rw [barred_cons_cons, List.length_append, List.length_cons] at hbudget
      rw [barred_cons_cons, List.append_assoc, List.cons_append] at hfirst
      have hconditional : ¬ leaf.IsConditional := fun h => by
        have hextends := extends_of_isConditional h hfirst hothers (by omega)
        rw [hafter] at hextends
        cases hextends
      obtain ⟨hshowsFirst, hshowsOthers⟩ := List.forall₂_cons.mp hshows
      have hbinds := hleaf.bindsBefore_bar hconditional hfirst hshowsFirst (by omega)
      have hbar : bar.isMark "|" := rfl
      rw [(bindsBefore_iff rfl (by omega) _).mp hbinds] at hfirst
      obtain ⟨rfl, rfl⟩ := Prod.mk.inj (Option.some.inj hfirst)
      simp only [parseAlternatives, startsWithMark_cons, hbar, if_true, List.drop_succ_cons, List.drop_zero,
        Option.bind_eq_bind, Option.bind_eq_some_iff, Option.pure_def] at hothers
      obtain ⟨⟨next, middle⟩, hnext, ⟨others', last⟩, hothers', h⟩ := hothers
      obtain ⟨rfl, rfl⟩ := Prod.mk.inj (Option.some.inj h)
      obtain ⟨hbars, hlast⟩ := ih hleaves hnext hothers' hshowsOthers (by omega)
      exact ⟨List.forall_mem_cons.mpr ⟨hbinds, hbars⟩, hlast⟩

-- What is written for a union is taken in by one of its operators, or read as members.
theorem parseType_of_barred {second : TypeExpr} {leaves : List TypeExpr} (hraw : leaf.IsRaw)
    (hbudget : 8 * leaf.kept.length + 4 ≤ budget)
    (h : parseType (budget + 2) .inside (barred (leaf :: second :: leaves) ++ rest) = some (type, after)) :
    (∃ run, type = .verbatim run) ∨ ∃ first next others middle, type = .union (first :: next :: others) ∧
      parseIntersection budget .inside (barred (leaf :: second :: leaves) ++ rest) = some (first, middle) ∧
      parseAlternatives budget .inside middle = some (next :: others, after) ∧
      startsWithWord "extends" after = false := by
  rw [barred_cons_cons, List.append_assoc, List.cons_append] at h ⊢
  obtain hverbatim | ⟨hconditional, first, others, middle, hfirst, hothers, hafter, rfl⟩ := hraw.parseType hbudget h
  · exact .inl hverbatim
  cases others with
  | cons next others => exact .inr ⟨first, next, others, middle, rfl, hfirst, hothers, hafter⟩
  | nil =>
    left
    obtain hprimary | hverbatim := hraw.isPrimary_or_verbatim hconditional
    · exfalso
      have hbar : bar.isMark "|" := rfl
      rw [(bindsBefore_iff rfl (by omega) _).mp (hprimary.bindsBefore_bar hraw.leaf)] at hfirst
      obtain ⟨rfl, rfl⟩ := Prod.mk.inj (Option.some.inj hfirst)
      obtain ⟨budget, rfl⟩ : ∃ n, budget = n + 1 := ⟨budget - 1, by omega⟩
      simp [parseAlternatives, hbar, Option.bind_eq_some_iff] at hothers
    · exact ⟨_, hverbatim (by omega) hfirst⟩

end Members

end HookGen.Source
