import HookGen.Proofs.Source.OneLine
import HookGen.Proofs.Source.Rereading

/-!
Types that are kept as their tokens, in front of other tokens than those they were written in front of: which of them
are complete before the brackets of an array, and what an operator makes of all that it takes in.
-/

namespace HookGen.Source

variable {token : Token} {ts us raw rest rest' after : List Token} {budget budget' : Nat} {context context' : Context}
  {type leaf : TypeExpr}

section Operands

-- Whether an operator begins here that makes one type of all that it takes in.
def operated (tokens : List Token) : Bool :=
  startsFunction tokens || startsWithWord "readonly" tokens || startsWithWord "keyof" tokens ||
    (startsWithWord "new" tokens || (startsWithWord "abstract" tokens && startsWithWord "new" (tokens.drop 1))) ||
    (startsWithWord "infer" tokens && startsWithKind .word (tokens.drop 1))

theorem length_of_head {p : Token → Bool} (h : ts.head?.any p) : (ts.drop 1).length + 1 = ts.length := by
  cases ts with
  | nil => cases h
  | cons => rfl

-- It takes in more than one token.
theorem parseOperand_of_operated (hoperated : operated ts)
    (h : parseOperand (budget + 1) context ts = some (type, rest)) :
    type = .verbatim (consumed ts rest) ∧ rest.length + 1 < ts.length := by
  simp only [parseOperand, Option.bind_eq_bind, Option.pure_def] at h
  split at h
  · simp only [Option.bind_eq_some_iff] at h
    obtain ⟨middle, hparameters, after, harrow, last, hresult, h⟩ := h
    obtain ⟨rfl, rfl⟩ := Prod.mk.inj (Option.some.inj h)
    have hfront := (Takes.skipParameters hparameters).shorter
    have harrow' := (Takes.expectMark (by decide) harrow).shorter
    have hback := ((bracketed budget).result hresult).shorter
    exact ⟨rfl, by omega⟩
  rename_i hfunction
  split at h
  · rename_i hreadonly
    obtain ⟨read, htype, h⟩ := Option.bind_eq_some_iff.mp h
    obtain ⟨rfl, rfl⟩ := Prod.mk.inj (Option.some.inj h)
    have hfront := length_of_head hreadonly
    have hback := ((bracketed budget).type htype).shorter
    exact ⟨rfl, by omega⟩
  rename_i hreadonly
  split at h
  · rename_i hkeyof
    obtain ⟨read, hoperand, h⟩ := Option.bind_eq_some_iff.mp h
    obtain ⟨rfl, rfl⟩ := Prod.mk.inj (Option.some.inj h)
    have hfront := length_of_head hkeyof
    have hback := ((bracketed budget).operand hoperand).shorter
    exact ⟨rfl, by omega⟩
  rename_i hkeyof
  split at h
  · simp only [Option.bind_eq_some_iff] at h
    obtain ⟨middle, hparameters, after, harrow, read, hoperand, h⟩ := h
    obtain ⟨rfl, rfl⟩ := Prod.mk.inj (Option.some.inj h)
    have hfront := (Takes.skipParameters hparameters).shorter
    have harrow' := (Takes.expectMark (by decide) harrow).shorter
    have hback := ((bracketed budget).operand hoperand).shorter
    rw [List.length_drop] at hfront
    exact ⟨rfl, by omega⟩
  rename_i hnew
  split at h
  · rename_i hinfer
    have hfront := length_of_head (Bool.and_eq_true_iff.mp hinfer).1
    have hname : (ts.drop 2).length + 1 = (ts.drop 1).length := by
      rw [← length_of_head (Bool.and_eq_true_iff.mp hinfer).2, List.drop_drop]
    split at h
    · obtain ⟨read, hunion, h⟩ := Option.bind_eq_some_iff.mp h
      obtain ⟨rfl, rfl⟩ := Prod.mk.inj (Option.some.inj h)
      have hback := ((bracketed budget).union hunion).shorter
      rw [List.length_drop] at hback
      exact ⟨rfl, by omega⟩
    · obtain ⟨rfl, rfl⟩ := Prod.mk.inj (Option.some.inj h)
      exact ⟨rfl, by omega⟩
  rename_i hinfer
  simp only [operated, hfunction, hreadonly, hkeyof, hnew, hinfer, Bool.or_self, Bool.false_eq_true] at hoperated

theorem parseOperand_of_not_operated (hoperated : operated ts = false) :
    parseOperand (budget + 1) context ts =
      (parsePrimary budget ts).bind fun read => parsePostfix budget context ts read.1 read.2 := by
  simp only [operated, Bool.or_eq_false_iff] at hoperated
  obtain ⟨⟨⟨⟨hfunction, hreadonly⟩, hkeyof⟩, hnew, habstract⟩, hinfer⟩ := hoperated
  simp [parseOperand, hfunction, hreadonly, hkeyof, hnew, habstract, hinfer, -List.drop_one]

-- An operator that a type is read with stands in its own tokens.
theorem operated_append (hoperated : operated (ts ++ rest))
    (h : parseOperand (budget + 1) context (ts ++ rest) = some (type, rest)) (rest' : List Token) :
    operated (ts ++ rest') := by
  have hlength := (parseOperand_of_operated hoperated h).2
  match ts with
  | [] => exact absurd hlength (by simp)
  | [token] => exact absurd hlength (by simp)
  | token :: next :: us =>
    by_cases hfunction : startsFunction (token :: next :: us ++ rest)
    · have hfunction' := startsFunction_append h hfunction rest'
      simp only [operated, hfunction', Bool.true_or]
    · -- the first two tokens tell
      simp only [operated, hfunction, Bool.false_or] at hoperated
      simp only [operated, Bool.or_assoc, Bool.or_eq_true] at hoperated ⊢
      exact .inr hoperated

end Operands

section Leaves

-- The tokens of a type that is kept as they are, or as a name.
def TypeExpr.kept : TypeExpr → List Token
  | .verbatim source => source
  | .name token => [token]
  | _ => []

-- A type that is kept as its tokens, or as a name.
def TypeExpr.IsLeaf (type : TypeExpr) : Prop := type = .verbatim type.kept ∨ ∃ token, type = .name token

-- With brackets behind it a type is an array or an access.
theorem parsePostfix_of_isLeaf {start : List Token} (h : parsePostfix budget context start type ts = some (leaf, rest))
    (hleaf : leaf.IsLeaf) : type = leaf ∧ ts = rest := by
  induction budget generalizing type ts with
  | zero => cases h
  | succ budget ih =>
    rw [parsePostfix] at h
    split at h
    · exfalso
      split at h
      · obtain ⟨rfl, -⟩ := ih h
        obtain heq | ⟨_, heq⟩ := hleaf <;> cases heq
      · simp only [Option.bind_eq_bind, Option.bind_eq_some_iff] at h
        obtain ⟨_, -, _, -, h⟩ := h
        obtain ⟨rfl, -⟩ := ih h
        obtain heq | ⟨_, heq⟩ := hleaf <;> cases heq
    · exact Prod.mk.inj (Option.some.inj h)

theorem parsePrimary_of_isLeaf (h : parseOperand (budget + 1) context ts = some (leaf, rest)) (hleaf : leaf.IsLeaf)
    (hoperated : operated ts = false) : parsePrimary budget ts = some (leaf, rest) := by
  rw [parseOperand_of_not_operated hoperated] at h
  obtain ⟨⟨type, after⟩, hprimary, hpostfix⟩ := Option.bind_eq_some_iff.mp h
  obtain ⟨rfl, rfl⟩ := parsePostfix_of_isLeaf hpostfix hleaf
  exact hprimary

-- What is complete by itself and kept as its tokens begins with no bracket.
theorem startsFunction_of_primary (h : parsePrimary budget (token :: ts) = some (leaf, rest)) (hleaf : leaf.IsLeaf)
    (us : List Token) : startsFunction (token :: us) = false := by
  cases budget with
  | zero => cases h
  | succ budget =>
    refine startsFunction_of_not_marks ?_ ?_
    · by_contra hangle
      have hboth := Token.isMark_iff.mp (eq_true_of_ne_false hangle)
      simp [parsePrimary, hboth, Token.isMark, Text.ofString, Text.ofChars] at h
    · by_contra hopen
      have hboth := Token.isMark_iff.mp (eq_true_of_ne_false hopen)
      simp only [parsePrimary, hboth, Token.isMark, beq_self_eq_true, Bool.and_self, if_true, Option.bind_eq_bind,
        Option.bind_eq_some_iff, Option.pure_def] at h
      obtain ⟨_, -, _, -, h⟩ := h
      obtain ⟨rfl, -⟩ := Prod.mk.inj (Option.some.inj h)
      obtain heq | ⟨_, heq⟩ := hleaf <;> cases heq

-- Then its own tokens tell whether an operator begins there.
theorem operated_of_primary (h : parsePrimary budget (ts ++ rest) = some (leaf, rest)) (hleaf : leaf.IsLeaf)
    (hrest : startsWithKind .word rest = false) (hrest' : startsWithKind .word rest' = false) :
    operated (ts ++ rest') = operated (ts ++ rest) := by
  obtain ⟨token, us, rfl⟩ := exists_cons_of_takes ((bracketed budget).primary h)
  have hfunction := startsFunction_of_primary h hleaf
  cases us with
  | nil =>
    have hnew {tail : List Token} (htail : startsWithKind .word tail = false) : startsWithWord "new" tail = false :=
      not_word_of_not_kind htail
    simp [operated, hfunction, hrest, hrest', hnew hrest, hnew hrest']
  | cons next us => simp [operated, hfunction]

-- A type that begins with no operator and is complete by itself.
structure TypeExpr.IsPrimary (type : TypeExpr) : Prop where
  operatorless : operated type.kept = false
  complete : parsePrimary (8 * type.kept.length) type.kept = some (type, [])

theorem isPrimary_of_parsePrimary (h : parsePrimary budget (leaf.kept ++ rest) = some (leaf, rest))
    (hleaf : leaf.IsLeaf) (hoperated : operated (leaf.kept ++ rest) = false)
    (hrest : startsWithKind .word rest = false) : leaf.IsPrimary := by
  have hnone := @operated_of_primary _ _ [] _ _ h hleaf hrest rfl
  rw [List.append_nil, hoperated] at hnone
  have hborders : Borders rest [] := ⟨rfl, fun _ => rfl, fun _ => rfl⟩
  cases budget with
  | zero => cases h
  | succ budget =>
    have hcomplete := reread_primary leaf.kept (rereading budget) h hborders (Nat.le_refl _)
    exact ⟨hnone, by rwa [List.append_nil] at hcomplete⟩

-- In front of brackets a type that is complete by itself is the element of an array.
theorem TypeExpr.IsPrimary.reads (h : leaf.IsPrimary) (hbudget : 8 * leaf.kept.length ≤ budget)
    (hpoint : startsWithMark "." rest = false) (hangle : startsWithMark "<" rest = false)
    (hrest : startsWithKind .word rest = false) : parsePrimary budget (leaf.kept ++ rest) = some (leaf, rest) := by
  have hborders : Borders [] rest := ⟨hpoint, fun _ => hangle, fun _ => not_word_of_not_kind hrest⟩
  have hcomplete := h.complete
  cases hlength : 8 * leaf.kept.length with
  | zero =>
    rw [hlength] at hcomplete
    cases hcomplete
  | succ n =>
    rw [hlength] at hcomplete
    exact reread_primary leaf.kept (rereading n) (by rwa [List.append_nil]) hborders hbudget

theorem exists_cons_of_intersected (h : skipIntersected budget context (ts ++ rest) = some rest)
    (hamp : startsWithMark "&" (ts ++ rest)) : ∃ token us, ts = token :: us := by
  refine List.exists_cons_of_ne_nil ?_
  rintro rfl
  cases budget with
  | zero => cases h
  | succ budget =>
    rw [skipIntersected, if_pos hamp] at h
    obtain ⟨⟨_, middle⟩, hoperand, h⟩ := Option.bind_eq_some_iff.mp h
    have hshorter := ((bracketed budget).operand hoperand).shorter
    have hle : rest.length ≤ middle.length := ((bracketed budget).intersected h).suffix.length_le
    simp only [List.nil_append, List.length_drop] at hshorter
    omega

-- A member of a union that is kept as its tokens and not complete by itself is built with an operator, which makes one
-- type of all that it takes in, whatever stands behind.
theorem parseIntersection_of_isLeaf (h : parseIntersection budget context (leaf.kept ++ rest) = some (leaf, rest))
    (hleaf : leaf.IsLeaf) (hrest : startsWithKind .word rest = false) : leaf.IsPrimary ∨
      ∀ ⦃rest' budget' type after⦄, 8 * leaf.kept.length + 2 ≤ budget' →
        parseIntersection budget' context (leaf.kept ++ rest') = some (type, after) →
        type = .verbatim (consumed (leaf.kept ++ rest') after) := by
  cases budget with
  | zero => cases h
  | succ budget =>
    obtain ⟨token, us, hkept⟩ := exists_cons_of_takes ((bracketed (budget + 1)).intersection h)
    have hleading (tail : List Token) : startsWithMark "&" (leaf.kept ++ tail) = token.isMark "&" := by
      rw [hkept]
      rfl
    simp only [parseIntersection, Option.bind_eq_bind, Option.bind_eq_some_iff, Option.pure_def, hleading] at h
    by_cases hand : token.isMark "&"
    · right
      intro rest' budget' type after hbudget h'
      obtain ⟨n, rfl⟩ : ∃ n, budget' = n + 1 := ⟨budget' - 1, by omega⟩
      simp only [parseIntersection, Option.bind_eq_bind, Option.bind_eq_some_iff, Option.pure_def, hleading, hand,
        if_true, Bool.true_or] at h'
      obtain ⟨_, -, last, -, h'⟩ := h'
      obtain ⟨rfl, rfl⟩ := Prod.mk.inj (Option.some.inj h')
      rfl
    · simp only [hand, Bool.false_eq_true, if_false, Bool.false_or] at h
      obtain ⟨⟨first, middle⟩, hfirst, last, hothers, h⟩ := h
      dsimp only at hothers h
      split at h
      · rename_i hamp
        obtain ⟨-, rfl⟩ := Prod.mk.inj (Option.some.inj h)
        obtain ⟨operand, operands, hsplit, rfl⟩ := exists_split leaf.kept ((bracketed budget).operand hfirst).suffix
          ((bracketed budget).intersected hothers).suffix
        obtain ⟨amp, operands, rfl⟩ := exists_cons_of_intersected hothers hamp
        right
        intro rest' budget' type after hbudget h'
        obtain ⟨n, rfl⟩ : ∃ n, budget' = n + 1 := ⟨budget' - 1, by omega⟩
        have hamp : amp.isMark "&" := hamp
        have hlength := congrArg List.length hsplit
        rw [List.length_append] at hlength
        have hfirst' : parseOperand n context (leaf.kept ++ rest') = some (first, amp :: operands ++ rest') := by
          rw [hsplit, List.append_assoc] at hfirst ⊢
          exact (rereading budget).operand context operand _ n hfirst (.cons (not_point_of_mark hamp (by decide)))
            (by omega)
        simp only [parseIntersection, Option.bind_eq_bind, Option.pure_def, hleading, hand, Bool.false_eq_true,
          if_false, hfirst', Option.bind_some, List.cons_append, startsWithMark_cons, hamp, Bool.false_or,
          if_true, Option.bind_eq_some_iff] at h'
        obtain ⟨last, -, h'⟩ := h'
        obtain ⟨rfl, rfl⟩ := Prod.mk.inj (Option.some.inj h')
        rfl
      · obtain ⟨rfl, rfl⟩ := Prod.mk.inj (Option.some.inj h)
        cases budget with
        | zero => cases hfirst
        | succ budget =>
          cases hoperated : operated (first.kept ++ middle) with
          | false => exact .inl (isPrimary_of_parsePrimary (parsePrimary_of_isLeaf hfirst hleaf hoperated) hleaf
              hoperated hrest)
          | true =>
            right
            intro rest' budget' type after hbudget h'
            obtain ⟨n, rfl⟩ : ∃ n, budget' = n + 2 := ⟨budget' - 2, by omega⟩
            simp only [parseIntersection, Option.bind_eq_bind, Option.pure_def, hleading, hand, Bool.false_eq_true,
              if_false, Bool.false_or, Option.bind_eq_some_iff] at h'
            obtain ⟨⟨other, last⟩, hother, after', -, h'⟩ := h'
            split at h'
            · obtain ⟨rfl, rfl⟩ := Prod.mk.inj (Option.some.inj h')
              rfl
            · obtain ⟨rfl, rfl⟩ := Prod.mk.inj (Option.some.inj h')
              exact (parseOperand_of_operated (operated_append hoperated hfirst rest') hother).1

end Leaves

end HookGen.Source
