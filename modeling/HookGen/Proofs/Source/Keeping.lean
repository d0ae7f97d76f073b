import HookGen.Proofs.Source.Spanning
import HookGen.Source.Declaration

/-!
What types keep of the tokens that they are read from. Whatever holds of all runs of tokens of a source holds of
the runs that a type keeps, and a type that is kept as its source has some tokens.
-/

namespace HookGen.Source

variable {P : List Token → Prop} {Q : Token → Prop} {run tokens start middle rest : List Token} {budget : Nat}
  {context : Context}

section Passing

-- All runs of tokens up to a tail have a property.
def Passes (P : List Token → Prop) (tokens rest : List Token) : Prop :=
  ∃ front, tokens = front ++ rest ∧ ∀ run, run <:+: front → P run

theorem Passes.consumed (h : Passes P tokens rest) : P (consumed tokens rest) := by
  obtain ⟨front, rfl, hfront⟩ := h
  rw [consumed_append_self]
  exact hfront front (List.infix_refl front)

-- So have those between two tails on the way.
theorem Passes.between (h : Passes P tokens rest) (hstart : start <:+ tokens) (hmiddle : middle <:+ start)
    (hrest : rest <:+ middle) : Passes P start middle := by
  obtain ⟨front, heq, hfront⟩ := h
  obtain ⟨first, rfl⟩ := hstart
  obtain ⟨second, rfl⟩ := hmiddle
  obtain ⟨third, rfl⟩ := hrest
  have hall : first ++ second ++ third = front := by
    refine (List.append_left_inj rest).mp ?_
    simpa using heq
  have hsecond : second <:+: front := ⟨first, third, hall⟩
  exact ⟨second, rfl, fun run hrun => hfront run (hrun.trans hsecond)⟩

theorem Passes.from (h : Passes P tokens rest) (hstart : start <:+ tokens) (hrest : rest <:+ start) :
    Passes P start rest := h.between hstart hrest List.suffix_rfl

theorem Passes.upTo (h : Passes P tokens rest) (hmiddle : middle <:+ tokens) (hrest : rest <:+ middle) :
    Passes P tokens middle := h.between List.suffix_rfl hmiddle hrest

theorem Passes.head {token : Token} (h : Passes P (token :: tokens) rest) (hrest : rest <:+ tokens) : P [token] := by
  obtain ⟨front, heq, hfront⟩ := h.upTo (List.suffix_cons token tokens) hrest
  cases front with
  | nil => simpa using congrArg List.length heq
  | cons first front =>
    obtain ⟨rfl, -⟩ := List.cons.inj heq
    exact hfront [token] ⟨[], front, rfl⟩

theorem consumed_ne_nil (h : rest.length < tokens.length) : consumed tokens rest ≠ [] := by
  refine List.ne_nil_of_length_pos ?_
  rw [consumed, List.length_take]
  omega

end Passing

section Kept

-- A source that is kept has tokens.
def KeepsSource (P : List Token → Prop) (source : List Token) : Prop := source ≠ [] ∧ P source

mutual

-- A type that keeps runs of tokens which have a property.
def TypeExpr.Keeps (P : List Token → Prop) : TypeExpr → Prop
  | .verbatim source => KeepsSource P source
  | .name token => P [token] ∧ token.kind = .word
  | .grouped inner => inner.Keeps P
  | .object entries => keepEntries P entries
  | .union members => keepTypes P members
  | .array element => element.Keeps P
  | .tuple elements => keepTypes P elements
  | .access target index indexSource source =>
    target.Keeps P ∧ index.Keeps P ∧ KeepsSource P indexSource ∧ KeepsSource P source ∧
      ∃ closing ∈ source.getLast?, closing.isMark "]"
  | .apply _ arguments => keepTypes P arguments

def keepTypes (P : List Token → Prop) : List TypeExpr → Prop
  | [] => True
  | type :: rest => type.Keeps P ∧ keepTypes P rest

def keepEntries (P : List Token → Prop) : List Entry → Prop
  | [] => True
  | .property _ _ _ (some type) :: rest => type.Keeps P ∧ keepEntries P rest
  | .property _ _ _ none :: rest => keepEntries P rest
  | .other source :: rest => KeepsSource P source ∧ keepEntries P rest

end

theorem keepEntries_cons_iff {entry : Entry} {entries : List Entry} :
    keepEntries P (entry :: entries) ↔ keepEntries P [entry] ∧ keepEntries P entries := by
  cases entry with
  | property name optional readonly type => cases type <;> simp [keepEntries]
  | other source => simp [keepEntries]

-- What the parsers read with a budget keeps a property that all runs of tokens up to the rest have.
structure Keeping (P : List Token → Prop) (budget : Nat) : Prop where
  type : ∀ {context tokens type rest}, parseType budget context tokens = some (type, rest) →
    Passes P tokens rest → type.Keeps P
  union : ∀ {context tokens type rest}, parseUnion budget context tokens = some (type, rest) →
    Passes P tokens rest → type.Keeps P
  alternatives : ∀ {context tokens types rest}, parseAlternatives budget context tokens = some (types, rest) →
    Passes P tokens rest → keepTypes P types
  intersection : ∀ {context tokens type rest}, parseIntersection budget context tokens = some (type, rest) →
    Passes P tokens rest → type.Keeps P
  operand : ∀ {context tokens type rest}, parseOperand budget context tokens = some (type, rest) →
    Passes P tokens rest → type.Keeps P
  indices : ∀ {context start type tokens result rest},
    parsePostfix budget context start type tokens = some (result, rest) → tokens <:+ start →
    Passes P start rest → type.Keeps P → result.Keeps P
  primary : ∀ {tokens type rest}, parsePrimary budget tokens = some (type, rest) →
    Passes P tokens rest → type.Keeps P
  arguments : ∀ {tokens types rest}, parseArguments budget tokens = some (types, rest) →
    Passes P tokens rest → keepTypes P types
  elements : ∀ {tokens types rest}, parseElements budget tokens = some (types, rest) →
    Passes P tokens rest → keepTypes P types
  element : ∀ {tokens type rest}, parseElement budget tokens = some (type, rest) →
    Passes P tokens rest → type.Keeps P
  entries : ∀ {tokens entries rest}, parseEntries budget tokens = some (entries, rest) →
    Passes P tokens rest → keepEntries P entries
  entry : ∀ {tokens entry rest}, parseEntry budget tokens = some (entry, rest) →
    Passes P tokens rest → keepEntries P [entry]

variable {type : TypeExpr} {types : List TypeExpr} {result : TypeExpr}

theorem exists_of_expectMark {mark : Text} (h : expectMark mark tokens = some rest) :
    ∃ token, tokens = token :: rest ∧ token.isMark mark := by
  cases tokens with
  | nil => cases h
  | cons token tokens =>
    rw [expectMark] at h
    split at h
    · rename_i hmark
      obtain rfl := Option.some.inj h
      exact ⟨token, rfl, hmark⟩
    · cases h

-- A type that is kept as what was read for it.
theorem keeps_verbatim (h : Passes P tokens rest) (hread : Takes tokens rest) :
    (TypeExpr.verbatim (consumed tokens rest)).Keeps P := ⟨consumed_ne_nil hread.shorter, h.consumed⟩

theorem keeps_type (ih : Keeping P budget) (h : parseType (budget + 1) context tokens = some (type, rest))
    (hpasses : Passes P tokens rest) : type.Keeps P := by
  have hread := (bracketed (budget + 1)).type h
  simp only [parseType, Option.bind_eq_bind, Option.bind_eq_some_iff, Option.pure_def] at h
  obtain ⟨⟨first, after⟩, hfirst, h⟩ := h
  split at h
  · simp only [Option.bind_eq_some_iff] at h
    obtain ⟨⟨_, _⟩, _, _, _, ⟨_, _⟩, _, _, _, ⟨_, _⟩, _, h⟩ := h
    cases h
    exact keeps_verbatim hpasses hread
  · cases h
    exact ih.union hfirst hpasses

theorem keeps_union (ih : Keeping P budget) (h : parseUnion (budget + 1) context tokens = some (type, rest))
    (hpasses : Passes P tokens rest) : type.Keeps P := by
  simp only [parseUnion, Option.bind_eq_bind, Option.bind_eq_some_iff, Option.pure_def] at h
  obtain ⟨⟨first, after⟩, hfirst, ⟨others, last⟩, hothers, h⟩ := h
  have hleading := (Spans.dropMark (by decide : Text.ofString "|" ∉ bracketMarks) tokens).suffix
  have hmember := ((bracketed budget).intersection hfirst).suffix
  have hmembers := ((bracketed budget).alternatives hothers).suffix
  split at h
  · cases h
    exact ⟨ih.intersection hfirst (hpasses.between hleading hmember hmembers),
      ih.alternatives hothers (hpasses.from (hmember.trans hleading) hmembers)⟩
  · cases h
    exact ih.intersection hfirst (hpasses.between hleading hmember hmembers)

theorem keeps_alternatives (ih : Keeping P budget)
    (h : parseAlternatives (budget + 1) context tokens = some (types, rest)) (hpasses : Passes P tokens rest) :
    keepTypes P types := by
  rw [parseAlternatives] at h
  split at h
  · simp only [Option.bind_eq_bind, Option.bind_eq_some_iff, Option.pure_def] at h
    obtain ⟨⟨first, after⟩, hfirst, ⟨others, last⟩, hothers, h⟩ := h
    cases h
    have hbar := List.drop_suffix 1 tokens
    have hmember := ((bracketed budget).intersection hfirst).suffix
    have hmembers := ((bracketed budget).alternatives hothers).suffix
    exact ⟨ih.intersection hfirst (hpasses.between hbar hmember hmembers),
      ih.alternatives hothers (hpasses.from (hmember.trans hbar) hmembers)⟩
  · cases h
    trivial

theorem keeps_intersection (ih : Keeping P budget)
    (h : parseIntersection (budget + 1) context tokens = some (type, rest)) (hpasses : Passes P tokens rest) :
    type.Keeps P := by
  have hread := (bracketed (budget + 1)).intersection h
  simp only [parseIntersection, Option.bind_eq_bind, Option.bind_eq_some_iff, Option.pure_def] at h
  obtain ⟨⟨first, after⟩, hfirst, last, hothers, h⟩ := h
  split at h
  · cases h
    exact keeps_verbatim hpasses hread
  · cases h
    have hleading := (Spans.dropMark (by decide : Text.ofString "&" ∉ bracketMarks) tokens).suffix
    exact ih.operand hfirst (hpasses.from hleading ((bracketed budget).operand hfirst).suffix)

theorem keeps_operand (ih : Keeping P budget) (h : parseOperand (budget + 1) context tokens = some (type, rest))
    (hpasses : Passes P tokens rest) : type.Keeps P := by
  have hread := (bracketed (budget + 1)).operand h
  rw [parseOperand] at h
  simp only [Option.bind_eq_bind, Option.pure_def] at h
  split at h
  · simp only [Option.bind_eq_some_iff] at h
    obtain ⟨_, _, _, _, _, _, h⟩ := h
    cases h
    exact keeps_verbatim hpasses hread
  split at h
  · obtain ⟨⟨_, last⟩, _, h⟩ := Option.bind_eq_some_iff.mp h
    cases h
    exact keeps_verbatim hpasses hread
  split at h
  · obtain ⟨⟨_, last⟩, _, h⟩ := Option.bind_eq_some_iff.mp h
    cases h
    exact keeps_verbatim hpasses hread
  split at h
  · simp only [Option.bind_eq_some_iff] at h
    obtain ⟨_, _, _, _, ⟨_, last⟩, _, h⟩ := h
    cases h
    exact keeps_verbatim hpasses hread
  split at h
  · split at h
    · obtain ⟨⟨_, last⟩, _, h⟩ := Option.bind_eq_some_iff.mp h
      cases h
      exact keeps_verbatim hpasses hread
    · cases h
      exact keeps_verbatim hpasses hread
  · obtain ⟨⟨first, after⟩, hfirst, h⟩ := Option.bind_eq_some_iff.mp h
    have hprimary := ((bracketed budget).primary hfirst).suffix
    have hindices := ((bracketed budget).indices h).suffix
    exact ih.indices h hprimary hpasses (ih.primary hfirst (hpasses.upTo hprimary hindices))

theorem keeps_indices (ih : Keeping P budget)
    (h : parsePostfix (budget + 1) context start type tokens = some (result, rest)) (hstart : tokens <:+ start)
    (hpasses : Passes P start rest) (htype : type.Keeps P) : result.Keeps P := by
  rw [parsePostfix] at h
  split at h
  · split at h
    · exact ih.indices h ((List.drop_suffix 2 tokens).trans hstart) hpasses htype
    · simp only [Option.bind_eq_bind, Option.bind_eq_some_iff] at h
      obtain ⟨⟨index, middle⟩, hindex, after, hclose, h⟩ := h
      obtain ⟨closing, rfl, hmark⟩ := exists_of_expectMark hclose
      have hread := (bracketed budget).type hindex
      have hinside := (List.drop_suffix 1 tokens).trans hstart
      have hlast := ((bracketed budget).indices h).suffix
      have hafter := List.suffix_cons closing after
      have hmiddle := hread.suffix.trans hinside
      have hindices := hpasses.between hinside hread.suffix (hlast.trans hafter)
      obtain ⟨front, rfl⟩ := hmiddle
      have hsource : consumed (front ++ closing :: after) after = front ++ [closing] := by
        rw [List.append_cons, consumed_append_self]
      refine ih.indices h (hafter.trans (List.suffix_append _ _)) hpasses ⟨htype, ih.type hindex hindices,
        ⟨consumed_ne_nil hread.shorter, hindices.consumed⟩, ⟨?_, ?_⟩, closing, ?_, hmark⟩
      · simp [hsource]
      · exact (hpasses.upTo (hafter.trans (List.suffix_append _ _)) hlast).consumed
      · simp [hsource]
  · cases h
    exact htype

theorem spanDots_append (tokens : List Token) : (spanDots tokens).1 ++ (spanDots tokens).2 = tokens := by
  fun_induction spanDots tokens with
  | case1 point word rest h dots after heq ih =>
    rw [heq] at ih
    simp [ih]
  | case2 point word rest h => rfl
  | case3 tokens h => rfl

theorem keeps_primary (ih : Keeping P budget) (h : parsePrimary (budget + 1) tokens = some (type, rest))
    (hpasses : Passes P tokens rest) : type.Keeps P := by
  have hread := (bracketed (budget + 1)).primary h
  cases tokens with
  | nil => simp [parsePrimary] at h
  | cons token tokens =>
    have hinside := List.suffix_cons token tokens
    -- a type of one token, and one of the token with one behind it
    have hone (hrest : rest = tokens) : (TypeExpr.verbatim [token]).Keeps P := by
      subst hrest
      exact ⟨by simp, hpasses.head List.suffix_rfl⟩
    have htwo (hrest : rest = tokens.drop 1) : (TypeExpr.verbatim (token :: tokens.take 1)).Keeps P := by
      subst hrest
      have hsource : consumed (token :: tokens) (tokens.drop 1) = token :: tokens.take 1 := by
        have hsplit : token :: tokens = (token :: tokens.take 1) ++ tokens.drop 1 := by
          rw [List.cons_append, List.take_append_drop]
        rw [hsplit, consumed_append_self]
      exact hsource ▸ keeps_verbatim hpasses hread
    rw [parsePrimary] at h
    simp only [Option.bind_eq_bind, Option.pure_def] at h
    split at h
    · cases h
    · cases h
    · cases h
      exact hone rfl
    · cases h
      exact hone rfl
    · cases h
      exact hone rfl
    · split at h
      · simp only [Option.bind_eq_some_iff] at h
        obtain ⟨⟨inner, middle⟩, hinner, after, hclose, h⟩ := h
        obtain ⟨closing, rfl, -⟩ := exists_of_expectMark hclose
        cases h
        have hkept := ih.type hinner
          (hpasses.between hinside ((bracketed budget).type hinner).suffix (List.suffix_cons closing rest))
        exact hkept
      split at h
      · obtain ⟨⟨elements, last⟩, helements, h⟩ := Option.bind_eq_some_iff.mp h
        cases h
        exact ih.elements helements (hpasses.from hinside ((bracketed budget).elements helements).suffix)
      split at h
      · obtain ⟨⟨entries, last⟩, hentries, h⟩ := Option.bind_eq_some_iff.mp h
        cases h
        exact ih.entries hentries (hpasses.from hinside ((bracketed budget).entries hentries).suffix)
      split at h
      · cases h
        exact htwo rfl
      · cases h
    · rename_i hkind
      split at h
      · cases h
        exact hone rfl
      split at h
      · cases h
        exact htwo rfl
      split at h
      · obtain ⟨after, _, h⟩ := Option.bind_eq_some_iff.mp h
        cases h
        exact keeps_verbatim hpasses hread
      split at h
      · simp only [Option.bind_eq_some_iff] at h
        obtain ⟨_, _, after, _, h⟩ := h
        cases h
        exact keeps_verbatim hpasses hread
      · split at h
        · obtain ⟨⟨arguments, last⟩, harguments, h⟩ := Option.bind_eq_some_iff.mp h
          cases h
          have hdots := (Spans.skipDots tokens).suffix
          exact ih.arguments harguments (hpasses.from (((List.drop_suffix 1 _).trans hdots).trans hinside)
            ((bracketed budget).arguments harguments).suffix)
        · split at h
          · cases h
            exact ⟨hpasses.head List.suffix_rfl, hkind⟩
          · have hsource : consumed (token :: tokens) (spanDots tokens).2 = token :: (spanDots tokens).1 := by
              have hsplit : token :: tokens = (token :: (spanDots tokens).1) ++ (spanDots tokens).2 := by
                rw [List.cons_append, spanDots_append]
              conv_lhs => rw [hsplit]
              exact consumed_append_self _ _
            cases h
            exact hsource ▸ keeps_verbatim hpasses hread

theorem keeps_arguments (ih : Keeping P budget) (h : parseArguments (budget + 1) tokens = some (types, rest))
    (hpasses : Passes P tokens rest) : keepTypes P types := by
  simp only [parseArguments, Option.bind_eq_bind, Option.bind_eq_some_iff, Option.pure_def] at h
  obtain ⟨⟨first, after⟩, hfirst, h⟩ := h
  have hread := ((bracketed budget).type hfirst).suffix
  split at h
  · cases h
    exact ⟨ih.type hfirst (hpasses.upTo hread (List.drop_suffix 1 after)), trivial⟩
  · simp only [Option.bind_eq_some_iff] at h
    obtain ⟨next, hcomma, h⟩ := h
    obtain ⟨comma, rfl, -⟩ := exists_of_expectMark hcomma
    have hnext := List.suffix_cons comma next
    split at h
    · cases h
      exact ⟨ih.type hfirst (hpasses.upTo hread ((List.drop_suffix 1 next).trans hnext)), trivial⟩
    · obtain ⟨⟨others, last⟩, hothers, h⟩ := Option.bind_eq_some_iff.mp h
      cases h
      have hrest := ((bracketed budget).arguments hothers).suffix
      exact ⟨ih.type hfirst (hpasses.upTo hread (hrest.trans hnext)),
        ih.arguments hothers (hpasses.from (hnext.trans hread) hrest)⟩

theorem keeps_elements (ih : Keeping P budget) (h : parseElements (budget + 1) tokens = some (types, rest))
    (hpasses : Passes P tokens rest) : keepTypes P types := by
  rw [parseElements] at h
  split at h
  · cases h
    trivial
  · simp only [Option.bind_eq_bind, Option.bind_eq_some_iff, Option.pure_def] at h
    obtain ⟨⟨first, after⟩, hfirst, h⟩ := h
    have hread := ((bracketed budget).element hfirst).suffix
    split at h
    · cases h
      exact ⟨ih.element hfirst (hpasses.upTo hread (List.drop_suffix 1 after)), trivial⟩
    · simp only [Option.bind_eq_some_iff] at h
      obtain ⟨next, hcomma, ⟨others, last⟩, hothers, h⟩ := h
      obtain ⟨comma, rfl, -⟩ := exists_of_expectMark hcomma
      cases h
      have hnext := List.suffix_cons comma next
      have hrest := ((bracketed budget).elements hothers).suffix
      exact ⟨ih.element hfirst (hpasses.upTo hread (hrest.trans hnext)),
        ih.elements hothers (hpasses.from (hnext.trans hread) hrest)⟩

theorem keeps_element (ih : Keeping P budget) (h : parseElement (budget + 1) tokens = some (type, rest))
    (hpasses : Passes P tokens rest) : type.Keeps P := by
  have hread := (bracketed (budget + 1)).element h
  rw [parseElement] at h
  simp only [Option.bind_eq_bind, Option.pure_def] at h
  split at h
  · obtain ⟨⟨_, last⟩, _, h⟩ := Option.bind_eq_some_iff.mp h
    cases h
    exact keeps_verbatim hpasses hread
  · obtain ⟨⟨first, after⟩, hfirst, h⟩ := Option.bind_eq_some_iff.mp h
    split at h
    · cases h
      exact keeps_verbatim hpasses hread
    split at h
    · cases h
      exact keeps_verbatim hpasses hread
    · rename_i hspread
      cases h
      rw [if_neg hspread] at hfirst
      exact ih.type hfirst hpasses

theorem keeps_entries {entries : List Entry} (ih : Keeping P budget)
    (h : parseEntries (budget + 1) tokens = some (entries, rest)) (hpasses : Passes P tokens rest) :
    keepEntries P entries := by
  rw [parseEntries] at h
  split at h
  · cases h
    trivial
  split at h
  · exact ih.entries h (hpasses.from (List.drop_suffix 1 tokens) ((bracketed budget).entries h).suffix)
  · simp only [Option.bind_eq_bind, Option.bind_eq_some_iff, Option.pure_def] at h
    obtain ⟨⟨first, after⟩, hfirst, h⟩ := h
    split at h
    · obtain ⟨⟨others, last⟩, hothers, h⟩ := Option.bind_eq_some_iff.mp h
      cases h
      have hread := ((bracketed budget).entry hfirst).suffix
      have hrest := ((bracketed budget).entries hothers).suffix
      exact keepEntries_cons_iff.mpr
        ⟨ih.entry hfirst (hpasses.upTo hread hrest), ih.entries hothers (hpasses.from hread hrest)⟩
    · cases h

theorem keeps_entry {entry : Entry} (ih : Keeping P budget) (h : parseEntry (budget + 1) tokens = some (entry, rest))
    (hpasses : Passes P tokens rest) : keepEntries P [entry] := by
  have hother : keepEntries P [.other (consumed tokens rest)] :=
    ⟨⟨consumed_ne_nil ((bracketed (budget + 1)).entry h).shorter, hpasses.consumed⟩, trivial⟩
  simp only [parseEntry, Option.bind_eq_bind, Option.pure_def] at h
  have hsigned := (Spans.dropSign tokens).suffix
  generalize (if startsWithMark "+" tokens || startsWithMark "-" tokens then tokens.drop 1 else tokens) = unsigned
    at h hsigned
  have hnamed := (Spans.dropModifiers false unsigned).suffix.trans hsigned
  generalize dropModifiers false unsigned = modified at h hnamed
  split at h
  · simp only [Option.bind_eq_some_iff] at h
    obtain ⟨_, _, last, _, h⟩ := h
    cases h
    exact hother
  split at h
  · simp only [Option.bind_eq_some_iff] at h
    obtain ⟨_, _, last, _, h⟩ := h
    cases h
    exact hother
  split at h
  · simp only [Option.bind_eq_some_iff] at h
    obtain ⟨_, _, last, _, h⟩ := h
    cases h
    exact hother
  · obtain ⟨⟨name, afterName⟩, hname, h⟩ := Option.bind_eq_some_iff.mp h
    have hread := ((Takes.readName hname).suffix.trans (Spans.dropAccessors false _).suffix).trans hnamed
    have hoptional := (Spans.dropMark (by decide : Text.ofString "?" ∉ bracketMarks) afterName).suffix.trans hread
    dsimp only at h
    generalize (if startsWithMark "?" afterName then afterName.drop 1 else afterName) = behind at h hoptional
    split at h
    · simp only [Option.bind_eq_some_iff] at h
      obtain ⟨_, _, last, _, h⟩ := h
      cases h
      exact hother
    split at h
    · cases h
    split at h
    · obtain ⟨⟨type, last⟩, htype, h⟩ := Option.bind_eq_some_iff.mp h
      cases h
      have htoken := (List.drop_suffix 1 behind).trans hoptional
      exact ⟨ih.type htype (hpasses.from htoken ((bracketed budget).type htype).suffix), trivial⟩
    · cases h
      trivial

theorem keeping (P : List Token → Prop) (budget : Nat) : Keeping P budget := by
  induction budget with
  | zero => constructor <;> intros <;> simp_all [parseType, parseUnion, parseAlternatives, parseIntersection,
      parseOperand, parsePostfix, parsePrimary, parseArguments, parseElements, parseElement, parseEntries, parseEntry]
  | succ budget ih => exact ⟨keeps_type ih, keeps_union ih, keeps_alternatives ih, keeps_intersection ih,
      keeps_operand ih, keeps_indices ih, keeps_primary ih, keeps_arguments ih, keeps_elements ih, keeps_element ih,
      keeps_entries ih, keeps_entry ih⟩

end Kept

section Statements

theorem skipExpression_suffix {progress : Progress} (h : skipExpression progress budget tokens = some rest) :
    rest <:+ tokens := by
  induction budget generalizing progress tokens with
  | zero => simp [skipExpression] at h
  | succ budget ih =>
    cases tokens with
    | nil => simp [skipExpression] at h
    | cons token tokens =>
      have hinside := List.suffix_cons token tokens
      rw [skipExpression] at h
      split at h
      · cases h
        exact hinside
      split at h
      · cases h
        exact List.suffix_rfl
      split at h
      · cases h
      split at h
      · cases h
      split at h
      · obtain ⟨after, hgroup, h⟩ := Option.bind_eq_some_iff.mp h
        exact (ih h).trans ((skipOpen_suffix hgroup).trans hinside)
      · exact (ih h).trans hinside

theorem skipClass_suffix (h : skipClass budget tokens = some rest) : rest <:+ tokens := by
  induction budget generalizing tokens with
  | zero => simp [skipClass] at h
  | succ budget ih =>
    cases tokens with
    | nil => simp [skipClass] at h
    | cons token tokens =>
      have hgroup {angles : Bool} (h : (skipGroup angles (token :: tokens)).bind (skipClass budget) = some rest) :
          rest <:+ token :: tokens := by
        obtain ⟨after, hgroup, h⟩ := Option.bind_eq_some_iff.mp h
        exact (ih h).trans (skipGroup_suffix hgroup)
      rw [skipClass] at h
      split at h
      · exact skipGroup_suffix h
      split at h
      · exact hgroup h
      split at h
      · exact hgroup h
      split at h
      · cases h
      · exact (ih h).trans (List.suffix_cons token tokens)

theorem skipToGroup_suffix {mark : Text} (h : skipToGroup mark tokens = some rest) : rest <:+ tokens := by
  induction tokens with
  | nil => simp [skipToGroup] at h
  | cons token tokens ih =>
    rw [skipToGroup] at h
    split at h
    · exact skipGroup_suffix h
    split at h
    · cases h
    · exact (ih h).trans (List.suffix_cons token tokens)

theorem drop_suffix_of_if (p : Prop) [Decidable p] (n : Nat) (tokens : List Token) :
    (if p then tokens.drop n else tokens) <:+ tokens := by
  split
  · exact List.drop_suffix n tokens
  · exact List.suffix_rfl

theorem skipFunction_suffix (h : skipFunction tokens = some rest) : rest <:+ tokens := by
  simp only [skipFunction, Option.bind_eq_bind] at h
  obtain ⟨after, hparameters, h⟩ := Option.bind_eq_some_iff.mp h
  have hafter := ((skipParameters_suffix hparameters).trans (drop_suffix_of_if _ 1 _)).trans
    (drop_suffix_of_if (startsWithMark "*" tokens = true) 1 tokens)
  -- a body or the end of the statement
  have hend {middle : List Token} (h : (if startsWithMark "\x7b" middle then skipGroup false middle
      else if startsWithMark ";" middle then some (middle.drop 1)
      else if breaksLine middle || startsWithKind .finish middle || startsWithMark "\x7d" middle then some middle
      else none) = some rest) : rest <:+ middle := by
    split at h
    · exact skipGroup_suffix h
    split at h
    · cases h
      exact List.drop_suffix 1 middle
    split at h
    · cases h
      exact List.suffix_rfl
    · cases h
  split at h
  · obtain ⟨middle, hresult, h⟩ := Option.bind_eq_some_iff.mp h
    exact ((hend h).trans ((bracketed _).result hresult).suffix).trans ((List.drop_suffix 1 after).trans hafter)
  · exact (hend h).trans hafter

theorem parseAliasValue_suffix {type : TypeExpr} (h : parseAliasValue tokens = some (type, rest)) :
    rest <:+ tokens := by
  simp only [parseAliasValue, Option.bind_eq_bind, Option.bind_eq_some_iff] at h
  obtain ⟨after, hangles, middle, hequals, h⟩ := h
  obtain ⟨equals, rfl, -⟩ := exists_of_expectMark hequals
  exact ((bracketed _).type h).suffix.trans ((List.suffix_cons equals middle).trans (Spans.skipAngles hangles).suffix)

theorem skipAlias_suffix (h : skipAlias tokens = some rest) : rest <:+ tokens := by
  simp only [skipAlias, Option.bind_eq_bind, Option.bind_eq_some_iff] at h
  obtain ⟨⟨type, after⟩, hvalue, h⟩ := h
  have hread := parseAliasValue_suffix hvalue
  split at h
  · cases h
    exact (List.drop_suffix 1 after).trans hread
  split at h
  · cases h
    exact hread
  · cases h

theorem skipClauses_suffix (h : skipStatement.skipClauses budget tokens = some rest) : rest <:+ tokens := by
  induction budget generalizing tokens with
  | zero => simp [skipStatement.skipClauses] at h
  | succ budget ih =>
    cases tokens with
    | nil => simp [skipStatement.skipClauses] at h
    | cons token tokens =>
      have hinside := List.suffix_cons token tokens
      simp only [skipStatement.skipClauses, Option.bind_eq_bind, Option.pure_def] at h
      have hbody {after : List Token}
          (h : ((skipGroup false after).bind fun rest => skipStatement.skipClauses budget rest) = some rest) :
          rest <:+ after := by
        obtain ⟨behind, hgroup, h⟩ := Option.bind_eq_some_iff.mp h
        exact (ih h).trans (skipGroup_suffix hgroup)
      split at h
      · split at h
        · obtain ⟨after, hgroup, h⟩ := Option.bind_eq_some_iff.mp h
          exact (hbody h).trans ((skipGroup_suffix hgroup).trans hinside)
        · exact (hbody h).trans hinside
      split at h
      · exact (skipGroup_suffix h).trans hinside
      split at h
      · obtain ⟨after, hgroup, h⟩ := Option.bind_eq_some_iff.mp h
        cases h
        exact (drop_suffix_of_if _ 1 _).trans ((skipGroup_suffix hgroup).trans hinside)
      · cases h
        exact List.suffix_rfl

-- The branches of a conditional, where `split` would look into all that follow.
theorem of_ite_eq_some {p P : Prop} [Decidable p] {x y : Option (List Token)} (h : (if p then x else y) = some rest)
    (hx : x = some rest → P) (hy : y = some rest → P) : P := by
  by_cases hp : p
  · exact hx ((if_pos hp).symm.trans h)
  · exact hy ((if_neg hp).symm.trans h)

theorem skipPlain_suffix {token : Token} (h : skipStatement.skipPlain token tokens = some rest) :
    rest <:+ token :: tokens := by
  rw [skipStatement.skipPlain] at h
  split at h
  · exact skipExpression_suffix h
  · cases h

theorem skipStatement_suffix (h : skipStatement budget tokens = some rest) : rest <:+ tokens := by
  induction budget generalizing tokens rest with
  | zero => simp [skipStatement] at h
  | succ budget ih =>
    cases tokens with
    | nil => simp [skipStatement] at h
    | cons token tokens =>
      have hinside := List.suffix_cons token tokens
      have hdropped (n : Nat) := (List.drop_suffix n tokens).trans hinside
      rw [skipStatement] at h
      refine of_ite_eq_some h (fun h => Option.some.inj h ▸ hinside) fun h => ?_
      refine of_ite_eq_some h skipGroup_suffix fun h => ?_
      refine of_ite_eq_some h (fun h => ?_) fun h => ?_
      · obtain ⟨after, hname, h⟩ := Option.bind_eq_some_iff.mp h
        have hdots := (Spans.skipDots (tokens.drop 1)).suffix.trans (hdropped 1)
        refine (ih h).trans (of_ite_eq_some hname (fun h => (skipGroup_suffix h).trans hdots) fun h => ?_)
        exact Option.some.inj h ▸ hdots
      refine of_ite_eq_some h (fun h => (skipFunction_suffix h).trans hinside) fun h => ?_
      refine of_ite_eq_some h (fun h => (skipFunction_suffix h).trans (hdropped 1)) fun h => ?_
      refine of_ite_eq_some h (fun h => (skipClass_suffix h).trans hinside) fun h => ?_
      refine of_ite_eq_some h (fun h => (skipClass_suffix h).trans hinside) fun h => ?_
      refine of_ite_eq_some h (fun h => (skipClass_suffix h).trans hinside) fun h => ?_
      refine of_ite_eq_some h (fun h => (skipAlias_suffix h).trans (hdropped 1)) fun h => ?_
      refine of_ite_eq_some h (fun h => (skipToGroup_suffix h).trans hinside) fun h => ?_
      refine of_ite_eq_some h (fun h => of_ite_eq_some h (fun h => (skipExpression_suffix h).trans hinside)
        fun h => (skipToGroup_suffix h).trans hinside) fun h => ?_
      refine of_ite_eq_some h (fun h => (ih h).trans hinside) fun h => ?_
      refine of_ite_eq_some h (fun h => ?_) fun h => ?_
      · obtain ⟨group, hgroup, h⟩ := Option.bind_eq_some_iff.mp h
        obtain ⟨after, hbody, h⟩ := Option.bind_eq_some_iff.mp h
        have hafter := ((ih hbody).trans (skipGroup_suffix hgroup)).trans ((drop_suffix_of_if _ 1 _).trans hinside)
        refine of_ite_eq_some h (fun h => (ih h).trans ((List.drop_suffix 1 after).trans hafter)) fun h => ?_
        exact Option.some.inj h ▸ hafter
      refine of_ite_eq_some h (fun h => ?_) skipPlain_suffix
      obtain ⟨after, hbody, h⟩ := Option.bind_eq_some_iff.mp h
      exact (skipClauses_suffix h).trans ((ih hbody).trans hinside)

theorem skipExported_suffix (h : skipExported tokens = some rest) : rest <:+ tokens := by
  cases tokens with
  | nil => cases h
  | cons token tokens =>
    have hinside := List.suffix_cons token tokens
    rw [skipExported] at h
    refine of_ite_eq_some h (fun h => (skipStatement_suffix h).trans hinside) fun h => ?_
    refine of_ite_eq_some h skipStatement_suffix fun h => ?_
    refine of_ite_eq_some h skipExpression_suffix fun h => ?_
    refine of_ite_eq_some h skipExpression_suffix fun h => ?_
    exact of_ite_eq_some h (fun h => (skipExpression_suffix h).trans hinside) nofun

end Statements

section Declarations

variable {isExported : Bool} {declaration : Declaration} {declarations : List Declaration}

-- A declaration is read up to a tail, and its value keeps what holds of all runs up to there.
def ReadsKeeping (P : List Token → Prop) (tokens rest : List Token) (declaration : Declaration) : Prop :=
  rest <:+ tokens ∧ (Passes P tokens rest → declaration.value.Keeps P)

theorem ReadsKeeping.of_suffix (h : ReadsKeeping P start rest declaration) (hstart : start <:+ tokens) :
    ReadsKeeping P tokens rest declaration :=
  ⟨h.1.trans hstart, fun hpasses => h.2 (hpasses.from hstart h.1)⟩

theorem readsKeeping_parseAlias (h : parseAlias isExported start tokens = some (declaration, rest)) :
    ReadsKeeping P tokens rest declaration := by
  cases tokens with
  | nil => cases h
  | cons name tokens =>
    simp only [parseAlias, Option.bind_eq_bind, Option.pure_def] at h
    obtain ⟨⟨value, after⟩, hvalue, h⟩ := Option.bind_eq_some_iff.mp h
    have hread := parseAliasValue_suffix hvalue
    simp only [parseAliasValue, Option.bind_eq_bind, Option.bind_eq_some_iff] at hvalue
    obtain ⟨middle, hangles, begin, hequals, hvalue⟩ := hvalue
    obtain ⟨equals, rfl, -⟩ := exists_of_expectMark hequals
    have hbegin := ((List.suffix_cons equals begin).trans (Spans.skipAngles hangles).suffix).trans
      (List.suffix_cons name tokens)
    have hkeeps {last : List Token} (hlast : last <:+ after) : last <:+ name :: tokens ∧
        (Passes P (name :: tokens) last → value.Keeps P) :=
      ⟨(hlast.trans hread).trans (List.suffix_cons name tokens), fun hpasses =>
        (keeping P _).type hvalue (hpasses.between hbegin ((bracketed _).type hvalue).suffix hlast)⟩
    cases after with
    | nil => cases h
    | cons next others =>
      dsimp only at h
      split at h
      · cases h
        exact hkeeps (List.suffix_cons next rest)
      split at h
      · cases h
        exact hkeeps List.suffix_rfl
      · cases h

theorem skipHead_suffix (h : parseInterface.skipHead budget tokens = some rest) : rest <:+ tokens := by
  induction budget generalizing tokens with
  | zero => simp [parseInterface.skipHead] at h
  | succ budget ih =>
    cases tokens with
    | nil => simp [parseInterface.skipHead] at h
    | cons token tokens =>
      rw [parseInterface.skipHead] at h
      split at h
      · cases h
        exact List.suffix_rfl
      split at h
      · obtain ⟨after, hgroup, h⟩ := Option.bind_eq_some_iff.mp h
        exact (ih h).trans (skipGroup_suffix hgroup)
      split at h
      · cases h
      · exact (ih h).trans (List.suffix_cons token tokens)

theorem readsKeeping_parseInterface (h : parseInterface isExported start tokens = some (declaration, rest)) :
    ReadsKeeping P tokens rest declaration := by
  cases tokens with
  | nil => cases h
  | cons name tokens =>
    simp only [parseInterface, Option.bind_eq_bind, Option.bind_eq_some_iff, Option.pure_def] at h
    obtain ⟨body, hhead, begin, hbrace, ⟨entries, after⟩, hentries, h⟩ := h
    obtain ⟨brace, rfl, -⟩ := exists_of_expectMark hbrace
    cases h
    have hbegin := ((List.suffix_cons brace begin).trans (skipHead_suffix hhead)).trans (List.suffix_cons name tokens)
    have hread := ((bracketed _).entries hentries).suffix
    exact ⟨hread.trans hbegin, fun hpasses => (keeping P _).entries hentries (hpasses.from hbegin hread)⟩

-- A statement, with what it declares.
theorem readsKeeping_parseStatement {declared : Option Declaration}
    (h : parseStatement tokens = some (declared, rest)) :
    rest <:+ tokens ∧ ∀ declaration ∈ declared, ReadsKeeping P tokens rest declaration := by
  have hfound {read : Option (Declaration × List Token)} {n : Nat}
      (hread : ∀ declaration rest, read = some (declaration, rest) → ReadsKeeping P (tokens.drop n) rest declaration)
      (h : (read.map fun found => (some found.1, found.2)) = some (declared, rest)) :
      rest <:+ tokens ∧ ∀ declaration ∈ declared, ReadsKeeping P tokens rest declaration := by
    obtain ⟨⟨declaration, last⟩, hsome, h⟩ := Option.map_eq_some_iff.mp h
    obtain ⟨rfl, rfl⟩ := Prod.mk.inj h
    have hkeeps := (hread declaration last hsome).of_suffix (List.drop_suffix n tokens)
    exact ⟨hkeeps.1, fun _ hmem => Option.some.inj hmem ▸ hkeeps⟩
  have hskipped {after : Option (List Token)} (hread : ∀ rest, after = some rest → rest <:+ tokens)
      (h : (after.map fun rest => ((none : Option Declaration), rest)) = some (declared, rest)) :
      rest <:+ tokens ∧ ∀ declaration ∈ declared, ReadsKeeping P tokens rest declaration := by
    obtain ⟨last, hsome, h⟩ := Option.map_eq_some_iff.mp h
    cases h
    exact ⟨hread rest hsome, by simp⟩
  simp only [parseStatement, List.drop_drop] at h
  split at h
  · exact hfound (fun _ _ => readsKeeping_parseAlias) h
  split at h
  · exact hfound (fun _ _ => readsKeeping_parseInterface) h
  split at h
  · split at h
    · exact hfound (fun _ _ => readsKeeping_parseAlias) h
    split at h
    · exact hfound (fun _ _ => readsKeeping_parseInterface) h
    split at h
    · exact hfound (fun _ _ => readsKeeping_parseAlias) h
    split at h
    · exact hfound (fun _ _ => readsKeeping_parseInterface) h
    · exact hskipped (fun _ hskip => (skipExported_suffix hskip).trans (List.drop_suffix 1 tokens)) h
  · exact hskipped (fun _ => skipStatement_suffix) h

-- Only the finish ends a source.
theorem parseStatements_nil (budget : Nat) : parseStatements budget [] = none := by
  cases budget with
  | zero => rfl
  | succ budget =>
    have hskipped : parseStatement [] = none := rfl
    rw [parseStatements, hskipped]
    rfl

theorem keeps_parseStatements (h : parseStatements budget tokens = some declarations)
    (hP : ∀ run, run <:+: tokens.dropLast → P run) : ∀ declaration ∈ declarations, declaration.value.Keeps P := by
  induction budget generalizing tokens declarations with
  | zero => simp [parseStatements] at h
  | succ budget ih =>
    rw [parseStatements] at h
    split at h
    · cases h
      nofun
    · simp only [Option.bind_eq_bind, Option.bind_eq_some_iff, Option.pure_def] at h
      obtain ⟨⟨declared, rest⟩, hstatement, others, hothers, h⟩ := h
      cases h
      obtain ⟨⟨front, rfl⟩, hdeclared⟩ := readsKeeping_parseStatement (P := P) hstatement
      have hne : rest ≠ [] := by
        rintro rfl
        simp [parseStatements_nil] at hothers
      rw [List.dropLast_append_of_ne_nil hne] at hP
      have hfront {run : List Token} (hrun : run <:+: front) : P run :=
        hP run (hrun.trans (List.prefix_append front _).isInfix)
      have hrest {run : List Token} (hrun : run <:+: rest.dropLast) : P run :=
        hP run (hrun.trans (List.suffix_append front _).isInfix)
      intro declaration hmem
      obtain hmem | hmem := List.mem_append.mp hmem
      · exact (hdeclared declaration (by simpa using hmem)).2 ⟨front, rfl, fun _ => hfront⟩
      · exact ih hothers (fun _ => hrest) declaration hmem

-- A name that is declared again only takes another value.
theorem mem_putDeclaration {known : List Declaration} {other : Declaration}
    (h : declaration ∈ putDeclaration other known) : declaration = other ∨ declaration ∈ known := by
  induction known with
  | nil => exact .inl (List.mem_singleton.mp h)
  | cons first known ih =>
    rw [putDeclaration] at h
    split at h
    · exact (List.mem_cons.mp h).imp_right (List.mem_cons_of_mem first)
    · obtain rfl | h := List.mem_cons.mp h
      · exact .inr (List.mem_cons_self ..)
      · exact (ih h).imp_right (List.mem_cons_of_mem first)

theorem mem_of_mem_foldl {known : List Declaration}
    (h : declaration ∈ declarations.foldl (fun known declaration => putDeclaration declaration known) known) :
    declaration ∈ known ∨ declaration ∈ declarations := by
  induction declarations generalizing known with
  | nil => exact .inl h
  | cons first declarations ih =>
    obtain h | h := ih h
    · obtain rfl | h := mem_putDeclaration h
      · exact .inr (List.mem_cons_self ..)
      · exact .inl h
    · exact .inr (List.mem_cons_of_mem first h)

-- A declaration takes the place of one by its name, or comes last.
theorem map_name_putDeclaration (declaration : Declaration) (known : List Declaration) :
    (putDeclaration declaration known).map (·.name) =
      if declaration.name ∈ known.map (·.name) then known.map (·.name)
      else known.map (·.name) ++ [declaration.name] := by
  induction known with
  | nil => rfl
  | cons other rest ih =>
    rw [putDeclaration]
    split
    · rename_i heq
      simp [heq]
    · rename_i hne
      rw [List.map_cons, ih]
      simp only [List.map_cons, List.mem_cons, @eq_comm _ declaration.name, hne, false_or]
      split <;> rfl

-- No declared name is lost.
theorem mem_name_foldl {name : Text} (known : List Declaration)
    (h : name ∈ known.map (·.name) ∨ name ∈ declarations.map (·.name)) :
    name ∈ (declarations.foldl (fun known declaration => putDeclaration declaration known) known).map (·.name) := by
  induction declarations generalizing known with
  | nil => exact h.resolve_right List.not_mem_nil
  | cons first declarations ih =>
    have hput : name ∈ known.map (·.name) ∨ name = first.name →
        name ∈ (putDeclaration first known).map (·.name) := by
      rw [map_name_putDeclaration]
      split
      · rename_i hknown
        rintro (h | rfl)
        · exact h
        · exact hknown
      · simp
    rw [List.map_cons, List.mem_cons, ← or_assoc] at h
    exact ih _ (h.imp_left hput)

-- Whatever holds of all runs of tokens of a source but the finish, the declared types keep.
theorem keepsRuns_parseDeclarations {source : Text} (h : parseDeclarations source = some declarations)
    (hP : ∀ run, run <:+: (Source.tokens source).dropLast → P run) :
    ∀ declaration ∈ declarations, declaration.value.Keeps P := by
  obtain ⟨declared, hdeclared, rfl⟩ := Option.map_eq_some_iff.mp h
  intro declaration hmem
  exact keeps_parseStatements hdeclared hP declaration ((mem_of_mem_foldl hmem).resolve_left (List.not_mem_nil))

theorem keeps_parseDeclarations {source : Text} (h : parseDeclarations source = some declarations)
    (hQ : ∀ token ∈ (Source.tokens source).dropLast, Q token) :
    ∀ declaration ∈ declarations, declaration.value.Keeps fun run => ∀ token ∈ run, Q token :=
  keepsRuns_parseDeclarations h fun _ hrun token hmem => hQ token (hrun.subset hmem)

end Declarations

end HookGen.Source
