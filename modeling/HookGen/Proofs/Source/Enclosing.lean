import HookGen.Proofs.Path
import HookGen.Proofs.Source.Alias
import HookGen.Proofs.Source.Binding
import HookGen.Proofs.Source.Restating

/-!
Types that a source has in parentheses, and their text without the parentheses: it is read as the same tokens in
front of what stands behind the types that are rendered.
-/

namespace HookGen.Source

variable {operand next : Bool} {t u u' : Text} {lead : List Trivia} {ts us run : List Token} {type : TypeExpr}

section Leads

theorem length_withLead (lead : List Trivia) (ts : List Token) : (withLead lead ts).length = ts.length := by
  cases ts <;> rfl

theorem withLead_append (hts : ts ≠ []) (us : List Token) : withLead lead (ts ++ us) = withLead lead ts ++ us := by
  cases ts with
  | nil => exact absurd rfl hts
  | cons => rfl

@[simp] theorem sourceText_withLead (lead : List Trivia) (ts : List Token) :
    sourceText (withLead lead ts) = sourceText ts := by
  cases ts <;> rfl

theorem fullText_withLead (lead : List Trivia) (hts : ts ≠ []) :
    fullText (withLead lead ts) = lead.flatMap Trivia.text ++ sourceText ts := by
  obtain ⟨token, ts, rfl⟩ := List.exists_cons_of_ne_nil hts
  simp [withLead, fullText, sourceText, Token.leadText]

theorem operated_withLead (lead : List Trivia) (ts : List Token) : operated (withLead lead ts) = operated ts := by
  simp [operated, startsFunction_withLead, -List.drop_one]

namespace TypeExpr.IsLeaf

theorem withLead (h : type.IsLeaf) (lead : List Trivia) : (type.withLead lead).IsLeaf := by
  obtain heq | ⟨token, rfl⟩ := h
  · exact .inl (by rw [heq]; rfl)
  · exact .inr ⟨_, rfl⟩

theorem kept_withLead (h : type.IsLeaf) (lead : List Trivia) :
    (type.withLead lead).kept = Source.withLead lead type.kept := by
  obtain heq | ⟨token, rfl⟩ := h
  · rw [heq]
    rfl
  · rfl

-- What stood in front of it can be put back.
theorem exists_own (h : type.IsLeaf) (lead : List Trivia) : ∃ own, (type.withLead lead).withLead own = type := by
  obtain heq | ⟨⟨own, kind, text⟩, rfl⟩ := h
  · rw [heq]
    cases type.kept with
    | nil => exact ⟨[], rfl⟩
    | cons first others => exact ⟨first.lead, rfl⟩
  · exact ⟨own, rfl⟩

theorem isPrimary_withLead (h : type.IsLeaf) (lead : List Trivia) :
    (type.withLead lead).IsPrimary ↔ type.IsPrimary := by
  have hwith {leaf : TypeExpr} (hleaf : leaf.IsLeaf) (hprimary : leaf.IsPrimary) (lead : List Trivia) :
      (leaf.withLead lead).IsPrimary := by
    constructor
    · rw [hleaf.kept_withLead, operated_withLead, hprimary.operatorless]
    · rw [hleaf.kept_withLead, length_withLead, parsePrimary_withLead, hprimary.complete]
      rfl
  refine ⟨fun hprimary => ?_, fun hprimary => hwith h hprimary lead⟩
  obtain ⟨own, hown⟩ := h.exists_own lead
  exact hown ▸ hwith (h.withLead lead) hprimary own

theorem bindsBefore_withLead (h : type.IsLeaf) (hkept : type.kept ≠ []) (lead : List Trivia) (token : Token) :
    (type.withLead lead).BindsBefore token ↔ type.BindsBefore token := by
  have hwith {leaf : TypeExpr} (hleaf : leaf.IsLeaf) (hne : leaf.kept ≠ []) (hbinds : leaf.BindsBefore token)
      (lead : List Trivia) : (leaf.withLead lead).BindsBefore token := by
    rw [BindsBefore] at hbinds ⊢
    rw [hleaf.kept_withLead, length_withLead, ← withLead_append hne, parseIntersection_withLead, hbinds]
    rfl
  refine ⟨fun hbinds => ?_, fun hbinds => hwith h hkept hbinds lead⟩
  obtain ⟨own, hown⟩ := h.exists_own lead
  have hne : (type.withLead lead).kept ≠ [] := by
    rw [h.kept_withLead]
    intro hnil
    exact hkept (List.length_eq_zero_iff.mp (by rw [← length_withLead lead, hnil, List.length_nil]))
  exact hown ▸ hwith (h.withLead lead) hne hbinds own

end TypeExpr.IsLeaf

end Leads

section Lines

theorem unbroken_of_fullText (h : .char '\n' ∉ fullText ts) : Unbroken ts := by
  intro token hmem
  obtain ⟨front, back, rfl⟩ := List.append_of_mem hmem
  have hlead : .char '\n' ∉ token.leadText := fun hbreak => h (by simp [fullText_append, fullText_cons, hbreak])
  refine List.any_eq_false.mpr fun trivia htrivia hbreaks => hlead (List.mem_flatMap.mpr ⟨trivia, htrivia, ?_⟩)
  cases trivia with
  | blank text => simpa [Trivia.breaksLine, Trivia.text] using hbreaks
  | comment text => cases hbreaks

theorem sourceText_suffix (ts : List Token) : sourceText ts <:+ fullText ts := by
  cases ts with
  | nil => exact List.suffix_rfl
  | cons token ts => exact ⟨token.leadText, by simp [sourceText, fullText]⟩

-- What is read from one line has no line breaks in what it keeps.
theorem passes_of_line (hline : .char '\n' ∉ fullText ts) (hrest : rest <:+ ts) :
    Passes (fun run => .char '\n' ∉ sourceText run) ts rest := by
  obtain ⟨front, rfl⟩ := hrest
  refine ⟨front, rfl, fun run hrun hmem => hline ?_⟩
  obtain ⟨before, after, rfl⟩ := hrun
  simp only [fullText_append, List.mem_append]
  exact .inl (.inl (.inr ((sourceText_suffix run).subset hmem)))

theorem line_brackets (depth : Nat) : .char '\n' ∉ fullText (brackets depth) := by
  induction depth with
  | zero => exact List.not_mem_nil
  | succ depth ih =>
    rw [fullText_brackets_succ, List.mem_append, not_or]
    exact ⟨by decide, ih⟩

end Lines

section Cutting

theorem Ends.alike (h : Ends u') (n : Nat) (u : Text) : Alike n u u' := by
  cases n with
  | zero => trivial
  | succ n => exact .inl h

-- In front of a delimiter the last token of a run stays what it is, unless it is a regular expression.
theorem Reads.replace_end (h : Reads operand t run next u) (hu : u ≠ []) (hends : Ends u')
    (hlast : ∀ token ∈ run.getLast?, token.kind ≠ .regex) : Reads operand (fullText run ++ u') run next u' := by
  induction h with
  | done => exact .done _ _
  | @token operand next c t v u w kind lead run hlead hlexeme hrest ih =>
    have hlast' : ∀ token ∈ run.getLast?, token.kind ≠ .regex := fun token hmem => hlast token (by
      rw [List.getLast?_cons, Option.mem_def.mp hmem]
      rfl)
    have hreads := ih hu hlast'
    have halike (n : Nat) : Alike n v (fullText run ++ u') := hrest.text ▸ (hends.alike n u).append _
    have hlexeme' : lexeme (!operand) c (w ++ (fullText run ++ u')) = (.token kind, w.length) := by
      cases run with
      | nil =>
        have hregex : kind ≠ .regex := hlast _ rfl
        have hv : v = u := hrest.text
        exact stable_lexeme (not_isSpace_of_lexeme hlexeme) (!operand) (hv ▸ hu) (halike 2)
          (fun heq => absurd heq hregex) hlexeme
      | cons second run =>
        have hne : fullText (second :: run) ≠ [] := by
          simpa using fullText_append_ne_nil hrest.ne_nil (List.cons_ne_nil _ _) []
        obtain ⟨d, s, hds⟩ := List.exists_cons_of_ne_nil hne
        have hfollows : Follows v (fullText (second :: run) ++ u') := by
          rw [hrest.text, hds]
          exact .same d ((hends.alike 1 u).append s)
        exact lexeme_replace hlexeme hfollows
    have htoken := Reads.token (hlead.replace ((halike 1).append w)) hlexeme' hreads
    simpa [fullText_cons, Token.leadText] using htoken

-- A type that a source has in parentheses, on one line, and that is kept as its tokens.
structure TypeExpr.IsEnclosed (type : TypeExpr) : Prop where
  leaf : type.IsLeaf
  line : .char '\n' ∉ sourceText type.kept
  occurs : ∃ source front ts budget rest, tokens source = front ++ ts ∧
    parsePrimary budget ts = some (.grouped type, rest)

namespace TypeExpr.IsEnclosed

-- It is read up to the closing one.
theorem exists_occurrence (h : type.IsEnclosed) : ∃ source front budget closing back,
    tokens source = front ++ (type.kept ++ closing :: back) ∧ closing.isMark ")" ∧
      parseType budget .inside (type.kept ++ closing :: back) = some (type, closing :: back) := by
  obtain ⟨source, front, ts, budget, back, htokens, hread⟩ := h.occurs
  obtain ⟨opening, us, n, closing, rfl, -, hclosing, htype⟩ := exists_of_grouped hread
  obtain rfl := kept_of_parseType htype h.leaf
  exact ⟨source, front ++ [opening], n, closing, back, by simpa using htokens, hclosing, htype⟩

theorem exists_cons (h : type.IsEnclosed) : ∃ first others, type.kept = first :: others ∧ ¬ first.IsSlash := by
  obtain ⟨_, _, budget, closing, back, -, -, hread⟩ := h.exists_occurrence
  obtain ⟨first, others, hkept⟩ := exists_cons_of_takes ((bracketed budget).type hread)
  refine ⟨first, others, hkept, ?_⟩
  rw [hkept] at hread
  exact not_isSlash_of_type hread

theorem getLast_ne_regex (h : type.IsEnclosed) : ∀ token ∈ type.kept.getLast?, token.kind ≠ .regex := by
  obtain ⟨_, _, budget, closing, back, -, -, hread⟩ := h.exists_occurrence
  obtain ⟨front, last, heq, hlast⟩ := (finishes budget).type hread
  have hkept : type.kept = front ++ [last] := List.append_cancel_right (by simpa using heq)
  rw [hkept, List.getLast?_concat]
  rintro token hmem
  obtain rfl := Option.some.inj hmem
  exact hlast

-- Its text is read as its tokens in front of every delimiter.
theorem exists_reads (h : type.IsEnclosed) : ∃ operand next, ∀ u, Ends u →
    Reads operand (sourceText type.kept ++ u) (bare type.kept) next u := by
  obtain ⟨source, front, budget, closing, back, htokens, hclosing, hread⟩ := h.exists_occurrence
  obtain ⟨first, others, hkept, -⟩ := h.exists_cons
  obtain ⟨lead, t, heq⟩ := exists_tokens_eq source
  obtain ⟨lead, operand, t, heq⟩ := exists_tokensFrom_of_append (heq.symm.trans htokens) (by simp)
  obtain ⟨next, after, hreads, hback⟩ := exists_reads_bare heq (by simp [hkept]) (List.cons_ne_nil closing back)
  have hafter : after ≠ [] := by
    rintro rfl
    rw [tokensFrom_nil] at hback
    rw [(List.cons.inj hback).1] at hclosing
    cases hclosing
  have hlast : ∀ token ∈ (bare type.kept).getLast?, token.kind ≠ .regex := by
    have hkinds : (bare type.kept).getLast?.map Token.kind = type.kept.getLast?.map Token.kind := by
      rw [hkept]
      cases others <;> rfl
    intro token hmem
    rw [Option.mem_def.mp hmem] at hkinds
    obtain ⟨last, hlast, hkind⟩ := Option.map_eq_some_iff.mp hkinds.symm
    exact hkind ▸ h.getLast_ne_regex last hlast
  refine ⟨operand, next, fun u hu => ?_⟩
  have hreplaced := hreads.replace_end hafter hu hlast
  rwa [fullText_bare] at hreplaced

theorem solid (h : type.IsEnclosed) : ∀ token ∈ type.kept, token.text ≠ [] := by
  obtain ⟨operand, next, hreads⟩ := h.exists_reads
  obtain ⟨first, others, hkept, -⟩ := h.exists_cons
  have hne := (hreads [] nofun).ne_nil
  rw [hkept] at hne ⊢
  exact List.forall_mem_cons.mpr (List.forall_mem_cons.mp hne)

-- Wherever its text stands in front of a delimiter, it is cut into its tokens.
theorem exists_tokensFrom (h : type.IsEnclosed) : ∃ next, ∀ u, Ends u →
    (∀ c ∈ (sourceText type.kept ++ u).head?, isSpace c = false) ∧ ∀ lead operand,
      tokensFrom lead operand (sourceText type.kept ++ u) = Source.withLead lead type.kept ++ tokensFrom [] next u := by
  obtain ⟨operand, next, hreads⟩ := h.exists_reads
  obtain ⟨first, others, hkept, hslash⟩ := h.exists_cons
  rw [hkept] at hreads ⊢
  exact ⟨next, fun u hu => tokensFrom_of_bare (hreads u hu) hslash⟩

theorem not_union (h : type.IsEnclosed) (members : List TypeExpr) : type ≠ .union members := by
  rintro rfl
  obtain heq | ⟨_, heq⟩ := h.leaf <;> cases heq

-- With something else in front of it, it is kept and read as before.
theorem isRaw (h : type.IsEnclosed) (lead : List Trivia) : (type.withLead lead).IsRaw where
  leaf := h.leaf.withLead lead
  read := by
    obtain ⟨_, _, budget, closing, back, -, hclosing, hread⟩ := h.exists_occurrence
    obtain ⟨first, others, hkept, -⟩ := h.exists_cons
    refine ⟨budget, closing, back, Token.kind_of_isMark hclosing, ?_⟩
    have hread' := Source.parseType_withLead lead hread h.not_union
    rw [h.leaf.kept_withLead]
    rw [hkept] at hread' ⊢
    exact hread'
  solid := by
    have hsolid := h.solid
    obtain ⟨first, others, hkept, -⟩ := h.exists_cons
    rw [h.leaf.kept_withLead]
    rw [hkept] at hsolid ⊢
    exact List.forall_mem_cons.mpr (List.forall_mem_cons.mp hsolid)

theorem line_withLead (h : type.IsEnclosed) (lead : List Trivia) (hlead : .char '\n' ∉ lead.flatMap Trivia.text) :
    .char '\n' ∉ fullText (type.withLead lead).kept := by
  obtain ⟨first, others, hkept, -⟩ := h.exists_cons
  rw [h.leaf.kept_withLead, fullText_withLead lead (by simp [hkept]), List.mem_append, not_or]
  exact ⟨hlead, h.line⟩

-- It can be seen where its text begins.
theorem visible (h : type.IsEnclosed) (u : Text) : Visible (sourceText type.kept ++ u) := by
  obtain ⟨next, hcut⟩ := h.exists_tokensFrom
  have hhead := (hcut [] nofun).1
  obtain ⟨first, others, hkept, -⟩ := h.exists_cons
  obtain ⟨c, t, htext⟩ := List.exists_cons_of_ne_nil (h.solid first (by simp [hkept]))
  rw [List.append_nil, hkept, sourceText, htext] at hhead
  refine ⟨c, t ++ (others.flatMap fun token => token.leadText ++ token.text) ++ u, ?_, hhead c rfl⟩
  rw [hkept, sourceText, htext]
  simp

theorem lexes {c : CodePoint} (h : type.IsEnclosed) (lead : List Trivia) (hu : Lexes [] (c :: u) us)
    (hc : isDelimiter c) : Lexes lead (sourceText type.kept ++ c :: u) ((type.withLead lead).kept ++ us) := by
  intro operand rest hrest
  obtain ⟨middle, hcut⟩ := h.exists_tokensFrom
  have hends : Ends (c :: u ++ rest) := fun d hd => Option.some.inj hd ▸ hc
  obtain ⟨next, hnext⟩ := hu middle rest hrest
  refine ⟨next, ?_⟩
  rw [List.append_assoc, (hcut _ hends).2, hnext, h.leaf.kept_withLead, List.append_assoc]

end TypeExpr.IsEnclosed

theorem lexes_brackets (depth : Nat) (hu : Lexes [] u us) :
    Lexes [] (fullText (brackets depth) ++ u) (brackets depth ++ us) := by
  induction depth with
  | zero => exact hu
  | succ depth ih =>
    rw [brackets, fullText_cons, fullText_cons]
    exact .singleMark rfl (.singleMark rfl ih)

-- The members of a union, with bars between them.
theorem lexes_barred {leaves : List TypeExpr} (hne : leaves ≠ []) (h : ∀ leaf ∈ leaves, leaf.IsEnclosed) :
    Lexes [.blank " "] (Text.join " | " (leaves.map fun leaf => sourceText leaf.kept) ++ ";")
      (barred (leaves.map fun leaf => leaf.withLead [.blank " "]) ++ [⟨[], .mark, ";"⟩]) ∧
    Visible (Text.join " | " (leaves.map fun leaf => sourceText leaf.kept) ++ ";") := by
  have hend : Lexes [] ";" [⟨[], .mark, ";"⟩] := .singleMark rfl .nil
  induction leaves with
  | nil => exact absurd rfl hne
  | cons leaf others ih =>
    obtain ⟨hleaf, hothers⟩ := List.forall_mem_cons.mp h
    cases others with
    | nil =>
      simp only [List.map_cons, List.map_nil, Text.join_singleton, barred]
      exact ⟨hleaf.lexes _ hend rfl, hleaf.visible _⟩
    | cons second others =>
      obtain ⟨hlexes, hvisible⟩ := ih (List.cons_ne_nil _ _) hothers
      simp only [List.map_cons, Text.join_cons_cons, barred_cons_cons, List.append_assoc] at hlexes hvisible ⊢
      have hbar : Lexes [.blank " "] (.char '|' :: ((" " : Text) ++ _)) (bar :: _) :=
        .singleMark rfl (.blank (by decide) (by decide) hlexes hvisible)
      have hblank := @Lexes.blank [] " " _ _ (by decide) (by decide) hbar (.of_isSingleMark rfl)
      exact ⟨hleaf.lexes _ hblank rfl, hleaf.visible _⟩

end Cutting

end HookGen.Source
