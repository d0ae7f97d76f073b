import HookGen.Proofs.Shape.Literals
import HookGen.Proofs.Source.Collapsing

/-!
When the text that is kept of a type still stands for the tokens of its source. A text of several lines is
collapsed as it stands, and with it what literals and comments consist of.
-/

namespace HookGen

open Source Shape Text

namespace Source

variable {token : Token} {run raw : List Token} {p : Kind × Text → Prop}

instance : DecidablePred IsCollapsed := fun t => inferInstanceAs (Decidable (join " " t.words = t))

theorem forall_of_sign (h : run.map Token.sign = raw.map Token.sign) (hall : ∀ token ∈ run, p token.sign) :
    ∀ token ∈ raw, p token.sign := by
  rw [← List.forall_mem_map, ← h, List.forall_mem_map]
  exact hall

theorem Closed.of_sign (h : run.map Token.sign = raw.map Token.sign) (hclosed : Closed run) : Closed raw :=
  forall_of_sign (p := fun sign => sign.1 = .regex → ClosesRegex false sign.2.tail)
    (by rw [List.map_dropLast, List.map_dropLast, h]) hclosed

theorem map_sign_bare (raw : List Token) : (bare raw).map Token.sign = raw.map Token.sign := by
  cases raw <;> rfl

theorem quiet_bare_iff : Quiet (bare raw) ↔ Quiet raw.tail := by
  cases raw with
  | nil => rfl
  | cons token raw => exact List.forall_mem_cons.trans (and_iff_right nofun)

theorem infix_fullText (h : token ∈ run) : token.text <:+: fullText run := by
  obtain ⟨front, back, rfl⟩ := List.append_of_mem h
  rw [fullText_append, fullText_cons]
  exact ⟨fullText front ++ token.leadText, fullText back, by simp⟩

end Source

namespace Shape

variable {raw : List Token} {type part : TypeExpr}

-- Wherever the source of a run is read as the run, the kept text is read as the same tokens, whatever stands
-- behind it.
def KeepsTokens (raw : List Token) : Prop :=
  ∀ operand after, ReadAs operand (sourceText raw) after (bare raw) →
    ∃ run, run.map Token.sign = raw.map Token.sign ∧ ReadAs operand (keptText raw) after run

-- A run that stays the same on one line: its tokens have no blanks to collapse, and no comment or regular expression
-- needs the end of its line.
structure Sturdy (raw : List Token) : Prop where
  texts : ∀ token ∈ raw, IsCollapsed token.text
  comments : Quiet raw.tail
  regexes : Closed raw

theorem keptText_of_lines (h : .char '\n' ∈ sourceText raw) : keptText raw = join " " (sourceText raw).words := by
  rw [keptText]
  exact if_pos (by simpa using h)

theorem keptText_eq_collapsedText (hne : raw ≠ []) (htokens : ∀ token ∈ raw, token.text ≠ [])
    (htexts : ∀ token ∈ raw, IsCollapsed token.text) (hlines : .char '\n' ∈ sourceText raw) :
    keptText raw = collapsedText (bare raw) := by
  have hall : ∀ token ∈ raw, token.text.Trimmed ∧ collapse token.text = token.text := fun token hmem =>
    (isCollapsed_iff (htokens token hmem)).mp (htexts token hmem)
  have hbare := forall_of_sign (p := fun sign => sign.2.Trimmed ∧ collapse sign.2 = sign.2)
    (map_sign_bare raw).symm hall
  rw [keptText_of_lines hlines, join_words (trimmed_sourceText hne fun token hmem => (hall token hmem).1),
    ← fullText_bare, collapse_fullText hbare]

theorem keepsTokens_of_line (h : .char '\n' ∉ sourceText raw) : KeepsTokens raw := by
  intro operand after hread
  refine ⟨bare raw, map_sign_bare raw, ?_⟩
  rwa [keptText, if_neg (by simpa using h)]

theorem ne_nil_of_readAs {operand : Bool} {t after : Text} (h : ReadAs operand t after (bare raw)) :
    ∀ token ∈ raw, token.text ≠ [] :=
  forall_of_sign (p := fun sign => sign.2 ≠ []) (map_sign_bare raw) (readAs_iff.mp h).ne_nil

theorem ne_nil_of_lines (h : .char '\n' ∈ sourceText raw) : raw ≠ [] := by
  rintro rfl
  cases h

theorem Sturdy.keepsTokens (h : Sturdy raw) : KeepsTokens raw := by
  by_cases hlines : .char '\n' ∈ sourceText raw
  · intro operand after hread
    obtain ⟨run, hsigns, hreads⟩ := (readAs_iff.mp hread).collapsed (quiet_bare_iff.mpr h.comments)
      (h.regexes.of_sign (map_sign_bare raw).symm)
    refine ⟨run, hsigns.trans (map_sign_bare raw), readAs_iff.mpr ?_⟩
    rw [keptText_eq_collapsedText (ne_nil_of_lines hlines) (ne_nil_of_readAs hread) h.texts hlines]
    exact hreads.operandBehind ▸ hreads
  · exact keepsTokens_of_line hlines

-- The tokens that are read in the kept text are pieces of it, and there every blank is a single space.
theorem KeepsTokens.sturdy (h : KeepsTokens raw) (hlines : .char '\n' ∈ sourceText raw)
    (hread : ∃ operand after, ReadAs operand (sourceText raw) after (bare raw)) : Sturdy raw := by
  obtain ⟨operand, after, hread⟩ := hread
  have htokens := ne_nil_of_readAs hread
  obtain ⟨run, hsigns, hkept⟩ := h operand after hread
  have hreads := readAs_iff.mp hkept
  have htext : keptText raw = fullText run := List.append_cancel_right hreads.text
  have hcollapsed : IsCollapsed (fullText run) := by
    rw [← htext, keptText_of_lines hlines]
    exact isCollapsed_join_words _
  have hblank : ∀ c ∈ fullText run, c.isBlank → c = .char ' ' := fun _ => hcollapsed.blank
  have hline := endsLine_eq_false hblank
  have hrun : run ≠ [] := by
    rintro rfl
    exact ne_nil_of_lines hlines (List.map_eq_nil_iff.mp hsigns.symm)
  have hne : fullText run ≠ [] := by simpa using fullText_append_ne_nil hreads.ne_nil hrun []
  have htrimmed := hreads.trimmed hblank ((isCollapsed_iff hne).mp hcollapsed).1.last
  have htexts : ∀ token ∈ raw, IsCollapsed token.text :=
    forall_of_sign (p := fun sign => IsCollapsed sign.2) hsigns fun token hmem =>
      hcollapsed.of_infix (infix_fullText hmem) (htrimmed token hmem)
  have hclosed := (hreads.closed hline).of_sign hsigns
  have hsource := keptText_eq_collapsedText (ne_nil_of_lines hlines) htokens htexts hlines
  refine ⟨htexts, quiet_bare_iff.mp ?_, hclosed⟩
  exact (readAs_iff.mp hread).quiet (hsource ▸ hreads) (hsigns.trans (map_sign_bare raw).symm)
    (hclosed.of_sign (map_sign_bare raw).symm) (hsource ▸ htext ▸ hline)

theorem keepsTokens_iff (hread : ∃ operand after, ReadAs operand (sourceText raw) after (bare raw)) :
    KeepsTokens raw ↔ .char '\n' ∉ sourceText raw ∨ Sturdy raw := by
  constructor
  · intro h
    exact Classical.or_iff_not_imp_left.mpr fun hlines => h.sturdy (not_not.mp hlines) hread
  · rintro (h | h)
    · exact keepsTokens_of_line h
    · exact h.keepsTokens

-- What is kept as text: a type, an access that is no lookup, or an entry of an object type that is no property.
inductive KeptRaw : TypeExpr → List Token → Prop
  | verbatim (source : List Token) : KeptRaw (.verbatim source) source
  | access {target index : TypeExpr} {indexSource source : List Token}
    (h : path? (.access target index indexSource source) = none) :
    KeptRaw (.access target index indexSource source) source
  | entry {entries : List Entry} {source : List Token} (h : .other source ∈ entries) :
    KeptRaw (.object entries) source

theorem mem_signaturesOf {entries : List Entry} (h : .other raw ∈ entries) : keptText raw ∈ signaturesOf entries := by
  induction entries with
  | nil => cases h
  | cons entry entries ih =>
    obtain rfl | hmem := List.mem_cons.mp h
    · exact List.mem_cons_self ..
    · cases entry with
      | property => exact ih hmem
      | other => exact List.mem_cons_of_mem _ (ih hmem)

-- The shape of the type has the kept text.
theorem KeptRaw.shown (h : KeptRaw type raw) : ofType type = text (keptText raw) ∨
    ∃ members signatures, ofType type = .object .none members signatures ∧ keptText raw ∈ signatures := by
  cases h with
  | verbatim => exact .inl rfl
  | access h => exact .inl (by rw [ofType, h])
  | entry h => exact .inr ⟨_, _, rfl, mem_signaturesOf h⟩

theorem keepsSource_of_mem {P : List Token → Prop} {entries : List Entry} (h : keepEntries P entries)
    (hmem : .other raw ∈ entries) : KeepsSource P raw := by
  induction entries with
  | nil => cases hmem
  | cons entry entries ih =>
    obtain rfl | hmem := List.mem_cons.mp hmem
    · exact h.1
    · exact ih (keepEntries_cons_iff.mp h).2 hmem

theorem KeptRaw.keeps {P : List Token → Prop} (h : KeptRaw type raw) (hkeeps : type.Keeps P) : KeepsSource P raw := by
  cases h with
  | verbatim => exact hkeeps
  | access => exact hkeeps.2.2.2.1
  | entry h => exact keepsSource_of_mem hkeeps h

-- In a source that can be read, the kept text stands for the tokens exactly if they are on one line or stay the
-- same on one.
theorem keepsTokens_iff_sturdy {source : Text} {declarations : List Declaration} {declaration : Declaration}
    (hparsed : parseDeclarations source = some declarations) (hmem : declaration ∈ declarations)
    (hpart : TypePart declaration.value part) (hraw : KeptRaw part raw) :
    raw ≠ [] ∧ (∃ operand after, ReadAs operand (sourceText raw) after (bare raw)) ∧
      (KeepsTokens raw ↔ .char '\n' ∉ sourceText raw ∨ Sturdy raw) := by
  have hkeeps := keepsRuns_parseDeclarations hparsed (fun _ hrun => exists_readAs hrun) declaration hmem
  obtain ⟨hne, hread⟩ := hraw.keeps (hpart.keeps hkeeps)
  exact ⟨hne, hread, keepsTokens_iff hread⟩

section Sample

-- The tokens that a type is kept as.
def verbatim? : TypeExpr → Option (List Token)
  | .verbatim source => some source
  | _ => none

theorem keptRaw_of_verbatim? (h : verbatim? type = some raw) : KeptRaw type raw := by
  cases type with
  | verbatim source => exact Option.some.inj h ▸ .verbatim source
  | _ => cases h

-- An intersection over two lines of a literal and the type of strings.
def intersection (literal : Text) : List Token := [⟨[.blank " "], .string, literal⟩, ⟨[.blank " "], .mark, "&"⟩,
  ⟨[.blank "\n "], .word, "string"⟩]

theorem intersection_keepsTokens : ∃ declaration, parseDeclarations "type T = \"a\" &\n string" = some [declaration] ∧
    KeptRaw declaration.value (intersection "\"a\"") ∧ .char '\n' ∈ sourceText (intersection "\"a\"") ∧
    KeepsTokens (intersection "\"a\"") := by
  have hkept : (parseDeclarations "type T = \"a\" &\n string").map (·.map (verbatim? ·.value)) =
      some [some (intersection "\"a\"")] := by decide +kernel
  obtain ⟨declarations, hparsed, hkept⟩ := Option.map_eq_some_iff.mp hkept
  obtain ⟨declaration, rfl, hvalue⟩ := List.map_eq_singleton_iff.mp hkept
  have hraw := keptRaw_of_verbatim? hvalue
  have hquiet : ∀ token ∈ (intersection "\"a\"").tail, ∀ x ∈ token.lead, ¬ x.isLine := by decide
  have hplain : ∀ token ∈ (intersection "\"a\"").dropLast, token.kind ≠ .regex := by decide
  have hsturdy : Sturdy (intersection "\"a\"") :=
    ⟨by decide, hquiet, fun token hmem hkind => absurd hkind (hplain token hmem)⟩
  have hkeeps := (keepsTokens_iff_sturdy hparsed (List.mem_singleton_self _) (.self _) hraw).2.2
  exact ⟨declaration, hparsed, hraw, by decide, hkeeps.mpr (.inr hsturdy)⟩

-- Two blanks in a literal become one.
theorem literal_not_keepsTokens : ∃ declaration,
    parseDeclarations "type T = \"a  b\" &\n string" = some [declaration] ∧
      KeptRaw declaration.value (intersection "\"a  b\"") ∧ ¬ KeepsTokens (intersection "\"a  b\"") := by
  have hkept : (parseDeclarations "type T = \"a  b\" &\n string").map (·.map (verbatim? ·.value)) =
      some [some (intersection "\"a  b\"")] := by decide +kernel
  obtain ⟨declarations, hparsed, hkept⟩ := Option.map_eq_some_iff.mp hkept
  obtain ⟨declaration, rfl, hvalue⟩ := List.map_eq_singleton_iff.mp hkept
  refine ⟨declaration, hparsed, keptRaw_of_verbatim? hvalue, fun hkeeps => ?_⟩
  have hread : ReadAs false (sourceText (intersection "\"a  b\"")) [] (bare (intersection "\"a  b\"")) := by
    decide +kernel
  have hsturdy := hkeeps.sturdy (by decide) ⟨false, [], hread⟩
  exact absurd (hsturdy.texts _ (List.mem_cons_self ..)) (by decide)

end Sample

end Shape

end HookGen
