import HookGen.Proofs.Path
import HookGen.Proofs.Shape.Alike
import HookGen.Proofs.Source.Lexing
import HookGen.Proofs.Source.Structural
import HookGen.Render.Basic
import HookGen.Shape.OfSource

/-!
Texts that shapes are written as: reading one gives a shape that differs only in how unions are put together.
Each way to lay out a text from the texts of parts keeps this.
-/

namespace HookGen

open Source Shape

namespace Shape

theorem ofTypes_eq_map (types : List TypeExpr) : ofTypes types = types.map ofType := by
  induction types with
  | nil => rfl
  | cons type rest ih => rw [ofTypes, ih, List.map_cons]

theorem ofType_union {types : List TypeExpr} (h : 2 ≤ types.length) :
    ofType (.union types) = unionOf (types.map ofType) := by
  cases types with
  | nil => simp at h
  | cons first types =>
    cases types with
    | nil => simp at h
    | cons second types => simp only [ofType, ofTypes_eq_map, List.map_cons]

-- A type read from members of a union is like the union of their shapes.
theorem ofType_joinTypes {types : List TypeExpr} (h : types ≠ []) :
    (ofType (joinTypes types)).Alike (unionOf (ofTypes types)) := by
  cases types with
  | nil => exact absurd rfl h
  | cons first rest =>
    cases rest with
    | nil => exact (Alike.single (ofType first)).symm
    | cons second rest =>
      have heq : joinTypes (first :: second :: rest) = .union (first :: second :: rest) := rfl
      rw [heq, ofType_union (by simp), ofTypes_eq_map]
      exact .refl _

end Shape

namespace Render

variable {shape : Shape} {shapes : List Shape} {t : Text} {texts : List Text}

-- A text that is read as a shape like the given one, whatever stands in front of it: as members of a union,
-- and where the shape is no union also as an operand. The text of a lookup is that of another shape.
structure Written (shape : Shape) (t : Text) : Prop where
  direct : ∀ label path, shape ≠ .lookup label path
  visible : Visible t
  members : ∀ lead, ∃ types ts, Lexes lead t ts ∧ Alternatives types ts ∧
    (unionOf (ofTypes types)).Alike shape
  operand : shape.isUnion = false → ∀ lead, ∃ type ts, Lexes lead t ts ∧ ReadsOperand type ts ∧
    (ofType type).Alike shape

theorem Written.of_operand (hdirect : ∀ label path, shape ≠ .lookup label path) (hvisible : Visible t)
    (h : ∀ lead, ∃ type ts, Lexes lead t ts ∧ ReadsOperand type ts ∧ (ofType type).Alike shape) :
    Written shape t where
  direct := hdirect
  visible := hvisible
  members := by
    intro lead
    obtain ⟨type, ts, hlexes, hreads, halike⟩ := h lead
    exact ⟨[type], ts, hlexes, .single hreads, (Alike.single (ofType type)).trans halike⟩
  operand := fun _ => h

-- The type as a whole.
theorem Written.reads (h : Written shape t) (lead : List Trivia) :
    ∃ type ts, Lexes lead t ts ∧ ReadsType type ts ∧ (ofType type).Alike shape := by
  obtain ⟨types, ts, hlexes, halternatives, halike⟩ := h.members lead
  exact ⟨_, ts, hlexes, halternatives.members.joined, (ofType_joinTypes halternatives.ne_nil).trans halike⟩

-- A text is read in one way only, so shapes with one text are alike.
theorem Written.alike {other : Shape} (h : Written shape t) (hother : Written other t) : shape.Alike other := by
  obtain ⟨types, ts, hlexes, hreads, halike⟩ := h.members []
  obtain ⟨others, us, hlexes', hreads', halike'⟩ := hother.members []
  have htokens : ts = us := by
    obtain ⟨next, hnext⟩ := hlexes false [] bounded_nil
    obtain ⟨next', hnext'⟩ := hlexes' false [] bounded_nil
    rw [hnext, tokensFrom_nil, tokensFrom_nil] at hnext'
    exact List.append_cancel_right hnext'
  subst htokens
  have hfollows : FollowsType [⟨[], .finish, []⟩] := ⟨_, [], rfl, .inl (by decide)⟩
  have harrow : Arrowless [⟨[], .finish, []⟩] := arrowless_cons.mpr ⟨by decide, arrowless_nil⟩
  have hbar : Token.isMark "|" ⟨[], .mark, "|"⟩ := rfl
  have hboth := (hreads.members.reads _ .inside _ _ (Nat.le_refl _) hbar hfollows harrow).symm.trans
    (hreads'.members.reads _ .inside _ _ (Nat.le_refl _) hbar hfollows harrow)
  obtain rfl : types = others := (Prod.mk.inj (Option.some.inj hboth)).1
  exact halike.symm.trans halike'

section Unions

-- The texts of several members with bars between them.
theorem lexes_alternatives (h : List.Forall₂ Written shapes texts) (hne : shapes ≠ []) (lead : List Trivia) :
    ∃ types ts, Lexes lead (Text.join " | " texts) ts ∧ Alternatives types ts ∧
      (unionOf (ofTypes types)).Alike (unionOf shapes) ∧ Visible (Text.join " | " texts) := by
  induction h generalizing lead with
  | nil => exact absurd rfl hne
  | @cons shape t shapes texts hshape hshapes ih =>
    obtain ⟨types, ts, hlexes, hreads, halike⟩ := hshape.members lead
    cases hshapes with
    | nil =>
      rw [Text.join_singleton]
      exact ⟨types, ts, hlexes, hreads, halike.trans (Alike.single shape).symm, hshape.visible⟩
    | @cons second u shapes texts hsecond hothers =>
      obtain ⟨others, us, hlexes', hreads', halike', hvisible⟩ := ih (by simp) [.blank " "]
      rw [Text.join_cons_cons]
      refine ⟨types ++ others, _, hlexes.barred hlexes' hvisible, hreads.append rfl hreads', ?_,
        hshape.visible.append.append⟩
      rw [ofTypes_eq_map, List.map_append, ← ofTypes_eq_map, ← ofTypes_eq_map]
      exact Alike.append (halike.trans (Alike.single shape).symm) halike'

-- Of the members with one text the first is enough.
theorem exists_filtered {first : Shape} (hfirst : Written first t) (h : List.Forall₂ Written shapes texts) :
    ∃ kept, List.Forall₂ Written kept (texts.filter (· != t)) ∧
      ∀ between, (unionOf (first :: between ++ kept)).Alike (unionOf (first :: between ++ shapes)) := by
  induction h with
  | nil => exact ⟨[], .nil, fun between => .refl _⟩
  | @cons shape u shapes texts hshape _ ih =>
    obtain ⟨kept, hkept, halike⟩ := ih
    by_cases hsame : u = t
    · subst hsame
      refine ⟨kept, by simpa using hkept, fun between => (halike between).trans ?_⟩
      exact (Alike.drop_like [] between shapes (hshape.alike hfirst)).symm
    · have hother : (u != t) = true := by simpa using hsame
      refine ⟨shape :: kept, ?_, fun between => ?_⟩
      · rw [List.filter_cons, if_pos hother]
        exact .cons hshape hkept
      · have hrest := halike (between ++ [shape])
        simpa only [List.cons_append, List.append_assoc, List.nil_append] using hrest

-- So the members that are left when each text is written once make the same union.
theorem exists_distinct (h : List.Forall₂ Written shapes texts) :
    ∃ kept, List.Forall₂ Written kept texts.eraseDups ∧ (unionOf kept).Alike (unionOf shapes) := by
  induction hlength : texts.length using Nat.strong_induction_on generalizing shapes texts with
  | _ length ih =>
    cases h with
    | nil => exact ⟨[], .nil, .refl _⟩
    | @cons shape t shapes texts hshape hshapes =>
      obtain ⟨filtered, hfiltered, hdropped⟩ := exists_filtered hshape hshapes
      have hshorter : (texts.filter (· != t)).length < length := by
        rw [← hlength, List.length_cons]
        exact Nat.lt_succ_of_le (List.length_filter_le ..)
      obtain ⟨kept, hkept, halike⟩ := ih _ hshorter hfiltered rfl
      refine ⟨shape :: kept, ?_, (Alike.cons (.refl shape) halike).trans (hdropped [])⟩
      rw [List.eraseDups_cons]
      exact .cons hshape hkept

theorem written_union (h : List.Forall₂ Written shapes texts) (hne : shapes ≠ []) :
    Written (unionOf shapes) (layoutUnion texts) := by
  have hsome : texts.isEmpty = false := by
    cases h with
    | nil => exact absurd rfl hne
    | cons _ _ => rfl
  obtain ⟨kept, hkept, halike⟩ := exists_distinct h
  have hnonempty : kept ≠ [] := by
    rintro rfl
    cases h with
    | nil => exact hne rfl
    | cons _ _ =>
      rw [List.eraseDups_cons] at hkept
      cases hkept
  rw [layoutUnion, hsome]
  refine ⟨nofun, ?_, ?_, nofun⟩
  · obtain ⟨_, _, _, _, _, hvisible⟩ := lexes_alternatives hkept hnonempty []
    exact hvisible
  · intro lead
    obtain ⟨types, ts, hlexes, hreads, hunion, -⟩ := lexes_alternatives hkept hnonempty lead
    exact ⟨types, ts, hlexes, hreads, hunion.trans halike⟩

end Unions

section Lists

-- The texts of several types with commas between them and a closing mark, read as elements of a tuple or as type
-- arguments.
theorem lexes_list {Reads : List TypeExpr → List Token → Prop} (close : Char) (hmark : isSingleMark close)
    (hlast : ∀ {type ts token}, ReadsType type ts → Token.isMark [.char close] token →
      Reads [type] (ts ++ [token]))
    (hcons : ∀ {type types ts us token}, ReadsType type ts → token.isMark "," → Reads types us →
      BeginsOperand us → Reads (type :: types) (ts ++ token :: us))
    (h : List.Forall₂ Written shapes texts) (hne : shapes ≠ []) (lead : List Trivia) :
    ∃ types ts, Lexes lead (Text.join ", " texts ++ [.char close]) ts ∧ Reads types ts ∧ BeginsOperand ts ∧
      List.Forall₂ Alike (ofTypes types) shapes ∧ Visible (Text.join ", " texts ++ [.char close]) := by
  induction h generalizing lead with
  | nil => exact absurd rfl hne
  | @cons shape t shapes texts hshape hshapes ih =>
    obtain ⟨type, ts, hlexes, hreads, halike⟩ := hshape.reads lead
    cases hshapes with
    | nil =>
      have hclose : Lexes [] [.char close] [⟨[], .mark, [.char close]⟩] := .singleMark hmark .nil
      rw [Text.join_singleton]
      have hbounded : Bounded [.char close] := bounded_cons (isBoundary_of_isSingleMark hmark)
      exact ⟨[type], _, hlexes.append hclose hbounded, hlast hreads (by simp [Token.isMark]),
        hreads.begins.append, .cons halike .nil, hshape.visible.append⟩
    | @cons second u shapes texts hsecond hothers =>
      obtain ⟨others, us, hlexes', hreads', hbegins, halike', hvisible⟩ := ih (by simp) [.blank " "]
      have hcomma : Lexes [] (.char ',' :: ((" " : Text) ++ (Text.join ", " (u :: texts) ++ [.char close])))
          (⟨[], .mark, ","⟩ :: us) :=
        .singleMark rfl (.blank (by decide) (by decide) hlexes' hvisible)
      have heq : Text.join ", " (t :: u :: texts) ++ [.char close] =
          t ++ .char ',' :: ((" " : Text) ++ (Text.join ", " (u :: texts) ++ [.char close])) := by
        rw [Text.join_cons_cons, List.append_assoc, List.append_assoc]
        rfl
      rw [heq]
      exact ⟨type :: others, _, hlexes.append hcomma (bounded_cons (by decide)), hcons hreads rfl hreads' hbegins,
        hreads.begins.append, .cons halike halike', hshape.visible.append⟩

theorem written_tuple (h : List.Forall₂ Written shapes texts) :
    Written (.tuple .none shapes) ("[" ++ Text.join ", " texts ++ "]") := by
  refine .of_operand nofun (.of_isSingleMark (c := .char '[') rfl) fun lead => ?_
  have helements : ∃ types ts, Lexes [] (Text.join ", " texts ++ [.char ']']) ts ∧ ReadsElements types ts ∧
      List.Forall₂ Alike (ofTypes types) shapes := by
    cases h with
    | nil => exact ⟨[], [⟨[], .mark, "]"⟩], .singleMark rfl .nil, .close rfl, .nil⟩
    | cons hshape hshapes =>
      obtain ⟨types, ts, hlexes, hreads, -, halike, -⟩ := lexes_list ']' rfl
        (fun h hclose => ReadsElements.last h hclose) (fun h hcomma hs _ => .cons h hcomma hs)
        (.cons hshape hshapes) (by simp) []
      exact ⟨types, ts, hlexes, hreads, halike⟩
  obtain ⟨types, ts, hlexes, hreads, halike⟩ := helements
  refine ⟨.tuple types, ⟨lead, .mark, "["⟩ :: ts, .singleMark rfl hlexes, (ReadsPrimary.tuple rfl hreads).operand, ?_⟩
  rw [ofType]
  exact .tuple .none halike

theorem written_array (h : Written shape t) :
    Written (.array .none [shape]) ((if needsParentheses shape then inParentheses t else t) ++ "[]") := by
  have hbrackets : Lexes [] "[]" [⟨[], .mark, "["⟩, ⟨[], .mark, "]"⟩] :=
    .singleMark rfl (.singleMark rfl .nil)
  have hbounded : Bounded "[]" := bounded_cons (by decide)
  split
  · refine .of_operand nofun (.of_isSingleMark (c := .char '(') rfl) fun lead => ?_
    obtain ⟨type, ts, hlexes, hreads, halike⟩ := h.reads []
    have hclose : Lexes [] ")" [⟨[], .mark, ")"⟩] := .singleMark rfl .nil
    have hgroup : Lexes lead (inParentheses t) (⟨lead, .mark, "("⟩ :: (ts ++ [⟨[], .mark, ")"⟩])) :=
      .singleMark rfl (hlexes.append hclose (bounded_cons (by decide)))
    refine ⟨.array (.grouped type), _, hgroup.append hbrackets hbounded,
      (ReadsPrimary.grouped rfl hreads rfl).operand.array rfl rfl rfl, ?_⟩
    rw [ofType, ofType]
    exact .array .none halike
  · rename_i hparentheses
    have hunion : shape.isUnion = false := by
      cases shape <;> simp_all [needsParentheses, isUnion]
    refine .of_operand nofun h.visible.append fun lead => ?_
    obtain ⟨type, ts, hlexes, hreads, halike⟩ := h.operand hunion lead
    refine ⟨.array type, _, hlexes.append hbrackets hbounded, hreads.array rfl rfl rfl, ?_⟩
    rw [ofType]
    exact .array .none halike

end Lists

section Leaves

theorem keptText_eq {tokens : List Token} (h : .char '\n' ∉ sourceText tokens) :
    keptText tokens = sourceText tokens := by
  simp [keptText, h]

theorem keptText_single {token : Token} (hline : .char '\n' ∉ token.text) : keptText [token] = token.text := by
  have hsource : sourceText [token] = token.text := by simp [sourceText]
  rw [keptText_eq (by rwa [hsource]), hsource]

theorem keptText_pair {sign number : Token} (hlead : number.lead = [])
    (hline : .char '\n' ∉ sign.text ++ number.text) : keptText [sign, number] = sign.text ++ number.text := by
  have hsource : sourceText [sign, number] = sign.text ++ number.text := by
    simp [sourceText, Token.leadText, hlead]
  rw [keptText_eq (by rwa [hsource]), hsource]

theorem word_of_keyword (h : t ∈ keywordTypes) : isWord t ∧ .char '\n' ∉ t := by
  have hall : ∀ word ∈ keywordTypes, isWord word ∧ .char '\n' ∉ word := by decide
  exact hall t h

theorem written_keyword (h : t ∈ keywordTypes) : Written (Shape.text t) t := by
  obtain ⟨hword, hline⟩ := word_of_keyword h
  refine .of_operand nofun (.of_isWord hword) fun lead => ?_
  refine ⟨.verbatim [⟨lead, .word, t⟩], _, .word hword, (ReadsPrimary.keyword rfl h).operand, ?_⟩
  rw [ofType, keptText_single hline]
  exact .refl _

theorem written_literal (h : isString t ∨ isNumber t) (hline : .char '\n' ∉ t) : Written (Shape.text t) t := by
  have hread (lead : List Trivia) (kind : Kind) :
      (ofType (.verbatim [⟨lead, kind, t⟩])).Alike (Shape.text t) := by
    rw [ofType, keptText_single hline]
    exact .refl _
  rcases h with hstring | hnumber
  · refine .of_operand nofun (.of_isString hstring) fun lead => ?_
    exact ⟨_, _, .string hstring, (ReadsPrimary.literal (.inl rfl)).operand, hread lead .string⟩
  · refine .of_operand nofun (.of_isNumber hnumber) fun lead => ?_
    exact ⟨_, _, .number hnumber, (ReadsPrimary.literal (.inr rfl)).operand, hread lead .number⟩

theorem written_signed {sign : Char} (hsign : sign = '+' ∨ sign = '-') (h : isNumber t) (hline : .char '\n' ∉ t) :
    Written (Shape.text (.char sign :: t)) (.char sign :: t) := by
  have hvisible : Visible (.char sign :: t) := by
    rcases hsign with rfl | rfl <;> exact ⟨_, t, rfl, by decide⟩
  refine .of_operand nofun hvisible fun lead => ?_
  have hnumber : Lexes [] t [⟨[], .number, t⟩] := .number h
  refine ⟨.verbatim [⟨lead, .mark, [.char sign]⟩, ⟨[], .number, t⟩], _, hnumber.mark fun regexAllowed rest _ => ?_,
    (ReadsPrimary.signed ?_ rfl).operand, ?_⟩
  · have hother : (t ++ rest).head? ≠ some (.char sign) := by
      cases t with
      | nil => cases h
      | cons c t =>
        have hne : c ≠ .char sign := by
          rcases hsign with rfl | rfl <;> exact ne_first_of_isNumber h (by decide) (by decide)
        simpa using hne
    exact lexeme_sign (hsign.imp (congrArg _) (congrArg _)) hother regexAllowed
  · rcases hsign with rfl | rfl
    · exact .inr rfl
    · exact .inl rfl
  · have hplain : .char '\n' ∉ [.char sign] ++ t := by
      rcases hsign with rfl | rfl <;> simpa using hline
    rw [ofType, keptText_pair rfl hplain]
    exact .refl _

theorem written_leaf : ∀ {source : List Token}, isLeaf source →
    Written (Shape.text (keptText source)) (keptText source)
  | [token], h => by
    simp only [isLeaf, Bool.or_eq_true, Bool.and_eq_true, Bool.not_eq_true', List.contains_eq_mem,
      decide_eq_true_eq, decide_eq_false_iff_not] at h
    rcases h with hkeyword | ⟨hliteral, hline⟩
    · rw [keptText_single (word_of_keyword hkeyword).2]
      exact written_keyword hkeyword
    · rw [keptText_single hline]
      exact written_literal hliteral hline
  | [sign, number], h => by
    simp only [isLeaf, Bool.or_eq_true, Bool.and_eq_true, Bool.not_eq_true', List.contains_eq_mem, beq_iff_eq,
      List.isEmpty_iff, decide_eq_false_iff_not] at h
    obtain ⟨⟨⟨hsign, hlead⟩, hnumber⟩, hline⟩ := h
    have hplain : .char '\n' ∉ sign.text ++ number.text := by
      rcases hsign with hsign | hsign <;> rw [hsign] <;> simpa [Text.ofString, Text.ofChars] using hline
    rw [keptText_pair hlead hplain]
    rcases hsign with hsign | hsign
    · rw [hsign]
      exact written_signed (.inl rfl) hnumber hline
    · rw [hsign]
      exact written_signed (.inr rfl) hnumber hline

theorem written_name (h : isTypeName t) : Written (Shape.name t) t := by
  obtain ⟨hword, hfree⟩ := isTypeName_iff.mp h
  refine .of_operand nofun (.of_isWord hword) fun lead => ?_
  refine ⟨.name ⟨lead, .word, t⟩, _, .word hword, (ReadsPrimary.named ⟨rfl, hfree⟩).operand, ?_⟩
  rw [ofType]
  exact .refl _

end Leaves

section Generics

theorem isDots_of_isDotted {dots : List Token} (h : isDotted dots) : IsDots dots := by
  induction dots using isDotted.induct with
  | case1 => trivial
  | case2 => cases h
  | case3 point word dots ih =>
    simp only [isDotted, Bool.and_eq_true, beq_iff_eq] at h
    obtain ⟨⟨⟨⟨rfl, -⟩, hword⟩, -⟩, hdots⟩ := h
    exact ⟨rfl, hword, ih hdots⟩

theorem lexes_dotted {token : Token} {dots us : List Token} {u : Text} (hword : isWord token.text)
    (hdots : isDotted dots) (hu : Lexes [] u us) (hbounded : Bounded u) (lead : List Trivia) :
    Lexes lead (sourceText (token :: dots) ++ u) (⟨lead, .word, token.text⟩ :: (dots ++ us)) := by
  induction dots using isDotted.induct generalizing token lead with
  | case1 =>
    have hname : Lexes lead token.text [⟨lead, .word, token.text⟩] := .word hword
    simpa [sourceText] using hname.append hu hbounded
  | case2 => cases hdots
  | case3 point word dots ih =>
    obtain ⟨wordLead, wordKind, wordText⟩ := word
    simp only [isDotted, Bool.and_eq_true, beq_iff_eq, List.isEmpty_iff] at hdots
    obtain ⟨⟨⟨⟨rfl, rfl⟩, rfl⟩, hnext⟩, hdots⟩ := hdots
    have hrest := @ih ⟨[], .word, wordText⟩ hnext hdots []
    cases wordText with
    | nil => cases hnext
    | cons c wordText =>
      have hstart : isWordStart c := by
        simp only [isWord, Bool.and_eq_true] at hnext
        exact hnext.1
      have heq : sourceText (token :: ⟨[], .mark, "."⟩ :: ⟨[], .word, c :: wordText⟩ :: dots) ++ u =
          token.text ++ .char '.' :: c :: (wordText ++ (dots.flatMap fun dot => dot.leadText ++ dot.text) ++ u) := by
        simp [sourceText, Token.leadText, Text.ofString, Text.ofChars]
      rw [heq]
      exact .dotted hword hstart hrest

theorem written_generic {token : Token} {dots : List Token} (htoken : isTypeName token.text)
    (hdots : isDotted dots) (h : List.Forall₂ Written shapes texts) (hne : shapes ≠ []) :
    Written (.generic (.ofName (sourceText (token :: dots))) shapes)
      (sourceText (token :: dots) ++ "<" ++ Text.join ", " texts ++ ">") := by
  obtain ⟨hword, hfree⟩ := isTypeName_iff.mp htoken
  have hvisible : Visible (sourceText (token :: dots)) := (Visible.of_isWord hword).append
  rw [List.append_assoc, List.append_assoc]
  refine .of_operand nofun hvisible.append fun lead => ?_
  obtain ⟨types, ts, hlexes, hreads, -, halike, -⟩ := lexes_list '>' rfl
    (fun h hclose => ReadsArguments.last h hclose) (fun h hcomma hs hbegins => .cons h hcomma hs hbegins) h hne []
  have hopen : Lexes [] ("<" ++ (Text.join ", " texts ++ ">")) (⟨[], .mark, "<"⟩ :: ts) := .singleMark rfl hlexes
  have hname : IsTypeName ⟨lead, .word, token.text⟩ := ⟨rfl, hfree⟩
  have hangle : Token.isMark "<" ⟨[], .mark, "<"⟩ := rfl
  refine ⟨.apply (⟨lead, .word, token.text⟩ :: dots) types, _,
    lexes_dotted hword hdots hopen (bounded_cons (by decide)) lead,
    (ReadsPrimary.apply hname (isDots_of_isDotted hdots) hangle hreads).operand, ?_⟩
  rw [ofType]
  exact .generic _ halike

end Generics

end Render

end HookGen
