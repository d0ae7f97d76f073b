import HookGen.Proofs.Render.Written

/-!
Texts of object types: what is written for their properties is read as entries with the same names and
modifiers.
-/

namespace HookGen

open Source Shape

namespace Render

variable {shape : Shape} {member : Member} {members : List Member} {t : Text} {texts : List Text}

theorem visible_of_isPropertyName (h : isPropertyName t) : Visible t := by
  simp only [isPropertyName, Bool.or_eq_true] at h
  rcases h with (hword | hnumber) | hstring
  · exact .of_isWord hword
  · exact .of_isNumber hnumber
  · exact .of_isString hstring

theorem lexes_propertyName (h : isPropertyName t) (lead : List Trivia) :
    ∃ kind, Lexes lead t [⟨lead, kind, t⟩] ∧ isSimpleName ⟨lead, kind, t⟩ := by
  simp only [isPropertyName, Bool.or_eq_true] at h
  rcases h with (hword | hnumber) | hstring
  · exact ⟨.word, .word hword, rfl⟩
  · exact ⟨.number, .number hnumber, rfl⟩
  · exact ⟨.string, .string hstring, rfl⟩

-- A text that is read as an entry for the property.
structure WrittenMember (member : Member) (t : Text) : Prop where
  visible : Visible t
  reads : ∀ lead, ∃ name type ts, Lexes lead t ts ∧
    ReadsEntry (.property [name] member.optional member.readonly (some type)) ts ∧
    name.text = member.name ∧ (ofType type).Alike member.shape

-- What is written between the name of a property and its type.
def colonText (optional : Bool) : Text := if optional then "?: " else ": "

theorem bounded_colonText {optional : Bool} : Bounded (colonText optional ++ t) := by
  cases optional <;> exact bounded_cons (by decide)

theorem lexes_colonText (h : Written shape t) (optional : Bool) :
    ∃ colons type ts, Lexes [] (colonText optional ++ t) (colons ++ ts) ∧ Colons optional colons ∧
      ReadsType type ts ∧ (ofType type).Alike shape := by
  obtain ⟨type, ts, hlexes, hreads, halike⟩ := h.reads [.blank " "]
  have hblank : Lexes [] ((" " : Text) ++ t) ts := .blank (by decide) (by decide) hlexes h.visible
  have hcolon : Lexes [] (.char ':' :: ((" " : Text) ++ t)) (⟨[], .mark, ":"⟩ :: ts) := .singleMark rfl hblank
  have hisColon : Token.isMark ":" ⟨[], .mark, ":"⟩ := rfl
  cases optional with
  | false => exact ⟨[⟨[], .mark, ":"⟩], type, ts, hcolon, .colon hisColon, hreads, halike⟩
  | true =>
    have hmark : Lexes [] (.char '?' :: .char ':' :: ((" " : Text) ++ t))
        (⟨[], .mark, "?"⟩ :: ⟨[], .mark, ":"⟩ :: ts) := .singleMark rfl hcolon
    have hisMark : Token.isMark "?" ⟨[], .mark, "?"⟩ := rfl
    exact ⟨[⟨[], .mark, "?"⟩, ⟨[], .mark, ":"⟩], type, ts, hmark, .optional hisMark hisColon, hreads, halike⟩

theorem written_member (hname : isPropertyName member.name) (h : Written member.shape t) :
    WrittenMember member (memberHead member ++ t) := by
  obtain ⟨name, shape, optional, readonly⟩ := member
  obtain ⟨colons, type, ts, hlexes, hcolons, hreads, halike⟩ := lexes_colonText h optional
  have hvisible := visible_of_isPropertyName hname
  have hnamed (lead : List Trivia) : ∃ kind, isSimpleName ⟨lead, kind, name⟩ ∧
      Lexes lead (name ++ (colonText optional ++ t)) (⟨lead, kind, name⟩ :: (colons ++ ts)) := by
    obtain ⟨kind, hfirst, hsimple⟩ := lexes_propertyName hname lead
    exact ⟨kind, hsimple, hfirst.append hlexes bounded_colonText⟩
  cases readonly with
  | false =>
    have heq : memberHead (.mk name shape optional false) ++ t = name ++ (colonText optional ++ t) :=
      List.append_assoc ..
    rw [heq]
    refine ⟨hvisible.append, fun lead => ?_⟩
    obtain ⟨kind, hsimple, hall⟩ := hnamed lead
    exact ⟨_, type, _, hall, .property hsimple hcolons hreads, rfl, halike⟩
  | true =>
    have heq : memberHead (.mk name shape optional true) ++ t =
        "readonly" ++ ((" " : Text) ++ (name ++ (colonText optional ++ t))) := by
      have hmodifier : ("readonly " : Text) = "readonly" ++ (" " : Text) := rfl
      simp only [memberHead, Member.name, Member.readonly, Member.optional, if_true, hmodifier, List.append_assoc]
      rfl
    rw [heq]
    have hword : isWord "readonly" := by decide
    refine ⟨(Visible.of_isWord hword).append, fun lead => ?_⟩
    obtain ⟨kind, hsimple, hall⟩ := hnamed [.blank " "]
    have hblank : Lexes [] ((" " : Text) ++ (name ++ (colonText optional ++ t)))
        (⟨[.blank " "], kind, name⟩ :: (colons ++ ts)) := .blank (by decide) (by decide) hall hvisible.append
    have hfirst : Lexes lead "readonly" [⟨lead, .word, "readonly"⟩] := .word hword
    have hmodifier : Token.isWord "readonly" ⟨lead, .word, "readonly"⟩ := by simp [Token.isWord]
    exact ⟨_, type, _, hfirst.append hblank (bounded_cons (by decide)),
      .readonlyProperty hmodifier hsimple rfl hcolons hreads, rfl, halike⟩

-- Entries that are read as properties like the given ones, and as nothing else.
structure EntriesLike (entries : List Entry) (members : List Member) : Prop where
  members : List.Forall₂ MemberAlike (membersOf entries) members
  signatures : signaturesOf entries = []

theorem EntriesLike.nil : EntriesLike [] [] := ⟨.nil, rfl⟩

theorem EntriesLike.cons {name : Token} {type : TypeExpr} {entries : List Entry} (hname : name.text = member.name)
    (halike : (ofType type).Alike member.shape) (h : EntriesLike entries members) :
    EntriesLike (.property [name] member.optional member.readonly (some type) :: entries) (member :: members) where
  members := by
    have hsource : sourceText [name] = member.name := by simpa [sourceText] using hname
    exact .cons ⟨hsource, halike, rfl, rfl⟩ h.members
  signatures := h.signatures

section Layout

variable {indent : Int} {ts : List Token}

-- An entry on a line of its own.
def layoutLine (indent : Int) (entry : Text) : Text := indentation (indent + 1) ++ entry ++ ";\n"

-- A line break with an indentation, in front of something.
theorem lexes_line (hvisible : Visible t) (h : Lexes [.blank ("\n" ++ indentation indent)] t ts) :
    Lexes [] ("\n" ++ indentation indent ++ t) ts := by
  refine .blank (List.cons_ne_nil _ _) ?_ h hvisible
  intro c hc
  have hcases : c = '\n' ∨ c = ' ' := by
    rcases List.mem_append.mp hc with hbreak | hspace
    · exact .inl (List.mem_singleton.mp hbreak)
    · exact .inr (List.eq_of_mem_replicate hspace)
  rcases hcases with rfl | rfl <;> decide

-- Entries on lines of their own with the closing brace.
theorem lexes_lines (indent : Int) (h : List.Forall₂ WrittenMember members texts) :
    ∃ entries ts, EntriesLike entries members ∧ ReadsEntries entries ts ∧
      Lexes [] (.char '\n' :: (texts.flatMap (layoutLine indent) ++ indentation indent ++ "\x7d")) ts := by
  induction h with
  | nil =>
    have hclose : Lexes [.blank ("\n" ++ indentation indent)] "\x7d"
        [⟨[.blank ("\n" ++ indentation indent)], .mark, "\x7d"⟩] := .singleMark rfl .nil
    have hisBrace : Token.isMark "\x7d" ⟨[.blank ("\n" ++ indentation indent)], .mark, "\x7d"⟩ := by
      simp [Token.isMark]
    exact ⟨[], _, .nil, .close hisBrace, lexes_line (.of_isSingleMark rfl) hclose⟩
  | @cons member t members texts hmember _ ih =>
    obtain ⟨entries, us, hlike, hentries, hrest⟩ := ih
    obtain ⟨name, type, ts, hlexes, hentry, hname, halike⟩ := hmember.reads [.blank ("\n" ++ indentation (indent + 1))]
    have hend : Lexes [] (.char ';' :: .char '\n' ::
        (texts.flatMap (layoutLine indent) ++ indentation indent ++ "\x7d"))
        (⟨[], .mark, ";"⟩ :: us) := .singleMark rfl hrest
    have hisEnd : Token.isMark ";" ⟨[], .mark, ";"⟩ := rfl
    have hline := lexes_line hmember.visible.append (hlexes.append hend (bounded_cons (by decide)))
    refine ⟨_, _, hlike.cons hname halike, .cons hentry hisEnd hentries, ?_⟩
    simpa [layoutLine, Text.ofString, Text.ofChars] using hline

-- The text of an object type behind its opening brace.
theorem lexes_layoutObject (indent : Int) (h : List.Forall₂ WrittenMember members texts) :
    ∃ entries u ts, layoutObject indent texts = .char '\x7b' :: u ∧ EntriesLike entries members ∧
      ReadsEntries entries ts ∧ Lexes [] u ts := by
  cases h with
  | nil =>
    have hclose : Lexes [] "\x7d" [⟨[], .mark, "\x7d"⟩] := .singleMark rfl .nil
    have hisBrace : Token.isMark "\x7d" ⟨[], .mark, "\x7d"⟩ := rfl
    exact ⟨[], _, _, rfl, .nil, .close hisBrace, hclose⟩
  | @cons member t members texts hmember hmembers =>
    cases hmembers with
    | nil =>
      obtain ⟨name, type, ts, hlexes, hentry, hname, halike⟩ := hmember.reads [.blank " "]
      have hclose : Lexes [.blank " "] "\x7d" [⟨[.blank " "], .mark, "\x7d"⟩] := .singleMark rfl .nil
      have hisBrace : Token.isMark "\x7d" ⟨[.blank " "], .mark, "\x7d"⟩ := rfl
      have hend : Lexes [] ((" " : Text) ++ "\x7d") [⟨[.blank " "], .mark, "\x7d"⟩] :=
        .blank (by decide) (by decide) hclose (.of_isSingleMark rfl)
      have hline : Lexes [] ((" " : Text) ++ (t ++ ((" " : Text) ++ "\x7d"))) (ts ++ [⟨[.blank " "], .mark, "\x7d"⟩]) :=
        .blank (by decide) (by decide) (hlexes.append hend (bounded_cons (by decide))) hmember.visible.append
      refine ⟨_, _, _, ?_, EntriesLike.nil.cons hname halike, .last hentry hisBrace, hline⟩
      simp [layoutObject, Text.ofString, Text.ofChars]
    | cons hsecond hothers =>
      obtain ⟨entries, ts, hlike, hentries, hlines⟩ := lexes_lines indent (.cons hmember (.cons hsecond hothers))
      exact ⟨entries, _, ts, rfl, hlike, hentries, hlines⟩

theorem written_object (h : List.Forall₂ WrittenMember members texts) :
    Written (.object .none members []) (layoutObject indent texts) := by
  obtain ⟨entries, u, ts, heq, hlike, hentries, hlexes⟩ := lexes_layoutObject indent h
  rw [heq]
  refine .of_operand nofun (.of_isSingleMark rfl) fun lead => ?_
  refine ⟨.object entries, _, .singleMark rfl hlexes, (ReadsPrimary.object rfl hentries).operand, ?_⟩
  rw [ofType, hlike.signatures]
  exact .object .none [] hlike.members

end Layout

end Render

end HookGen
