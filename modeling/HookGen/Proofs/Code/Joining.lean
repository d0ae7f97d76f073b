import HookGen.Code.Layout
import HookGen.Proofs.Path
import HookGen.Proofs.Text.Words
import Mathlib.Data.List.Chain

/-!
Joining each `else` to the brace in front of it. What comes of the lines of a text is said without the order
in which they are gone through: each line stays as it is, but a line that is a closing brace takes in the one
behind it if that begins with `else`. So nothing but blanks changes, no brace is left in front of an `else`,
and joining once more finds nothing to do.
-/

namespace HookGen

namespace Text

variable {t word : Text} {c : CodePoint}

theorem mem_dropWhile {p : CodePoint → Bool} (hc : c ∈ t) (hp : p c = false) : c ∈ t.dropWhile p := by
  rw [← List.takeWhile_append_dropWhile (p := p) (l := t), List.mem_append] at hc
  rcases hc with htake | hdrop
  · rw [List.mem_takeWhile_imp htake] at hp
    cases hp
  · exact hdrop

theorem mem_trim (hc : c ∈ t) (hblank : c.isBlank = false) : c ∈ t.trim := by
  rw [trim, List.mem_reverse]
  exact mem_dropWhile (List.mem_reverse.mpr (mem_dropWhile hc hblank)) hblank

theorem trim_prefix_dropWhile (t : Text) : t.trim <+: t.dropWhile CodePoint.isBlank := by
  have hsuffix := List.dropWhile_suffix CodePoint.isBlank (l := (t.dropWhile CodePoint.isBlank).reverse)
  simpa [trim] using List.reverse_prefix.mpr hsuffix

theorem trim_subset (t : Text) : t.trim ⊆ t :=
  List.Subset.trans (trim_prefix_dropWhile t).subset (List.dropWhile_suffix _).subset

-- Blanks at the end do not matter for what a text begins with, if that does not end with a blank itself.
theorem prefix_trim_iff (hword : word.getLast?.any isSolid) :
    word <+: t.trim ↔ word <+: t.dropWhile CodePoint.isBlank := by
  constructor
  · exact fun h => h.trans (trim_prefix_dropWhile t)
  · rintro ⟨rest, hrest⟩
    have hstops : word.reverse.dropWhile CodePoint.isBlank = word.reverse := by
      obtain ⟨c, hlast, hc⟩ := (Option.any_eq_true _ _).mp hword
      obtain ⟨front, rfl⟩ := List.getLast?_eq_some_iff.mp hlast
      rw [List.reverse_concat, List.dropWhile_cons_of_neg (by simpa [isSolid] using hc)]
    rw [trim, ← hrest, List.reverse_append, List.dropWhile_append, hstops]
    split
    · simp
    · rw [List.reverse_append, List.reverse_reverse]
      exact List.prefix_append ..

theorem filter_dropWhile (t : Text) : (t.dropWhile CodePoint.isBlank).filter isSolid = t.filter isSolid := by
  have hblank : (t.takeWhile CodePoint.isBlank).filter isSolid = [] := by
    rw [List.filter_eq_nil_iff]
    intro c hc
    simp [isSolid, List.mem_takeWhile_imp hc]
  conv_rhs => rw [← List.takeWhile_append_dropWhile (p := CodePoint.isBlank) (l := t)]
  rw [List.filter_append, hblank, List.nil_append]

theorem filter_trim (t : Text) : t.trim.filter isSolid = t.filter isSolid := by
  rw [trim, List.filter_reverse, filter_dropWhile, List.filter_reverse, List.reverse_reverse, filter_dropWhile]

end Text

namespace Code

theorem join_cons (separator first : Text) (rest : List Text) :
    Text.join separator (first :: rest) = first ++ rest.flatMap (separator ++ ·) := by
  induction rest generalizing first with
  | nil => simp [Text.join_singleton]
  | cons second rest ih =>
    rw [Text.join_cons_cons, ih second, List.flatMap_cons, List.append_assoc, List.append_assoc]

theorem joinLines_cons (first : Text) (rest : List Text) :
    Text.joinLines (first :: rest) = first ++ rest.flatMap (Text.ofString "\n" ++ ·) := join_cons ..

theorem joinLines_lines (t : Text) : Text.joinLines t.lines = t := by
  induction t with
  | nil => rfl
  | cons c t ih =>
    rw [Text.lines] at ih ⊢
    obtain ⟨piece, pieces, hpieces⟩ := List.exists_cons_of_ne_nil (Text.splitOn_ne_nil '\n' t)
    rw [Text.splitOn]
    split
    · rename_i hc
      rw [joinLines_cons, hpieces, List.flatMap_cons, List.append_assoc, ← joinLines_cons, ← hpieces, ih, hc]
      rfl
    · rw [hpieces]
      rw [hpieces, joinLines_cons] at ih
      rw [joinLines_cons, List.cons_append, ih]

-- Line feeds are blank, so the rest of a text is that of its lines.
theorem filter_joinLines (lines : List Text) :
    (Text.joinLines lines).filter Text.isSolid = lines.flatMap (·.filter Text.isSolid) := by
  cases lines with
  | nil => rfl
  | cons first rest =>
    have hfeed : (Text.ofString "\n").filter Text.isSolid = [] := by decide
    rw [joinLines_cons, List.filter_append, List.filter_flatMap, List.flatMap_cons]
    simp only [List.filter_append, hfeed, List.nil_append]

-- A line that is a closing brace, but for the blanks around it.
def ClosesBlock (line : Text) : Prop := line.trim = "\x7d"

-- A line that begins with `else` behind its first blanks, be it the keyword or a longer word.
def BeginsElse (line : Text) : Prop := ("else" : Text) <+: line.dropWhile CodePoint.isBlank

-- Two lines, one behind the other, that are not to be joined.
def Apart (last line : Text) : Prop := ¬ (ClosesBlock last ∧ BeginsElse line)

instance (line : Text) : Decidable (ClosesBlock line) := inferInstanceAs (Decidable (_ = _))

instance (line : Text) : Decidable (BeginsElse line) := inferInstanceAs (Decidable (_ <+: _))

instance (last line : Text) : Decidable (Apart last line) := inferInstanceAs (Decidable (¬ _))

-- What comes of lines when each `else` is joined to the brace in front of it.
inductive Joined : List Text → List Text → Prop
  | nil : Joined [] []
  | keep {line : Text} {rest joined : List Text} (hapart : ∀ next ∈ rest.head?, Apart line next)
    (hrest : Joined rest joined) : Joined (line :: rest) (line :: joined)
  | join {brace line : Text} {rest joined : List Text} (hbrace : ClosesBlock brace) (helse : BeginsElse line)
    (hrest : Joined rest joined) : Joined (brace :: line :: rest) ((brace ++ " " ++ line.trim) :: joined)

section Lines

variable {line brace : Text}

theorem joins_iff {last : Text} : (Text.startsWith "else" line.trim && last.trim == ("\x7d" : Text)) = true ↔
    ClosesBlock last ∧ BeginsElse line := by
  rw [Bool.and_eq_true, beq_iff_eq, Text.startsWith, List.isPrefixOf_iff_prefix, Text.prefix_trim_iff (by decide)]
  exact and_comm

theorem not_closesBlock_of_mem {c : CodePoint} (hc : c ∈ line) (hblank : c.isBlank = false)
    (hbrace : c ≠ .char '\x7d') : ¬ ClosesBlock line := by
  intro hcloses
  have hmem := Text.mem_trim hc hblank
  rw [hcloses] at hmem
  exact hbrace (List.mem_singleton.mp hmem)

-- A line that has taken in an `else` is no closing brace any more, so it takes in no second one.
theorem BeginsElse.not_closesBlock (h : BeginsElse line) (before : Text) : ¬ ClosesBlock (before ++ line.trim) := by
  have hword : ("else" : Text) <+: line.trim := (Text.prefix_trim_iff (by decide)).mpr h
  have hmem : .char 'e' ∈ line.trim := hword.subset (by decide)
  exact not_closesBlock_of_mem (List.mem_append_right before hmem) (by decide) (by decide)

-- Nor does it become an `else` itself.
theorem ClosesBlock.not_beginsElse (h : ClosesBlock brace) (behind : Text) : ¬ BeginsElse (brace ++ behind) := by
  have hbrace : ("\x7d" : Text) <+: brace.dropWhile CodePoint.isBlank := h ▸ Text.trim_prefix_dropWhile brace
  obtain ⟨rest, hrest⟩ := hbrace
  intro helse
  rw [BeginsElse, List.dropWhile_append, ← hrest] at helse
  obtain ⟨more, hmore⟩ := helse
  have hfirst : some (CodePoint.char 'e') = some (.char '\x7d') := congrArg List.head? hmore
  exact absurd hfirst (by decide)

end Lines

section Joining

variable {lines joined : List Text}

theorem Joined.ne_nil (h : Joined lines joined) (hne : lines ≠ []) : joined ≠ [] := by
  cases h with
  | nil => exact hne
  | keep => exact List.cons_ne_nil _ _
  | join => exact List.cons_ne_nil _ _

theorem Joined.exists_cons {line : Text} (h : Joined (line :: lines) joined) (hline : ¬ ClosesBlock line) :
    ∃ others, joined = line :: others ∧ Joined lines others := by
  cases h with
  | keep _ hrest => exact ⟨_, rfl, hrest⟩
  | join hbrace => exact absurd hbrace hline

theorem Joined.filter_isSolid (h : Joined lines joined) :
    joined.flatMap (·.filter Text.isSolid) = lines.flatMap (·.filter Text.isSolid) := by
  induction h with
  | nil => rfl
  | keep _ _ ih => rw [List.flatMap_cons, List.flatMap_cons, ih]
  | join _ _ _ ih =>
    have hspace : (Text.ofString " ").filter Text.isSolid = [] := by decide
    rw [List.flatMap_cons, List.flatMap_cons, List.flatMap_cons, ih, List.filter_append, List.filter_append, hspace,
      List.append_nil, Text.filter_trim, List.append_assoc]

theorem Joined.newline_notMem (h : Joined lines joined) (hlines : ∀ line ∈ lines, .char '\n' ∉ line) :
    ∀ line ∈ joined, .char '\n' ∉ line := by
  induction h with
  | nil => exact hlines
  | keep _ _ ih =>
    obtain ⟨hline, hrest⟩ := List.forall_mem_cons.mp hlines
    exact List.forall_mem_cons.mpr ⟨hline, ih hrest⟩
  | @join brace line rest joined _ _ _ ih =>
    obtain ⟨hbrace, hmore⟩ := List.forall_mem_cons.mp hlines
    obtain ⟨hline, hrest⟩ := List.forall_mem_cons.mp hmore
    refine List.forall_mem_cons.mpr ⟨?_, ih hrest⟩
    have hspace : .char '\n' ∉ Text.ofString " " := by decide
    simp only [List.mem_append, not_or]
    exact ⟨⟨hbrace, hspace⟩, fun hmem => hline (Text.trim_subset line hmem)⟩

theorem Joined.apart_head {line : Text} (h : Joined lines joined) (hapart : ∀ next ∈ lines.head?, Apart line next) :
    ∀ next ∈ joined.head?, Apart line next := by
  cases h with
  | nil => exact hapart
  | keep => exact hapart
  | join hbrace =>
    rintro _ ⟨rfl⟩ ⟨_, helse⟩
    rw [List.append_assoc] at helse
    exact hbrace.not_beginsElse _ helse

-- No two neighbours that are to be joined are left over.
theorem Joined.isChain (h : Joined lines joined) : joined.IsChain Apart := by
  induction h with
  | nil => exact .nil
  | keep hapart hrest ih => exact List.isChain_cons.mpr ⟨hrest.apart_head hapart, ih⟩
  | join _ helse _ ih => exact List.isChain_cons.mpr ⟨fun _ _ hpair => helse.not_closesBlock _ hpair.1, ih⟩

-- Where there are none to begin with, the lines stay.
theorem Joined.eq_of_isChain (h : Joined lines joined) (hlines : lines.IsChain Apart) : joined = lines := by
  induction h with
  | nil => rfl
  | keep _ _ ih => rw [ih hlines.tail]
  | join hbrace helse => exact absurd ⟨hbrace, helse⟩ (List.isChain_cons_cons.mp hlines).1

end Joining

-- One step of the loop, which looks at the last of the lines it has put down.
theorem joinElseOnto_concat (before : List Text) (last line : Text) (rest : List Text) :
    (Apart last line → joinElseOnto (before ++ [last]) (line :: rest) =
      joinElseOnto (before ++ [last] ++ [line]) rest) ∧
    (¬ Apart last line → joinElseOnto (before ++ [last]) (line :: rest) =
      joinElseOnto (before ++ [last ++ " " ++ line.trim]) rest) := by
  rw [joinElseOnto, List.getLast?_concat, List.dropLast_concat]
  constructor
  · intro hapart
    exact if_neg fun h => hapart (joins_iff.mp h)
  · intro hjoins
    exact if_pos (joins_iff.mpr (not_not.mp hjoins))

-- The last line that is put down is still open: the first of those to come may be joined to it. What stands
-- before it is never touched again.
theorem exists_joined (before : List Text) (last : Text) (lines : List Text) :
    ∃ joined, joinElseOnto (before ++ [last]) lines = before ++ joined ∧ Joined (last :: lines) joined := by
  induction lines generalizing before last with
  | nil => exact ⟨[last], rfl, .keep (by simp) .nil⟩
  | cons line rest ih =>
    obtain ⟨hkeeps, hjoins⟩ := joinElseOnto_concat before last line rest
    by_cases hapart : Apart last line
    · obtain ⟨joined, heq, hjoined⟩ := ih (before ++ [last]) line
      refine ⟨last :: joined, ?_, .keep (by simpa using hapart) hjoined⟩
      rw [hkeeps hapart, heq, List.append_assoc, List.singleton_append]
    · obtain ⟨hbrace, helse⟩ := not_not.mp hapart
      obtain ⟨joined, heq, hjoined⟩ := ih before (last ++ " " ++ line.trim)
      obtain ⟨others, rfl, hothers⟩ := hjoined.exists_cons (helse.not_closesBlock _)
      exact ⟨_, (hjoins hapart).trans heq, .join hbrace helse hothers⟩

theorem joined_joinElseOnto (lines : List Text) : Joined lines (joinElseOnto [] lines) := by
  cases lines with
  | nil => exact .nil
  | cons line rest =>
    obtain ⟨joined, heq, hjoined⟩ := exists_joined [] line rest
    rw [joinElseOnto]
    exact heq ▸ hjoined

theorem lines_joinElse (code : Text) : (joinElse code).lines = joinElseOnto [] code.lines := by
  have hjoined := joined_joinElseOnto code.lines
  exact Text.splitOn_join (hjoined.ne_nil (Text.splitOn_ne_nil _ _))
    (hjoined.newline_notMem fun _ hline => Text.notMem_of_mem_splitOn hline)

theorem joined_lines (code : Text) : Joined code.lines (joinElse code).lines :=
  lines_joinElse code ▸ joined_joinElseOnto code.lines

-- The texts that have nothing to join are those that joining leaves alone.
theorem joinElse_eq_self_iff (code : Text) : joinElse code = code ↔ code.lines.IsChain Apart := by
  constructor
  · intro h
    have hchain := (joined_lines code).isChain
    rwa [h] at hchain
  · intro h
    rw [joinElse, (joined_joinElseOnto code.lines).eq_of_isChain h, joinLines_lines]

-- Each line is kept but for the braces that take in an `else`, whereby nothing but blanks comes or goes. No such
-- brace is left in front of an `else`, so that joining twice is joining once.
theorem joinElse_settles (code : Text) :
    Joined code.lines (joinElse code).lines ∧
    (joinElse code).filter Text.isSolid = code.filter Text.isSolid ∧
    (joinElse code).lines.IsChain Apart ∧
    joinElse (joinElse code) = joinElse code := by
  have hjoined := joined_lines code
  refine ⟨hjoined, ?_, hjoined.isChain, (joinElse_eq_self_iff _).mpr hjoined.isChain⟩
  calc (joinElse code).filter Text.isSolid
      = (joinElse code).lines.flatMap (·.filter Text.isSolid) := by rw [← filter_joinLines, joinLines_lines]
    _ = code.lines.flatMap (·.filter Text.isSolid) := hjoined.filter_isSolid
    _ = code.filter Text.isSolid := by rw [← filter_joinLines, joinLines_lines]

-- The second of two `else`, and one behind an empty line, stay where they are.
example : joinElse " \x7d\n  else a\nelse\n\x7d\n\nelse" = " \x7d else a\nelse\n\x7d\n\nelse" := by decide

end Code

end HookGen
