import HookGen.Proofs.Json.Strings

/-!
Reading back a printed value without numbers: its texts are read back, and of several fields with one
name the last one counts.
-/

namespace HookGen.Json

open Text

-- The fields of an object one after the other.
def merge (fields : List (Text × Json)) : List (Text × Json) :=
  fields.foldl (fun merged field => setField field.1 field.2 merged) []

mutual

-- What a value is once it was printed and read.
def reread (asciiOnly : Bool) : Json → Json
  | .str t => .str (readBack asciiOnly t)
  | .arr elements => .arr (rereadElements asciiOnly elements)
  | .obj fields => .obj (merge (rereadFields asciiOnly fields))
  | value => value

def rereadElements (asciiOnly : Bool) : List Json → List Json
  | [] => []
  | element :: rest => reread asciiOnly element :: rereadElements asciiOnly rest

def rereadFields (asciiOnly : Bool) : List (Text × Json) → List (Text × Json)
  | [] => []
  | (name, value) :: rest =>
    (readBack asciiOnly name, reread asciiOnly value) :: rereadFields asciiOnly rest

end

mutual

-- A value without numbers.
def NumberFree : Json → Prop
  | .int _ => False
  | .float _ => False
  | .arr elements => NumberFreeElements elements
  | .obj fields => NumberFreeFields fields
  | _ => True

def NumberFreeElements : List Json → Prop
  | [] => True
  | element :: rest => NumberFree element ∧ NumberFreeElements rest

def NumberFreeFields : List (Text × Json) → Prop
  | [] => True
  | (_, value) :: rest => NumberFree value ∧ NumberFreeFields rest

end

variable {style : Style} {depth : Nat} {value : Json}

-- The text of a value at a depth, and that of what follows an element or a field.
def textAt (style : Style) (depth : Nat) (value : Json) : Text := (piecesAt style depth value).flatten

def elementsText (style : Style) (depth : Nat) (elements : List Json) : Text :=
  (elementPieces style depth (separator style depth) elements).flatten

def fieldsText (style : Style) (depth : Nat) (fields : List (Text × Json)) : Text :=
  (fieldPieces style depth fields).flatten

theorem flatten_elementPieces (lead : Text) (element : Json) (rest : List Json) :
    (elementPieces style depth lead (element :: rest)).flatten =
      lead ++ textAt style depth element ++ elementsText style depth rest := by
  have hatom {atom : Text} (h : atom? style element = some atom) :
      piecesAt style depth element = [atom] := by
    cases element with
    | arr elements =>
      cases elements with
      | nil => rw [piecesAt, h] <;> simp
      | cons first others => simp [atom?] at h
    | obj fields =>
      cases fields with
      | nil => rw [piecesAt, h] <;> simp
      | cons first others => simp [atom?] at h
    | _ => rw [piecesAt, h] <;> simp
  rw [elementPieces]
  cases h : atom? style element with
  | some atom => simp [textAt, elementsText, hatom h]
  | none => simp [textAt, elementsText]

theorem textAt_arr (element : Json) (rest : List Json) :
    textAt style depth (.arr (element :: rest)) =
      .char '[' :: (newline style (depth + 1) ++ (textAt style (depth + 1) element ++
        (elementsText style (depth + 1) rest ++ (newline style depth ++ [.char ']'])))) := by
  rw [textAt, piecesAt, List.flatten_append, flatten_elementPieces]
  simp [Text.ofString, Text.ofChars]

theorem elementsText_cons (element : Json) (rest : List Json) :
    elementsText style depth (element :: rest) =
      separator style depth ++ (textAt style depth element ++ elementsText style depth rest) := by
  rw [elementsText, flatten_elementPieces, List.append_assoc]

theorem fieldsText_cons (name : Text) (value : Json) (rest : List (Text × Json)) :
    fieldsText style depth ((name, value) :: rest) =
      quote style.asciiOnly name ++ (.char ':' :: .char ' ' :: (textAt style depth value ++
        ((if rest.isEmpty then [] else separator style depth) ++ fieldsText style depth rest))) := by
  rw [fieldsText, fieldPieces]
  cases rest <;> simp [textAt, fieldsText, Text.ofString, Text.ofChars]

theorem textAt_obj (field : Text × Json) (rest : List (Text × Json)) :
    textAt style depth (.obj (field :: rest)) =
      .char '\x7b' :: (newline style (depth + 1) ++ (fieldsText style (depth + 1) (field :: rest) ++
        (newline style depth ++ [.char '\x7d']))) := by
  rw [textAt, piecesAt]
  simp [fieldsText, Text.ofString, Text.ofChars]

-- Every value begins with a code point that is no space and does not close a list.
theorem head_textAt (h : NumberFree value) : ∃ c rest, textAt style depth value = c :: rest ∧
    isSpace c = false ∧ c ≠ .char ']' ∧ c.toNat ≠ 0xFEFF := by
  cases value with
  | null => exact ⟨.char 'n', _, rfl, by decide⟩
  | bool flag =>
    cases flag
    · exact ⟨.char 'f', _, rfl, by decide⟩
    · exact ⟨.char 't', _, rfl, by decide⟩
  | int n => exact h.elim
  | float x => exact h.elim
  | str t => exact ⟨.char '"', _, rfl, by decide⟩
  | arr elements =>
    cases elements with
    | nil => exact ⟨.char '[', _, rfl, by decide⟩
    | cons first rest => exact ⟨.char '[', _, textAt_arr first rest, by decide⟩
  | obj fields =>
    cases fields with
    | nil => exact ⟨.char '\x7b', _, rfl, by decide⟩
    | cons first rest => exact ⟨.char '\x7b', _, textAt_obj first rest, by decide⟩

theorem skipSpace_cons {c : CodePoint} (h : isSpace c = false) (rest : Text) :
    skipSpace (c :: rest) = c :: rest :=
  List.dropWhile_cons_of_neg (by simp [h])

theorem skipSpace_append {spaces : Text} (h : ∀ c ∈ spaces, isSpace c) (rest : Text) :
    skipSpace (spaces ++ rest) = skipSpace rest :=
  List.dropWhile_append_of_pos h

theorem skipSpace_space (rest : Text) : skipSpace (.char ' ' :: rest) = skipSpace rest :=
  List.dropWhile_cons_of_pos rfl

theorem isSpace_of_mem_newline {c : CodePoint} (h : c ∈ newline style depth) : isSpace c := by
  unfold newline at h
  split at h
  · simp at h
  · rcases List.mem_append.mp h with h | h
    · rw [List.mem_singleton.mp (show c ∈ [CodePoint.char '\n'] from h)]
      decide
    · rw [List.eq_of_mem_replicate h]
      decide

theorem skipSpace_newline (rest : Text) : skipSpace (newline style depth ++ rest) = skipSpace rest :=
  skipSpace_append (fun _ => isSpace_of_mem_newline) rest

theorem skipSpace_textAt (h : NumberFree value) (rest : Text) :
    skipSpace (textAt style depth value ++ rest) = textAt style depth value ++ rest := by
  obtain ⟨c, more, heq, hspace, _⟩ := @head_textAt style depth value h
  rw [heq, List.cons_append, skipSpace_cons hspace]

-- A separator is a comma with space behind it.
theorem separator_eq : ∃ spaces, separator style depth = .char ',' :: spaces ∧
    ∀ c ∈ spaces, isSpace c := by
  unfold separator
  split
  · exact ⟨[.char ' '], rfl, by decide⟩
  · exact ⟨newline style depth, rfl, fun _ => isSpace_of_mem_newline⟩

theorem length_textAt_pos (h : NumberFree value) : 0 < (textAt style depth value).length := by
  obtain ⟨c, rest, heq, _⟩ := @head_textAt style depth value h
  simp [heq]

theorem quote_eq (asciiOnly : Bool) (t rest : Text) : quote asciiOnly t ++ rest =
    .char '"' :: (t.flatMap (escapeCodePoint asciiOnly) ++ .char '"' :: rest) := by
  simp [quote, Text.ofString, Text.ofChars]

theorem skipSpace_fieldsText (field : Text × Json) (others : List (Text × Json)) (rest : Text) :
    skipSpace (fieldsText style depth (field :: others) ++ rest) =
      fieldsText style depth (field :: others) ++ rest := by
  obtain ⟨name, value⟩ := field
  rw [fieldsText_cons, List.append_assoc, quote_eq, skipSpace_cons (by decide)]

theorem readValue_string (budget : Nat) (asciiOnly : Bool) (t rest : Text) :
    readValue (budget + 1) (quote asciiOnly t ++ rest) =
      .ok (.str (readBack asciiOnly t), rest) := by
  rw [quote_eq, readValue, readString_quoted]
  rfl

-- What reading does with a budget of twice the length of the text and two more, which is what it
-- starts with: values are read back, and so are elements and fields up to the end of their list.
def ReadsValues (style : Style) (budget : Nat) : Prop :=
  ∀ value depth rest, NumberFree value → 2 * (textAt style depth value).length + 2 ≤ budget →
    readValue budget (textAt style depth value ++ rest) = .ok (reread style.asciiOnly value, rest)

def ReadsElements (style : Style) (budget : Nat) : Prop :=
  ∀ element others depth closing rest, NumberFree element → NumberFreeElements others →
    2 * (textAt style depth element ++ elementsText style depth others).length + 3 ≤ budget →
      readElements budget (textAt style depth element ++ (elementsText style depth others ++
        (newline style closing ++ .char ']' :: rest))) =
        .ok (reread style.asciiOnly element :: rereadElements style.asciiOnly others, rest)

def ReadsFields (style : Style) (budget : Nat) : Prop :=
  ∀ name value others depth closing merged rest, NumberFree value → NumberFreeFields others →
    2 * (fieldsText style depth ((name, value) :: others)).length + 1 ≤ budget →
      readFields budget merged (fieldsText style depth ((name, value) :: others) ++
        (newline style closing ++ .char '\x7d' :: rest)) =
        .ok ((rereadFields style.asciiOnly ((name, value) :: others)).foldl
          (fun merged field => setField field.1 field.2 merged) merged, rest)

theorem readsValues_succ {budget : Nat} (helements : ReadsElements style budget)
    (hfields : ReadsFields style budget) : ReadsValues style (budget + 1) := by
  intro value depth rest h hbudget
  cases value with
  | null => rfl
  | bool flag => cases flag <;> rfl
  | int n => exact h.elim
  | float x => exact h.elim
  | str t =>
    have htext : textAt style depth (.str t) = quote style.asciiOnly t := by
      simp [textAt, piecesAt, atom?]
    rw [htext, readValue_string, reread]
  | arr elements =>
    cases elements with
    | nil => rfl
    | cons element others =>
      rw [textAt_arr] at hbudget ⊢
      simp only [List.length_cons, List.length_append] at hbudget
      simp only [List.cons_append, List.append_assoc, List.nil_append]
      rw [readValue, skipSpace_newline, skipSpace_textAt h.1]
      split
      · rename_i heq
        obtain ⟨c, more, hhead, _, hclosing, _⟩ := @head_textAt style (depth + 1) element h.1
        rw [hhead, List.cons_append] at heq
        exact absurd (List.cons.inj heq).1 hclosing
      · rw [helements element others (depth + 1) depth rest h.1 h.2
          (by simp only [List.length_append]; omega)]
        rfl
  | obj fields =>
    cases fields with
    | nil => rfl
    | cons field others =>
      obtain ⟨name, value⟩ := field
      rw [textAt_obj] at hbudget ⊢
      simp only [List.length_cons, List.length_append] at hbudget
      simp only [List.cons_append, List.append_assoc, List.nil_append]
      rw [readValue, skipSpace_newline, skipSpace_fieldsText]
      split
      · rename_i heq
        rw [fieldsText_cons, List.append_assoc, quote_eq] at heq
        exact absurd (List.cons.inj heq).1 (by decide)
      · rw [hfields name value others (depth + 1) depth [] rest h.1 h.2 (by omega)]
        rfl

theorem readsElements_succ {budget : Nat} (hvalues : ReadsValues style budget)
    (helements : ReadsElements style budget) : ReadsElements style (budget + 1) := by
  intro element others depth closing rest h hothers hbudget
  rw [List.length_append] at hbudget
  rw [readElements, hvalues element depth _ h (by omega)]
  cases others with
  | nil =>
    have hspace : skipSpace (elementsText style depth [] ++ (newline style closing ++
        .char ']' :: rest)) = .char ']' :: rest := by
      rw [show elementsText style depth [] = [] from rfl, List.nil_append, skipSpace_newline,
        skipSpace_cons (by decide)]
    simp only [bind, Except.bind, hspace]
    rfl
  | cons second others =>
    obtain ⟨spaces, hseparator, hspaces⟩ := @separator_eq style depth
    rw [elementsText_cons, hseparator] at hbudget ⊢
    simp only [List.length_cons, List.length_append] at hbudget
    simp only [bind, Except.bind, List.cons_append, List.append_assoc]
    rw [skipSpace_cons (by decide)]
    simp only
    rw [skipSpace_append hspaces, skipSpace_textAt hothers.1,
      helements second others depth closing rest hothers.1 hothers.2
        (by simp only [List.length_append]; omega)]
    rfl

theorem readsFields_succ {budget : Nat} (hvalues : ReadsValues style budget)
    (hfields : ReadsFields style budget) : ReadsFields style (budget + 1) := by
  intro name value others depth closing merged rest h hothers hbudget
  rw [fieldsText_cons] at hbudget ⊢
  simp only [List.length_append, List.length_cons] at hbudget
  rw [List.append_assoc, quote_eq, readFields, readString_quoted]
  simp only [bind, Except.bind, List.cons_append, List.append_assoc]
  rw [skipSpace_cons (by decide)]
  simp only
  rw [skipSpace_space, skipSpace_textAt h, hvalues value depth _ h (by omega)]
  cases others with
  | nil =>
    have hspace : skipSpace (newline style closing ++ .char '\x7d' :: rest) =
        .char '\x7d' :: rest := by
      rw [skipSpace_newline, skipSpace_cons (by decide)]
    simp only [List.isEmpty_nil, if_true, List.nil_append,
      show fieldsText style depth [] = [] from rfl, hspace]
    rfl
  | cons second others =>
    obtain ⟨spaces, hseparator, hspaces⟩ := @separator_eq style depth
    simp only [List.isEmpty_cons, Bool.false_eq_true, if_false, hseparator, List.length_cons,
      List.cons_append] at hbudget ⊢
    rw [skipSpace_cons (by decide)]
    simp only
    rw [skipSpace_append hspaces, skipSpace_fieldsText]
    obtain ⟨second, next⟩ := second
    rw [hfields second next others depth closing _ rest hothers.1 hothers.2 (by omega)]
    rfl

-- The budget goes down by one with each call.
theorem reads (style : Style) (budget : Nat) :
    ReadsValues style budget ∧ ReadsElements style budget ∧ ReadsFields style budget := by
  induction budget with
  | zero =>
    refine ⟨?_, ?_, ?_⟩
    · intro value depth rest _ hbudget
      omega
    · intro element others depth closing rest _ _ hbudget
      omega
    · intro name value others depth closing merged rest _ _ hbudget
      omega
  | succ budget ih =>
    obtain ⟨hvalues, helements, hfields⟩ := ih
    exact ⟨readsValues_succ helements hfields, readsElements_succ hvalues helements,
      readsFields_succ hvalues hfields⟩

-- A printed value with space behind it is read back.
theorem read_print (style : Style) {value : Json} (h : NumberFree value) {spaces : Text}
    (hspaces : ∀ c ∈ spaces, isSpace c) :
    read (print style value ++ spaces) = .ok (reread style.asciiOnly value) := by
  have htext : print style value = textAt style 0 value := rfl
  obtain ⟨c, more, hhead, hspace, _, hmark⟩ := @head_textAt style 0 value h
  have hfirst : ¬ (Option.map CodePoint.toNat (print style value ++ spaces).head?) = some 0xFEFF := by
    simpa [htext, hhead] using hmark
  have hend : skipSpace spaces = [] := by
    simpa [skipSpace] using skipSpace_append hspaces []
  rw [read, readAll, if_neg hfirst, htext, skipSpace_textAt h,
    (reads style _).1 value 0 spaces h (by simp only [List.length_append]; omega)]
  simp only [bind, Except.bind, hend]
  rfl

theorem notMem_newline (style : Style) (depth : Nat) : .char '\r' ∉ newline style depth := by
  unfold newline
  split
  · simp
  · intro h
    rcases List.mem_append.mp h with h | h
    · exact absurd h (by decide)
    · exact absurd (List.eq_of_mem_replicate h) (by decide)

theorem notMem_separator (style : Style) (depth : Nat) : .char '\r' ∉ separator style depth := by
  unfold separator
  split
  · decide
  · intro h
    rcases List.mem_append.mp h with h | h
    · exact absurd h (by decide)
    · exact notMem_newline style depth h

mutual

-- Printed values have no carriage returns, so that reading a file of them changes no line ends.
theorem notMem_textAt (style : Style) : ∀ (value : Json) (depth : Nat), NumberFree value →
    .char '\r' ∉ textAt style depth value
  | .null, _, _ => show CodePoint.char '\r' ∉ ("null" : Text) by decide
  | .bool true, _, _ => show CodePoint.char '\r' ∉ ("true" : Text) by decide
  | .bool false, _, _ => show CodePoint.char '\r' ∉ ("false" : Text) by decide
  | .int _, _, h => h.elim
  | .float _, _, h => h.elim
  | .str t, depth, _ => by
    simpa [textAt, piecesAt, atom?] using notMem_quote style.asciiOnly t
  | .arr [], _, _ => show CodePoint.char '\r' ∉ ("[]" : Text) by decide
  | .arr (element :: others), depth, h => by
    rw [textAt_arr]
    simp [notMem_newline, notMem_textAt style element (depth + 1) h.1,
      notMem_elementsText style others (depth + 1) h.2]
  | .obj [], _, _ => show CodePoint.char '\r' ∉ ("\x7b\x7d" : Text) by decide
  | .obj (field :: others), depth, h => by
    rw [textAt_obj]
    simp [notMem_newline, notMem_fieldsText style (field :: others) (depth + 1) h]

theorem notMem_elementsText (style : Style) : ∀ (elements : List Json) (depth : Nat),
    NumberFreeElements elements → .char '\r' ∉ elementsText style depth elements
  | [], _, _ => List.not_mem_nil
  | element :: others, depth, h => by
    rw [elementsText_cons]
    simp [notMem_separator, notMem_textAt style element depth h.1,
      notMem_elementsText style others depth h.2]

theorem notMem_fieldsText (style : Style) : ∀ (fields : List (Text × Json)) (depth : Nat),
    NumberFreeFields fields → .char '\r' ∉ fieldsText style depth fields
  | [], _, _ => List.not_mem_nil
  | (name, value) :: others, depth, h => by
    rw [fieldsText_cons]
    simp [notMem_quote, notMem_separator, notMem_textAt style value depth h.1,
      notMem_fieldsText style others depth h.2]

end

end HookGen.Json
