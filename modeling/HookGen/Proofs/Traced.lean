import HookGen.Traced
import Mathlib.Init

/-!
The laws of computations with notes.
-/

namespace HookGen

@[simp] theorem mapError_ok {ε ε' α : Type} (f : ε → ε') (a : α) :
    (Except.ok a : Except ε α).mapError f = .ok a := rfl

@[simp] theorem mapError_error {ε ε' α : Type} (f : ε → ε') (e : ε) :
    (Except.error e : Except ε α).mapError f = .error (f e) := rfl

theorem except_bind_eq_ok {ε α β : Type} {x : Except ε α} {f : α → Except ε β} {b : β} :
    x >>= f = .ok b ↔ ∃ a, x = .ok a ∧ f a = .ok b := by
  cases x with
  | error e => exact ⟨nofun, by rintro ⟨_, ⟨⟩, _⟩⟩
  | ok a => exact ⟨fun h => ⟨a, rfl, h⟩, by rintro ⟨_, ⟨⟩, h⟩; exact h⟩

end HookGen

namespace HookGen.Traced

variable {ν ε α β : Type}

@[simp] theorem pure_eq (a : α) : (pure a : Traced ν ε α) = ⟨[], .ok a⟩ := rfl

theorem bind_eq (x : Traced ν ε α) (f : α → Traced ν ε β) :
    x >>= f = match x.outcome with
      | .error e => ⟨x.notes, .error e⟩
      | .ok a => ⟨x.notes ++ (f a).notes, (f a).outcome⟩ := rfl

@[simp] theorem bind_ok (notes : List ν) (a : α) (f : α → Traced ν ε β) :
    (⟨notes, .ok a⟩ : Traced ν ε α) >>= f = ⟨notes ++ (f a).notes, (f a).outcome⟩ := rfl

@[simp] theorem bind_error (notes : List ν) (e : ε) (f : α → Traced ν ε β) :
    (⟨notes, .error e⟩ : Traced ν ε α) >>= f = ⟨notes, .error e⟩ := rfl

@[simp] theorem ofExcept_ok (a : α) : (ofExcept (.ok a) : Traced ν ε α) = ⟨[], .ok a⟩ := rfl

@[simp] theorem ofExcept_error (e : ε) : (ofExcept (.error e) : Traced ν ε α) = ⟨[], .error e⟩ := rfl

instance : LawfulMonad (Traced ν ε) := by
  apply LawfulMonad.mk' (Traced ν ε)
  · rintro α ⟨notes, outcome⟩
    cases outcome <;> simp [Functor.map, done, andThen]
  · intro α β a f
    simp
  · rintro α β γ ⟨notes, outcome⟩ f g
    cases outcome with
    | error e => rfl
    | ok a =>
      simp only [bind_eq]
      cases (f a).outcome <;> simp

@[simp] theorem map_ok (f : α → β) (notes : List ν) (a : α) :
    f <$> (⟨notes, .ok a⟩ : Traced ν ε α) = ⟨notes, .ok (f a)⟩ := by
  rw [map_eq_pure_bind, bind_ok, pure_eq, List.append_nil]

@[simp] theorem map_error (f : α → β) (notes : List ν) (e : ε) :
    f <$> (⟨notes, .error e⟩ : Traced ν ε α) = ⟨notes, .error e⟩ := rfl

-- The outcome of two computations in a row depends on their outcomes only.
theorem outcome_bind (x : Traced ν ε α) (f : α → Traced ν ε β) :
    (x >>= f).outcome = x.outcome.bind fun a => (f a).outcome := by
  obtain ⟨notes, outcome⟩ := x
  cases outcome <;> rfl

theorem outcome_bind_eq_ok {x : Traced ν ε α} {f : α → Traced ν ε β} {b : β} :
    (x >>= f).outcome = .ok b ↔ ∃ a, x.outcome = .ok a ∧ (f a).outcome = .ok b := by
  obtain ⟨notes, outcome⟩ := x
  cases outcome <;> simp

theorem mem_notes_bind {x : Traced ν ε α} {f : α → Traced ν ε β} {n : ν} :
    n ∈ (x >>= f).notes ↔ n ∈ x.notes ∨ ∃ a, x.outcome = .ok a ∧ n ∈ (f a).notes := by
  obtain ⟨notes, outcome⟩ := x
  cases outcome <;> simp

@[simp] theorem notes_map (f : α → β) (x : Traced ν ε α) : (f <$> x).notes = x.notes := by
  obtain ⟨notes, outcome⟩ := x
  cases outcome <;> simp

-- A computation that succeeds and whose notes are among those of another.
def Stage {β α : Type} (y : Traced ν ε β) (x : Traced ν ε α) : Prop :=
  (∃ b, y.outcome = .ok b) ∧ y.notes ⊆ x.notes

theorem Stage.trans {γ : Type} {z : Traced ν ε γ} {y : Traced ν ε β} {x : Traced ν ε α}
    (h : Stage z y) (h' : Stage y x) : Stage z x :=
  ⟨h.1, List.Subset.trans h.2 h'.2⟩

theorem stage_first {x : Traced ν ε α} {f : α → Traced ν ε β} {b : β}
    (h : (x >>= f).outcome = .ok b) : Stage x (x >>= f) := by
  obtain ⟨a, ha, -⟩ := outcome_bind_eq_ok.mp h
  exact ⟨⟨a, ha⟩, fun n hn => mem_notes_bind.mpr (.inl hn)⟩

theorem stage_next {x : Traced ν ε α} {f : α → Traced ν ε β} {a : α} {b : β}
    (ha : x.outcome = .ok a) (h : (x >>= f).outcome = .ok b) : Stage (f a) (x >>= f) := by
  obtain ⟨a', ha', hb⟩ := outcome_bind_eq_ok.mp h
  obtain rfl : a' = a := Except.ok.inj (ha'.symm.trans ha)
  exact ⟨⟨b, hb⟩, fun n hn => mem_notes_bind.mpr (.inr ⟨a', ha, hn⟩)⟩

-- One computation after the other: what it notes, one of them notes.
theorem exists_mem_of_mem_notes_mapM {items : List α} {f : α → Traced ν ε β} {n : ν}
    (h : n ∈ (items.mapM f).notes) : ∃ item ∈ items, n ∈ (f item).notes := by
  induction items with
  | nil => simp at h
  | cons item rest ih =>
    rw [List.mapM_cons, mem_notes_bind] at h
    rcases h with hfirst | ⟨_, -, hrest⟩
    · exact ⟨item, List.mem_cons_self .., hfirst⟩
    · rcases mem_notes_bind.mp hrest with hrest | ⟨_, -, hnone⟩
      · obtain ⟨found, hfound, hn⟩ := ih hrest
        exact ⟨found, List.mem_cons_of_mem item hfound, hn⟩
      · simp at hnone

theorem stage_mapM {items : List α} {f : α → Traced ν ε β} {results : List β}
    (h : (items.mapM f).outcome = .ok results) {item : α} (hitem : item ∈ items) :
    Stage (f item) (items.mapM f) ∧ ∃ result ∈ results, (f item).outcome = .ok result := by
  induction items generalizing results with
  | nil => cases hitem
  | cons first rest ih =>
    rw [List.mapM_cons] at h ⊢
    obtain ⟨result, hresult, hothers⟩ := outcome_bind_eq_ok.mp h
    obtain ⟨others, hrest, heq⟩ := outcome_bind_eq_ok.mp hothers
    obtain rfl : result :: others = results := Except.ok.inj heq
    rcases List.mem_cons.mp hitem with rfl | hmem
    · exact ⟨stage_first h, result, List.mem_cons_self .., hresult⟩
    · obtain ⟨hstage, found, hfound, hok⟩ := ih hrest hmem
      exact ⟨hstage.trans ((stage_first hothers).trans (stage_next hresult h)), found,
        List.mem_cons_of_mem result hfound, hok⟩

theorem length_of_mapM {items : List α} {f : α → Traced ν ε β} {results : List β}
    (h : (items.mapM f).outcome = .ok results) : results.length = items.length := by
  induction items generalizing results with
  | nil => exact congrArg List.length (show [] = results from Except.ok.inj h).symm
  | cons first rest ih =>
    rw [List.mapM_cons] at h
    obtain ⟨result, -, hothers⟩ := outcome_bind_eq_ok.mp h
    obtain ⟨others, hrest, heq⟩ := outcome_bind_eq_ok.mp hothers
    rw [← show result :: others = results from Except.ok.inj heq, List.length_cons, List.length_cons, ih hrest]

-- Two computations agree if they begin alike and go on alike after every value of the beginning.
theorem bind_congr_outcome {x y : Traced ν ε α} {f g : α → Traced ν ε β} (hxy : x = y)
    (hfg : ∀ a, x.outcome = .ok a → f a = g a) : x >>= f = y >>= g := by
  subst hxy
  obtain ⟨notes, outcome⟩ := x
  cases outcome with
  | error e => rfl
  | ok a => simp [hfg a rfl]

end HookGen.Traced
