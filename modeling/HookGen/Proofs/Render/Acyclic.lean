import HookGen.Proofs.Render.Substitution
import Mathlib.Data.List.Nodup
import Mathlib.Logic.Relation

/-!
Accesses that lead to one another. Where none leads back to itself, the budget of rendering is never
used up and no access is cut off, so that a shape is rendered the same wherever one comes to it.
-/

namespace HookGen.Render

open Relation

-- Put targets in place of accesses, and in place of those in the targets, down to a depth.
def inlineWithin (schema : Schema) : Nat → Shape → Shape
  | 0, shape => shape
  | depth + 1, shape =>
    substitute (fun path => (target? schema path).map (inlineWithin schema depth)) shape

-- The shape with the targets of its accesses written out.
def inline (schema : Schema) (shape : Shape) : Shape :=
  inlineWithin schema (depthBound schema) shape

-- The target of one access contains another.
def Leads (schema : Schema) (path next : List Text) : Prop :=
  ∃ target, target? schema path = some target ∧ next ∈ target.lookups

-- No access that one comes to from a shape leads back to itself.
def Acyclic (schema : Schema) (shape : Shape) : Prop :=
  ∀ path ∈ shape.lookups, ∀ next, ReflTransGen (Leads schema) path next →
    ¬ TransGen (Leads schema) next next

theorem Acyclic.target {schema : Schema} {shape target : Shape} {path : List Text}
    (h : Acyclic schema shape) (hpath : path ∈ shape.lookups)
    (htarget : target? schema path = some target) : Acyclic schema target := by
  intro first hfirst next hnext
  exact h path hpath next (.head ⟨target, htarget, hfirst⟩ hnext)

theorem Acyclic.part {schema : Schema} {shape part : Shape} (h : Acyclic schema shape)
    (hpart : shape.Part part) : Acyclic schema part :=
  fun path hp => h path (hpart.lookups_subset hp)

-- An access leads back to itself only if its target does.
theorem acyclic_of_target {schema : Schema} {shape target : Shape} {path : List Text}
    (hlookups : shape.lookups = [path]) (htarget : target? schema path = some target)
    (h : Acyclic schema target) : Acyclic schema shape := by
  have hfirst {next : List Text} (hstep : Leads schema path next) : next ∈ target.lookups := by
    obtain ⟨found, hfound, hnext⟩ := hstep
    rw [htarget, Option.some.injEq] at hfound
    rwa [hfound]
  intro first hmem next hreach hcycle
  rw [hlookups, List.mem_singleton] at hmem
  subst hmem
  -- the cycle is reached from the target in any case
  have hback : ∃ inner ∈ target.lookups, ReflTransGen (Leads schema) inner next := by
    rcases hreach.cases_head with rfl | ⟨inner, hstep, hrest⟩
    · obtain ⟨inner, hstep, hrest⟩ := TransGen.head'_iff.mp hcycle
      exact ⟨inner, hfirst hstep, hrest⟩
    · exact ⟨inner, hfirst hstep, hrest⟩
  obtain ⟨inner, hinner, hrest⟩ := hback
  exact h inner hinner next hrest hcycle

-- How an access is rendered that is no enum.
def expansion (schema : Schema) (resolving : List (List Text)) :
    Nat → List Text → Int → Rendering Text
  | 0, path, _ => do
    let _ ← targetOf schema path
    unresolved path
  | budget + 1, path, indent => do
    match ← targetOf schema path with
    | none => unresolved path
    | some target =>
      if resolving.contains path then unresolved path
      else renderWithin schema budget (path :: resolving) indent target

theorem renderWithin_eq_renderOver (schema : Schema) (budget : Nat) (resolving : List (List Text))
    (indent : Int) (shape : Shape) : renderWithin schema budget resolving indent shape =
      renderOver schema (expansion schema resolving budget) indent shape := by
  cases budget <;> rfl

-- Neither the budget nor what is being resolved matters for an access without a target.
theorem expansion_of_no_target {schema : Schema} {path : List Text}
    (h : target? schema path = none) (henum : schema.enumOfPath? path = none)
    (resolving : List (List Text)) (budget : Nat) :
    expansion schema resolving budget path = expansion schema [] 0 path := by
  funext indent
  cases budget with
  | zero => rfl
  | succ budget =>
    rcases targetOf_of_no_target h henum with ht | ⟨e, ht⟩ <;> simp [expansion, ht]

theorem expansion_of_target {schema : Schema} {path : List Text} {target : Shape}
    {resolving : List (List Text)} (h : target? schema path = some target)
    (hpath : path ∉ resolving) (budget : Nat) (indent : Int) :
    expansion schema resolving (budget + 1) path indent =
      renderWithin schema budget (path :: resolving) indent target := by
  simp [expansion, targetOf_of_target h, hpath]

-- A shape whose accesses have no targets is rendered the same anywhere.
theorem renderWithin_of_no_targets {schema : Schema} {shape : Shape}
    (h : ∀ path ∈ shape.lookups, target? schema path = none) (budget : Nat)
    (resolving : List (List Text)) (indent : Int) :
    renderWithin schema budget resolving indent shape = renderWithin schema 0 [] indent shape := by
  rw [renderWithin_eq_renderOver, renderWithin_eq_renderOver]
  exact renderOver_congr indent fun path hp henum =>
    expansion_of_no_target (h path hp) henum resolving budget

-- Such a shape can be rendered only if an access that it is can be followed to its missing target.
theorem resolvedElement_of_rendered {schema : Schema} {shape : Shape} {indent : Int} {t : Text}
    (h : ∀ path ∈ shape.lookups, target? schema path = none)
    (ht : (renderWithin schema 0 [] indent shape).outcome = .ok t) :
    resolvedElement schema shape = ⟨[], .ok shape⟩ := by
  cases shape with
  | lookup label path =>
    cases henum : schema.enumOfPath? path with
    | some enumeration => simp [resolvedElement, henum]
    | none =>
      rw [renderWithin_eq_renderOver] at ht
      rcases targetOf_of_no_target (h path (by simp [Shape.lookups])) henum with hf | ⟨e, hf⟩
      · simp [resolvedElement, henum, hf]
      · simp [renderOver, henum, expansion, hf] at ht
  | _ => simp [resolvedElement]

-- What holds where a shape is rendered, given the accesses that are being resolved and the budget
-- that is left: each of those accesses leads to those of the shape, and all but the oldest stand in
-- the root type. So the budget is used up only where there is no access left.
structure Ready (schema : Schema) (budget : Nat) (resolving : List (List Text)) (shape : Shape) :
    Prop where
  acyclic : Acyclic schema shape
  leads : ∀ path ∈ resolving, ∀ next ∈ shape.lookups, TransGen (Leads schema) path next
  nodup : resolving.Nodup
  resolvingInRoot : ∀ path ∈ resolving.dropLast, path ∈ schema.root.lookups
  inRoot : resolving ≠ [] → ∀ path ∈ shape.lookups, path ∈ schema.root.lookups
  budget_add : budget + resolving.length = depthBound schema

namespace Ready

variable {schema : Schema} {budget : Nat} {resolving : List (List Text)} {shape : Shape}

theorem start (h : Acyclic schema shape) : Ready schema (depthBound schema) [] shape :=
  ⟨h, by simp, by simp, by simp, by simp, by simp⟩

theorem part (h : Ready schema budget resolving shape) {part : Shape} (hpart : shape.Part part) :
    Ready schema budget resolving part :=
  ⟨h.acyclic.part hpart, fun path hm next hp => h.leads path hm next (hpart.lookups_subset hp),
    h.nodup, h.resolvingInRoot, fun hne path hp => h.inRoot hne path (hpart.lookups_subset hp),
    h.budget_add⟩

theorem notMem (h : Ready schema budget resolving shape) {path : List Text}
    (hpath : path ∈ shape.lookups) : path ∉ resolving := by
  intro hm
  exact h.acyclic path hpath path .refl (h.leads path hm path hpath)

theorem step (h : Ready schema (budget + 1) resolving shape) {path : List Text} {target : Shape}
    (hpath : path ∈ shape.lookups) (htarget : target? schema path = some target) :
    Ready schema budget (path :: resolving) target where
  acyclic := h.acyclic.target hpath htarget
  leads := by
    intro first hfirst next hnext
    have hlast : Leads schema path next := ⟨target, htarget, hnext⟩
    cases List.mem_cons.mp hfirst with
    | inl he => exact he ▸ .single hlast
    | inr hm => exact (h.leads first hm path hpath).tail hlast
  nodup := List.nodup_cons.mpr ⟨h.notMem hpath, h.nodup⟩
  resolvingInRoot := by
    intro first hfirst
    cases resolving with
    | nil => simp at hfirst
    | cons newest older =>
      rw [List.dropLast_cons_cons, List.mem_cons] at hfirst
      rcases hfirst with rfl | hm
      · exact h.inRoot (by simp) first hpath
      · exact h.resolvingInRoot first hm
  inRoot := fun _ next hnext => lookups_of_target htarget hnext
  budget_add := by
    have := h.budget_add
    simp only [List.length_cons]
    omega

-- All accesses of the root type are being resolved then, so that another one would close a cycle.
theorem lookups_eq_nil (h : Ready schema 0 resolving shape) : shape.lookups = [] := by
  have hlength : resolving.length = schema.root.lookups.length + 1 := by
    simpa [depthBound] using h.budget_add
  have hne : resolving ≠ [] := by
    intro he
    simp [he] at hlength
  by_contra hsome
  obtain ⟨path, hpath⟩ := List.exists_mem_of_ne_nil _ hsome
  have hnodup : (path :: resolving.dropLast).Nodup :=
    List.nodup_cons.mpr ⟨fun hm => h.notMem hpath (List.dropLast_subset _ hm),
      h.nodup.sublist (List.dropLast_sublist _)⟩
  have hsub : (path :: resolving.dropLast) ⊆ schema.root.lookups := by
    intro first hfirst
    rcases List.mem_cons.mp hfirst with rfl | hm
    · exact h.inRoot hne first hpath
    · exact h.resolvingInRoot first hm
  have hle := hnodup.length_le_of_subset hsub
  simp only [List.length_cons, List.length_dropLast] at hle
  omega

-- With more budget nothing else is written out.
theorem inlineWithin_add (h : Ready schema budget resolving shape) (more : Nat) :
    inlineWithin schema (budget + more) shape = inlineWithin schema budget shape := by
  induction budget generalizing resolving shape with
  | zero =>
    cases more with
    | zero => rfl
    | succ more =>
      rw [Nat.zero_add, inlineWithin, inlineWithin,
        substitute_congr (g := fun _ => none) shape (by simp [h.lookups_eq_nil]), substitute_none]
  | succ budget ih =>
    rw [Nat.add_right_comm, inlineWithin, inlineWithin]
    apply substitute_congr
    intro path hpath
    cases ht : target? schema path with
    | none => rfl
    | some target => simp [ih (h.step hpath ht)]

theorem inlineWithin_eq (h : Ready schema budget resolving shape) :
    inlineWithin schema budget shape = inline schema shape := by
  rw [inline, ← h.budget_add]
  exact (h.inlineWithin_add resolving.length).symm

-- What is written out has no targets left.
theorem target?_of_mem_inlineWithin (h : Ready schema budget resolving shape) {path : List Text}
    (hpath : path ∈ (inlineWithin schema budget shape).lookups) : target? schema path = none := by
  induction budget generalizing resolving shape with
  | zero => simp [inlineWithin, h.lookups_eq_nil] at hpath
  | succ budget ih =>
    rw [inlineWithin] at hpath
    rcases remains_of_mem_substitute shape hpath with ⟨_, hn⟩ | ⟨old, hold, next, hr, hn⟩
    · simpa using hn
    · obtain ⟨target, ht, rfl⟩ := Option.map_eq_some_iff.mp hr
      exact ih (h.step hold ht) hn

-- A shape is rendered the same wherever one comes to it.
theorem renderWithin_eq (h : Ready schema budget resolving shape) {budget' : Nat}
    {resolving' : List (List Text)} (h' : Ready schema budget' resolving' shape) (indent : Int) :
    renderWithin schema budget resolving indent shape =
      renderWithin schema budget' resolving' indent shape := by
  induction budget generalizing budget' resolving resolving' shape indent with
  | zero =>
    rw [renderWithin_eq_renderOver, renderWithin_eq_renderOver]
    exact renderOver_congr indent (by simp [h.lookups_eq_nil])
  | succ budget ih =>
    rw [renderWithin_eq_renderOver, renderWithin_eq_renderOver]
    apply renderOver_congr indent
    intro path hpath henum
    cases ht : target? schema path with
    | none =>
      rw [expansion_of_no_target ht henum, expansion_of_no_target ht henum resolving']
    | some target =>
      cases budget' with
      | zero => simp [h'.lookups_eq_nil] at hpath
      | succ budget' =>
        funext indent
        rw [expansion_of_target ht (h.notMem hpath), expansion_of_target ht (h'.notMem hpath)]
        exact ih (h.step hpath ht) (h'.step hpath ht) indent

theorem renderWithin_eq_render (h : Ready schema budget resolving shape) (indent : Int) :
    renderWithin schema budget resolving indent shape = render schema indent shape :=
  h.renderWithin_eq (.start h.acyclic) indent

end Ready

end HookGen.Render
