import HookGen.Proofs.Render.Calls
import HookGen.Proofs.Render.Recorded
import HookGen.Render.Renderer

/-!
Rendering one shape after the other with one machine, which keeps its stack and its notes in between. It
gives for each shape what a machine of its own gives, also behind shapes that fail.
-/

namespace HookGen.Render

open Relation

-- A shape that is to be rendered, and how far it is indented.
structure Task where
  indent : Int
  shape : Shape

-- What a renderer that has rendered nothing else makes of a task.
def Task.fresh (schema : Schema) (task : Task) : Renderer × Except RenderError Text :=
  (Renderer.mk schema []).render task.indent task.shape

-- What a renderer makes of one task after the other.
def renderAll : Renderer → List Task → Renderer × List (Except RenderError Text)
  | renderer, [] => (renderer, [])
  | renderer, task :: rest =>
    let (next, outcome) := renderer.render task.indent task.shape
    let (last, outcomes) := renderAll next rest
    (last, outcome :: outcomes)

namespace Machine

variable {schema : Schema} {m mid last : Machine} {task : Task} {tasks : List Task}
  {outcomes : List (Except RenderError Text)}

-- A machine that has not rendered anything yet.
def idle : Machine := ⟨.text [], [], [], []⟩

-- Begin with a task. The stack, the frames and the notes are those that there are.
def begin (m : Machine) (task : Task) : Machine := { m with control := .shape task.indent task.shape }

-- One task after the other. Each run goes on until there is no step left, with a text or an error.
inductive Session (schema : Schema) :
    Machine → List Task → List (Except RenderError Text) → Machine → Prop
  | nothing {m : Machine} : Session schema m [] [] m
  | next {m mid last : Machine} {task : Task} {rest : List Task} {outcome : Except RenderError Text}
    {outcomes : List (Except RenderError Text)} (run : Reaches schema (m.begin task) mid)
    (halted : mid.step schema = none) (control : mid.control = .ofOutcome outcome)
    (later : Session schema mid rest outcomes last) :
    Session schema m (task :: rest) (outcome :: outcomes) last

-- What is true of a machine between two tasks.
structure Rested (m : Machine) : Prop where
  frames : m.frames = []
  resolving : m.resolving = []

theorem Rested.proper (h : Rested m) (task : Task) : Proper schema task.shape (m.begin task) where
  kept := by
    rw [begin, h.frames, h.resolving]
    exact .nil
  inScope := by
    rintro _ _ ⟨⟩
    rw [begin, h.resolving]
    exact List.Subset.refl _

theorem Rested.finish (h : Rested m) (task : Task) (x : Rendering Text) :
    Rested ((m.begin task).finish x) := ⟨h.frames, h.resolving⟩

theorem Rested.reaches (h : Rested m) (task : Task) : Reaches schema (m.begin task)
    ((m.begin task).finish (render schema task.indent task.shape)) := by
  have hproper : Proper schema task.shape (m.begin task) := h.proper task
  have hrun := hproper.reaches_finish rfl
  have hstack : (m.begin task).resolving = [] := h.resolving
  rwa [hstack] at hrun

theorem step_finish (h : m.frames = []) (x : Rendering Text) : (m.finish x).step schema = none := by
  obtain ⟨notes, outcome⟩ := x
  cases outcome <;> simp [step, finish, Control.ofOutcome, h]

-- There is one step at most, so that a machine halts in one way only.
theorem Reaches.eq_of_halted {a b : Machine} (ha : Reaches schema m a) (hb : Reaches schema m b)
    (hhalted : a.step schema = none) (hhalted' : b.step schema = none) : a = b := by
  have hstuck {a b : Machine} (hhalted : a.step schema = none) (h : Reaches schema a b) : a = b := by
    rcases h.cases_head with heq | ⟨next, hnext, _⟩
    · exact heq
    · simp [hhalted] at hnext
  have hunique : Relator.RightUnique fun m next : Machine => m.step schema = some next :=
    fun _ _ _ h h' => Option.some.inj (h.symm.trans h')
  rcases ReflTransGen.total_of_right_unique hunique ha hb with hab | hba
  · exact hstuck hhalted hab
  · exact (hstuck hhalted' hba).symm

theorem ofOutcome_injective {x y : Except RenderError Text}
    (h : Control.ofOutcome x = Control.ofOutcome y) : x = y := by
  cases x <;> cases y <;> cases h <;> rfl

-- One task: the machine comes to rest again with what it has noted, and with what rendering gives.
theorem Rested.halts (h : Rested m) (run : Reaches schema (m.begin task) mid)
    (halted : mid.step schema = none) {outcome : Except RenderError Text}
    (control : mid.control = .ofOutcome outcome) :
    Rested mid ∧ mid.notes = m.notes ++ (render schema task.indent task.shape).notes ∧
      outcome = (task.fresh schema).2 := by
  have hframes : (m.begin task).frames = [] := h.frames
  obtain rfl := run.eq_of_halted (h.reaches task) halted (step_finish hframes _)
  exact ⟨h.finish task _, rfl, ofOutcome_injective control.symm⟩

theorem Rested.exists_session (h : Rested m) (tasks : List Task) :
    ∃ outcomes last, Session schema m tasks outcomes last := by
  induction tasks generalizing m with
  | nil => exact ⟨[], m, .nothing⟩
  | cons task rest ih =>
    obtain ⟨outcomes, last, hrest⟩ := ih (h.finish task (render schema task.indent task.shape))
    exact ⟨_, last, .next (h.reaches task) (step_finish h.frames _) rfl hrest⟩

-- Task by task: the machine rests in between, so that none of them sees what was there before.
theorem Session.outcomes_eq (h : Session schema m tasks outcomes last) (hm : Rested m) :
    Rested last ∧ outcomes = tasks.map (fun task => (task.fresh schema).2) ∧
      last.notes =
        m.notes ++ tasks.flatMap fun task => (render schema task.indent task.shape).notes := by
  induction h with
  | nothing => exact ⟨hm, rfl, (List.append_nil _).symm⟩
  | next run halted control _ ih =>
    obtain ⟨hrested, hnotes, houtcome⟩ := hm.halts run halted control
    obtain ⟨hlast, houtcomes, hlastNotes⟩ := ih hrested
    refine ⟨hlast, by rw [List.map_cons, houtcome, houtcomes], ?_⟩
    rw [hlastNotes, hnotes, List.flatMap_cons, List.append_assoc]

end Machine

theorem renderAll_eq (renderer : Renderer) (tasks : List Task) :
    renderAll renderer tasks =
      ({ renderer with
          notes := renderer.notes ++
            tasks.flatMap fun task => (render renderer.schema task.indent task.shape).notes },
        tasks.map fun task => (task.fresh renderer.schema).2) := by
  induction tasks generalizing renderer with
  | nil => rw [renderAll, List.flatMap_nil, List.append_nil, List.map_nil]
  | cons task rest ih =>
    simp only [renderAll, Renderer.render, ih, List.flatMap_cons, List.map_cons, List.append_assoc]
    rfl

theorem mem_recordedBaseTypes {renderer : Renderer} {name : Text} :
    name ∈ renderer.baseTypes ↔ .baseType name ∈ renderer.notes := by
  rw [Renderer.baseTypes, Text.mem_sortDistinct, mem_baseTypes]

theorem mem_recordedEnums {renderer : Renderer} {name : Text} :
    name ∈ renderer.enums ↔ .enumeration name ∈ renderer.notes := by
  rw [Renderer.enums, Text.mem_sortDistinct, mem_enumerations]

-- However many shapes a renderer has rendered, and whichever of them have failed: for each it has given
-- what a renderer of its own gives, its stack is empty again, and the names that it has recorded are
-- those that any of these renderers records, up to its failure if it fails.
theorem session_as_fresh (schema : Schema) (tasks : List Task) :
    (∃ outcomes last, Machine.Session schema .idle tasks outcomes last) ∧
    ∀ outcomes last, Machine.Session schema .idle tasks outcomes last →
      last.resolving = [] ∧ renderAll ⟨schema, []⟩ tasks = (⟨schema, last.notes⟩, outcomes) ∧
      outcomes = tasks.map (fun task => (task.fresh schema).2) ∧
      (∀ name, name ∈ (Renderer.mk schema last.notes).baseTypes ↔
        ∃ task ∈ tasks, name ∈ (task.fresh schema).1.baseTypes) ∧
      ∀ name, name ∈ (Renderer.mk schema last.notes).enums ↔
        ∃ task ∈ tasks, name ∈ (task.fresh schema).1.enums := by
  have hidle : Machine.Rested .idle := ⟨rfl, rfl⟩
  refine ⟨hidle.exists_session tasks, fun outcomes last hsession => ?_⟩
  obtain ⟨hlast, houtcomes, hnotes⟩ := hsession.outcomes_eq hidle
  have hall : last.notes =
      tasks.flatMap fun task => (render schema task.indent task.shape).notes := hnotes
  refine ⟨hlast.resolving, by rw [renderAll_eq, houtcomes, hall, List.nil_append], houtcomes,
    fun name => ?_, fun name => ?_⟩
  · simp [mem_recordedBaseTypes, hall, Task.fresh, Renderer.render]
  · simp [mem_recordedEnums, hall, Task.fresh, Renderer.render]

end HookGen.Render
