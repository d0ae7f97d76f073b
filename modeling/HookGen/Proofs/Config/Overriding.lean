import HookGen.Config.Basic
import HookGen.Proofs.Traced
import Mathlib.Data.List.Basic
import Mathlib.Tactic.Cases

/-!
Overriding options, call after call. Whether the settings stay valid depends on the values alone: nothing checks
them, and names that are no options can pass.
-/

namespace HookGen

namespace Settings

-- The options of a configuration.
inductive Field
  | input
  | output
  | supabasePath
  | schema
  | manifest
  deriving DecidableEq, Repr

namespace Field

def name : Field → Text
  | .input => "input"
  | .output => "output"
  | .supabasePath => "supabasePath"
  | .schema => "schema"
  | .manifest => "manifest"

def get (settings : Settings) : Field → Json
  | .input => settings.input
  | .output => settings.output
  | .supabasePath => settings.supabasePath
  | .schema => settings.schema
  | .manifest => settings.manifest

def put (settings : Settings) (value : Json) : Field → Settings
  | .input => { settings with input := value }
  | .output => { settings with output := value }
  | .supabasePath => { settings with supabasePath := value }
  | .schema => { settings with schema := value }
  | .manifest => { settings with manifest := value }

-- A value of the kind that an option asks for: a truth value, or a text with something in it.
def Fits : Field → Json → Prop
  | .manifest, value => ∃ flag, value = .bool flag
  | _, value => ∃ text, value = .str text ∧ text.isBlank = false

theorem get_put (settings : Settings) (value : Json) (field other : Field) :
    other.get (field.put settings value) = if field = other then value else other.get settings := by
  cases field <;> cases other <;> rfl

theorem name_injective : Function.Injective name := by
  intro field other
  cases field <;> cases other <;> decide

end Field

-- What a caller gives for an option: a text, a truth value, or nothing.
inductive IsArgument : Json → Prop
  | text (text : Text) : IsArgument (.str text)
  | flag (flag : Bool) : IsArgument (.bool flag)
  | absent : IsArgument .null

def isAbsent : Json → Bool
  | .null => true
  | _ => false

-- The names and values of one call.
abbrev Call := List (Text × Json)

-- The last value that is given for an option.
def lastGiven (field : Field) : Call → Option Json
  | [] => none
  | (name, value) :: rest =>
    (lastGiven field rest).or (if name = field.name ∧ isAbsent value = false then some value else none)

-- The settings after some calls, each of which can fail and keeps what it has set until then.
def after (settings : Settings) (calls : List Call) : Settings :=
  calls.foldl (fun settings call => (settings.overrideAll call).1) settings

-- How a call ends that comes after others.
def outcome (settings : Settings) (before : List Call) (call : Call) : Except OverrideError Unit :=
  ((settings.after before).overrideAll call).2

-- What is asked of every call. If it returns, the settings pass the checks and have the last value that was given
-- for each option; if one of its names is no option, it is refused as unknown.
structure Upholds (settings : Settings) (before : List Call) (call : Call) : Prop where
  accepted (h : settings.outcome before call = .ok ()) :
    ∃ config, (settings.after (before ++ [call])).check = .ok config
  latest (h : settings.outcome before call = .ok ()) (field : Field) :
    field.get (settings.after (before ++ [call])) =
      (lastGiven field (before ++ [call]).flatten).getD (field.get settings)
  refused (h : ∃ given ∈ call, ∀ field : Field, given.1 ≠ field.name) :
    ∃ name, settings.outcome before call = .error (.unknownOption name)

variable {settings : Settings} {name : Text} {value : Json}

-- The known names that no text or truth value can be set under.
def refusedNames : List Text := ["__class__", "__dict__", "__weakref__"].map Text.ofString

-- Whether a call goes on behind a name and its value.
def passes (given : Text × Json) : Bool :=
  isKnown given.1 && (isAbsent given.2 || !refusedNames.contains given.1)

-- The part of a call that takes effect.
def taken (call : Call) : Call := if call.any (·.1 == ownName) then [] else call.takeWhile passes

-- All names of a call are those of options.
def OnlyOptions (call : Call) : Prop := ∀ given ∈ call, ∃ field : Field, given.1 = field.name

-- The first name at which a call fails is an unknown one.
def StopsAtUnknown (call : Call) : Prop :=
  (∀ given ∈ call, given.1 ≠ ownName) ∧
    ∃ front name value rest, call = front ++ (name, value) :: rest ∧ (∀ given ∈ front, passes given) ∧
      isKnown name = false

section Step

theorem isKnown_name (field : Field) : isKnown field.name := by
  cases field <;> decide

theorem name_notMem_refusedNames (field : Field) : field.name ∉ refusedNames := by
  cases field <;> decide

theorem set_name (settings : Settings) (field : Field) (value : Json) :
    settings.set field.name value = .ok (field.put settings value) := by
  cases field <;> rfl

theorem set_refused (h : name ∈ refusedNames) (hvalue : IsArgument value) :
    ∃ e, settings.set name value = .error e ∧ ∀ other, e ≠ .unknownOption other := by
  simp only [refusedNames, List.map_cons, List.map_nil, List.mem_cons, List.not_mem_nil, or_false] at h
  obtain rfl | rfl | rfl := h
  · exact ⟨_, rfl, nofun⟩
  · cases hvalue <;> exact ⟨_, rfl, nofun⟩
  · exact ⟨_, rfl, nofun⟩

theorem set_builtin (hname : ∀ field : Field, name ≠ field.name) (h : name ∉ refusedNames) :
    settings.set name value = .ok settings := by
  simp only [refusedNames, List.map_cons, List.map_nil, List.mem_cons, List.not_mem_nil, or_false, not_or] at h
  have hinput : name ≠ "input" := hname .input
  have houtput : name ≠ "output" := hname .output
  have hclient : name ≠ "supabasePath" := hname .supabasePath
  have hschema : name ≠ "schema" := hname .schema
  have hmanifest : name ≠ "manifest" := hname .manifest
  simp only [set, hinput, houtput, hclient, hschema, hmanifest, h.1, h.2.1, h.2.2, if_false]

theorem override_unknown (h : isKnown name = false) :
    settings.override name value = .error (.unknownOption name) := by
  simp [override, h]

theorem override_absent (h : isKnown name) : settings.override name .null = .ok settings := by
  simp [override, h]

theorem override_known (settings : Settings) (h : isKnown name) (hvalue : isAbsent value = false) :
    settings.override name value = settings.set name value := by
  cases value with
  | null => cases hvalue
  | _ => simp [override, h]

theorem lastGiven_single (field : Field) (name : Text) (value : Json) :
    lastGiven field [(name, value)] = if name = field.name ∧ isAbsent value = false then some value else none := rfl

-- A name that a call goes on behind sets its option, if it is one and there is a value.
theorem override_of_passes (settings : Settings) (h : passes (name, value)) : ∃ changed,
    settings.override name value = .ok changed ∧
      ∀ field : Field, field.get changed = (lastGiven field [(name, value)]).getD (field.get settings) := by
  obtain ⟨hknown, hfree⟩ := Bool.and_eq_true_iff.mp h
  cases habsent : isAbsent value with
  | true =>
    obtain rfl : value = .null := by cases value <;> first | rfl | cases habsent
    exact ⟨settings, override_absent hknown, fun field => by rw [lastGiven_single, habsent]; simp⟩
  | false =>
    have hset := override_known settings hknown habsent
    by_cases hname : ∃ field : Field, name = field.name
    · obtain ⟨field, rfl⟩ := hname
      refine ⟨field.put settings value, hset.trans (set_name settings field value), fun other => ?_⟩
      rw [Field.get_put, lastGiven_single, habsent]
      by_cases heq : field = other
      · simp [heq]
      · simp [heq, Field.name_injective.ne heq]
    · rw [not_exists] at hname
      rw [habsent, Bool.false_or] at hfree
      have hbuiltin : name ∉ refusedNames := by simpa using hfree
      refine ⟨settings, hset.trans (set_builtin hname hbuiltin), fun field => ?_⟩
      rw [lastGiven_single, if_neg fun h => hname field h.1]
      rfl

-- A name that a call fails at.
theorem override_of_not_passes (settings : Settings) (h : passes (name, value) = false) (hvalue : IsArgument value) :
    (isKnown name = false ∧ settings.override name value = .error (.unknownOption name)) ∨
      (isKnown name ∧ ∃ e, settings.override name value = .error e ∧ ∀ other, e ≠ .unknownOption other) := by
  cases hknown : isKnown name with
  | false => exact .inl ⟨rfl, override_unknown hknown⟩
  | true =>
    rw [passes, hknown, Bool.true_and, Bool.or_eq_false_iff] at h
    obtain ⟨habsent, hrefused⟩ := h
    rw [override_known settings hknown habsent]
    exact .inr ⟨rfl, set_refused (by simpa using hrefused) hvalue⟩

end Step

section Calls

variable {call : Call} {before calls : List Call}

theorem lastGiven_append (field : Field) (first rest : Call) :
    lastGiven field (first ++ rest) = (lastGiven field rest).or (lastGiven field first) := by
  induction first with
  | nil => simp [lastGiven]
  | cons given first ih =>
    obtain ⟨name, value⟩ := given
    rw [List.cons_append, lastGiven, lastGiven, ih, Option.or_assoc]

theorem getD_lastGiven_cons (field : Field) (given : Text × Json) (rest : Call) (value : Json) :
    (lastGiven field (given :: rest)).getD value =
      (lastGiven field rest).getD ((lastGiven field [given]).getD value) := by
  rw [← List.singleton_append, lastGiven_append]
  cases lastGiven field rest <;> rfl

-- What one call leaves of each option.
theorem get_overrideEach (harguments : ∀ given ∈ call, IsArgument given.2) (settings : Settings) (field : Field) :
    field.get (settings.overrideEach call).1 =
      (lastGiven field (call.takeWhile passes)).getD (field.get settings) := by
  induction call generalizing settings with
  | nil => rfl
  | cons given rest ih =>
    obtain ⟨name, value⟩ := given
    obtain ⟨hvalue, hrest⟩ := List.forall_mem_cons.mp harguments
    cases hpasses : passes (name, value) with
    | true =>
      obtain ⟨changed, hchanged, hget⟩ := override_of_passes settings hpasses
      rw [overrideEach, hchanged, List.takeWhile_cons_of_pos hpasses, getD_lastGiven_cons, ← hget field]
      exact ih hrest changed
    | false =>
      rw [overrideEach, List.takeWhile_cons_of_neg (by simp [hpasses])]
      obtain ⟨_, h⟩ | ⟨_, e, h, _⟩ := override_of_not_passes settings hpasses hvalue <;>
      · rw [h]
        rfl

theorem get_overrideAll (harguments : ∀ given ∈ call, IsArgument given.2) (settings : Settings) (field : Field) :
    field.get (settings.overrideAll call).1 = (lastGiven field (taken call)).getD (field.get settings) := by
  rw [overrideAll, taken]
  split
  · rfl
  · exact get_overrideEach harguments settings field

-- What a sequence of calls leaves of each option.
theorem get_after (harguments : ∀ call ∈ calls, ∀ given ∈ call, IsArgument given.2) (settings : Settings)
    (field : Field) :
    field.get (settings.after calls) = (lastGiven field (calls.flatMap taken)).getD (field.get settings) := by
  induction calls generalizing settings with
  | nil => rfl
  | cons call rest ih =>
    obtain ⟨hcall, hrest⟩ := List.forall_mem_cons.mp harguments
    have hnext := ih hrest (settings.overrideAll call).1
    rw [after, List.foldl_cons, ← after, hnext, get_overrideAll hcall, List.flatMap_cons, lastGiven_append]
    cases lastGiven field (rest.flatMap taken) <;> rfl

-- A call returns if it goes on behind all of its names.
theorem overrideEach_eq_ok (harguments : ∀ given ∈ call, IsArgument given.2) (settings : Settings) :
    (settings.overrideEach call).2 = .ok () ↔ ∀ given ∈ call, passes given := by
  induction call generalizing settings with
  | nil => simp [overrideEach]
  | cons given rest ih =>
    obtain ⟨name, value⟩ := given
    obtain ⟨hvalue, hrest⟩ := List.forall_mem_cons.mp harguments
    rw [List.forall_mem_cons]
    cases hpasses : passes (name, value) with
    | true =>
      obtain ⟨changed, hchanged, -⟩ := override_of_passes settings hpasses
      rw [overrideEach, hchanged]
      simpa using ih hrest changed
    | false =>
      rw [overrideEach]
      obtain ⟨_, h⟩ | ⟨_, e, h, _⟩ := override_of_not_passes settings hpasses hvalue <;> simp [h]

-- A call stops no later than at its first name.
theorem name_eq_of_not_passes (hpasses : passes (name, value) = false) {front last rest : Call} {other : Text}
    {given : Json} (heq : (name, value) :: rest = front ++ (other, given) :: last)
    (hfront : ∀ given ∈ front, passes given) : name = other := by
  cases front with
  | nil => exact (Prod.mk.inj (List.cons.inj heq).1).1
  | cons first front =>
    obtain rfl := (List.cons.inj heq).1
    rw [(List.forall_mem_cons.mp hfront).1] at hpasses
    cases hpasses

theorem overrideEach_eq_unknown (harguments : ∀ given ∈ call, IsArgument given.2) (settings : Settings) :
    (∃ name, (settings.overrideEach call).2 = .error (.unknownOption name)) ↔
      ∃ front name value rest, call = front ++ (name, value) :: rest ∧ (∀ given ∈ front, passes given) ∧
        isKnown name = false := by
  induction call generalizing settings with
  | nil => simp [overrideEach]
  | cons given rest ih =>
    obtain ⟨name, value⟩ := given
    obtain ⟨hvalue, hrest⟩ := List.forall_mem_cons.mp harguments
    cases hpasses : passes (name, value) with
    | true =>
      obtain ⟨changed, hchanged, -⟩ := override_of_passes settings hpasses
      rw [overrideEach, hchanged]
      dsimp only
      rw [ih hrest changed]
      constructor
      · rintro ⟨front, other, given, last, rfl, hfront, hunknown⟩
        exact ⟨(name, value) :: front, other, given, last, rfl, List.forall_mem_cons.mpr ⟨hpasses, hfront⟩, hunknown⟩
      · rintro ⟨front, other, given, last, heq, hfront, hunknown⟩
        cases front with
        | nil =>
          obtain ⟨rfl, rfl⟩ := Prod.mk.inj (List.cons.inj heq).1
          rw [passes, hunknown] at hpasses
          cases hpasses
        | cons first front =>
          exact ⟨front, other, given, last, (List.cons.inj heq).2, (List.forall_mem_cons.mp hfront).2, hunknown⟩
    | false =>
      rw [overrideEach]
      obtain ⟨hunknown, h⟩ | ⟨hknown, e, h, hother⟩ := override_of_not_passes settings hpasses hvalue
      · rw [h]
        exact iff_of_true ⟨name, rfl⟩ ⟨[], name, value, rest, rfl, nofun, hunknown⟩
      · rw [h]
        refine iff_of_false (fun ⟨other, heq⟩ => hother other (Except.error.inj heq)) ?_
        rintro ⟨front, other, given, last, heq, hfront, hunknown⟩
        rw [name_eq_of_not_passes hpasses heq hfront, hunknown] at hknown
        cases hknown

theorem outcome_eq_ok (harguments : ∀ given ∈ call, IsArgument given.2) :
    settings.outcome before call = .ok () ↔ ∀ given ∈ call, passes given := by
  rw [outcome, overrideAll]
  split
  · rename_i hown
    obtain ⟨given, hmem, hname⟩ := List.any_eq_true.mp hown
    refine iff_of_false nofun fun hall => ?_
    have hpasses := hall given hmem
    rw [passes, eq_of_beq hname] at hpasses
    cases hpasses
  · exact overrideEach_eq_ok harguments _

theorem outcome_eq_unknown (settings : Settings) (before : List Call)
    (harguments : ∀ given ∈ call, IsArgument given.2) :
    (∃ name, settings.outcome before call = .error (.unknownOption name)) ↔ StopsAtUnknown call := by
  have hown : call.any (·.1 == ownName) = false ↔ ∀ given ∈ call, given.1 ≠ ownName := by simp
  simp only [outcome, overrideAll]
  rw [StopsAtUnknown, ← hown]
  cases call.any (·.1 == ownName) with
  | true => simp
  | false => simpa using overrideEach_eq_unknown harguments (settings.after before)

theorem OnlyOptions.passes (h : OnlyOptions call) : ∀ given ∈ call, passes given := by
  rintro ⟨name, value⟩ hmem
  obtain ⟨field, rfl⟩ := h _ hmem
  simp [Settings.passes, isKnown_name field, name_notMem_refusedNames field]

end Calls

theorem checkText_eq_ok {option text : Text} {value : Json} :
    checkText option value = .ok text ↔ value = .str text ∧ text.isBlank = false := by
  cases value with
  | str t =>
    rw [checkText]
    cases hblank : t.isBlank with
    | true =>
      refine iff_of_false (by simp) ?_
      rintro ⟨⟨⟩, hnot⟩
      rw [hblank] at hnot
      cases hnot
    | false =>
      simp only [Bool.false_eq_true, if_false, Except.ok.injEq, Json.str.injEq]
      exact ⟨fun h => ⟨h, h ▸ hblank⟩, And.left⟩
  | _ => simp [checkText]

theorem checkBool_eq_ok {flag : Bool} {value : Json} : checkBool value = .ok flag ↔ value = .bool flag := by
  cases value <;> simp [checkBool]

-- The checks ask the same of every option.
theorem exists_check_eq_ok :
    (∃ config, settings.check = .ok config) ↔ ∀ field : Field, field.Fits (field.get settings) := by
  simp only [check, except_bind_eq_ok, checkText_eq_ok, checkBool_eq_ok]
  constructor
  · rintro ⟨_, input, hinput, output, houtput, client, hclient, schema, hschema, manifest, hmanifest, -⟩ field
    cases field with
    | input => exact ⟨input, hinput⟩
    | output => exact ⟨output, houtput⟩
    | supabasePath => exact ⟨client, hclient⟩
    | schema => exact ⟨schema, hschema⟩
    | manifest => exact ⟨manifest, hmanifest⟩
  · intro h
    obtain ⟨input, hinput⟩ := h .input
    obtain ⟨output, houtput⟩ := h .output
    obtain ⟨client, hclient⟩ := h .supabasePath
    obtain ⟨schema, hschema⟩ := h .schema
    obtain ⟨manifest, hmanifest⟩ := h .manifest
    exact ⟨_, input, hinput, output, houtput, client, hclient, schema, hschema, manifest, hmanifest, rfl⟩

section Verdict

variable {before : List Call} {call : Call}

-- A call that returns has done its part exactly when all its names are options and the values that are left are the
-- last ones given, of the right kind.
theorem upholds_iff_of_returns (hfits : ∀ field : Field, field.Fits (field.get settings))
    (harguments : ∀ calls ∈ before ++ [call], ∀ given ∈ calls, IsArgument given.2)
    (hok : settings.outcome before call = .ok ()) :
    settings.Upholds before call ↔ OnlyOptions call ∧ ∀ field : Field,
      (∀ value ∈ lastGiven field (before ++ [call]).flatten, field.Fits value) ∧
      (lastGiven field ((before ++ [call]).flatMap taken)).getD (field.get settings) =
        (lastGiven field (before ++ [call]).flatten).getD (field.get settings) := by
  constructor
  · rintro ⟨haccepted, hlatest, hrefused⟩
    have honly : OnlyOptions call := by
      intro given hgiven
      by_contra hno
      obtain ⟨name, hname⟩ := hrefused ⟨given, hgiven, not_exists.mp hno⟩
      rw [hok] at hname
      cases hname
    refine ⟨honly, fun field => ⟨fun value hvalue => ?_, (get_after harguments settings field).symm.trans
      (hlatest hok field)⟩⟩
    have hfield := exists_check_eq_ok.mp (haccepted hok) field
    rwa [hlatest hok field, hvalue, Option.getD_some] at hfield
  · rintro ⟨honly, hfields⟩
    have hlatest (field : Field) : field.get (settings.after (before ++ [call])) =
        (lastGiven field (before ++ [call]).flatten).getD (field.get settings) :=
      (get_after harguments settings field).trans (hfields field).2
    refine ⟨fun _ => exists_check_eq_ok.mpr fun field => ?_, fun _ => hlatest, ?_⟩
    · rw [hlatest field]
      cases hgiven : lastGiven field (before ++ [call]).flatten with
      | none => exact hfits field
      | some value => exact (hfields field).1 value hgiven
    · rintro ⟨given, hgiven, hno⟩
      obtain ⟨field, hfield⟩ := honly given hgiven
      exact absurd hfield (hno field)

-- A call that fails has done so exactly when it is refused for an unknown name.
theorem upholds_iff_of_fails (hlast : ∀ given ∈ call, IsArgument given.2)
    (hfails : settings.outcome before call ≠ .ok ()) : settings.Upholds before call ↔ StopsAtUnknown call := by
  rw [← outcome_eq_unknown settings before hlast]
  constructor
  · intro h
    refine h.refused ?_
    by_contra hno
    have honly : OnlyOptions call := by
      intro given hgiven
      by_contra hname
      exact hno ⟨given, hgiven, not_exists.mp hname⟩
    exact hfails ((outcome_eq_ok hlast).mpr honly.passes)
  · exact fun hunknown => ⟨fun hok => absurd hok hfails, fun hok => absurd hok hfails, fun _ => hunknown⟩

-- The calls keep a configuration valid and up to date exactly when every value they leave is of the right kind and no
-- failed call has left its mark, or when the call is refused for an unknown name.
theorem upholds_iff {before : List Call} {call : Call} {config : Config} (hvalid : settings.check = .ok config)
    (harguments : ∀ calls ∈ before ++ [call], ∀ given ∈ calls, IsArgument given.2) :
    settings.Upholds before call ↔
      OnlyOptions call ∧ (∀ field : Field,
        (∀ value ∈ lastGiven field (before ++ [call]).flatten, field.Fits value) ∧
        (lastGiven field ((before ++ [call]).flatMap taken)).getD (field.get settings) =
          (lastGiven field (before ++ [call]).flatten).getD (field.get settings)) ∨
      StopsAtUnknown call := by
  have hlast : ∀ given ∈ call, IsArgument given.2 := harguments call (by simp)
  by_cases hok : settings.outcome before call = .ok ()
  · have hknown : ¬ StopsAtUnknown call := by
      rw [← outcome_eq_unknown settings before hlast, hok]
      simp
    rw [or_iff_left hknown]
    exact upholds_iff_of_returns (exists_check_eq_ok.mp ⟨config, hvalid⟩) harguments hok
  · have hother : ¬ OnlyOptions call := fun honly => hok ((outcome_eq_ok hlast).mpr honly.passes)
    rw [or_iff_right fun h => hother h.1]
    exact upholds_iff_of_fails hlast hok

end Verdict

section Sample

theorem upholds_after_two_calls :
    default.check = .ok Config.default ∧
      default.Upholds [[("schema", .str "auth"), ("input", .null)]]
        [("schema", .str "api"), ("manifest", .bool false)] := by
  have hvalid : default.check = .ok Config.default := by rfl
  refine ⟨hvalid, (upholds_iff hvalid ?_).mpr (.inl ⟨?_, fun field => ⟨?_, ?_⟩⟩)⟩
  · simp only [List.cons_append, List.nil_append, List.forall_mem_cons]
    exact ⟨⟨.text _, .absent, nofun⟩, ⟨.text _, .flag _, nofun⟩, nofun⟩
  · simp only [OnlyOptions, List.forall_mem_cons]
    exact ⟨⟨.schema, rfl⟩, ⟨.manifest, rfl⟩, nofun⟩
  · cases field with
    | schema => rintro _ ⟨⟩; exact ⟨_, rfl, by decide⟩
    | manifest => rintro _ ⟨⟩; exact ⟨_, rfl⟩
    | _ => exact nofun
  · cases field <;> rfl

-- A blank text is taken, and so is a value for the name of a method.
theorem blank_and_method_taken :
    ¬ default.Upholds [] [("input", .str " ")] ∧ ¬ default.Upholds [] [("get_input_path", .str "x")] := by
  constructor
  · intro h
    obtain ⟨config, hconfig⟩ := h.accepted (by rfl)
    cases hconfig
  · intro h
    obtain ⟨name, hname⟩ := h.refused ⟨_, List.mem_cons_self, fun field => by cases field <;> decide⟩
    cases hname

end Sample

-- The options of a request are given in one call.
def callOf (overrides : Overrides) : Call :=
  [(Field.input, overrides.input), (Field.output, overrides.output), (Field.supabasePath, overrides.supabasePath),
    (Field.schema, overrides.schema)].map fun (field, text) => (field.name, text.elim .null .str)

theorem overrideAll_toSettings (config : Config) (overrides : Overrides) :
    config.toSettings.overrideAll (callOf overrides) = ((config.override overrides).toSettings, .ok ()) := by
  obtain ⟨input, output, client, schema⟩ := overrides
  cases input <;> cases output <;> cases client <;> cases schema <;> rfl

end Settings

end HookGen
