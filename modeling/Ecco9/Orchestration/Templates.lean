import Ecco9.Library.Decimal
import Ecco9.Library.OnePass

/-! Templates of `orchestration/workflows.go` and `orchestration/engine.go`: placeholders that are replaced
key after key, in the order in which a map happens to have them. -/

namespace Ecco9.Orchestration

open Ecco9.Library

/-- A map from keys, in one of its orders. -/
structure Params (V : Type) where
  entries : List (Text × V) := []
  distinct : (entries.map Prod.fst).Nodup

/-- `{{%s}}` -/
def placeholder (key : Text) : Text := ascii "\x7b\x7b" ++ key ++ ascii "\x7d\x7d"

def replacePlaceholders (input : Text) (context : List (Text × Text)) : Text :=
  context.foldl (fun result entry => replaceAll (placeholder entry.1) entry.2 result) input

/-- The values are written as `%v` writes them. -/
def processMessageTemplate {V : Type} (format : V → Text) (template : Text) (params : List (Text × V)) :
    Text :=
  params.foldl (fun result entry => replaceAll (placeholder entry.1) (format entry.2) result) template

section

variable {V : Type} (format : V → Text)

/-- What is replaced for an entry, and by what. -/
def replacement (entry : Text × V) : Text × Text := (placeholder entry.1, format entry.2)

/-- The placeholders replaced in one pass from left to right. -/
def onePass (params : Params V) (template : Text) : Text :=
  replacer (params.entries.map (replacement format)) template

/-- The template, cut at its placeholders. -/
def templatePieces (params : Params V) (template : Text) : List Piece :=
  pieces (params.entries.map fun entry => placeholder entry.1) template

/-- In every order of the map the text is that of one pass, and each key is found at the placeholders of the
template alone. -/
def Once (process : Text → List (Text × V) → Text) (params : Params V) (template : Text) : Prop :=
  ∀ order : List (Text × V), order.Perm params.entries →
    process template order = onePass format params template ∧
    ∀ done entry rest, order = done ++ entry :: rest →
      split (placeholder entry.1) (process template done) =
        parts (done.map (replacement format)) (placeholder entry.1) (templatePieces params template)

/-- Whatever keys are filled in, the placeholder of another begins only where the template has it. -/
def Apart (params : Params V) (template : Text) : Prop :=
  ∀ done entry rest, (done ++ entry :: rest).Perm params.entries →
    Only (done.map (replacement format)) (placeholder entry.1) (templatePieces params template)

end

/-! ### Key after key -/

theorem placeholder_ne_nil (key : Text) : placeholder key ≠ [] := List.cons_ne_nil _ _

theorem placeholder_inj {key key' : Text} (h : placeholder key = placeholder key') : key = key' :=
  List.append_cancel_left (List.append_cancel_right h)

section

variable {V : Type} {format : V → Text} {params : Params V}

theorem processMessageTemplate_eq (template : Text) (order : List (Text × V)) :
    processMessageTemplate format template order = oneByOne (order.map (replacement format)) template := by
  rw [processMessageTemplate, oneByOne, List.foldl_map]
  rfl

theorem processMessageTemplate_once (params : Params V) (template : Text) :
    Once format (processMessageTemplate format) params template ↔ Apart format params template := by
  have distinct := params.distinct.map (f := placeholder) fun _ _ => placeholder_inj
  rw [List.map_map] at distinct
  have library := oneByOne_iff (f := replacement format) (fun entry _ => placeholder_ne_nil entry.1)
    distinct template
  rw [Once]
  simp only [processMessageTemplate_eq]
  exact library

end

/-- Templates are filled in once, whatever the order of the map, if and only if no placeholder comes up but
those of the template. -/
theorem filled_once {V : Type} (format : V → Text) (context : Params Text) (input : Text)
    (params : Params V) (template : Text) :
    (Once id replacePlaceholders context input ↔ Apart id context input) ∧
      (Once format (processMessageTemplate format) params template ↔ Apart format params template) :=
  ⟨processMessageTemplate_once context input, processMessageTemplate_once params template⟩

/-- Where the value of one key is the placeholder of another, the order of the map shows. -/
theorem order_shows : ¬∀ (context : Params Text) (input : Text) (order order' : List (Text × Text)),
    order.Perm context.entries → order'.Perm context.entries →
      replacePlaceholders input order = replacePlaceholders input order' := by
  intro h
  have := h ⟨[(ascii "a", placeholder (ascii "b")), (ascii "b", ascii "x")], by decide⟩
    (placeholder (ascii "a")) _ _ (.refl _) (.swap ..)
  exact absurd this (by decide)

/-! ### Workflows -/

structure WorkflowStep where
  name : Text
  type : Text
  input : Text
  modelName : Text

structure Task where
  type : Text
  input : Text
  modelName : Text

structure WorkflowStepResult where
  name : Text := []
  type : Text := []
  input : Text := []
  output : Text := []
  modelUsed : Text := []
  success : Bool := false

structure WorkflowResult where
  steps : List WorkflowStepResult
  success : Bool
  error : Text

def Params.put {V : Type} (params : Params V) (key : Text) (value : V) : Params V :=
  ⟨Keyed.put Prod.fst (key, value) params.entries, Keyed.distinct_put _ params.distinct⟩

/-- What else the steps depend on: the model that is selected, and what executing the task of a step
brings, its output and the model used. -/
structure Engine where
  selectBestModel : Text → Text → Text
  executeTask : Nat → Task → Except Text (Text × Text)

/-- The task of a step whose input is filled in. -/
def Engine.task (e : Engine) (step : WorkflowStep) (input : Text) : Task :=
  ⟨step.type, input, if step.modelName = [] then e.selectBestModel step.type input else step.modelName⟩

/-- The result of a step is stored by its number and by its name. -/
def Params.store (context : Params Text) (i : Nat) (step : WorkflowStep) (output : Text) : Params Text :=
  (context.put (ascii "step" ++ decimal (i + 1)) output).put step.name output

/-- The steps from the one with the number `i`, with the results of those before it; `fillIn` makes the
input of a step. -/
def stepsFrom (e : Engine) (fillIn : Nat → Params Text → Text → Text) (i : Nat) (context : Params Text) :
    List WorkflowStep → List WorkflowStepResult × Option Text
  | [] => ([], none)
  | step :: steps =>
    let input := fillIn i context step.input
    match e.executeTask i (e.task step input) with
    | .error err => ([], some (ascii "Step " ++ decimal (i + 1) ++ ascii " failed: " ++ err))
    | .ok (output, modelUsed) =>
      let (results, err) := stepsFrom e fillIn (i + 1) (context.store i step output) steps
      (⟨step.name, step.type, input, output, modelUsed, true⟩ :: results, err)

/-- The steps that were not reached have empty results. -/
def workflow (e : Engine) (fillIn : Nat → Params Text → Text → Text) (steps : List WorkflowStep) :
    WorkflowResult :=
  let (results, err) := stepsFrom e fillIn 0 ⟨[], .nil⟩ steps
  { steps := results ++ List.replicate (steps.length - results.length) {}
    success := err.isNone
    error := err.getD [] }

/-- An order of each map. -/
structure MapOrder where
  of : List (Text × Text) → List (Text × Text)
  perm : ∀ l, (of l).Perm l

/-- The order of the map at each step is `order`; the agent is known. -/
def multiStepWorkflow (e : Engine) (order : Nat → MapOrder) (steps : List WorkflowStep) : WorkflowResult :=
  workflow e (fun i context input => replacePlaceholders input ((order i).of context.entries)) steps

/-- In the run whose inputs are made in one pass, no placeholder comes up but those of the step. -/
def ApartFrom (e : Engine) (i : Nat) (context : Params Text) : List WorkflowStep → Prop
  | [] => True
  | step :: steps =>
    Apart id context step.input ∧
      match e.executeTask i (e.task step (onePass id context step.input)) with
      | .error _ => True
      | .ok (output, _) => ApartFrom e (i + 1) (context.store i step output) steps

theorem stepsFrom_eq (e : Engine) (order : Nat → MapOrder) {i : Nat} {context : Params Text}
    {steps : List WorkflowStep} (apart : ApartFrom e i context steps) :
    stepsFrom e (fun i context input => replacePlaceholders input ((order i).of context.entries)) i context
        steps =
      stepsFrom e (fun _ context input => onePass id context input) i context steps := by
  induction steps generalizing i context with
  | nil => rfl
  | cons step steps ih =>
    obtain ⟨now, later⟩ := apart
    have hinput : replacePlaceholders step.input ((order i).of context.entries) =
        onePass id context step.input :=
      ((processMessageTemplate_once context step.input).mpr now _ ((order i).perm _)).1
    rw [stepsFrom, stepsFrom, hinput]
    dsimp only
    cases hexecute : e.executeTask i (e.task step (onePass id context step.input)) with
    | error err => rfl
    | ok answer =>
      rw [hexecute] at later
      dsimp only
      rw [ih later]

/-- A workflow of two steps, the second of which is given the result of the first. -/
def twoSteps : List WorkflowStep :=
  [⟨ascii "step1", [], ascii "hi", ascii "m"⟩, ⟨ascii "two", [], ascii "\x7b\x7bstep1\x7d\x7d!", ascii "m"⟩]

/-- An engine that answers with the input. -/
def echo : Engine := ⟨fun _ _ => [], fun _ task => .ok (task.input, task.modelName)⟩

end Ecco9.Orchestration
