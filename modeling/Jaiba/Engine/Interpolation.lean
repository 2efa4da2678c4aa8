import Jaiba.Error
import Jaiba.Json
import Jaiba.Lib.Substring

/-!
# Parameters of the configuration (`engine/executor/validation.rs`)

`resolve_processor_parameters`: in every string of a configuration the
`${name}` of the parameters are replaced one parameter after another, in the
order of their `HashMap`, then each `${env:NAME}` by its variable. The variables
of the process are a parameter; `std::env::var` gives none for a missing one.
-/

namespace Jaiba.Engine.Interpolation
open Jaiba.Lib

abbrev Text := List Char

abbrev Variables := Text → Option Text

/-- `format!("${{{name}}}")`. -/
def placeholder (name : Text) : Text := '$' :: '{' :: (name ++ ['}'])

/-- `${env:`. -/
def marker : Text := ['$', '{', 'e', 'n', 'v', ':']

/-- The loop over `parameters`. -/
def replaceParameters (order : List (Text × Text)) (text : Text) : Text :=
  order.foldl (fun text p => Substring.replace (placeholder p.1) p.2 text) text

/-! ### Variables -/

/-- One round of `resolve_environment_placeholders`: the text with the first placeholder replaced,
nothing where there is none. -/
def substituteFirst (env : Variables) (text : Text) : Except FlowError (Option Text) :=
  match Substring.find marker text with
  | none => .ok none
  | some (before, rest) =>
    match Substring.find ['}'] rest with
    | none => .error (.configuration ("invalid environment placeholder in '" ++ String.ofList text ++ "'"))
    | some (name, after) =>
      match env name with
      | none => .error (.configuration ("environment variable '" ++ String.ofList name ++
          "' required by processor configuration is missing"))
      | some value => .ok (some (before ++ value ++ after))

/-- `resolve_environment_placeholders`, as far as so many rounds come; nothing while it still runs. -/
def resolveEnvironment (env : Variables) : ℕ → Text → Option (Except FlowError Text)
  | 0, _ => none
  | rounds + 1, text =>
    match substituteFirst env text with
    | .error e => some (.error e)
    | .ok none => some (.ok text)
    | .ok (some next) => resolveEnvironment env rounds next

/-! ### Values -/

/-- The string case of `interpolate_value`. -/
def interpolateText (env : Variables) (order : List (Text × Text)) (rounds : ℕ) (text : Text) :
    Option (Except FlowError Text) :=
  (resolveEnvironment env rounds (replaceParameters order text)).map fun resolved =>
    resolved.bind fun text =>
      if Substring.contains ['$', '{'] text then
        .error (.configuration ("unresolved parameter in '" ++ String.ofList text ++ "'"))
      else .ok text

/-- A step that may still run, then the next one. -/
def andThen {α β : Type} (x : Option (Except FlowError α)) (f : α → Option (Except FlowError β)) :
    Option (Except FlowError β) :=
  match x with
  | none => none
  | some (.error e) => some (.error e)
  | some (.ok a) => f a

mutual

def interpolateValue (env : Variables) (order : List (Text × Text)) (rounds : ℕ) : Json → Option (Except FlowError Json)
  | .string text => andThen (interpolateText env order rounds text.toList) fun text => some (.ok (.string (String.ofList text)))
  | .array items => andThen (interpolateItems env order rounds items) fun items => some (.ok (.array items))
  | .object fields => andThen (interpolateFields env order rounds fields) fun fields => some (.ok (.object fields))
  | other => some (.ok other)

def interpolateItems (env : Variables) (order : List (Text × Text)) (rounds : ℕ) :
    List Json → Option (Except FlowError (List Json))
  | [] => some (.ok [])
  | item :: rest => andThen (interpolateValue env order rounds item) fun item =>
      andThen (interpolateItems env order rounds rest) fun rest => some (.ok (item :: rest))

def interpolateFields (env : Variables) (order : List (Text × Text)) (rounds : ℕ) :
    List (String × Json) → Option (Except FlowError (List (String × Json)))
  | [] => some (.ok [])
  | (key, value) :: rest => andThen (interpolateValue env order rounds value) fun value =>
      andThen (interpolateFields env order rounds rest) fun rest => some (.ok ((key, value) :: rest))

end

/-- `resolve_processor_parameters`, on the `config` of each processor. -/
def resolveProcessorParameters (env : Variables) (order : List (Text × Text)) (rounds : ℕ) (configs : List Json) :
    Option (Except FlowError (List Json)) := interpolateItems env order rounds configs

end Jaiba.Engine.Interpolation
