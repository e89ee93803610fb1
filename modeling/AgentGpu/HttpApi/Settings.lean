import AgentGpu.HttpApi.Config

namespace AgentGpu.HttpApi

open Sessions

def trimSpace (s : String) : String :=
  String.ofList ((s.toList.dropWhile isSpace).reverse.dropWhile isSpace).reverse

/-- A value of the console's settings form. As in `Raw`, a text in duration syntax is given by
the duration it reads as, except for the text `0`, which is also a number. -/
inductive Posted
  | text (s : String)
  | span (d : Duration)
  deriving DecidableEq

inductive FormKey
  | field (f : Field)
  | other (key : String)
  deriving DecidableEq

inductive FormError
  | readOnly (key : String)
  | notNumber (f : Field) (value : Posted)
  deriving DecidableEq

def numericConfigField : Field → Bool
  | .quotaDefaultRPM | .quotaDefaultTPM | .quotaDefaultDailyTokens | .quotaDefaultMonthlyTokens
  | .quotaGlobalRPM | .quotaGlobalTPM | .sessionMaxTurns | .sessionMaxBytes
  | .sessionMaxContextTokens | .sessionMaxSessionsPerKey => true
  | _ => false

def isNonNegInteger (s : String) : Bool := s ≠ "" ∧ s.toList.all fun c ↦ '0' ≤ c ∧ c ≤ '9'

/-- A text of digits as JSON. With a leading zero it is none. -/
def numberToken (s : String) : Raw :=
  if s.toList.head? = some '0' ∧ s ≠ "0" then .other
  else .int (s.toList.foldl (fun n c ↦ 10 * n + (c.toNat - '0'.toNat)) 0 : ℕ)

def formValue (f : Field) (value : Posted) : Except FormError (Option Raw) :=
  match value with
  | .span d => if numericConfigField f then .error (.notNumber f value) else .ok (some (.span d))
  | .text s =>
    let val := trimSpace s
    if val = "" then .ok none
    else if numericConfigField f then
      if isNonNegInteger val then .ok (some (numberToken val))
      else .error (.notNumber f (.text val))
    else .ok (some (if val = "0" then .span 0 else .text val))

def formEntry (raw : Overrides) : FormKey × Posted → Except FormError Overrides
  | (.other key, _) => if key ∈ readOnlyFields then .error (.readOnly key) else .ok raw
  | (.field f, value) => do
    match ← formValue f value with
    | none => .ok raw
    | some msg => .ok (Function.update raw f (some msg))

/-- The entries come in the order in which the form's map happens to be walked. -/
def settingsFormToPatch (form : List (FormKey × Posted)) : Except FormError Overrides :=
  form.foldlM formEntry fun _ ↦ none

example : (settingsFormToPatch [(.field .sessionMaxTurns, .text " 12 "), (.other "csrf_token", .text "x"),
    (.field .logLevel, .text "")]).toOption.map (fun raw ↦ (raw .sessionMaxTurns, raw .logLevel)) =
      some (some (.int 12), none) := by
  decide

end AgentGpu.HttpApi
