import AgentGpu.Auth.Service

namespace AgentGpu.HttpApi

open Auth

def maxRequestIDLen : ℕ := 128

def safeRune (c : Char) : Bool :=
  ('a' ≤ c ∧ c ≤ 'z') ∨ ('A' ≤ c ∧ c ≤ 'Z') ∨ ('0' ≤ c ∧ c ≤ '9') ∨ c = '-' ∨ c = '_' ∨ c = '.'

/-- The header value when it is acceptable as a correlation id and empty otherwise. -/
def sanitizeRequestID (v : String) : String :=
  if v = "" ∨ v.utf8ByteSize > maxRequestIDLen then ""
  else if v.toList.all safeRune then v else ""

/-- The bytes are what the random source gave, `none` when it failed. -/
def newID (kind : String) (entropy : Option (List UInt8)) : String :=
  kind ++ (entropy.map hexEncode).getD ""

def requestID (header : String) (entropy : Option (List UInt8)) : String :=
  let id := sanitizeRequestID header
  if id = "" then newID "req-" entropy else id

/-- The request id on the context becomes the id of the dispatched job. -/
def jobIDFor (contextID : Option String) (entropy : Option (List UInt8)) : String :=
  match contextID with
  | some id => if id = "" then newID "job-" entropy else id
  | none => newID "job-" entropy

theorem requestID_ne_empty (header : String) (entropy : Option (List UInt8)) :
    requestID header entropy ≠ "" := by
  unfold requestID
  dsimp only
  split_ifs with h
  · intro hempty
    have hlen := congrArg String.length hempty
    simp [newID] at hlen
  · exact h

theorem jobIDFor_requestID (header : String) (entropy entropy' : Option (List UInt8)) :
    jobIDFor (some (requestID header entropy)) entropy' = requestID header entropy := by
  simp [jobIDFor, requestID_ne_empty]

end AgentGpu.HttpApi
