import AgentGpu.Types
import AgentGpu.Foundation.Tables
import Mathlib.Algebra.GroupWithZero.Nat
import Mathlib.Logic.Function.Basic

namespace AgentGpu.Sessions

open Foundation

inductive Status
  | active
  | expired
  deriving DecidableEq

structure Session where
  id : String
  ownerKeyID : String
  model : String
  boundWorkerID : String := ""
  createdAt : Time
  lastActiveAt : Time
  ttl : Duration
  status : Status := .active
  deriving DecidableEq

def Session.expired (s : Session) (now : Time) : Bool :=
  if s.ttl ≤ 0 then false else decide (Time.sub now s.lastActiveAt > s.ttl)

/-- The map a `MemorySessionStore` guards; a row is stored under its own id. -/
abbrev SessionTable := Table String Session

inductive OverflowPolicy
  | trim
  | reject
  deriving DecidableEq

structure HistoryCaps where
  maxTurns : ℤ := 0
  maxBytes : ℤ := 0
  maxTokens : ℤ := 0
  policy : OverflowPolicy := .trim
  deriving DecidableEq

/-- `unicode.IsSpace`. -/
def isSpace (c : Char) : Bool :=
  let n := c.toNat
  (9 ≤ n ∧ n ≤ 13) ∨ n = 0x20 ∨ n = 0x85 ∨ n = 0xa0 ∨ n = 0x1680 ∨ (0x2000 ≤ n ∧ n ≤ 0x200a) ∨
    n = 0x2028 ∨ n = 0x2029 ∨ n = 0x202f ∨ n = 0x205f ∨ n = 0x3000

/-- `len(strings.Fields(s))`: a field starts at each non-space character that is first or
follows a space. -/
def fieldCount (s : String) : ℕ :=
  (s.toList.foldl (fun acc c ↦ (isSpace c, if acc.1 && !isSpace c then acc.2 + 1 else acc.2))
    (true, 0)).2

def turnBytes (m : Message) : ℕ :=
  m.role.utf8ByteSize + m.content.utf8ByteSize + m.toolCallID.utf8ByteSize + m.name.utf8ByteSize +
    (m.toolCalls.map fun tc ↦ tc.id.utf8ByteSize + tc.type.utf8ByteSize +
      tc.functionName.utf8ByteSize + tc.arguments.utf8ByteSize).sum

def turnTokens (m : Message) : ℕ :=
  fieldCount m.content + fieldCount m.name +
    (m.toolCalls.map fun tc ↦ fieldCount tc.functionName + fieldCount tc.arguments).sum

def total (cost : Message → ℕ) (turns : List Message) : ℕ := (turns.map cost).sum

def exceedsCap (caps : HistoryCaps) (turns : List Message) : Bool :=
  (caps.maxTurns > 0 ∧ turns.length > caps.maxTurns) ∨
    (caps.maxBytes > 0 ∧ total turnBytes turns > caps.maxBytes) ∨
    (caps.maxTokens > 0 ∧ total turnTokens turns > caps.maxTokens)

/-- The loop of `trim` for one budget: drops oldest turns while the running total is over
it, but never the last turn. -/
def dropOver (cost : Message → ℕ) (budget : ℤ) (running : ℕ) : List Message → List Message
  | first :: second :: rest =>
    if running > budget then dropOver cost budget (running - cost first) (second :: rest)
    else first :: second :: rest
  | turns => turns

def trim (caps : HistoryCaps) (turns : List Message) : List Message :=
  let turns :=
    if caps.maxTurns > 0 ∧ turns.length > caps.maxTurns then
      turns.drop (turns.length - caps.maxTurns.toNat)
    else turns
  let turns :=
    if caps.maxBytes > 0 then dropOver turnBytes caps.maxBytes (total turnBytes turns) turns
    else turns
  if caps.maxTokens > 0 then dropOver turnTokens caps.maxTokens (total turnTokens turns) turns
  else turns

abbrev History := String → Option (List Message)

namespace History

def get (h : History) (sessionID : String) : List Message := (h sessionID).getD []

/-- `none` is `ErrSessionLimitExceeded`. -/
def append (h : History) (caps : HistoryCaps) (sessionID : String) (turn : Message) :
    Option History :=
  let turns := h.get sessionID ++ [turn]
  if caps.policy = .reject ∧ exceedsCap caps turns then none
  else some (Function.update h sessionID (some (trim caps turns)))

def appendBatch (h : History) (caps : HistoryCaps) (sessionID : String) (turns : List Message) :
    Option History :=
  if turns.isEmpty then some h
  else
    let combined := h.get sessionID ++ turns
    if caps.policy = .reject ∧ exceedsCap caps combined then none
    else some (Function.update h sessionID (some (trim caps combined)))

def deleteBySession (h : History) (sessionID : String) : History := Function.update h sessionID none

end History

end AgentGpu.Sessions
