import Mathlib.Algebra.Group.Int.Defs
import Mathlib.Algebra.Group.Nat.Defs
import Mathlib.Data.Int.Notation
import Mathlib.Data.Nat.Notation

namespace AgentGpu

abbrev Time := ℤ

/-- A length of time in nanoseconds, as an unbounded integer. -/
abbrev Duration := ℤ

def second : Duration := 1000000000

def minute : Duration := 60 * second

def day : Duration := 86400 * second

-- January 1 of year 1, the zero `time.Time`.
def zeroTime : Time := -62135596800 * second

/-- `t.Sub(u)`, which saturates at the 64-bit bounds. -/
def Time.sub (t u : Time) : Duration := max (-2 ^ 63) (min (2 ^ 63 - 1) (t - u))

/-- `unicode.ToLower`, as far as it yields ASCII letters. -/
def toLower (c : Char) : Char :=
  if c.toNat = 0x130 then 'i' else if c.toNat = 0x212a then 'k' else c.toLower

structure Model where
  name : String
  digest : String := ""
  deriving DecidableEq

structure ToolCall where
  id : String := ""
  type : String := ""
  functionName : String := ""
  arguments : String := ""
  deriving DecidableEq

structure Message where
  role : String := ""
  content : String := ""
  toolCallID : String := ""
  name : String := ""
  toolCalls : List ToolCall := []
  deriving DecidableEq

structure JobError where
  code : String
  message : String
  deriving DecidableEq

structure JobResult where
  jobID : String := ""
  output : String := ""
  err : Option JobError := none
  tokens : UInt64 := 0
  toolCalls : List ToolCall := []
  finishReason : String := ""
  promptTokens : UInt64 := 0
  completionTokens : UInt64 := 0
  deriving DecidableEq

structure JobChunk where
  jobID : String := ""
  delta : String := ""
  done : Bool := false
  err : Option JobError := none
  tokens : UInt64 := 0
  toolCalls : List ToolCall := []
  finishReason : String := ""
  promptTokens : UInt64 := 0
  completionTokens : UInt64 := 0
  deriving DecidableEq

end AgentGpu
