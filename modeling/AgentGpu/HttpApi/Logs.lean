import AgentGpu.HttpApi.Config

namespace AgentGpu.HttpApi

open Foundation

/-- A value that was logged: none, a string, or what `fmt.Sprint` makes of another one. -/
inductive AttrValue
  | nil
  | string (s : String)
  | other (text : String)
  deriving DecidableEq

/-- The map of the attributes may be `nil`. -/
structure LogRecord where
  time : Time
  level : String
  message : String
  attrs : Option (Table String AttrValue)

structure LogEntryView where
  time : Time
  level : String
  message : String
  attrs : Table String AttrValue

def toLogEntryView (rec : LogRecord) : LogEntryView :=
  { time := rec.time, level := rec.level, message := rec.message, attrs := rec.attrs.getD ∅ }

/-- The bounds of the time are off when they are zero. -/
structure LogFilter where
  minLevel : ℤ := 4
  attrMatch : Table String String := ∅
  since : Time := zeroTime
  untilTime : Time := zeroTime

/-- What stands before the separator, unless it stands at the start. -/
def baseName (sep : Char) (level : List Char) : Option (List Char) :=
  let i := level.idxOf sep
  if 0 < i ∧ i < level.length then some (level.take i) else none

def recordLevelRank (level : String) : ℤ :=
  let base := ((baseName '+' level.toList).or (baseName '-' level.toList)).getD level.toList
  match normalize (String.ofList base) with
  | "debug" => -4
  | "info" => 0
  | "warn" | "warning" => 4
  | _ => 8

def attrString : AttrValue → String
  | .nil => "<nil>"
  | .string s => s
  | .other text => text

def LogFilter.matches (f : LogFilter) (rec : LogRecord) : Bool :=
  decide (f.minLevel ≤ recordLevelRank rec.level) &&
    (f.attrMatch.entries.all fun e ↦
      match (rec.attrs.getD ∅).lookup e.1 with
      | some got => attrString got = e.2
      | none => false) &&
    !(f.since ≠ zeroTime && rec.time < f.since) && !(f.untilTime ≠ zeroTime && f.untilTime ≤ rec.time)

/-- What the stream is written: an entry, or a comment that keeps the connection open. -/
inductive LogFrame
  | data (entry : LogEntryView)
  | comment

def LogFrame.entry : LogFrame → Option LogEntryView
  | .data entry => some entry
  | .comment => none

/-- The frames for the records that are new since `lastCount`, and the count to go on from. -/
def emitNewLogs (filter : LogFilter) (source : List LogRecord × ℕ) (lastCount : ℕ) : List LogFrame × ℕ :=
  let (snap, count) := source
  if count ≤ lastCount then ([], count)
  else
    let newN := count - lastCount
    let newN := if newN > snap.length then snap.length else newN
    (((snap.drop (snap.length - newN)).filter filter.matches).map fun rec ↦
      .data (toLogEntryView rec), count)

end AgentGpu.HttpApi
