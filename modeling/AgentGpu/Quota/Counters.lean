import AgentGpu.Types
import Mathlib.Logic.Function.Basic
import Mathlib.Tactic.SplitIfs

namespace AgentGpu.Quota

inductive Window
  | minute
  | day
  | month
  deriving DecidableEq

/-- The day of the month (from 1) of a day counted from the epoch, in the proleptic
Gregorian calendar: years start in March and repeat every 146097 days. -/
def dayOfMonth (days : ℤ) : ℤ :=
  let dayOfEra := (days + 719468) % 146097
  let yearOfEra := (dayOfEra - dayOfEra / 1460 + dayOfEra / 36524 - dayOfEra / 146096) / 365
  let dayOfYear := dayOfEra - (365 * yearOfEra + yearOfEra / 4 - yearOfEra / 100)
  let month := (5 * dayOfYear + 2) / 153
  dayOfYear - (153 * month + 2) / 5 + 1

def windowStart : Window → Time → Time
  | .minute, t => t - t % minute
  | .day, t => t - t % day
  | .month, t => (t / day - (dayOfMonth (t / day) - 1)) * day

structure Limits where
  rpm : UInt64 := 0
  tpm : UInt64 := 0
  dailyTokens : UInt64 := 0
  monthlyTokens : UInt64 := 0
  deriving DecidableEq

structure Counters where
  minuteStart : Time := zeroTime
  minuteRequests : UInt64 := 0
  minuteTokens : UInt64 := 0
  dayStart : Time := zeroTime
  dayTokens : UInt64 := 0
  monthStart : Time := zeroTime
  monthTokens : UInt64 := 0
  deriving DecidableEq

namespace Counters

def rollMinute (c : Counters) (now : Time) : Counters :=
  if c.minuteStart = windowStart .minute now then c
  else { c with minuteStart := windowStart .minute now, minuteRequests := 0, minuteTokens := 0 }

def rollDay (c : Counters) (now : Time) : Counters :=
  if c.dayStart = windowStart .day now then c
  else { c with dayStart := windowStart .day now, dayTokens := 0 }

def rollMonth (c : Counters) (now : Time) : Counters :=
  if c.monthStart = windowStart .month now then c
  else { c with monthStart := windowStart .month now, monthTokens := 0 }

/-- Zeroes every counter whose window is not the one `now` falls in. The comparison is for
equality, so a reading from an earlier window resets the counter as well. -/
def roll (c : Counters) (now : Time) : Counters :=
  ((c.rollMinute now).rollDay now).rollMonth now

@[simp] theorem rollDay_minuteStart (c : Counters) (now : Time) :
    (c.rollDay now).minuteStart = c.minuteStart := by
  unfold rollDay; split <;> rfl

@[simp] theorem rollMonth_minuteStart (c : Counters) (now : Time) :
    (c.rollMonth now).minuteStart = c.minuteStart := by
  unfold rollMonth; split <;> rfl

@[simp] theorem rollDay_minuteRequests (c : Counters) (now : Time) :
    (c.rollDay now).minuteRequests = c.minuteRequests := by
  unfold rollDay; split <;> rfl

@[simp] theorem rollMonth_minuteRequests (c : Counters) (now : Time) :
    (c.rollMonth now).minuteRequests = c.minuteRequests := by
  unfold rollMonth; split <;> rfl

@[simp] theorem roll_minuteStart (c : Counters) (now : Time) :
    (c.roll now).minuteStart = windowStart .minute now := by
  simp only [roll, rollMonth_minuteStart, rollDay_minuteStart, rollMinute]
  split_ifs with h
  · exact h
  · rfl

theorem roll_minuteRequests (c : Counters) (now : Time) :
    (c.roll now).minuteRequests =
      if c.minuteStart = windowStart .minute now then c.minuteRequests else 0 := by
  simp only [roll, rollMonth_minuteRequests, rollDay_minuteRequests, rollMinute]
  split_ifs <;> rfl

end Counters

structure Denial where
  quotaType : String
  usage : UInt64
  limit : UInt64
  deriving DecidableEq

def check (lim : Limits) (c : Counters) : Option Denial :=
  if lim.rpm ≠ 0 ∧ c.minuteRequests + 1 > lim.rpm then
    some ⟨"rpm", c.minuteRequests, lim.rpm⟩
  else if lim.tpm ≠ 0 ∧ c.minuteTokens ≥ lim.tpm then
    some ⟨"tpm", c.minuteTokens, lim.tpm⟩
  else if lim.dailyTokens ≠ 0 ∧ c.dayTokens ≥ lim.dailyTokens then
    some ⟨"daily_tokens", c.dayTokens, lim.dailyTokens⟩
  else if lim.monthlyTokens ≠ 0 ∧ c.monthTokens ≥ lim.monthlyTokens then
    some ⟨"monthly_tokens", c.monthTokens, lim.monthlyTokens⟩
  else none

def checkGlobal (lim : Limits) (c : Counters) : Option Denial :=
  if lim.rpm ≠ 0 ∧ c.minuteRequests + 1 > lim.rpm then
    some ⟨"global_rpm", c.minuteRequests, lim.rpm⟩
  else if lim.tpm ≠ 0 ∧ c.minuteTokens ≥ lim.tpm then
    some ⟨"global_tpm", c.minuteTokens, lim.tpm⟩
  else none

theorem check_rpm {lim : Limits} {c : Counters} (h : check lim c = none) (hl : lim.rpm ≠ 0) :
    c.minuteRequests + 1 ≤ lim.rpm := by
  unfold check at h
  split_ifs at h with hr
  exact UInt64.not_lt.mp fun hlt ↦ hr ⟨hl, hlt⟩

theorem checkGlobal_rpm {lim : Limits} {c : Counters} (h : checkGlobal lim c = none)
    (hl : lim.rpm ≠ 0) : c.minuteRequests + 1 ≤ lim.rpm := by
  unfold checkGlobal at h
  split_ifs at h with hr
  exact UInt64.not_lt.mp fun hlt ↦ hr ⟨hl, hlt⟩

abbrev CounterStore := String → Option Counters

namespace CounterStore

def lookup (m : CounterStore) (keyID : String) : Counters := (m keyID).getD {}

def put (m : CounterStore) (keyID : String) (c : Counters) : CounterStore :=
  Function.update m keyID (some c)

@[simp] theorem lookup_put_self (m : CounterStore) (keyID : String) (c : Counters) :
    (m.put keyID c).lookup keyID = c := by
  simp [CounterStore.lookup, put]

theorem lookup_put_of_ne (m : CounterStore) {keyID other : String} (c : Counters)
    (h : keyID ≠ other) : (m.put other c).lookup keyID = m.lookup keyID := by
  simp [CounterStore.lookup, put, Function.update_of_ne h]

/-- Rolls the key's windows and evaluates `check`; the request is counted only when the
check passes, but the rolled counters are stored either way. -/
def reserve (m : CounterStore) (keyID : String) (now : Time)
    (check : Counters → Option Denial) : CounterStore × Option Denial :=
  let c := (m.lookup keyID).roll now
  match check c with
  | some d => (m.put keyID c, some d)
  | none => (m.put keyID { c with minuteRequests := c.minuteRequests + 1 }, none)

def addTokens (m : CounterStore) (keyID : String) (now : Time) (n : UInt64) : CounterStore :=
  let c := (m.lookup keyID).roll now
  m.put keyID { c with
    minuteTokens := c.minuteTokens + n
    dayTokens := c.dayTokens + n
    monthTokens := c.monthTokens + n }

def get (m : CounterStore) (keyID : String) (now : Time) : CounterStore × Counters :=
  let c := (m.lookup keyID).roll now
  (m.put keyID c, c)

def rollAll (m : CounterStore) (now : Time) : CounterStore := fun keyID ↦
  (m keyID).map (Counters.roll · now)

end CounterStore

end AgentGpu.Quota
