import AgentGpu.Foundation.RingBuffer
import AgentGpu.Foundation.Text
import AgentGpu.HttpApi.Logs
import Mathlib.Data.List.Flatten

namespace AgentGpu.Cmd

open Foundation
open HttpApi hiding LogRecord

/-- What the ring keeps of a log line. The level is a number, with `DEBUG` -4 and steps of 4. -/
structure LogRecord where
  time : ℤ := 0
  level : ℤ := 0
  message : String := ""
  attrs : Option (Table String AttrValue) := none
  deriving Inhabited

/-- The total count is taken not to reach the bound of an `int`. -/
abbrev LogRing := RingBuffer LogRecord

def newLogRing (capacity : ℤ) : LogRing := .new capacity

namespace LogRing

def snapshotCount (ring : LogRing) : List LogRecord × ℕ :=
  if ring.cap = 0 then ([], 0) else (ring.snapshot, ring.count)

end LogRing

def levelString (level : ℤ) : String :=
  let str (base : String) (val : ℤ) : String :=
    if val = 0 then base
    else base ++ (if 0 < val then "+" else "") ++ String.ofList (itoa val)
  if level < 0 then str "DEBUG" (level + 4)
  else if level < 4 then str "INFO" level
  else if level < 8 then str "WARN" (level - 4)
  else str "ERROR" (level - 8)

def mapLogRecord (rec : LogRecord) : HttpApi.LogRecord :=
  { time := rec.time, level := levelString rec.level, message := rec.message, attrs := rec.attrs }

/-- `SnapshotCount` of the source that the handlers read the ring through. -/
def sourceSnapshotCount (ring : LogRing) : List HttpApi.LogRecord × ℕ :=
  (ring.snapshotCount.1.map mapLogRecord, ring.snapshotCount.2)

/-- One stream of `handleAdminLogsStream` and the ring that it reads. -/
structure Tail where
  ring : LogRing
  lastCount : ℕ
  sent : List LogFrame := []

/-- A line is logged, or the ticker of the stream fires. The ring is locked for each. -/
inductive TailEvent
  | append (rec : LogRecord)
  | poll

namespace Tail

def opened (ring : LogRing) : Tail := { ring, lastCount := ring.snapshotCount.2 }

def step (filter : LogFilter) (t : Tail) : TailEvent → Tail
  | .append rec => { t with ring := t.ring.append rec }
  | .poll =>
    let emitted := emitNewLogs filter (sourceSnapshotCount t.ring) t.lastCount
    { t with lastCount := emitted.2, sent := t.sent ++ (emitted.1 ++ [.comment]) }

def entries (t : Tail) : List LogEntryView := t.sent.filterMap LogFrame.entry

end Tail

def appended : List TailEvent → List LogRecord
  | [] => []
  | .append rec :: events => rec :: appended events
  | .poll :: events => appended events

def polled (recs : List LogRecord) : List TailEvent → List (List LogRecord)
  | [] => []
  | .append rec :: events => polled (recs ++ [rec]) events
  | .poll :: events => recs :: polled [] events

def matching (filter : LogFilter) (recs : List LogRecord) : List LogEntryView :=
  (recs.filter fun rec ↦ filter.matches (mapLogRecord rec)).map fun rec ↦
    toLogEntryView (mapLogRecord rec)

section

variable {filter : LogFilter} {capacity : ℤ} {seen recs : List LogRecord} {t : Tail}

structure Tail.Follows (capacity : ℤ) (seen recs : List LogRecord) (t : Tail) : Prop where
  ring_eq : t.ring = (seen ++ recs).foldl RingBuffer.append (newLogRing capacity)
  lastCount_eq : t.lastCount = if 0 < capacity then seen.length else 0

theorem snapshotCount_foldl (recs : List LogRecord) :
    LogRing.snapshotCount (recs.foldl RingBuffer.append (newLogRing capacity)) =
      (recs.rtake capacity.toNat, if 0 < capacity then recs.length else 0) := by
  have hcap := RingBuffer.cap_foldl_append recs (newLogRing capacity)
  have hsnapshot := RingBuffer.snapshot_foldl_append capacity recs
  have hcount := RingBuffer.count_foldl_append capacity recs
  rw [newLogRing, RingBuffer.cap_new] at hcap
  rw [LogRing.snapshotCount, newLogRing, hcap, hsnapshot, hcount]
  rcases lt_or_ge 0 capacity with hpos | hneg
  · rw [if_neg (by omega)]
  · rw [Int.toNat_of_nonpos hneg, if_pos rfl, if_neg hneg.not_gt, List.rtake_zero]

theorem Tail.follows_opened (capacity : ℤ) (earlier : List LogRecord) :
    Follows capacity earlier [] (opened (earlier.foldl RingBuffer.append (newLogRing capacity))) where
  ring_eq := by rw [List.append_nil]; rfl
  lastCount_eq := congrArg Prod.snd (snapshotCount_foldl earlier)

theorem Tail.Follows.append (h : t.Follows capacity seen recs) (rec : LogRecord) :
    (t.step filter (.append rec)).Follows capacity seen (recs ++ [rec]) where
  ring_eq := by
    rw [step, h.ring_eq, ← List.append_assoc, List.foldl_append (l := seen ++ recs)]
    rfl
  lastCount_eq := h.lastCount_eq

theorem emitNewLogs_fst (snap : List LogRecord) (count lastCount : ℕ) :
    (emitNewLogs filter (snap.map mapLogRecord, count) lastCount).1 =
      (matching filter (snap.rtake (count - lastCount))).map .data := by
  have hmatching (n : ℕ) : (((snap.map mapLogRecord).drop n).filter filter.matches).map
      (fun rec ↦ LogFrame.data (toLogEntryView rec)) = (matching filter (snap.drop n)).map .data := by
    simp only [matching, ← List.map_drop, List.filter_map, List.map_map, Function.comp_def]
  rw [emitNewLogs]
  dsimp only
  rw [hmatching, List.length_map]
  split_ifs with hle hmore
  · rw [Nat.sub_eq_zero_of_le hle, List.rtake_zero]
    rfl
  · rw [rtake_of_length_le hmore.le, Nat.sub_self, List.drop_zero]
  · rfl

theorem emitNewLogs_snd (source : List HttpApi.LogRecord × ℕ) (lastCount : ℕ) :
    (emitNewLogs filter source lastCount).2 = source.2 := by
  unfold emitNewLogs
  dsimp only
  split_ifs <;> rfl

theorem Tail.Follows.poll (h : t.Follows capacity seen recs) :
    (t.step filter .poll).Follows capacity (seen ++ recs) [] where
  ring_eq := by rw [List.append_nil, ← h.ring_eq]; rfl
  lastCount_eq := by
    rw [step, emitNewLogs_snd, sourceSnapshotCount, h.ring_eq, snapshotCount_foldl]

theorem Tail.Follows.entries_poll (h : t.Follows capacity seen recs) :
    (t.step filter .poll).entries =
      t.entries ++ matching filter (recs.rtake capacity.toNat) := by
  -- the count that the stream has not seen is the number of the new records
  have hlast : ((seen ++ recs).rtake capacity.toNat).rtake
      ((if 0 < capacity then (seen ++ recs).length else 0) - if 0 < capacity then seen.length else 0) =
      recs.rtake capacity.toNat := by
    rcases lt_or_ge 0 capacity with hpos | hneg
    · rw [if_pos hpos, if_pos hpos, List.length_append, Nat.add_sub_cancel_left, rtake_rtake_append]
    · rw [Int.toNat_of_nonpos hneg, List.rtake_zero, List.rtake_zero, List.rtake_nil]
  rw [step, Tail.entries]
  dsimp only
  rw [sourceSnapshotCount, h.ring_eq, snapshotCount_foldl, h.lastCount_eq, emitNewLogs_fst, hlast,
    List.filterMap_append, List.filterMap_append, List.filterMap_map, ← Tail.entries]
  congr 1
  exact (List.append_nil _).trans List.filterMap_some

theorem Tail.Follows.ring_foldl (h : t.Follows capacity seen recs) (filter : LogFilter) (events : List TailEvent) :
    (events.foldl (step filter) t).ring =
      (seen ++ recs ++ appended events).foldl RingBuffer.append (newLogRing capacity) := by
  induction events generalizing t seen recs with
  | nil => rw [appended, List.append_nil]; exact h.ring_eq
  | cons e events ih =>
    cases e with
    | append rec =>
      rw [List.foldl_cons, ih (h.append rec)]
      simp only [appended, List.append_assoc, List.singleton_append]
    | poll =>
      rw [List.foldl_cons, ih h.poll, List.append_nil]
      rfl

theorem Tail.Follows.entries_foldl (h : t.Follows capacity seen recs) (filter : LogFilter) (events : List TailEvent) :
    (events.foldl (step filter) t).entries = t.entries ++
      (polled recs events).flatMap fun recs ↦ matching filter (recs.rtake capacity.toNat) := by
  induction events generalizing t seen recs with
  | nil => exact (List.append_nil _).symm
  | cons e events ih =>
    cases e with
    | append rec => exact ih (h.append rec)
    | poll =>
      rw [List.foldl_cons, ih h.poll, h.entries_poll, List.append_assoc]
      rfl

theorem flatten_polled_initial (recs : List LogRecord) (events : List TailEvent) :
    (polled recs events).flatten <+: recs ++ appended events := by
  induction events generalizing recs with
  | nil => exact List.nil_prefix
  | cons e events ih =>
    cases e with
    | append rec =>
      have hinitial := ih (recs ++ [rec])
      rwa [← List.append_cons] at hinitial
    | poll =>
      rw [polled, List.flatten_cons]
      exact (List.prefix_append_right_inj recs).mpr (ih [])

theorem matching_flatten (filter : LogFilter) (segments : List (List LogRecord)) :
    matching filter segments.flatten = segments.flatMap (matching filter) := by
  rw [matching, List.filter_flatten, List.map_flatten, List.map_map]
  rfl

theorem matching_sublist {recs recs' : List LogRecord} (h : recs.Sublist recs') :
    (matching filter recs).Sublist (matching filter recs') :=
  (h.filter _).map _

/-- Each poll sends the matching ones of the records since the poll before it, or of the last
`capacity` of them. So the stream has them in their order and each once, and misses none if never
more than `capacity` records come between two polls. -/
theorem live_tail_gap_free (capacity : ℤ) (filter : LogFilter) (earlier : List LogRecord)
    (events : List TailEvent) :
    let t := events.foldl (Tail.step filter)
      (.opened (earlier.foldl RingBuffer.append (newLogRing capacity)))
    t.entries = (polled [] events).flatMap (fun recs ↦ matching filter (recs.rtake capacity.toNat)) ∧
      t.entries.Sublist (matching filter (appended events)) ∧
      ((∀ recs ∈ polled [] events, recs.length ≤ capacity.toNat) →
        t.entries = matching filter (polled [] events).flatten) ∧
      t.ring.snapshot = (earlier ++ appended events).rtake (min t.ring.count capacity.toNat) := by
  intro t
  have hopened := Tail.follows_opened capacity earlier
  have hentries : t.entries = (polled [] events).flatMap
      fun recs ↦ matching filter (recs.rtake capacity.toNat) := hopened.entries_foldl filter events
  have hring := hopened.ring_foldl filter events
  rw [List.append_nil] at hring
  refine ⟨hentries, ?_, fun hfew ↦ ?_, ?_⟩
  · have hsent : t.entries.Sublist (matching filter (polled [] events).flatten) := by
      rw [hentries, matching_flatten]
      exact List.Sublist.flatMap_right _ fun recs _ ↦ matching_sublist (List.drop_sublist _ recs)
    exact hsent.trans (matching_sublist (flatten_polled_initial [] events).sublist)
  · rw [hentries, matching_flatten]
    exact List.flatMap_congr fun recs hrecs ↦ by rw [rtake_of_length_le (hfew recs hrecs)]
  · have hcount : t.ring.count = if 0 < capacity then (earlier ++ appended events).length else 0 :=
      (congrArg RingBuffer.count hring).trans (RingBuffer.count_foldl_append _ _)
    have hsnapshot : t.ring.snapshot = (earlier ++ appended events).rtake capacity.toNat :=
      (congrArg RingBuffer.snapshot hring).trans (RingBuffer.snapshot_foldl_append _ _)
    rw [hsnapshot, hcount]
    rcases lt_or_ge 0 capacity with hpos | hneg
    · rw [if_pos hpos, ← rtake_rtake]
      exact (rtake_of_length_le (length_rtake _ _ ▸ Nat.min_le_right _ _)).symm
    · rw [if_neg hneg.not_gt, Int.toNat_of_nonpos hneg, Nat.min_self]

end

end AgentGpu.Cmd
