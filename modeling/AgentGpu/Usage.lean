import AgentGpu.Foundation.RingBuffer
import AgentGpu.Foundation.Sorting
import AgentGpu.Quota.Retry

namespace AgentGpu.Usage

open Foundation

def maxDays : ℕ := 7

structure DailySample where
  day : Time
  tokens : UInt64
  requests : UInt64
  deriving DecidableEq

abbrev Series := String → Option (List DailySample)

def dayStart (t : Time) : Time := t - t % day

def trim (hist : List DailySample) : List DailySample :=
  if hist.length > maxDays then hist.drop (hist.length - maxDays) else hist

def refresh (hist : List DailySample) (sample : DailySample) : List DailySample :=
  match hist.getLast? with
  | some last => if last.day = sample.day then hist.dropLast ++ [sample] else trim (hist ++ [sample])
  | none => trim (hist ++ [sample])

namespace Series

def recordOne (today : Time) (s : Series) (snap : Quota.Snapshot) : Series :=
  if snap.keyID = "" then s
  else
    Function.update s snap.keyID <| some <|
      refresh ((s snap.keyID).getD []) ⟨today, snap.tokensToday, snap.requestsThisMinute⟩

def record (s : Series) (snaps : List Quota.Snapshot) (now : Time) : Series :=
  snaps.foldl (recordOne (dayStart now)) s

end Series

/-- `sort.Slice` by the day. Samples of one day may come out in any order. -/
abbrev DaySorter := KeySorter DailySample.day

inductive CheckpointFile
  | missing
  | unreadable
  | empty
  | malformed
  | series (loaded : Series)

inductive LoadError
  | read
  | parse

def DailySample.normalized (x : DailySample) : DailySample := { x with day := dayStart x.day }

def loadCheckpoint (sorter : DaySorter) (s : Series) : CheckpointFile → Except LoadError Series
  | .missing | .empty => .ok s
  | .unreadable => .error .read
  | .malformed => .error .parse
  | .series loaded => .ok fun id ↦ (loaded id).map fun hist ↦
      trim (sorter.sort (hist.map DailySample.normalized))

inductive Op
  | record (snaps : List Quota.Snapshot) (now : Time)
  | load (file : CheckpointFile)

/-- A file that cannot be loaded leaves the series as they are. -/
def Series.step (sorter : DaySorter) (s : Series) : Op → Series
  | .record snaps now => s.record snaps now
  | .load file =>
    match loadCheckpoint sorter s file with
    | .ok s' => s'
    | .error _ => s

/-! What the samples are to hold: the tokens and requests of the last `Record` of a key on a day,
or those of a file that was loaded since. -/

abbrev Values := String → Time → Option (UInt64 × UInt64)

def Values.noteOne (today : Time) (v : Values) (snap : Quota.Snapshot) : Values := fun key d ↦
  if key = snap.keyID ∧ key ≠ "" ∧ d = today then some (snap.tokensToday, snap.requestsThisMinute)
  else v key d

def Values.note (v : Values) : Op → Values
  | .record snaps now => snaps.foldl (noteOne (dayStart now)) v
  | .load (.series loaded) => fun key d ↦
    (((loaded key).getD []).find? fun x ↦ dayStart x.day = d).map fun x ↦ (x.tokens, x.requests)
  | .load _ => v

def latest (ops : List Op) : Values := ops.foldl Values.note fun _ _ ↦ none

structure Daily (hist : List DailySample) : Prop where
  increasing : hist.Pairwise (·.day < ·.day)
  midnight : ∀ x ∈ hist, dayStart x.day = x.day
  bounded : hist.length ≤ maxDays

def Series.Reaches (s : Series) (key : String) (today : Time) : Prop :=
  ∀ last ∈ ((s key).getD []).getLast?, last.day ≤ today

/-- The clock is not before the last sample of a key that is recorded, and a file that is loaded
has no two samples of a key on the same day. -/
def Op.Orderly (s : Series) : Op → Prop
  | .record snaps now => ∀ snap ∈ snaps, snap.keyID ≠ "" → s.Reaches snap.keyID (dayStart now)
  | .load (.series loaded) => ∀ key hist, loaded key = some hist →
      (hist.map fun x ↦ dayStart x.day).Nodup
  | .load _ => True

def AllOrderly (sorter : DaySorter) (s : Series) : List Op → Prop
  | [] => True
  | op :: ops => op.Orderly s ∧ AllOrderly sorter (s.step sorter op) ops

section

variable {hist : List DailySample} {sample : DailySample} {today : Time}

theorem dayStart_dayStart (t : Time) : dayStart (dayStart t) = dayStart t := by
  have hmidnight : dayStart t % day = 0 :=
    Int.emod_eq_zero_of_dvd (Int.dvd_self_sub_of_emod_eq rfl)
  exact (congrArg (dayStart t - ·) hmidnight).trans (Int.sub_zero _)

theorem trim_eq_rtake (hist : List DailySample) : trim hist = hist.rtake maxDays := by
  unfold trim
  split_ifs with h
  · rfl
  · exact (rtake_of_length_le (Nat.le_of_not_lt h)).symm

theorem Daily.trim (hsorted : hist.Pairwise (·.day < ·.day))
    (hmidnight : ∀ x ∈ hist, dayStart x.day = x.day) : Daily (trim hist) := by
  rw [trim_eq_rtake]
  exact
    { increasing := hsorted.sublist (List.drop_sublist _ _)
      midnight := fun x hx ↦ hmidnight x (List.mem_of_mem_drop hx)
      bounded := length_rtake hist maxDays ▸ Nat.min_le_left _ _ }

theorem refresh_eq (h : Daily hist) (hlast : ∀ last ∈ hist.getLast?, last.day ≤ sample.day) :
    ∃ earlier, earlier.Sublist hist ∧ (∀ x ∈ earlier, x.day < sample.day) ∧
      refresh hist sample = trim (earlier ++ [sample]) := by
  rcases List.eq_nil_or_concat hist with rfl | ⟨init, last, rfl⟩
  · exact ⟨[], .slnil, nofun, rfl⟩
  · rw [List.concat_eq_append] at *
    have hinit : ∀ x ∈ init, x.day < last.day := by
      have hpairwise := h.increasing
      rw [List.pairwise_append] at hpairwise
      exact fun x hx ↦ hpairwise.2.2 x hx last (List.mem_singleton_self _)
    have hle : last.day ≤ sample.day := hlast last List.getLast?_concat
    rw [refresh, List.getLast?_concat]
    dsimp only
    split_ifs with htoday
    · refine ⟨init, List.sublist_append_left _ _, fun x hx ↦ htoday ▸ hinit x hx, ?_⟩
      have hlength := h.bounded
      rw [List.length_append, List.length_singleton] at hlength
      rw [List.dropLast_concat, trim_eq_rtake, rtake_of_length_le]
      rwa [List.length_append, List.length_singleton]
    · refine ⟨init ++ [last], .refl _, fun x hx ↦ ?_, rfl⟩
      have hlt := lt_of_le_of_ne hle htoday
      rcases List.mem_append.mp hx with hx | hx
      · exact (hinit x hx).trans hlt
      · rwa [List.mem_singleton.mp hx]

theorem Daily.refresh (h : Daily hist) (hlast : ∀ last ∈ hist.getLast?, last.day ≤ sample.day)
    (hmidnight : dayStart sample.day = sample.day) : Daily (refresh hist sample) := by
  obtain ⟨earlier, hsub, hbefore, heq⟩ := refresh_eq h hlast
  rw [heq]
  refine .trim (List.pairwise_append.mpr
    ⟨h.increasing.sublist hsub, List.pairwise_singleton _ _, fun x hx y hy ↦ ?_⟩) fun x hx ↦ ?_
  · rw [List.mem_singleton.mp hy]
    exact hbefore x hx
  · rcases List.mem_append.mp hx with hx | hx
    · exact h.midnight x (hsub.subset hx)
    · rwa [List.mem_singleton.mp hx]

theorem mem_refresh (h : Daily hist) (hlast : ∀ last ∈ hist.getLast?, last.day ≤ sample.day)
    {x : DailySample} (hx : x ∈ refresh hist sample) :
    x = sample ∨ x ∈ hist ∧ x.day < sample.day := by
  obtain ⟨earlier, hsub, hbefore, heq⟩ := refresh_eq h hlast
  rw [heq, trim_eq_rtake] at hx
  rcases List.mem_append.mp (List.mem_of_mem_drop hx) with hx | hx
  · exact .inr ⟨hsub.subset hx, hbefore x hx⟩
  · exact .inl (List.mem_singleton.mp hx)

theorem getLast?_refresh (hist : List DailySample) (sample : DailySample) :
    (refresh hist sample).getLast? = some sample := by
  have htrim : (Usage.trim (hist ++ [sample])).getLast? = some sample := by
    rw [trim_eq_rtake, maxDays, List.rtake_concat_succ, List.getLast?_concat]
  unfold refresh
  split
  · split_ifs
    · exact List.getLast?_concat
    · exact htrim
  · exact htrim

end

def Keeps (v : Values) (s : Series) : Prop :=
  ∀ key hist, s key = some hist →
    Daily hist ∧ ∀ x ∈ hist, v key x.day = some (x.tokens, x.requests)

section

variable {v : Values} {s : Series} {today : Time} {snap : Quota.Snapshot}

theorem Keeps.getD (h : Keeps v s) (key : String) : Daily ((s key).getD []) ∧
    ∀ x ∈ (s key).getD [], v key x.day = some (x.tokens, x.requests) := by
  cases hs : s key with
  | none => exact ⟨⟨.nil, nofun, Nat.zero_le _⟩, nofun⟩
  | some hist => exact h key hist hs

theorem Keeps.recordOne (h : Keeps v s) (hmidnight : dayStart today = today)
    (hreach : snap.keyID ≠ "" → s.Reaches snap.keyID today) :
    Keeps (v.noteOne today snap) (s.recordOne today snap) := by
  intro key hist hhist
  rw [Series.recordOne] at hhist
  split_ifs at hhist with hkey
  · have hskipped (d : Time) : v.noteOne today snap key d = v key d :=
      if_neg fun hnote ↦ hnote.2.1 (hnote.1.trans hkey)
    simpa only [hskipped] using h key hist hhist
  · by_cases hsame : key = snap.keyID
    · subst hsame
      rw [Function.update_self, Option.some_inj] at hhist
      obtain ⟨hdaily, hvalues⟩ := h.getD snap.keyID
      have hlast : ∀ last ∈ ((s snap.keyID).getD []).getLast?, last.day ≤
          (DailySample.mk today snap.tokensToday snap.requestsThisMinute).day := hreach hkey
      subst hhist
      refine ⟨hdaily.refresh hlast hmidnight, fun x hx ↦ ?_⟩
      rcases mem_refresh hdaily hlast hx with rfl | ⟨hx, hbefore⟩
      · exact if_pos ⟨rfl, hkey, rfl⟩
      · exact (if_neg fun hnote ↦ hbefore.ne hnote.2.2).trans (hvalues x hx)
    · rw [Function.update_of_ne hsame] at hhist
      have hother (d : Time) : v.noteOne today snap key d = v key d := if_neg fun hnote ↦ hsame hnote.1
      simpa only [hother] using h key hist hhist

theorem reaches_recordOne {key : String} (hreach : s.Reaches key today) :
    (s.recordOne today snap).Reaches key today := by
  unfold Series.recordOne
  split_ifs
  · exact hreach
  · unfold Series.Reaches
    by_cases hsame : key = snap.keyID
    · subst hsame
      rw [Function.update_self, Option.getD_some, getLast?_refresh]
      rintro last ⟨⟩
      exact le_rfl
    · rw [Function.update_of_ne hsame]
      exact hreach

theorem Keeps.record (h : Keeps v s) (hmidnight : dayStart today = today) {snaps : List Quota.Snapshot}
    (hreach : ∀ snap ∈ snaps, snap.keyID ≠ "" → s.Reaches snap.keyID today) :
    Keeps (snaps.foldl (Values.noteOne today) v) (snaps.foldl (Series.recordOne today) s) := by
  induction snaps generalizing v s with
  | nil => exact h
  | cons snap snaps ih =>
    obtain ⟨hfirst, hrest⟩ := List.forall_mem_cons.mp hreach
    exact ih (h.recordOne hmidnight hfirst) fun snap hsnap hkey ↦
      reaches_recordOne (hrest snap hsnap hkey)

theorem find?_dayStart {hist : List DailySample} (hdays : (hist.map fun x ↦ dayStart x.day).Nodup)
    {y : DailySample} (hy : y ∈ hist) :
    (hist.find? fun x ↦ dayStart x.day = dayStart y.day) = some y := by
  cases hfound : hist.find? fun x ↦ dayStart x.day = dayStart y.day with
  | none => exact absurd (decide_eq_true rfl) (List.find?_eq_none.mp hfound y hy)
  | some y' =>
    have hday : dayStart y'.day = dayStart y.day := by simpa using List.find?_some hfound
    exact congrArg some (List.inj_on_of_nodup_map hdays (List.mem_of_find?_eq_some hfound) hy hday)

theorem keeps_load (sorter : DaySorter) {loaded : Series}
    (hdays : ∀ key hist, loaded key = some hist → (hist.map fun x ↦ dayStart x.day).Nodup) :
    Keeps (v.note (.load (.series loaded))) (s.step sorter (.load (.series loaded))) := by
  intro key hist hhist
  obtain ⟨raw, hraw, rfl⟩ := Option.map_eq_some_iff.mp hhist
  have hperm := sorter.perm (raw.map DailySample.normalized)
  have hmem (x : DailySample) (hx : x ∈ sorter.sort (raw.map DailySample.normalized)) :
      ∃ y ∈ raw, y.normalized = x := List.mem_map.mp (hperm.mem_iff.mp hx)
  have hkeys : ((raw.map DailySample.normalized).map DailySample.day).Nodup := by
    rw [List.map_map]
    exact hdays key raw hraw
  refine ⟨.trim ?_ fun x hx ↦ ?_, fun x hx ↦ ?_⟩
  · exact sorter.pairwise_lt_sort hkeys
  · obtain ⟨y, -, rfl⟩ := hmem x hx
    exact dayStart_dayStart y.day
  · rw [trim_eq_rtake] at hx
    obtain ⟨y, hy, rfl⟩ := hmem x (List.mem_of_mem_drop hx)
    simp only [Values.note, hraw, Option.getD_some]
    exact congrArg (Option.map _) (find?_dayStart (hdays key raw hraw) hy)

theorem Keeps.step (h : Keeps v s) (sorter : DaySorter) {op : Op} (hop : op.Orderly s) :
    Keeps (v.note op) (s.step sorter op) := by
  cases op with
  | record snaps now => exact h.record (dayStart_dayStart now) hop
  | load file =>
    cases file with
    | series loaded => exact keeps_load sorter hop
    | missing | unreadable | empty | malformed => exact h

theorem Keeps.run (h : Keeps v s) (sorter : DaySorter) {ops : List Op}
    (hops : AllOrderly sorter s ops) : Keeps (ops.foldl Values.note v) (ops.foldl (Series.step sorter) s) := by
  induction ops generalizing v s with
  | nil => exact h
  | cons op ops ih => exact ih (h.step sorter hops.1) hops.2

end

/-- In every run whose steps are orderly, the series of a key has one sample a day. -/
theorem usage_series_daily (sorter : DaySorter) (ops : List Op)
    (hops : AllOrderly sorter (fun _ ↦ none) ops) (key : String) (hist : List DailySample)
    (hhist : ops.foldl (Series.step sorter) (fun _ ↦ none) key = some hist) :
    hist.Pairwise (·.day < ·.day) ∧ (∀ x ∈ hist, dayStart x.day = x.day) ∧
      hist.length ≤ maxDays ∧ ∀ x ∈ hist, latest ops key x.day = some (x.tokens, x.requests) := by
  have hempty : Keeps (fun _ _ ↦ none) fun _ ↦ none := nofun
  obtain ⟨hdaily, hvalues⟩ := hempty.run sorter hops key hist hhist
  exact ⟨hdaily.increasing, hdaily.midnight, hdaily.bounded, hvalues⟩

def stableSorter : DaySorter := .insertion

def usedTokens (tokens : UInt64) : Quota.Snapshot :=
  { keyID := "k", limits := {}, requestsThisMinute := 1, tokensThisMinute := tokens,
    tokensToday := tokens, tokensThisMonth := tokens, minuteResetsAt := 0, dayResetsAt := 0,
    monthResetsAt := 0 }

theorem usage_series_daily_two :
    let ops : List Op := [.load .missing, .record [usedTokens 5] 7, .record [usedTokens 8] 9,
      .record [usedTokens 2] (day + 3)]
    AllOrderly stableSorter (fun _ ↦ none) ops ∧
      ops.foldl (Series.step stableSorter) (fun _ ↦ none) "k" = some [⟨0, 8, 1⟩, ⟨day, 2, 1⟩] ∧
      latest ops "k" 0 = some (8, 1) := by
  intro ops
  have hops : AllOrderly stableSorter (fun _ ↦ none) ops := by
    simp only [ops, AllOrderly, Op.Orderly, Series.Reaches]
    decide +kernel
  have hhist : ops.foldl (Series.step stableSorter) (fun _ ↦ none) "k" =
      some [⟨0, 8, 1⟩, ⟨day, 2, 1⟩] := by decide +kernel
  obtain ⟨-, -, -, hvalues⟩ := usage_series_daily stableSorter ops hops "k" _ hhist
  exact ⟨hops, hhist, hvalues ⟨0, 8, 1⟩ List.mem_cons_self⟩

theorem clock_back_appends_earlier_day :
    let hist : List DailySample := [⟨day, 5, 1⟩, ⟨0, 8, 1⟩]
    ([.record [usedTokens 5] day, .record [usedTokens 8] 0] : List Op).foldl
        (Series.step stableSorter) (fun _ ↦ none) "k" = some hist ∧
      ¬hist.Pairwise (·.day < ·.day) := by
  decide +kernel

end AgentGpu.Usage
