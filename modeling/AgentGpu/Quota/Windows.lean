import AgentGpu.Foundation.Tilings
import AgentGpu.Quota.Counters
import Mathlib.Data.Int.ConditionallyCompleteOrder
import Mathlib.Tactic.NormNum
import Mathlib.Tactic.Ring

namespace AgentGpu.Quota

open Foundation

/-! The months of `windowStart` come from a day count through eras of 146097 days (400
Gregorian years that begin in March). That the months tile the days rests on the year
formula of `dayOfMonth` finding the right year of the era for each of its days. -/

def commonDays (e : ℤ) : ℤ := e - e / 1460 + e / 36524 - e / 146096

def yearStart (y : ℤ) : ℤ := 365 * y + y / 4 - y / 100 + y / 400

theorem commonDays_mono : Monotone commonDays := by
  intro e e' he
  unfold commonDays
  omega

theorem commonDays_bounds (y : ℕ) (hy : y < 400) :
    365 * (y : ℤ) ≤ commonDays (yearStart y) ∧
      commonDays (yearStart (y + 1) - 1) < 365 * ((y : ℤ) + 1) := by
  revert y
  decide +kernel

theorem yearStart_mono : Monotone yearStart := by
  intro y y' h
  unfold yearStart
  omega

theorem yearStart_le_lt {e : ℤ} (h0 : 0 ≤ e) (h1 : e < 146097) :
    0 ≤ commonDays e / 365 ∧ commonDays e / 365 < 400 ∧
      yearStart (commonDays e / 365) ≤ e ∧ e < yearStart (commonDays e / 365 + 1) := by
  have hlow : 0 ≤ commonDays e := commonDays_mono h0
  have hhigh : commonDays e ≤ 145999 := commonDays_mono (show e ≤ 146096 by omega)
  obtain ⟨y, hy⟩ : ∃ y : ℕ, commonDays e / 365 = y := ⟨_, (Int.toNat_of_nonneg (by omega)).symm⟩
  have hy400 : y < 400 := by omega
  rw [hy]
  have hspan : 365 * (y : ℤ) ≤ commonDays e ∧ commonDays e < 365 * ((y : ℤ) + 1) := by omega
  refine ⟨by omega, by omega, ?_, ?_⟩
  · by_contra hlt
    cases y with
    | zero => exact hlt (by simpa [yearStart] using h0)
    | succ y =>
      have hend := (commonDays_bounds y (by omega)).2
      push_cast at hlt hspan
      have hle := commonDays_mono (show e ≤ yearStart (y + 1) - 1 by omega)
      omega
  · by_contra hle
    rcases Nat.lt_or_ge (y + 1) 400 with hnext | hlast
    · have hbegin := (commonDays_bounds (y + 1) hnext).1
      push_cast at hbegin
      have := commonDays_mono (show yearStart (y + 1) ≤ e by omega)
      omega
    · obtain rfl : y = 399 := by omega
      norm_num [yearStart] at hle
      omega

def monthStart (e : ℤ) : ℤ :=
  let start := yearStart (commonDays e / 365)
  start + (153 * ((5 * (e - start) + 2) / 153) + 2) / 5

theorem monthStart_le {e : ℤ} (h0 : 0 ≤ e) (h1 : e < 146097) :
    yearStart (commonDays e / 365) ≤ monthStart e ∧ monthStart e ≤ e := by
  obtain ⟨-, -, hbegin, -⟩ := yearStart_le_lt h0 h1
  unfold monthStart
  dsimp only
  omega

theorem firstOfMonth_eq (days : ℤ) :
    days - (dayOfMonth days - 1) =
      monthStart ((days + 719468) % 146097) + (days + 719468) / 146097 * 146097 - 719468 := by
  have hrange : 0 ≤ (days + 719468) % 146097 ∧ (days + 719468) % 146097 < 146097 := by omega
  obtain ⟨hy0, hy1, -, -⟩ := yearStart_le_lt hrange.1 hrange.2
  have hyear : yearStart (commonDays ((days + 719468) % 146097) / 365) =
      365 * (commonDays ((days + 719468) % 146097) / 365) +
        commonDays ((days + 719468) % 146097) / 365 / 4 -
        commonDays ((days + 719468) % 146097) / 365 / 100 := by
    unfold yearStart
    omega
  have hera := Int.emod_add_mul_ediv (days + 719468) 146097
  have hday : dayOfMonth days = (days + 719468) % 146097 -
      monthStart ((days + 719468) % 146097) + 1 := by
    unfold monthStart
    dsimp only
    rw [hyear]
    unfold dayOfMonth commonDays
    dsimp only
    ring
  rw [hday]
  linarith

/-- The first day of the month after the one that `days` lies in, as `AddDate(0, 1, 0)` finds
it from the first of that month. The eras and years are those of `dayOfMonth`. -/
def firstOfNextMonth (days : ℤ) : ℤ :=
  let era := (days + 719468) / 146097
  let dayOfEra := (days + 719468) % 146097
  let yearOfEra := (dayOfEra - dayOfEra / 1460 + dayOfEra / 36524 - dayOfEra / 146096) / 365
  let start (year : ℤ) := 365 * year + year / 4 - year / 100 + year / 400
  let month := (5 * (dayOfEra - start yearOfEra) + 2) / 153
  let next :=
    if month < 11 then start yearOfEra + (153 * (month + 1) + 2) / 5 else start (yearOfEra + 1)
  next + era * 146097 - 719468

def windowReset (w : Window) (t : Time) : Time :=
  let start := windowStart w t
  match w with
  | .minute => start + minute
  | .day => start + day
  | .month => firstOfNextMonth (start / day) * day

def nextMonthStart (e : ℤ) : ℤ :=
  let start := yearStart (commonDays e / 365)
  let month := (5 * (e - start) + 2) / 153
  if month < 11 then start + (153 * (month + 1) + 2) / 5 else yearStart (commonDays e / 365 + 1)

theorem yearStart_succ (y : ℤ) : yearStart y + 365 ≤ yearStart (y + 1) ∧
    yearStart (y + 1) ≤ yearStart y + 366 := by
  unfold yearStart
  omega

theorem nextMonthStart_bounds {e : ℤ} (h0 : 0 ≤ e) (h1 : e < 146097) :
    e < nextMonthStart e ∧ nextMonthStart e ≤ yearStart (commonDays e / 365 + 1) := by
  obtain ⟨-, -, hbegin, hend⟩ := yearStart_le_lt h0 h1
  have hlength := yearStart_succ (commonDays e / 365)
  unfold nextMonthStart
  dsimp only
  split_ifs <;> omega

theorem year_eq {y e : ℤ} (h0 : 0 ≤ y) (h1 : y < 400) (hbegin : yearStart y ≤ e)
    (hend : e < yearStart (y + 1)) : commonDays e / 365 = y := by
  obtain ⟨n, rfl⟩ := Int.eq_ofNat_of_zero_le h0
  obtain ⟨hfirst, hlast⟩ := commonDays_bounds n (by omega)
  have hbefore := commonDays_mono hbegin
  have hafter := commonDays_mono (show e ≤ yearStart (n + 1) - 1 by omega)
  omega

theorem month_eq {e e' : ℤ} (h0 : 0 ≤ e) (h1 : e < 146097) (hbegin : monthStart e ≤ e')
    (hend : e' < nextMonthStart e) :
    monthStart e' = monthStart e ∧ nextMonthStart e' = nextMonthStart e := by
  obtain ⟨hy0, hy1, hfirst, hlast⟩ := yearStart_le_lt h0 h1
  have hlength := yearStart_succ (commonDays e / 365)
  have hyear : commonDays e' / 365 = commonDays e / 365 :=
    year_eq hy0 hy1 ((monthStart_le h0 h1).1.trans hbegin)
      (hend.trans_le (nextMonthStart_bounds h0 h1).2)
  have hmonth : (5 * (e' - yearStart (commonDays e / 365)) + 2) / 153 =
      (5 * (e - yearStart (commonDays e / 365)) + 2) / 153 := by
    unfold monthStart at hbegin
    unfold nextMonthStart at hend
    dsimp only at hbegin hend
    split_ifs at hend <;> omega
  unfold monthStart nextMonthStart
  rw [hyear]
  dsimp only
  rw [hmonth]
  exact ⟨rfl, rfl⟩

theorem firstOfNextMonth_eq (days : ℤ) :
    firstOfNextMonth days = nextMonthStart ((days + 719468) % 146097) +
      (days + 719468) / 146097 * 146097 - 719468 := rfl

theorem firstOfMonth_of_lt {days days' : ℤ} (hbegin : days - (dayOfMonth days - 1) ≤ days')
    (hend : days' < firstOfNextMonth days) :
    days' - (dayOfMonth days' - 1) = days - (dayOfMonth days - 1) ∧
      firstOfNextMonth days' = firstOfNextMonth days := by
  rw [firstOfMonth_eq] at hbegin
  rw [firstOfNextMonth_eq] at hend
  rw [firstOfMonth_eq, firstOfMonth_eq, firstOfNextMonth_eq, firstOfNextMonth_eq]
  have h0 : 0 ≤ (days + 719468) % 146097 := by omega
  have h1 : (days + 719468) % 146097 < 146097 := by omega
  obtain ⟨hy0, hy1, -, -⟩ := yearStart_le_lt h0 h1
  -- a month lies within its era
  have hlow : 0 ≤ monthStart ((days + 719468) % 146097) := by
    have hzero := yearStart_mono hy0
    exact (show (0 : ℤ) ≤ _ by simpa [yearStart] using hzero).trans (monthStart_le h0 h1).1
  have hhigh : nextMonthStart ((days + 719468) % 146097) ≤ 146097 := by
    have hend := yearStart_mono (show commonDays ((days + 719468) % 146097) / 365 + 1 ≤ 400 by omega)
    exact ((nextMonthStart_bounds h0 h1).2.trans hend).trans (by decide)
  have hera : (days' + 719468) / 146097 = (days + 719468) / 146097 := by omega
  have hday : monthStart ((days + 719468) % 146097) ≤ (days' + 719468) % 146097 ∧
      (days' + 719468) % 146097 < nextMonthStart ((days + 719468) % 146097) := by omega
  obtain ⟨hstart, hnext⟩ := month_eq h0 h1 hday.1 hday.2
  rw [hera, hstart, hnext]
  exact ⟨rfl, rfl⟩

theorem firstOfMonth_le (days : ℤ) :
    days - (dayOfMonth days - 1) ≤ days ∧ days < firstOfNextMonth days := by
  rw [firstOfMonth_eq, firstOfNextMonth_eq]
  have h0 : 0 ≤ (days + 719468) % 146097 := by omega
  have h1 : (days + 719468) % 146097 < 146097 := by omega
  have hstart := (monthStart_le h0 h1).2
  have hnext := (nextMonthStart_bounds h0 h1).1
  omega

def months : Tiling ℤ where
  start days := days - (dayOfMonth days - 1)
  stop := firstOfNextMonth
  start_le days := (firstOfMonth_le days).1
  lt_stop days := (firstOfMonth_le days).2
  same := firstOfMonth_of_lt

theorem minute_pos : 0 < minute := by
  norm_num [minute, second]

theorem day_pos : 0 < day := by
  norm_num [day, second]

def tilingOf : Window → Tiling Time
  | .minute => Tiling.units.scale minute minute_pos
  | .day => Tiling.units.scale day day_pos
  | .month => months.scale day day_pos

theorem sub_emod_eq (t m : ℤ) : t - t % m = t / m * m := by
  rw [Int.emod_def, sub_sub_cancel, mul_comm]

theorem sub_emod_add_eq (t m : ℤ) : t - t % m + m = (t / m + 1) * m := by
  rw [sub_emod_eq, add_mul, one_mul]

theorem windowStart_eq_start (w : Window) (t : Time) : windowStart w t = (tilingOf w).start t := by
  cases w with
  | minute => exact sub_emod_eq t minute
  | day => exact sub_emod_eq t day
  | month => rfl

theorem windowReset_eq_stop (w : Window) (t : Time) : windowReset w t = (tilingOf w).stop t := by
  cases w with
  | minute => exact sub_emod_add_eq t minute
  | day => exact sub_emod_add_eq t day
  | month =>
    -- the reset of a month is found from its first day
    have hfirst : windowStart .month t / day = months.start (t / day) :=
      Int.mul_ediv_cancel _ day_pos.ne'
    have hnext : firstOfNextMonth (months.start (t / day)) = firstOfNextMonth (t / day) :=
      months.stop_start (t / day)
    simp only [windowReset, hfirst, hnext]
    rfl

theorem windowStart_mono (w : Window) : Monotone (windowStart w) := by
  intro t t' h
  rw [windowStart_eq_start, windowStart_eq_start]
  exact (tilingOf w).start_mono h

theorem lt_windowReset (w : Window) (t : Time) : t < windowReset w t := by
  rw [windowReset_eq_stop]
  exact (tilingOf w).lt_stop t

theorem windowStart_of_lt_windowReset {w : Window} {t t' : Time} (hle : t ≤ t')
    (hlt : t' < windowReset w t) : windowStart w t' = windowStart w t := by
  rw [windowReset_eq_stop] at hlt
  rw [windowStart_eq_start, windowStart_eq_start]
  exact ((tilingOf w).same (((tilingOf w).start_le t).trans hle) hlt).1

theorem start_minute_day (t : Time) :
    (tilingOf .minute).start ((tilingOf .day).start t) = (tilingOf .day).start t :=
  Tiling.start_units_scale minute_pos <| dvd_mul_of_dvd_right (by norm_num [minute, day, second]) _

theorem start_day_month (t : Time) :
    (tilingOf .day).start ((tilingOf .month).start t) = (tilingOf .month).start t :=
  Tiling.start_units_scale day_pos <| dvd_mul_left day _

/-- The windows of each kind divide the time, and those of minutes the days, and those of days the
months. -/
theorem windows_partition_time (t : Time) :
    (∀ w, windowStart w t ≤ t ∧ t < windowReset w t ∧
      (∀ t' ∈ Set.Ico (windowStart w t) (windowReset w t),
        windowStart w t' = windowStart w t ∧ windowReset w t' = windowReset w t) ∧
      windowStart w (windowReset w t) = windowReset w t) ∧
      Set.Ico (windowStart .minute t) (windowReset .minute t) ⊆
        Set.Ico (windowStart .day t) (windowReset .day t) ∧
      Set.Ico (windowStart .day t) (windowReset .day t) ⊆
        Set.Ico (windowStart .month t) (windowReset .month t) := by
  simp only [windowStart_eq_start, windowReset_eq_stop]
  refine ⟨fun w ↦ ⟨(tilingOf w).start_le t, (tilingOf w).lt_stop t, fun t' ht' ↦ ?_,
    (tilingOf w).start_stop t⟩, ?_, ?_⟩
  · exact (tilingOf w).same ht'.1 ht'.2
  · exact Tiling.Ico_subset start_minute_day t
  · exact Tiling.Ico_subset start_day_month t

end AgentGpu.Quota
