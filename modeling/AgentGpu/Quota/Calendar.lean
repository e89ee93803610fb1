import AgentGpu.Quota.Windows
import Mathlib.Tactic.IntervalCases

namespace AgentGpu.Quota

open Foundation

/-! The windows by the dates that `windowStart` and `WindowReset` name them with. -/

def IsLeap (y : ℤ) : Prop := y % 4 = 0 ∧ (y % 100 ≠ 0 ∨ y % 400 = 0)

instance (y : ℤ) : Decidable (IsLeap y) := inferInstanceAs (Decidable (_ ∧ _))

def daysIn (y m : ℤ) : ℤ :=
  if m = 2 then if IsLeap y then 29 else 28
  else if m = 4 ∨ m = 6 ∨ m = 9 ∨ m = 11 then 30 else 31

def daysBefore (m : ℤ) : ℤ :=
  [0, 31, 59, 90, 120, 151, 181, 212, 243, 273, 304, 334].getD m.toNat 0

/-- The day of `time.Date(y, m, d, 0, 0, 0, 0, time.UTC)`, counted from the epoch. Months beyond
the year are those of the next years. -/
def date (y m d : ℤ) : ℤ :=
  let year := y + (m - 1) / 12
  let month := (m - 1) % 12
  365 * (year - 1) + (year - 1) / 4 - (year - 1) / 100 + (year - 1) / 400 + daysBefore month +
    (if IsLeap year ∧ 2 ≤ month then 1 else 0) + (d - 1) - 719162

structure IsDate (y m d : ℤ) : Prop where
  month_pos : 1 ≤ m
  month_le : m ≤ 12
  day_pos : 1 ≤ d
  day_le : d ≤ daysIn y m

/-! The eras of `dayOfMonth` count the years and the months from March on. -/

def marchYear (y m : ℤ) : ℤ := if m ≤ 2 then y - 1 else y

def marchMonth (m : ℤ) : ℤ := if m ≤ 2 then m + 9 else m - 3

section

variable {y m d : ℤ}

theorem daysBefore_eq (h0 : 0 ≤ m) (h11 : m ≤ 11) :
    daysBefore m = if m < 2 then 31 * m else (153 * (m - 2) + 2) / 5 + 59 := by
  interval_cases m <;> rfl

theorem yearStart_pred (y : ℤ) : yearStart y = yearStart (y - 1) + 365 + if IsLeap y then 1 else 0 := by
  unfold yearStart IsLeap
  split_ifs <;> omega

theorem marchMonth_bounds (h1 : 1 ≤ m) (h12 : m ≤ 12) : 0 ≤ marchMonth m ∧ marchMonth m ≤ 11 := by
  unfold marchMonth
  split_ifs <;> omega

theorem date_eq (h1 : 1 ≤ m) (h12 : m ≤ 12) : date y m d =
    yearStart (marchYear y m) + (153 * marchMonth m + 2) / 5 + (d - 1) - 719468 := by
  have hyear : y + (m - 1) / 12 = y := by omega
  have hmonth : (m - 1) % 12 = m - 1 := by omega
  have hstart : yearStart (y - 1) =
      365 * (y - 1) + (y - 1) / 4 - (y - 1) / 100 + (y - 1) / 400 := rfl
  have hleap := yearStart_pred y
  simp only [date, hyear, hmonth, ← hstart, daysBefore_eq (m := m - 1) (by omega) (by omega),
    marchYear, marchMonth]
  by_cases hm : m ≤ 2
  · simp only [hm, show m - 1 < 2 by omega, show ¬2 ≤ m - 1 by omega, ↓reduceIte, and_false]
    omega
  · simp only [hm, show ¬m - 1 < 2 by omega, show 2 ≤ m - 1 by omega, ↓reduceIte, and_true]
    omega

theorem daysIn_eq (h1 : 1 ≤ m) (h12 : m ≤ 12) : daysIn y m =
    if marchMonth m < 11 then (153 * (marchMonth m + 1) + 2) / 5 - (153 * marchMonth m + 2) / 5
    else yearStart (marchYear y m + 1) - yearStart (marchYear y m) - 337 := by
  have hleap := yearStart_pred y
  interval_cases m <;> norm_num [daysIn, marchMonth, marchYear]
  split_ifs at hleap ⊢ <;> omega

def dayOfEra (y m d : ℤ) : ℤ :=
  yearStart (marchYear y m % 400) + (153 * marchMonth m + 2) / 5 + (d - 1)

theorem date_eq_dayOfEra (h1 : 1 ≤ m) (h12 : m ≤ 12) :
    date y m d = dayOfEra y m d + marchYear y m / 400 * 146097 - 719468 := by
  have hera : yearStart (marchYear y m) =
      yearStart (marchYear y m % 400) + marchYear y m / 400 * 146097 := by
    unfold yearStart
    omega
  rw [date_eq h1 h12, dayOfEra, hera]
  ring

theorem yearStart_era (y : ℤ) :
    yearStart (y + 1) - yearStart y = yearStart (y % 400 + 1) - yearStart (y % 400) ∧
      0 ≤ yearStart (y % 400) ∧ yearStart (y % 400 + 1) ≤ 146097 := by
  unfold yearStart
  omega

theorem IsDate.year_month_eq (h : IsDate y m d) :
    0 ≤ dayOfEra y m d ∧ dayOfEra y m d < 146097 ∧
      commonDays (dayOfEra y m d) / 365 = marchYear y m % 400 ∧
      (5 * (dayOfEra y m d - yearStart (marchYear y m % 400)) + 2) / 153 = marchMonth m := by
  obtain ⟨h0, h11⟩ := marchMonth_bounds h.month_pos h.month_le
  obtain ⟨hera, hlow, hhigh⟩ := yearStart_era (marchYear y m)
  have hlength := yearStart_succ (marchYear y m % 400)
  have hfirst := h.day_pos
  have hlast := h.day_le
  rw [daysIn_eq h.month_pos h.month_le, hera] at hlast
  have hend : dayOfEra y m d < yearStart (marchYear y m % 400 + 1) := by
    unfold dayOfEra
    split_ifs at hlast <;> omega
  refine ⟨?_, hend.trans_le hhigh, year_eq (by omega) (by omega) ?_ hend, ?_⟩ <;> unfold dayOfEra
  · omega
  · omega
  · split_ifs at hlast <;> omega

theorem IsDate.monthStart_eq (h : IsDate y m d) :
    monthStart (dayOfEra y m d) = dayOfEra y m 1 ∧
      nextMonthStart (dayOfEra y m d) = dayOfEra y m 1 + daysIn y m := by
  obtain ⟨-, -, hyear, hmonth⟩ := h.year_month_eq
  have hdays := daysIn_eq (y := y) h.month_pos h.month_le
  rw [(yearStart_era (marchYear y m)).1] at hdays
  have hlast := (marchMonth_bounds h.month_pos h.month_le).2
  refine ⟨?_, ?_⟩
  · unfold monthStart
    rw [hyear]
    dsimp only
    rw [hmonth, dayOfEra]
    omega
  · unfold nextMonthStart
    rw [hyear]
    dsimp only
    rw [hmonth, dayOfEra, hdays]
    split_ifs <;> omega

theorem IsDate.era_eq (h : IsDate y m d) :
    (date y m d + 719468) % 146097 = dayOfEra y m d ∧
      (date y m d + 719468) / 146097 = marchYear y m / 400 := by
  obtain ⟨h0, h1, -, -⟩ := h.year_month_eq
  have hdate := date_eq_dayOfEra (y := y) (d := d) h.month_pos h.month_le
  omega

theorem months_date (h : IsDate y m d) :
    months.start (date y m d) = date y m 1 ∧ months.stop (date y m d) = date y m 1 + daysIn y m := by
  obtain ⟨hstart, hnext⟩ := h.monthStart_eq
  obtain ⟨hday, hera⟩ := h.era_eq
  have hfirst := date_eq_dayOfEra (y := y) (d := 1) h.month_pos h.month_le
  have hbegin := firstOfMonth_eq (date y m d)
  have hend := firstOfNextMonth_eq (date y m d)
  rw [hday, hera] at hbegin hend
  refine ⟨hbegin.trans ?_, hend.trans ?_⟩ <;> omega

theorem date_succ_month (h1 : 1 ≤ m) (h12 : m ≤ 12) : date y (m + 1) 1 = date y m 1 + daysIn y m := by
  rw [date_eq h1 h12, daysIn_eq h1 h12]
  rcases h12.lt_or_eq with hlt | rfl
  · have hyear : y - 1 + 1 = y := by omega
    rw [date_eq (by omega) (by omega)]
    unfold marchMonth marchYear
    split_ifs <;> first | omega | (rw [hyear]; omega)
  · have hjanuary : date y (12 + 1) 1 = date (y + 1) 1 1 := by norm_num [date]
    rw [hjanuary, date_eq le_rfl (by decide)]
    norm_num [marchMonth, marchYear]
    omega

-- with the lengths of the months, this determines all dates
example : date 1970 1 1 = 0 := by decide

theorem exists_date (days : ℤ) : ∃ y m d, IsDate y m d ∧ date y m d = days := by
  obtain ⟨era, e, h0, h1, rfl⟩ : ∃ era e, 0 ≤ e ∧ e < 146097 ∧ days = e + era * 146097 - 719468 :=
    ⟨(days + 719468) / 146097, (days + 719468) % 146097, by omega⟩
  obtain ⟨hy0, hy1, hbegin, hend⟩ := yearStart_le_lt h0 h1
  generalize commonDays e / 365 = year at hy0 hy1 hbegin hend
  have hlength := yearStart_succ year
  obtain ⟨p, hp⟩ : ∃ p, (5 * (e - yearStart year) + 2) / 153 = p := ⟨_, rfl⟩
  -- January and February belong to the next year
  let y := if p < 10 then year + era * 400 else year + era * 400 + 1
  let m := if p < 10 then p + 3 else p - 9
  have hmonth : 1 ≤ m ∧ m ≤ 12 ∧ marchMonth m = p ∧ marchYear y m = year + era * 400 := by
    simp only [y, m, marchMonth, marchYear]
    split_ifs <;> omega
  obtain ⟨hm1, hm12, hmarch, hyear⟩ := hmonth
  have hera : yearStart (year + era * 400) = yearStart year + era * 146097 ∧
      yearStart (year + era * 400 + 1) = yearStart (year + 1) + era * 146097 := by
    unfold yearStart
    omega
  refine ⟨y, m, e - yearStart year - (153 * p + 2) / 5 + 1, ⟨hm1, hm12, by omega, ?_⟩, ?_⟩
  · rw [daysIn_eq hm1 hm12, hmarch, hyear]
    split_ifs <;> omega
  · rw [date_eq hm1 hm12, hmarch, hyear]
    omega

end

theorem windows_of_date {y m d : ℤ} (h : IsDate y m d) {t : Time} (ht : t / day = date y m d) :
    windowStart .day t = date y m d * day ∧ windowReset .day t = date y m (d + 1) * day ∧
      windowStart .month t = date y m 1 * day ∧ windowReset .month t = date y (m + 1) 1 * day := by
  obtain ⟨hstart, hstop⟩ := months_date h
  have hnext : date y m (d + 1) = date y m d + 1 := by
    unfold date
    dsimp only
    omega
  rw [← date_succ_month h.month_pos h.month_le] at hstop
  simp only [windowStart_eq_start, windowReset_eq_stop, tilingOf, Tiling.scale, Tiling.units, ht,
    hstart, hstop, hnext, and_self]

end AgentGpu.Quota
