import AgentGpu.Quota.Exhaustion
import AgentGpu.Quota.Restart

namespace AgentGpu.Quota

open Foundation

structure Snapshot where
  keyID : String
  limits : Limits
  requestsThisMinute : UInt64
  tokensThisMinute : UInt64
  tokensToday : UInt64
  tokensThisMonth : UInt64
  minuteResetsAt : Time
  dayResetsAt : Time
  monthResetsAt : Time
  deriving DecidableEq

def usage (m : CounterStore) (keyID : String) (lim : Limits) (now : Time) : CounterStore × Snapshot :=
  let (m, c) := m.get keyID now
  (m,
    { keyID
      limits := lim
      requestsThisMinute := c.minuteRequests
      tokensThisMinute := c.minuteTokens
      tokensToday := c.dayTokens
      tokensThisMonth := c.monthTokens
      minuteResetsAt := windowReset .minute now
      dayResetsAt := windowReset .day now
      monthResetsAt := windowReset .month now })

/-- The closure of `RetryAfter` that keeps the soonest reset after `now`. -/
def consider (now : Time) (best : Option Time) (reset : Time) : Option Time :=
  if reset ≤ now then best
  else
    match best with
    | none => some reset
    | some b => if reset < b then some reset else some b

namespace Snapshot

variable (s : Snapshot)

def atLimit : List Time :=
  (if s.limits.rpm ≠ 0 ∧ s.requestsThisMinute ≥ s.limits.rpm then [s.minuteResetsAt] else []) ++
  (if s.limits.tpm ≠ 0 ∧ s.tokensThisMinute ≥ s.limits.tpm then [s.minuteResetsAt] else []) ++
  (if s.limits.dailyTokens ≠ 0 ∧ s.tokensToday ≥ s.limits.dailyTokens then [s.dayResetsAt]
    else []) ++
  (if s.limits.monthlyTokens ≠ 0 ∧ s.tokensThisMonth ≥ s.limits.monthlyTokens then
    [s.monthResetsAt] else [])

def retryAfter (now : Time) : Option Time :=
  match s.atLimit.foldl (consider now) none with
  | some best => some best
  | none => [s.minuteResetsAt, s.dayResetsAt, s.monthResetsAt].foldl (consider now) none

end Snapshot

section Soonest

variable {now reset : Time} {best : Option Time}

theorem consider_after (hbest : ∀ b ∈ best, now < b) : ∀ b ∈ consider now best reset, now < b := by
  unfold consider
  split_ifs with hpast
  · exact hbest
  · cases best with
    | none => simpa using hpast
    | some b =>
      dsimp only
      split_ifs
      · simpa using hpast
      · exact hbest

theorem consider_le (best : Option Time) (hreset : now < reset) :
    ∃ b, consider now best reset = some b ∧ b ≤ reset := by
  have hpast : ¬reset ≤ now := Int.not_le.mpr hreset
  cases best with
  | none => exact ⟨reset, by simp [consider, hpast], le_rfl⟩
  | some b =>
    by_cases hsooner : reset < b
    · exact ⟨reset, by simp [consider, hpast, hsooner], le_rfl⟩
    · exact ⟨b, by simp [consider, hpast, hsooner], Int.not_lt.mp hsooner⟩

theorem consider_some (now b reset : Time) :
    ∃ b', consider now (some b) reset = some b' ∧ b' ≤ b := by
  by_cases hpast : reset ≤ now
  · exact ⟨b, if_pos hpast, le_rfl⟩
  · by_cases hsooner : reset < b
    · exact ⟨reset, by simp [consider, hpast, hsooner], hsooner.le⟩
    · exact ⟨b, by simp [consider, hpast, hsooner], le_rfl⟩

theorem foldl_consider_some (now b : Time) (resets : List Time) :
    ∃ r, resets.foldl (consider now) (some b) = some r ∧ r ≤ b := by
  induction resets generalizing b with
  | nil => exact ⟨b, rfl, le_rfl⟩
  | cons reset resets ih =>
    obtain ⟨b', hb', hle⟩ := consider_some now b reset
    obtain ⟨r, hr, hle'⟩ := ih b'
    exact ⟨r, by rw [List.foldl_cons, hb', hr], hle'.trans hle⟩

theorem foldl_consider_after (hbest : ∀ b ∈ best, now < b) (resets : List Time) :
    ∀ r ∈ resets.foldl (consider now) best, now < r := by
  induction resets generalizing best with
  | nil => exact hbest
  | cons reset resets ih => exact ih (consider_after hbest)

theorem foldl_consider_le (best : Option Time) (hreset : now < reset) {resets : List Time}
    (hmem : reset ∈ resets) : ∃ r, resets.foldl (consider now) best = some r ∧ r ≤ reset := by
  induction resets generalizing best with
  | nil => cases hmem
  | cons first resets ih =>
    rw [List.foldl_cons]
    rcases List.mem_cons.mp hmem with rfl | hrest
    · obtain ⟨b, hb, hle⟩ := consider_le best hreset
      obtain ⟨r, hr, hle'⟩ := foldl_consider_some now b resets
      exact ⟨r, by rw [hb, hr], hle'.trans hle⟩
    · exact ih _ hrest

theorem Snapshot.retryAfter_of_mem {s : Snapshot} (hreset : now < reset) (hmem : reset ∈ s.atLimit) :
    ∃ r, s.retryAfter now = some r ∧ now < r ∧ r ≤ reset := by
  obtain ⟨r, hr, hle⟩ := foldl_consider_le none hreset hmem
  have hafter := foldl_consider_after (by simp) s.atLimit r hr
  exact ⟨r, by rw [retryAfter, hr], hafter, hle⟩

end Soonest

def Gauge.Denies (lim : Limits) : Gauge → UInt64 → Prop
  | .requests, n => lim.rpm ≠ 0 ∧ lim.rpm < n + 1
  | .tokens w, n => w.budget lim ≠ 0 ∧ w.budget lim ≤ n

def CounterStore.reading (m : CounterStore) (keyID : String) (g : Gauge) (start : Time) : UInt64 :=
  (((m.lookup keyID).gauge g).roll start).value

def Op.Under (keyID : String) (lim : Limits) : Op → Prop
  | .reserve k lim' _ => k = keyID → lim' = lim
  | _ => True

def Op.Fits (keyID : String) (m : CounterStore) : Op → Prop
  | .addTokens k now n => k = keyID → ∀ w,
    (m.reading keyID (.tokens w) (windowStart w now)).toNat + n.toNat < 2 ^ 64
  | _ => True

def SumsFit (keyID : String) : CounterStore → List Op → Prop
  | _, [] => True
  | m, op :: ops => op.Fits keyID m ∧ SumsFit keyID (m.call op.storeCall).1 ops

section Denials

variable {lim : Limits} {keyID : String} {m : CounterStore} {g : Gauge} {start now : Time}

theorem check_isSome_iff (lim : Limits) (c : Counters) :
    (check lim c).isSome ↔ ∃ g : Gauge, g.Denies lim (c.gauge g).value := by
  rw [Option.isSome_iff_ne_none, ne_eq, check_eq_none_iff]
  constructor
  · intro h
    by_contra hnone
    refine h ⟨?_, ?_, ?_, ?_⟩
    · exact or_iff_not_imp_left.mpr fun hlim ↦
        UInt64.not_lt.mp fun hlt ↦ hnone ⟨.requests, hlim, hlt⟩
    · exact or_iff_not_imp_left.mpr fun hlim ↦
        UInt64.not_le.mp fun hle ↦ hnone ⟨.tokens .minute, hlim, hle⟩
    · exact or_iff_not_imp_left.mpr fun hlim ↦
        UInt64.not_le.mp fun hle ↦ hnone ⟨.tokens .day, hlim, hle⟩
    · exact or_iff_not_imp_left.mpr fun hlim ↦
        UInt64.not_le.mp fun hle ↦ hnone ⟨.tokens .month, hlim, hle⟩
  · rintro ⟨g, hdenies⟩ ⟨hrequests, hminute, hday, hmonth⟩
    cases g with
    | requests => exact UInt64.not_lt.mpr (hrequests.resolve_left hdenies.1) hdenies.2
    | tokens w =>
      cases w with
      | minute => exact UInt64.not_le.mpr (hminute.resolve_left hdenies.1) hdenies.2
      | day => exact UInt64.not_le.mpr (hday.resolve_left hdenies.1) hdenies.2
      | month => exact UInt64.not_le.mpr (hmonth.resolve_left hdenies.1) hdenies.2

theorem reserve_isSome_iff : (m.reserve keyID now (check lim)).2.isSome ↔
    ∃ g : Gauge, g.Denies lim (m.reading keyID g (windowStart g.window now)) := by
  rw [reserve_snd, check_isSome_iff]
  simp only [Counters.gauge_roll, CounterStore.reading]

theorem reading_put_roll (m : CounterStore) (keyID : String) (hstart : windowStart g.window now = start) :
    (m.put keyID ((m.lookup keyID).roll now)).reading keyID g start = m.reading keyID g start := by
  rw [CounterStore.reading, CounterStore.lookup_put_self, Counters.gauge_roll, hstart,
    Tally.roll_of_eq (Tally.roll_window ..), CounterStore.reading]

theorem reading_put_of_ne {other : String} (hne : other ≠ keyID) (c : Counters) :
    (m.put other c).reading keyID g start = m.reading keyID g start := by
  rw [CounterStore.reading, CounterStore.lookup_put_of_ne _ _ hne.symm, CounterStore.reading]

theorem reading_reserve_of_ne {other : String} (hne : other ≠ keyID)
    (check : Counters → Option Denial) :
    (m.reserve other now check).1.reading keyID g start = m.reading keyID g start := by
  simp only [CounterStore.reserve]
  split <;> exact reading_put_of_ne hne _

theorem reading_reserve_of_denied {check : Counters → Option Denial}
    (hdenied : (m.reserve keyID now check).2.isSome) (hstart : windowStart g.window now = start) :
    (m.reserve keyID now check).1.reading keyID g start = m.reading keyID g start := by
  rw [reserve_snd] at hdenied
  obtain ⟨d, hd⟩ := Option.isSome_iff_exists.mp hdenied
  simp only [CounterStore.reserve, hd]
  exact reading_put_roll m keyID hstart

theorem reading_get (other : String) (hstart : windowStart g.window now = start) :
    (m.get other now).1.reading keyID g start = m.reading keyID g start := by
  by_cases hother : other = keyID
  · subst hother
    exact reading_put_roll m other hstart
  · exact reading_put_of_ne hother _

theorem reading_rollAll (hstart : windowStart g.window now = start) :
    (m.rollAll now).reading keyID g start = m.reading keyID g start := by
  unfold CounterStore.reading CounterStore.lookup CounterStore.rollAll
  cases m keyID with
  | none => rfl
  | some c =>
    rw [Option.map_some, Option.getD_some, Option.getD_some, Counters.gauge_roll, hstart,
      Tally.roll_of_eq (Tally.roll_window ..)]

theorem reading_requests_addTokens (n : UInt64) (hstart : windowStart .minute now = start) :
    (m.addTokens keyID now n).reading keyID .requests start = m.reading keyID .requests start := by
  have hroll := reading_put_roll (g := .requests) m keyID hstart
  rw [← hroll, CounterStore.reading, CounterStore.reading, CounterStore.addTokens,
    CounterStore.lookup_put_self, CounterStore.lookup_put_self]
  rfl

theorem Gauge.Denies.addTokens {n : UInt64} (hdenies : g.Denies lim (m.reading keyID g start))
    (hstart : windowStart g.window now = start)
    (hfits : ∀ w, (m.reading keyID (.tokens w) (windowStart w now)).toNat + n.toNat < 2 ^ 64) :
    g.Denies lim ((m.addTokens keyID now n).reading keyID g start) := by
  cases g with
  | requests => rwa [reading_requests_addTokens n hstart]
  | tokens w =>
    have hstart : windowStart w now = start := hstart
    have hadd : (m.addTokens keyID now n).reading keyID (.tokens w) start =
        m.reading keyID (.tokens w) start + n := usage_addTokens hstart n
    have hfit := hfits w
    rw [hstart] at hfit
    refine ⟨hdenies.1, UInt64.le_trans hdenies.2 ?_⟩
    rw [hadd, UInt64.le_iff_toNat_le, UInt64.toNat_add, Nat.mod_eq_of_lt hfit]
    exact Nat.le_add_right _ _

theorem Gauge.Denies.call {op : Op} (hdenies : g.Denies lim (m.reading keyID g start))
    (hstart : windowStart g.window op.now = start) (hkey : keyID ≠ globalKeyID)
    (hunder : op.Under keyID lim) (hfits : op.Fits keyID m) :
    g.Denies lim ((m.call op.storeCall).1.reading keyID g start) := by
  cases op with
  | reserve k lim' now =>
    have hsame : (m.reserve k now (check lim')).1.reading keyID g start =
        m.reading keyID g start := by
      by_cases hk : k = keyID
      · subst hk
        obtain rfl := hunder rfl
        have hstart : windowStart g.window now = start := hstart
        exact reading_reserve_of_denied (reserve_isSome_iff.mpr ⟨g, hstart ▸ hdenies⟩) hstart
      · exact reading_reserve_of_ne hk _
    exact hsame.symm ▸ hdenies
  | reserveGlobal lim' now =>
    have hsame : (m.reserve globalKeyID now (checkGlobal lim')).1.reading keyID g start =
        m.reading keyID g start := reading_reserve_of_ne hkey.symm _
    exact hsame.symm ▸ hdenies
  | addTokens k now n =>
    by_cases hk : k = keyID
    · subst hk
      exact hdenies.addTokens hstart (hfits rfl)
    · have hsame : (m.addTokens k now n).reading keyID g start = m.reading keyID g start :=
        reading_put_of_ne hk _
      exact hsame.symm ▸ hdenies
  | get k now =>
    have hsame : (m.get k now).1.reading keyID g start = m.reading keyID g start :=
      reading_get k hstart
    exact hsame.symm ▸ hdenies
  | checkpoint now =>
    have hsame : (m.rollAll now).reading keyID g start = m.reading keyID g start :=
      reading_rollAll hstart
    exact hsame.symm ▸ hdenies

theorem Gauge.Denies.after {ops : List Op} (hdenies : g.Denies lim (m.reading keyID g start))
    (hstart : ∀ op ∈ ops, windowStart g.window op.now = start) (hkey : keyID ≠ globalKeyID)
    (hunder : ∀ op ∈ ops, op.Under keyID lim) (hfits : SumsFit keyID m ops) :
    g.Denies lim ((m.after (ops.map Op.storeCall)).reading keyID g start) := by
  induction ops generalizing m with
  | nil => exact hdenies
  | cons op ops ih =>
    obtain ⟨hop, hops⟩ := List.forall_mem_cons.mp hstart
    obtain ⟨hunder, hrest⟩ := List.forall_mem_cons.mp hunder
    exact ih (hdenies.call hop hkey hunder hfits.1) hops hrest hfits.2

theorem le_of_lt_add_one {l n : UInt64} (h : l < n + 1) : l ≤ n := by
  rw [UInt64.lt_iff_toNat_lt, UInt64.toNat_add, UInt64.toNat_one] at h
  have hmod := Nat.mod_le (n.toNat + 1) (2 ^ 64)
  exact UInt64.le_iff_toNat_le.mpr (by omega)

theorem windowReset_mem_atLimit
    (hdenies : g.Denies lim (m.reading keyID g (windowStart g.window now))) :
    windowReset g.window now ∈ (usage m keyID lim now).2.atLimit := by
  have hvalue : m.reading keyID g (windowStart g.window now) =
      ((m.get keyID now).2.gauge g).value := by
    rw [CounterStore.get, Counters.gauge_roll, CounterStore.reading]
  rw [hvalue] at hdenies
  simp only [Snapshot.atLimit, List.mem_append, List.mem_ite_nil_right]
  have hself := List.mem_singleton_self (windowReset g.window now)
  cases g with
  | requests => exact .inl (.inl (.inl ⟨⟨hdenies.1, le_of_lt_add_one hdenies.2⟩, hself⟩))
  | tokens w =>
    cases w with
    | minute => exact .inl (.inl (.inr ⟨hdenies, hself⟩))
    | day => exact .inl (.inr ⟨hdenies, hself⟩)
    | month => exact .inr ⟨hdenies, hself⟩

end Denials

/-- After a denial at `t₀`, with other calls at that very time before the usage is read, the
hint lies in the future, and up to it every request of the key is denied, whatever is called
in between. -/
theorem retry_hint_sound (m : CounterStore) (keyID : String) (lim : Limits) (t₀ : Time)
    (hkey : keyID ≠ globalKeyID) (hdenied : (m.reserve keyID t₀ (check lim)).2.isSome)
    (before : List Op) (hbefore : ∀ op ∈ before, op.now = t₀ ∧ op.Under keyID lim)
    (hsums : SumsFit keyID (m.reserve keyID t₀ (check lim)).1 before) :
    let m₀ := (m.reserve keyID t₀ (check lim)).1.after (before.map Op.storeCall)
    let (m₁, snapshot) := usage m₀ keyID lim t₀
    ∃ r, snapshot.retryAfter t₀ = some r ∧ t₀ < r ∧
      ∀ (ops : List Op) (t : Time), t₀ ≤ t → t < r →
        (∀ op ∈ ops, t₀ ≤ op.now ∧ op.now ≤ t ∧ op.Under keyID lim) → SumsFit keyID m₁ ops →
          ((m₁.after (ops.map Op.storeCall)).reserve keyID t (check lim)).2.isSome := by
  intro m₀
  obtain ⟨g, hdenies⟩ := reserve_isSome_iff.mp hdenied
  -- the counter that denied the request goes on to do so until its window is over
  have hat : g.Denies lim (m₀.reading keyID g (windowStart g.window t₀)) := by
    refine Gauge.Denies.after ?_ (fun op hop ↦ ?_) hkey (fun op hop ↦ (hbefore op hop).2) hsums
    · rwa [reading_reserve_of_denied hdenied rfl]
    · rw [(hbefore op hop).1]
  obtain ⟨r, hr, hafter, hreset⟩ :=
    Snapshot.retryAfter_of_mem (lt_windowReset g.window t₀) (windowReset_mem_atLimit hat)
  refine ⟨r, hr, hafter, fun ops t hle hlt hops hfits ↦ ?_⟩
  have hwindow {t' : Time} (hfrom : t₀ ≤ t') (hto : t' ≤ t) :
      windowStart g.window t' = windowStart g.window t₀ :=
    windowStart_of_lt_windowReset hfrom ((hto.trans_lt hlt).trans_le hreset)
  refine reserve_isSome_iff.mpr ⟨g, ?_⟩
  rw [hwindow hle le_rfl]
  refine Gauge.Denies.after ?_ (fun op hop ↦ ?_) hkey (fun op hop ↦ (hops op hop).2.2) hfits
  · have hsame : (m₀.get keyID t₀).1.reading keyID g (windowStart g.window t₀) =
        m₀.reading keyID g (windowStart g.window t₀) := reading_get keyID rfl
    exact hsame.symm ▸ hat
  · exact hwindow (hops op hop).1 (hops op hop).2.1

def oneRequest : CounterStore := fun _ ↦ some { minuteStart := 0, minuteRequests := 1, dayStart := 0 }

/-- The second request of a minute is told to come back at the end of the minute, and a third
one before that is denied, tokens of the first being recorded in between. -/
theorem retry_hint_sound_oneRequest :
    let m₀ := (oneRequest.reserve "key" second (check { rpm := 1 })).1
    let (m₁, snapshot) := usage m₀ "key" { rpm := 1 } second
    snapshot.retryAfter second = some minute ∧
      ((m₁.after [.addTokens "key" (2 * second) 7]).reserve "key" (3 * second)
        (check { rpm := 1 })).2.isSome := by
  obtain ⟨r, hr, -, hdenied⟩ := retry_hint_sound oneRequest "key" { rpm := 1 } second (by decide)
    (by decide) [] (by simp) trivial
  have hminute : some minute = some r := Eq.trans (by decide +kernel) hr
  cases hminute
  refine ⟨hr, hdenied [.addTokens "key" (2 * second) 7] (3 * second) (by decide) (by decide) ?_ ?_⟩
  · simp [Op.now, Op.Under, second]
  · exact ⟨fun _ w ↦ by cases w <;> decide, trivial⟩

end AgentGpu.Quota
