import AgentGpu.Quota.Accounting
import Mathlib.Data.List.Chain

namespace AgentGpu.Quota

open Foundation

inductive TokenOp
  | addTokens (now : Time) (n : UInt64)
  | reserve (now : Time) (lim : Limits)

namespace TokenOp

def now : TokenOp → Time
  | .addTokens now _ | .reserve now _ => now

def added : TokenOp → ℕ
  | .addTokens _ n => n.toNat
  | .reserve _ _ => 0

end TokenOp

namespace Window

def quotaType : Window → String
  | .minute => "tpm"
  | .day => "daily_tokens"
  | .month => "monthly_tokens"

def budget (lim : Limits) : Window → UInt64
  | .minute => lim.tpm
  | .day => lim.dailyTokens
  | .month => lim.monthlyTokens

end Window

structure Entry where
  usage : UInt64
  request : Option (Limits × Option Denial)
  deriving DecidableEq

namespace Entry

def exhausted (e : Entry) (w : Window) (lim : Limits) : Prop :=
  ∃ d : Denial, e.request = some (lim, some d) ∧ d.quotaType = w.quotaType

end Entry

namespace CounterStore

variable (keyID : String) (w : Window)

def usage (m : CounterStore) (start : Time) : UInt64 := (((m.lookup keyID).gauge (.tokens w)).roll start).value

def applyToken (m : CounterStore) : TokenOp → CounterStore × Option (Limits × Option Denial)
  | .addTokens now n => (m.addTokens keyID now n, none)
  | .reserve now lim =>
    let r := m.reserve keyID now (check lim)
    (r.1, some (lim, r.2))

def ledger (start : Time) : CounterStore → List TokenOp → List Entry
  | _, [] => []
  | m, op :: ops =>
    let r := m.applyToken keyID op
    ⟨r.1.usage keyID w start, r.2⟩ :: ledger start r.1 ops

end CounterStore

/-- The counter never decreases, and after a denial for the budget of the window no request
under the same or a lower budget is admitted. -/
structure StaysExhausted (w : Window) (used : UInt64) (entries : List Entry) : Prop where
  monotone : List.IsChain (· ≤ ·) (used :: entries.map Entry.usage)
  denials : entries.Pairwise fun e e' ↦ ∀ lim lim', e.exhausted w lim → w.budget lim' ≠ 0 →
    w.budget lim' ≤ w.budget lim → e'.request ≠ some (lim', none)

section Steps

variable {m : CounterStore} {keyID : String} {w : Window} {start now : Time} {lim : Limits}

theorem usage_addTokens (hstart : windowStart w now = start) (n : UInt64) :
    (m.addTokens keyID now n).usage keyID w start = m.usage keyID w start + n := by
  subst hstart
  rw [CounterStore.usage, CounterStore.addTokens_lookup, Tally.roll_of_eq]
  · rw [Counters.gauge_roll]
    rfl
  · exact (m.lookup keyID).gauge_roll_window now w

theorem usage_reserve (hstart : windowStart w now = start) (check : Counters → Option Denial) :
    (m.reserve keyID now check).1.usage keyID w start = m.usage keyID w start := by
  subst hstart
  have hroll : (((m.lookup keyID).roll now).gauge (.tokens w)).roll (windowStart w now) =
      ((m.lookup keyID).gauge (.tokens w)).roll (windowStart w now) := by
    rw [Tally.roll_of_eq ((m.lookup keyID).gauge_roll_window now w), Counters.gauge_roll]
    rfl
  rw [CounterStore.usage, CounterStore.usage, ← hroll]
  simp only [CounterStore.reserve]
  split <;> rw [CounterStore.lookup_put_self]
  cases w <;> rfl

theorem reserve_snd (check : Counters → Option Denial) :
    (m.reserve keyID now check).2 = check ((m.lookup keyID).roll now) := by
  simp only [CounterStore.reserve]
  split
  case h_1 d hd => exact hd.symm
  case h_2 hd => exact hd.symm

theorem usage_applyToken {op : TokenOp} (hstart : windowStart w op.now = start) :
    ((m.applyToken keyID op).1.usage keyID w start).toNat =
      ((m.usage keyID w start).toNat + op.added) % 2 ^ 64 := by
  cases op with
  | addTokens now n =>
    have hadd : (m.addTokens keyID now n).usage keyID w start = m.usage keyID w start + n :=
      usage_addTokens hstart n
    exact (congrArg UInt64.toNat hadd).trans (UInt64.toNat_add _ _)
  | reserve now lim =>
    have hkept : (m.reserve keyID now (check lim)).1.usage keyID w start = m.usage keyID w start :=
      usage_reserve hstart (check lim)
    rw [TokenOp.added, Nat.add_zero, Nat.mod_eq_of_lt (UInt64.toNat_lt _)]
    exact congrArg UInt64.toNat hkept

theorem added_lt (op : TokenOp) : op.added < 2 ^ 64 := by
  cases op with
  | addTokens now n => exact n.toNat_lt
  | reserve now lim => exact Nat.two_pow_pos 64

theorem usage_le_applyToken {op : TokenOp} (hstart : windowStart w op.now = start) :
    m.usage keyID w start ≤ (m.applyToken keyID op).1.usage keyID w start ↔
      (m.usage keyID w start).toNat + op.added < 2 ^ 64 := by
  have hadded := added_lt op
  have hused := (m.usage keyID w start).toNat_lt
  rw [UInt64.le_iff_toNat_le, usage_applyToken hstart]
  omega

theorem gauge_roll_value (hstart : windowStart w now = start) :
    (((m.lookup keyID).roll now).gauge (.tokens w)).value = m.usage keyID w start := by
  subst hstart
  rw [Counters.gauge_roll]
  rfl

theorem budget_le_of_check {c : Counters} {d : Denial} (h : check lim c = some d)
    (hw : d.quotaType = w.quotaType) : w.budget lim ≤ (c.gauge (.tokens w)).value := by
  unfold check at h
  split_ifs at h <;> cases h <;> cases w <;> simp_all [Window.quotaType, Window.budget, Counters.gauge]

theorem lt_budget_of_check {c : Counters} (h : check lim c = none) (hw : w.budget lim ≠ 0) :
    (c.gauge (.tokens w)).value < w.budget lim := by
  obtain ⟨-, hminute, hday, hmonth⟩ := (check_eq_none_iff lim c).mp h
  cases w with
  | minute => exact hminute.resolve_left hw
  | day => exact hday.resolve_left hw
  | month => exact hmonth.resolve_left hw

end Steps

section Runs

variable {m : CounterStore} {keyID : String} {w : Window} {start : Time} {ops : List TokenOp}

theorem isChain_ledger (hstart : ∀ op ∈ ops, windowStart w op.now = start) :
    List.IsChain (· ≤ ·) (m.usage keyID w start ::
      (CounterStore.ledger keyID w start m ops).map Entry.usage) ↔
      (m.usage keyID w start).toNat + (ops.map TokenOp.added).sum < 2 ^ 64 := by
  induction ops generalizing m with
  | nil => simpa [CounterStore.ledger] using (m.usage keyID w start).toNat_lt
  | cons op ops ih =>
    obtain ⟨hop, hops⟩ := List.forall_mem_cons.mp hstart
    rw [CounterStore.ledger, List.map_cons, List.isChain_cons_cons, usage_le_applyToken hop, ih hops,
      usage_applyToken hop, List.map_cons, List.sum_cons]
    constructor
    · rintro ⟨hfits, hrest⟩
      rw [Nat.mod_eq_of_lt hfits] at hrest
      omega
    · intro htotal
      have hfits : (m.usage keyID w start).toNat + op.added < 2 ^ 64 := by omega
      rw [Nat.mod_eq_of_lt hfits]
      omega

theorem not_admitted_of_le {op : TokenOp} {lim : Limits} (hstart : windowStart w op.now = start)
    (hpos : w.budget lim ≠ 0) (hused : w.budget lim ≤ m.usage keyID w start) :
    (m.applyToken keyID op).2 ≠ some (lim, none) := by
  cases op with
  | addTokens now n => exact nofun
  | reserve now lim' =>
    intro hadmitted
    obtain ⟨rfl, hnone⟩ := Prod.mk.inj (Option.some.inj hadmitted)
    rw [reserve_snd] at hnone
    have hvalue : _ = m.usage keyID w start := gauge_roll_value hstart
    exact UInt64.not_le.mpr (hvalue ▸ lt_budget_of_check hnone hpos) hused

theorem le_usage_of_exhausted {op : TokenOp} {lim : Limits} (hstart : windowStart w op.now = start)
    (h : Entry.exhausted ⟨(m.applyToken keyID op).1.usage keyID w start, (m.applyToken keyID op).2⟩ w lim) :
    w.budget lim ≤ m.usage keyID w start := by
  obtain ⟨d, hrequest, hw⟩ := h
  cases op with
  | addTokens now n => cases hrequest
  | reserve now lim' =>
    obtain ⟨rfl, hdenied⟩ := Prod.mk.inj (Option.some.inj hrequest)
    rw [reserve_snd] at hdenied
    have hvalue : _ = m.usage keyID w start := gauge_roll_value hstart
    exact hvalue ▸ budget_le_of_check hdenied hw

theorem refused_of_le {lim : Limits} (hstart : ∀ op ∈ ops, windowStart w op.now = start)
    (htotal : (m.usage keyID w start).toNat + (ops.map TokenOp.added).sum < 2 ^ 64)
    (hpos : w.budget lim ≠ 0) (hused : w.budget lim ≤ m.usage keyID w start) :
    ∀ e ∈ CounterStore.ledger keyID w start m ops, e.request ≠ some (lim, none) := by
  induction ops generalizing m with
  | nil => exact List.forall_mem_nil _
  | cons op ops ih =>
    obtain ⟨hop, hops⟩ := List.forall_mem_cons.mp hstart
    rw [List.map_cons, List.sum_cons] at htotal
    have hfits : (m.usage keyID w start).toNat + op.added < 2 ^ 64 := by omega
    refine List.forall_mem_cons.mpr ⟨not_admitted_of_le hop hpos hused, ih hops ?_ ?_⟩
    · rw [usage_applyToken hop, Nat.mod_eq_of_lt hfits]
      omega
    · exact UInt64.le_trans hused ((usage_le_applyToken hop).mpr hfits)

theorem denials_ledger (hstart : ∀ op ∈ ops, windowStart w op.now = start)
    (htotal : (m.usage keyID w start).toNat + (ops.map TokenOp.added).sum < 2 ^ 64) :
    (CounterStore.ledger keyID w start m ops).Pairwise fun e e' ↦ ∀ lim lim', e.exhausted w lim →
      w.budget lim' ≠ 0 → w.budget lim' ≤ w.budget lim → e'.request ≠ some (lim', none) := by
  induction ops generalizing m with
  | nil => exact List.Pairwise.nil
  | cons op ops ih =>
    obtain ⟨hop, hops⟩ := List.forall_mem_cons.mp hstart
    rw [List.map_cons, List.sum_cons] at htotal
    have hfits : (m.usage keyID w start).toNat + op.added < 2 ^ 64 := by omega
    have hrest : ((m.applyToken keyID op).1.usage keyID w start).toNat + (ops.map TokenOp.added).sum <
        2 ^ 64 := by
      rw [usage_applyToken hop, Nat.mod_eq_of_lt hfits]
      omega
    refine List.pairwise_cons.mpr ⟨fun e' he' lim lim' hexhausted hpos hle ↦ ?_, ih hops hrest⟩
    refine refused_of_le hops hrest hpos ?_ e' he'
    exact UInt64.le_trans (UInt64.le_trans hle (le_usage_of_exhausted hop hexhausted))
      ((usage_le_applyToken hop).mpr hfits)

end Runs

/-- A budget stays used up until its window ends exactly as long as the tokens of the window fit
the counter. -/
theorem budgets_stay_exhausted_iff (m : CounterStore) (keyID : String) (w : Window) (start : Time)
    (ops : List TokenOp) (hstart : ∀ op ∈ ops, windowStart w op.now = start) :
    StaysExhausted w (m.usage keyID w start) (CounterStore.ledger keyID w start m ops) ↔
      (m.usage keyID w start).toNat + (ops.map TokenOp.added).sum < 2 ^ 64 :=
  ⟨fun h ↦ (isChain_ledger hstart).mp h.monotone, fun htotal ↦
    ⟨(isChain_ledger hstart).mpr htotal, denials_ledger hstart htotal⟩⟩

/-- A budget of one token is used up, and a second request is denied as well. -/
theorem budgets_stay_exhausted_iff_oneToken :
    StaysExhausted .minute 0 (CounterStore.ledger "key" .minute 0 (fun _ ↦ none)
      [.addTokens 0 1, .reserve 5 { tpm := 1 }, .reserve 7 { tpm := 1 }]) :=
  (budgets_stay_exhausted_iff (fun _ ↦ none) "key" .minute 0 _ (by decide)).mpr (by decide)

/-- Two reported counts wrap the counter: the budget that a request was denied for is free
again in the same minute. -/
theorem wrapped_counter_admits :
    CounterStore.ledger "key" .minute 0 (fun _ ↦ none)
        [.addTokens 0 18446744073709551615, .reserve 5 { tpm := 1 }, .addTokens 6 1,
          .reserve 7 { tpm := 1 }] =
      [⟨18446744073709551615, none⟩,
        ⟨18446744073709551615, some ({ tpm := 1 }, some ⟨"tpm", 18446744073709551615, 1⟩)⟩,
        ⟨0, none⟩, ⟨0, some ({ tpm := 1 }, none)⟩] ∧
      ¬StaysExhausted .minute 0 (CounterStore.ledger "key" .minute 0 (fun _ ↦ none)
        [.addTokens 0 18446744073709551615, .reserve 5 { tpm := 1 }, .addTokens 6 1,
          .reserve 7 { tpm := 1 }]) := by
  refine ⟨by decide +kernel, fun h ↦ ?_⟩
  have hchain := h.monotone
  revert hchain
  decide +kernel

end AgentGpu.Quota
