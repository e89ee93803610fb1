import AgentGpu.Foundation.Windows
import AgentGpu.Quota.Engine
import AgentGpu.Quota.Windows
import Mathlib.Data.UInt

namespace AgentGpu.Quota

open Foundation

inductive Gauge
  | requests
  | tokens (w : Window)

def Gauge.window : Gauge → Window
  | .requests => .minute
  | .tokens w => w

namespace Counters

variable (c : Counters)

def gauge : Gauge → Tally Time UInt64
  | .requests => ⟨c.minuteStart, c.minuteRequests⟩
  | .tokens .minute => ⟨c.minuteStart, c.minuteTokens⟩
  | .tokens .day => ⟨c.dayStart, c.dayTokens⟩
  | .tokens .month => ⟨c.monthStart, c.monthTokens⟩

def countRequest : Counters := { c with minuteRequests := c.minuteRequests + 1 }

theorem ext_gauge {c c' : Counters} (h : ∀ g, c.gauge g = c'.gauge g) : c = c' := by
  have hrequests := h .requests
  have hminute := h (.tokens .minute)
  have hday := h (.tokens .day)
  have hmonth := h (.tokens .month)
  cases c
  cases c'
  simp_all [gauge]

theorem gauge_roll (now : Time) (g : Gauge) :
    (c.roll now).gauge g = (c.gauge g).roll (windowStart g.window now) := by
  have hminute : (c.rollMinute now).gauge g =
      if g.window = .minute then (c.gauge g).roll (windowStart .minute now) else c.gauge g := by
    by_cases h : c.minuteStart = windowStart .minute now <;>
      rcases g with _ | _ | _ | _ <;> simp [rollMinute, gauge, Gauge.window, Tally.roll, h]
  have hday (c : Counters) : (c.rollDay now).gauge g =
      if g.window = .day then (c.gauge g).roll (windowStart .day now) else c.gauge g := by
    by_cases h : c.dayStart = windowStart .day now <;>
      rcases g with _ | _ | _ | _ <;> simp [rollDay, gauge, Gauge.window, Tally.roll, h]
  have hmonth (c : Counters) : (c.rollMonth now).gauge g =
      if g.window = .month then (c.gauge g).roll (windowStart .month now) else c.gauge g := by
    by_cases h : c.monthStart = windowStart .month now <;>
      rcases g with _ | _ | _ | _ <;> simp [rollMonth, gauge, Gauge.window, Tally.roll, h]
  rw [roll, hmonth, hday, hminute]
  rcases g with _ | _ | _ | _ <;> rfl

theorem gauge_roll_window (now : Time) (w : Window) :
    ((c.roll now).gauge (.tokens w)).window = windowStart w now := by
  rw [gauge_roll, Tally.roll_window]
  rfl

end Counters

namespace CounterStore

variable (m : CounterStore) (keyID : String) (now : Time) (n : UInt64)

theorem addTokens_lookup (w : Window) : ((m.addTokens keyID now n).lookup keyID).gauge (.tokens w) =
    (((m.lookup keyID).roll now).gauge (.tokens w)).add n := by
  rw [addTokens, lookup_put_self]
  cases w <;> rfl

end CounterStore

theorem check_eq_none_iff (lim : Limits) (c : Counters) :
    check lim c = none ↔ (lim.rpm = 0 ∨ c.minuteRequests + 1 ≤ lim.rpm) ∧
      (lim.tpm = 0 ∨ c.minuteTokens < lim.tpm) ∧
      (lim.dailyTokens = 0 ∨ c.dayTokens < lim.dailyTokens) ∧
      (lim.monthlyTokens = 0 ∨ c.monthTokens < lim.monthlyTokens) := by
  unfold check
  split_ifs <;> simp_all [or_iff_not_imp_left]

theorem checkGlobal_eq_none_iff (lim : Limits) (c : Counters) :
    checkGlobal lim c = none ↔ (lim.rpm = 0 ∨ c.minuteRequests + 1 ≤ lim.rpm) ∧
      (lim.tpm = 0 ∨ c.minuteTokens < lim.tpm) := by
  unfold checkGlobal
  split_ifs <;> simp_all [or_iff_not_imp_left]

/-- A call on the counter store, with the clock reading and the limits its caller took
before. `reserve` and `reserveGlobal` are the calls of `CheckAndReserve` and
`CheckAndReserveGlobal`. -/
inductive Op
  | reserve (keyID : String) (lim : Limits) (now : Time)
  | reserveGlobal (lim : Limits) (now : Time)
  | addTokens (keyID : String) (now : Time) (n : UInt64)
  | get (keyID : String) (now : Time)
  | checkpoint (now : Time)

namespace Op

def now : Op → Time
  | .reserve _ _ t | .reserveGlobal _ t | .addTokens _ t _ | .get _ t | .checkpoint t => t

def keyID? : Op → Option String
  | .reserve keyID .. | .addTokens keyID .. | .get keyID _ => some keyID
  | .reserveGlobal .. => some globalKeyID
  | .checkpoint _ => none

def instr : Op → Instr
  | .reserve keyID lim now => .reserve keyID lim now
  | .reserveGlobal lim now => .reserveGlobal lim now
  | .addTokens keyID now n => .addTokens keyID now n
  | .get keyID now => .get keyID now
  | .checkpoint now => .checkpoint now

end Op

theorem toNat_sum (l : List UInt64) : l.sum.toNat = (l.map UInt64.toNat).sum % 2 ^ 64 := by
  induction l with
  | nil => rfl
  | cons n l ih => simp [UInt64.toNat_add, ih]

/-- The counter store next to what really happened: the admitted requests and the tokens
added so far, oldest first. -/
structure Books where
  store : CounterStore := fun _ ↦ none
  admitted : List (String × Time) := []
  spent : List (String × Time × UInt64) := []

namespace Books

def reserve (b : Books) (keyID : String) (now : Time) (check : Counters → Option Denial) :
    Books × Option Denial :=
  match b.store.reserve keyID now check with
  | (store, some d) => ({ b with store := store }, some d)
  | (store, none) => ({ b with store := store, admitted := b.admitted ++ [(keyID, now)] }, none)

def apply (b : Books) : Op → Books × Option Denial
  | .reserve keyID lim now => b.reserve keyID now (check lim)
  | .reserveGlobal lim now => b.reserve globalKeyID now (checkGlobal lim)
  | .addTokens keyID now n =>
    ({ b with
      store := b.store.addTokens keyID now n
      spent := b.spent ++ [(keyID, now, n)] }, none)
  | .get keyID now => ({ b with store := (b.store.get keyID now).1 }, none)
  | .checkpoint now => ({ b with store := b.store.rollAll now }, none)

def run (ops : List Op) : Books := ops.foldl (fun b op ↦ (b.apply op).1) {}

section Reserve

variable {b : Books} {keyID : String} {now : Time} {check : Counters → Option Denial}

theorem reserve_of_denied {d : Denial} (h : check ((b.store.lookup keyID).roll now) = some d) :
    b.reserve keyID now check =
      ({ b with store := b.store.put keyID ((b.store.lookup keyID).roll now) }, some d) := by
  simp [reserve, CounterStore.reserve, h]

theorem reserve_of_admitted (h : check ((b.store.lookup keyID).roll now) = none) :
    b.reserve keyID now check =
      ({ b with
        store := b.store.put keyID ((b.store.lookup keyID).roll now).countRequest
        admitted := b.admitted ++ [(keyID, now)] }, none) := by
  simp [reserve, CounterStore.reserve, Counters.countRequest, h]

theorem reserve_none_iff :
    (b.reserve keyID now check).2 = none ↔ check ((b.store.lookup keyID).roll now) = none := by
  cases h : check ((b.store.lookup keyID).roll now) with
  | none => simp [reserve_of_admitted h]
  | some d => simp [reserve_of_denied h]

end Reserve

theorem exec_instr (b : Books) (s : Engine) (op : Op) (h : s.store = b.store) :
    (exec s op.instr .go).map (·.shared.store) = some (b.apply op).1.store := by
  have hreserve (keyID : String) (now : Time) (check : Counters → Option Denial) :
      (s.reserve keyID now check).store = (b.reserve keyID now check).1.store := by
    cases hd : check ((b.store.lookup keyID).roll now) with
    | none => simp [reserve_of_admitted hd, Engine.reserve, CounterStore.reserve, h, hd,
        Counters.countRequest]
    | some d => simp [reserve_of_denied hd, Engine.reserve, CounterStore.reserve, h, hd]
  cases op with
  | reserve keyID lim now => exact congrArg some (hreserve ..)
  | reserveGlobal lim now => exact congrArg some (hreserve ..)
  | _ => simp [Op.instr, exec, apply, h]

def events (b : Books) (keyID : String) : Gauge → List (Time × UInt64)
  | .requests => (b.admitted.filter (·.1 = keyID)).map fun a ↦ (a.2, 1)
  | .tokens _ => (b.spent.filter (·.1 = keyID)).map Prod.snd

theorem events_admitted (b : Books) (store : CounterStore) (keyID : String) (now : Time) :
    ({ b with store := store, admitted := b.admitted ++ [(keyID, now)] } : Books).events keyID
      .requests = b.events keyID .requests ++ [(now, 1)] := by
  simp [events, List.filter_append]

theorem events_spent (b : Books) (store : CounterStore) (keyID : String) (now : Time)
    (n : UInt64) (w : Window) :
    ({ b with store := store, spent := b.spent ++ [(keyID, now, n)] } : Books).events keyID
      (.tokens w) = b.events keyID (.tokens w) ++ [(now, n)] := by
  simp [events, List.filter_append]

def requestsIn (b : Books) (keyID : String) (t : Time) : ℕ :=
  b.admitted.countP fun a ↦ a.1 = keyID ∧ windowStart .minute a.2 = windowStart .minute t

def tokensIn (b : Books) (w : Window) (keyID : String) (t : Time) : ℕ :=
  ((b.spent.filter fun a ↦ a.1 = keyID ∧ windowStart w a.2.1 = windowStart w t).map
    (·.2.2.toNat)).sum

def Balanced (b : Books) (t : Time) : Prop :=
  ∀ keyID g, ∃ last ≤ t, Tally.Exact (windowStart g.window) (b.events keyID g) last
    ((b.store.lookup keyID).gauge g)

variable {b : Books} {t : Time}

theorem Balanced.mono (hb : b.Balanced t) {now : Time} (hle : t ≤ now) : b.Balanced now := by
  intro keyID g
  obtain ⟨last, hlast, hexact⟩ := hb keyID g
  exact ⟨last, hlast.trans hle, hexact⟩

theorem Balanced.rolled (hb : b.Balanced t) {now : Time} (hle : t ≤ now) (keyID : String)
    (g : Gauge) : Tally.Exact (windowStart g.window) (b.events keyID g) now
      (((b.store.lookup keyID).roll now).gauge g) := by
  obtain ⟨last, hlast, hexact⟩ := hb keyID g
  rw [Counters.gauge_roll]
  exact hexact.roll (windowStart_mono _) (hlast.trans hle)

theorem Balanced.put (hb : b.Balanced t) {b' : Books} {keyID : String} {c : Counters}
    {now : Time} (hle : t ≤ now) (hstore : b'.store = b.store.put keyID c)
    (hother : ∀ k ≠ keyID, ∀ g, b'.events k g = b.events k g)
    (hexact : ∀ g, Tally.Exact (windowStart g.window) (b'.events keyID g) now (c.gauge g)) :
    b'.Balanced now := by
  intro k g
  rw [hstore]
  by_cases hk : k = keyID
  · subst hk
    rw [CounterStore.lookup_put_self]
    exact ⟨now, le_rfl, hexact g⟩
  · rw [CounterStore.lookup_put_of_ne _ _ hk, hother k hk]
    exact hb.mono hle k g

theorem Balanced.reserve (hb : b.Balanced t) (keyID : String) {now : Time} (hle : t ≤ now)
    (check : Counters → Option Denial) : (b.reserve keyID now check).1.Balanced now := by
  cases hd : check ((b.store.lookup keyID).roll now) with
  | some d =>
    rw [reserve_of_denied hd]
    exact hb.put hle rfl (fun _ _ _ ↦ rfl) (hb.rolled hle keyID)
  | none =>
    rw [reserve_of_admitted hd]
    refine hb.put hle rfl ?_ ?_
    · intro k hk g
      cases g with
      | requests => simp [events, List.filter_append, Ne.symm hk]
      | tokens w => rfl
    · intro g
      have hrolled := hb.rolled hle keyID g
      cases g with
      | requests =>
        rw [events_admitted]
        exact hrolled.add (by simp [Counters.gauge, Gauge.window]) 1
      | tokens w => cases w <;> exact hrolled

theorem Balanced.apply (hb : b.Balanced t) (op : Op) (hle : t ≤ op.now) :
    (b.apply op).1.Balanced op.now := by
  cases op with
  | reserve keyID lim now => exact hb.reserve keyID hle (check lim)
  | reserveGlobal lim now => exact hb.reserve globalKeyID hle (checkGlobal lim)
  | addTokens keyID now n =>
    refine hb.put hle rfl ?_ ?_
    · intro k hk g
      cases g with
      | requests => rfl
      | tokens w => simp [Books.apply, events, List.filter_append, Ne.symm hk]
    · intro g
      have hrolled := hb.rolled hle keyID g
      cases g with
      | requests => exact hrolled
      | tokens w =>
        have hadd := hrolled.add ((b.store.lookup keyID).gauge_roll_window now w) n
        rw [Books.apply, events_spent]
        cases w <;> exact hadd
  | get keyID now => exact hb.put hle rfl (fun _ _ _ ↦ rfl) (hb.rolled hle keyID)
  | checkpoint now =>
    intro k g
    have hlookup : (b.store.rollAll now).lookup k = (b.store.lookup k).roll now ∨
        (b.store.rollAll now).lookup k = b.store.lookup k := by
      cases hk : b.store k <;> simp [CounterStore.rollAll, CounterStore.lookup, hk]
    rcases hlookup with hrolled | hkept
    · refine ⟨now, le_rfl, ?_⟩
      rw [Books.apply, hrolled]
      exact hb.rolled hle k g
    · rw [Books.apply, hkept]
      exact hb.mono hle k g

theorem balanced_nil (t : Time) : ({} : Books).Balanced t := by
  intro keyID g
  refine ⟨t, le_rfl, ?_⟩
  rcases g with _ | _ | _ | _ <;> exact Tally.Exact.of_nil t zeroTime

theorem balanced_run (ops : List Op) (hsorted : ops.Pairwise (·.now ≤ ·.now)) {t : Time}
    (hpast : ∀ op ∈ ops, op.now ≤ t) : (run ops).Balanced t := by
  induction ops using List.reverseRecOn generalizing t with
  | nil => exact balanced_nil t
  | append_singleton ops op ih =>
    rw [List.pairwise_append] at hsorted
    have hb : (run ops).Balanced op.now :=
      ih hsorted.1 fun o ho ↦ hsorted.2.2 o ho op (List.mem_singleton_self op)
    rw [run, List.foldl_append]
    exact (hb.apply op le_rfl).mono (hpast op (by simp))

theorem Balanced.gauge_eq (hb : b.Balanced t) {now : Time} (hle : t ≤ now) (keyID : String)
    (g : Gauge) : ((b.store.lookup keyID).roll now).gauge g =
      ⟨windowStart g.window now,
        Tally.total (windowStart g.window) (b.events keyID g) (windowStart g.window now)⟩ := by
  have hwindow : (((b.store.lookup keyID).roll now).gauge g).window =
      windowStart g.window now := by
    rw [Counters.gauge_roll, Tally.roll_window]
  have hvalue := (hb.rolled hle keyID g).value
  rw [hwindow] at hvalue
  exact congrArg₂ Tally.mk hwindow hvalue

theorem Balanced.roll_eq {b' : Books} (hb : b.Balanced t) (hb' : b'.Balanced t)
    {keyID : String} (hevents : ∀ g, b'.events keyID g = b.events keyID g) {now : Time}
    (hle : t ≤ now) : (b'.store.lookup keyID).roll now = (b.store.lookup keyID).roll now := by
  apply Counters.ext_gauge
  intro g
  rw [hb.gauge_eq hle, hb'.gauge_eq hle, hevents]

theorem events_reserve {k keyID : String} {now : Time} {check : Counters → Option Denial}
    (h : (b.reserve k now check).2.isSome ∨ k ≠ keyID) (g : Gauge) :
    (b.reserve k now check).1.events keyID g = b.events keyID g := by
  cases hd : check ((b.store.lookup k).roll now) with
  | some d =>
    rw [reserve_of_denied hd]
    rfl
  | none =>
    rw [reserve_of_admitted hd] at h ⊢
    have hk : k ≠ keyID := h.resolve_left (by simp)
    cases g with
    | requests => simp [events, List.filter_append, hk]
    | tokens w => rfl

theorem events_apply {op : Op} {keyID : String}
    (h : (b.apply op).2.isSome ∨ op.keyID? ≠ some keyID) (g : Gauge) :
    (b.apply op).1.events keyID g = b.events keyID g := by
  cases op with
  | reserve | reserveGlobal => exact events_reserve (h.imp_right fun hk ↦ mt (congrArg some) hk) g
  | addTokens k now n =>
    have hk : k ≠ keyID := by
      simpa [Books.apply, Op.keyID?] using h
    cases g with
    | requests => rfl
    | tokens w => simp [Books.apply, events, List.filter_append, hk]
  | get | checkpoint => rfl

theorem toNat_total_requests (b : Books) (keyID : String) (now : Time) :
    (Tally.total (windowStart .minute) (b.events keyID .requests)
      (windowStart .minute now)).toNat = b.requestsIn keyID now % 2 ^ 64 := by
  rw [Tally.total, toNat_sum, requestsIn, List.countP_eq_length_filter]
  simp [events, List.filter_map, List.filter_filter, Function.comp_def, Bool.and_comm]

theorem toNat_total_tokens (b : Books) (w : Window) (keyID : String) (now : Time) :
    (Tally.total (windowStart w) (b.events keyID (.tokens w)) (windowStart w now)).toNat =
      b.tokensIn w keyID now % 2 ^ 64 := by
  rw [Tally.total, toNat_sum, tokensIn]
  simp [events, List.filter_map, List.filter_filter, Function.comp_def, Bool.and_comm]

theorem Balanced.requests_eq (hb : b.Balanced t) {keyID : String} {now : Time} (hle : t ≤ now)
    (hsum : b.requestsIn keyID now < 2 ^ 64) :
    ((b.store.lookup keyID).roll now).minuteRequests.toNat = b.requestsIn keyID now := by
  have hvalue := congrArg Tally.value (hb.gauge_eq hle keyID .requests)
  rw [← Nat.mod_eq_of_lt hsum, ← toNat_total_requests]
  exact congrArg UInt64.toNat hvalue

theorem Balanced.tokens_eq (hb : b.Balanced t) {keyID : String} {now : Time} (hle : t ≤ now)
    (w : Window) (hsum : b.tokensIn w keyID now < 2 ^ 64) :
    (((b.store.lookup keyID).roll now).gauge (.tokens w)).value.toNat =
      b.tokensIn w keyID now := by
  have hvalue := congrArg Tally.value (hb.gauge_eq hle keyID (.tokens w))
  rw [← Nat.mod_eq_of_lt hsum, ← toNat_total_tokens, hvalue]
  rfl

/-- Every call is exact about every key: its counters read what was admitted and added in
the current windows, a request is admitted exactly when the limits leave room for it, and
neither a denial nor a call about another key shows in the key's counters ever after. -/
theorem quota_accounting_exact (ops : List Op) (hsorted : ops.Pairwise (·.now ≤ ·.now))
    (keyID : String) (t : Time) (hpast : ∀ op ∈ ops, op.now ≤ t)
    (hrequests : (run ops).requestsIn keyID t + 1 < 2 ^ 64)
    (htokens : ∀ w, (run ops).tokensIn w keyID t < 2 ^ 64) :
    let b := run ops
    let c := (b.store.get keyID t).2
    (c.minuteRequests.toNat = b.requestsIn keyID t ∧
      c.minuteTokens.toNat = b.tokensIn .minute keyID t ∧
      c.dayTokens.toNat = b.tokensIn .day keyID t ∧
      c.monthTokens.toNat = b.tokensIn .month keyID t) ∧
    (∀ lim, (b.apply (.reserve keyID lim t)).2 = none ↔
      (lim.rpm = 0 ∨ b.requestsIn keyID t + 1 ≤ lim.rpm.toNat) ∧
      (lim.tpm = 0 ∨ b.tokensIn .minute keyID t < lim.tpm.toNat) ∧
      (lim.dailyTokens = 0 ∨ b.tokensIn .day keyID t < lim.dailyTokens.toNat) ∧
      (lim.monthlyTokens = 0 ∨ b.tokensIn .month keyID t < lim.monthlyTokens.toNat)) ∧
    (∀ lim, keyID = globalKeyID → ((b.apply (.reserveGlobal lim t)).2 = none ↔
      (lim.rpm = 0 ∨ b.requestsIn keyID t + 1 ≤ lim.rpm.toNat) ∧
      (lim.tpm = 0 ∨ b.tokensIn .minute keyID t < lim.tpm.toNat))) ∧
    ∀ op, t ≤ op.now → (b.apply op).2.isSome ∨ op.keyID? ≠ some keyID → ∀ later, op.now ≤ later →
      ((b.apply op).1.store.get keyID later).2 = (b.store.get keyID later).2 := by
  intro b c
  have hb : b.Balanced t := balanced_run ops hsorted hpast
  have hreq := hb.requests_eq le_rfl (Nat.lt_of_succ_lt hrequests)
  have hminute := hb.tokens_eq le_rfl .minute (htokens .minute)
  have hday := hb.tokens_eq le_rfl .day (htokens .day)
  have hmonth := hb.tokens_eq le_rfl .month (htokens .month)
  have hfits (n : UInt64) : c.minuteRequests + 1 ≤ n ↔ b.requestsIn keyID t + 1 ≤ n.toNat := by
    have hsucc : (c.minuteRequests + 1).toNat = b.requestsIn keyID t + 1 := by
      rw [UInt64.toNat_add, ← Nat.mod_eq_of_lt hrequests]
      exact congrArg (fun n ↦ (n + 1) % 2 ^ 64) hreq
    rw [UInt64.le_iff_toNat_le, hsucc]
  refine ⟨⟨hreq, hminute, hday, hmonth⟩, ?_, ?_, ?_⟩
  · intro lim
    rw [Books.apply, reserve_none_iff, check_eq_none_iff, ← hminute, ← hday, ← hmonth]
    simp only [← UInt64.lt_iff_toNat_lt, ← hfits]
    rfl
  · intro lim hglobal
    subst hglobal
    rw [Books.apply, reserve_none_iff, checkGlobal_eq_none_iff, ← hminute]
    simp only [← UInt64.lt_iff_toNat_lt, ← hfits]
    rfl
  · intro op hle hop later hlater
    have hkept := (hb.mono hle).roll_eq (hb.apply op hle) (events_apply hop) hlater
    exact hkept

def twoKeys : List Op :=
  [.reserve "a" { rpm := 1 } 0, .addTokens "a" second 5, .reserve "b" {} second,
    .reserveGlobal { rpm := 9 } second, .reserve "a" { rpm := 1 } second, .checkpoint second]

theorem quota_accounting_exact_twoKeys :
    ((run twoKeys).store.get "a" second).2.minuteRequests.toNat = 1 ∧
      ((run twoKeys).apply (.reserve "a" { rpm := 2, tpm := 6 } second)).2 = none := by
  have h := quota_accounting_exact twoKeys (by decide +kernel) "a" second (by decide +kernel)
    (by decide +kernel) (by intro w; cases w <;> decide +kernel)
  exact ⟨h.1.1.trans (by decide +kernel), (h.2.1 _).mpr (by decide +kernel)⟩

end Books

end AgentGpu.Quota
