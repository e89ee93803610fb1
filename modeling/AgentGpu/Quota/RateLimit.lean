import AgentGpu.Quota.Engine

namespace AgentGpu.Quota

open Foundation

/-- `n m` admitted requests in the minute that starts at `m` are accounted for by the
stored counters: none is in a later minute than theirs, and their own minute has counted
every one of its requests. -/
structure Tallied (n : Time → ℕ) (c : Counters) (L : ℕ) : Prop where
  later : ∀ m, c.minuteStart < m → n m = 0
  current : n c.minuteStart ≤ c.minuteRequests.toNat
  bound : ∀ m, n m ≤ L

namespace Tallied

variable {n : Time → ℕ} {c d : Counters} {L : ℕ}

theorem congr (h : Tallied n c L) (hs : d.minuteStart = c.minuteStart)
    (hr : d.minuteRequests = c.minuteRequests) : Tallied n d L := by
  refine ⟨fun m hm ↦ h.later m (hs ▸ hm), ?_, h.bound⟩
  rw [hs, hr]
  exact h.current

theorem roll (h : Tallied n c L) {now : Time} (hle : c.minuteStart ≤ windowStart .minute now) :
    Tallied n (c.roll now) L := by
  refine ⟨fun m hm ↦ h.later m ?_, ?_, h.bound⟩
  · rw [Counters.roll_minuteStart] at hm
    exact lt_of_le_of_lt hle hm
  · rw [Counters.roll_minuteStart, Counters.roll_minuteRequests]
    split_ifs with heq
    · rw [← heq]
      exact h.current
    · rw [h.later _ (lt_of_le_of_ne hle heq)]
      exact Nat.zero_le _

theorem count (h : Tallied n c L) (hmax : c.minuteRequests.toNat + 1 < 2 ^ 64)
    (hL : c.minuteRequests.toNat + 1 ≤ L) :
    Tallied (fun m ↦ n m + if m = c.minuteStart then 1 else 0)
      { c with minuteRequests := c.minuteRequests + 1 } L := by
  have hcur := h.current
  refine ⟨fun m hm ↦ ?_, ?_, fun m ↦ ?_⟩
  · have hm' : m ≠ c.minuteStart := fun heq ↦ absurd hm (by rw [heq]; exact lt_irrefl _)
    rw [h.later m hm, if_neg hm']
  · simp only [if_true, UInt64.toNat_add, UInt64.toNat_one, Nat.mod_eq_of_lt hmax]
    omega
  · have := h.bound m
    split_ifs with hm
    · rw [hm]
      omega
    · exact this

end Tallied

def admittedIn (s : Engine) (keyID : String) (m : Time) : ℕ :=
  s.admitted.countP fun a ↦ a.1 = keyID ∧ windowStart .minute a.2 = m

/-- The steps that keep a counter key's window moving forward: a locked section never finds
a later minute stored than the one it read, and a reservation never finds the 64-bit
request counter at its maximum. -/
def InOrder (keyID : String) (c : Config Engine Instr) (i : Instr) (_ : Choice) : Prop :=
  match i.touches keyID with
  | none => True
  | some now =>
    (c.shared.store.lookup keyID).minuteStart ≤ windowStart .minute now ∧
      (i.reserves → ((c.shared.store.lookup keyID).roll now).minuteRequests.toNat + 1 < 2 ^ 64)

instance (keyID : String) (c : Config Engine Instr) (i : Instr) (x : Choice) :
    Decidable (InOrder keyID c i x) := by
  delta InOrder
  cases i.touches keyID <;> infer_instance

@[simp] theorem admittedIn_mk (s : Engine) (store : CounterStore) (clock : Time) :
    admittedIn { s with store := store, clock := clock } = admittedIn s := rfl

theorem admittedIn_cons (s : Engine) (store : CounterStore) (key keyID : String) (now m : Time) :
    admittedIn { s with store := store, admitted := (key, now) :: s.admitted } keyID m =
      admittedIn s keyID m + if key = keyID ∧ windowStart .minute now = m then 1 else 0 := by
  simp only [admittedIn, List.countP_cons, decide_eq_true_eq]

section Reserve

variable {s : Engine} {key keyID : String} {now : Time} {check : Counters → Option Denial} {L : UInt64}

theorem Engine.reserve_of_ne (s : Engine) (now : Time) (check : Counters → Option Denial)
    (h : key ≠ keyID) :
    admittedIn (s.reserve key now check) keyID = admittedIn s keyID ∧
      (s.reserve key now check).store.lookup keyID = s.store.lookup keyID := by
  simp only [Engine.reserve, CounterStore.reserve]
  cases check ((s.store.lookup key).roll now) with
  | some d => exact ⟨rfl, CounterStore.lookup_put_of_ne _ _ h.symm⟩
  | none =>
    refine ⟨?_, CounterStore.lookup_put_of_ne _ _ h.symm⟩
    funext m
    rw [admittedIn_cons, if_neg (fun hm ↦ h hm.1), Nat.add_zero]

theorem Engine.reserve_tallied (h : Tallied (admittedIn s keyID) (s.store.lookup keyID) L.toNat)
    (hcheck : ∀ c, check c = none → c.minuteRequests + 1 ≤ L)
    (hle : (s.store.lookup keyID).minuteStart ≤ windowStart .minute now)
    (hmax : ((s.store.lookup keyID).roll now).minuteRequests.toNat + 1 < 2 ^ 64) :
    Tallied (admittedIn (s.reserve keyID now check) keyID)
      ((s.reserve keyID now check).store.lookup keyID) L.toNat := by
  have hroll := h.roll hle
  simp only [Engine.reserve, CounterStore.reserve]
  cases hc : check ((s.store.lookup keyID).roll now) with
  | some d => simpa using hroll
  | none =>
    have hL := UInt64.le_iff_toNat_le.mp (hcheck _ hc)
    rw [UInt64.toNat_add, UInt64.toNat_one, Nat.mod_eq_of_lt hmax] at hL
    have hcount := hroll.count hmax hL
    have hn (store : CounterStore) :
        admittedIn { s with store := store, admitted := (keyID, now) :: s.admitted } keyID = fun m ↦
          admittedIn s keyID m + if m = ((s.store.lookup keyID).roll now).minuteStart then 1 else 0 := by
      funext m
      rw [admittedIn_cons, Counters.roll_minuteStart]
      simp only [true_and, eq_comm]
    rw [hn, CounterStore.lookup_put_self]
    exact hcount

end Reserve

structure Limited (s₀ : Engine) (keyID : String) (s : Engine) : Prop where
  limits : s.rpmLimit = s₀.rpmLimit
  tallied : Tallied (admittedIn s keyID) (s.store.lookup keyID) (s₀.rpmLimit keyID).toNat

def CarriesLimit (s₀ : Engine) : Instr → Prop
  | .enter call => call.keyID? ≠ some globalKeyID
  | .reserve keyID lim _ => lim.rpm = s₀.rpmLimit keyID
  | .reserveGlobal lim _ => lim.rpm = s₀.rpmLimit globalKeyID
  | _ => True

theorem enter_carriesLimit {s₀ s : Engine} {call : Call} (h : s.rpmLimit = s₀.rpmLimit)
    (hcall : call.keyID? ≠ some globalKeyID) : ∀ i ∈ enter s call, CarriesLimit s₀ i := by
  intro i hi
  cases call with
  | checkAndReserve keyID =>
    obtain rfl := List.mem_singleton.mp hi
    have hne : keyID ≠ globalKeyID := fun heq ↦ hcall (by rw [heq]; rfl)
    rw [CarriesLimit, ← h, Engine.rpmLimit, if_neg hne]
  | checkAndReserveGlobal =>
    simp only [enter] at hi
    split_ifs at hi
    · cases hi
    · obtain rfl := List.mem_singleton.mp hi
      rw [CarriesLimit, ← h, Engine.rpmLimit, if_pos rfl]
  | recordTokens | recordGlobalTokens =>
    simp only [enter] at hi
    split_ifs at hi <;> simp_all [CarriesLimit]
  | usage | checkpoint => simp_all [enter, CarriesLimit]

@[simp] theorem Engine.reserve_rpmLimit (s : Engine) (key : String) (now : Time)
    (check : Counters → Option Denial) : (s.reserve key now check).rpmLimit = s.rpmLimit := by
  unfold Engine.reserve
  split <;> rfl

theorem Limited.roll {s₀ s : Engine} {key keyID : String} {d : Counters}
    (h : Limited s₀ keyID s) (now : Time)
    (hle : key = keyID → (s.store.lookup keyID).minuteStart ≤ windowStart .minute now)
    (hs : d.minuteStart = ((s.store.lookup key).roll now).minuteStart)
    (hr : d.minuteRequests = ((s.store.lookup key).roll now).minuteRequests) :
    Limited s₀ keyID { s with store := s.store.put key d } := by
  refine ⟨h.limits, ?_⟩
  rcases eq_or_ne key keyID with rfl | hne
  · simpa using (h.tallied.roll (hle rfl)).congr hs hr
  · simpa [CounterStore.lookup_put_of_ne _ _ hne.symm] using h.tallied

theorem Limited.reserve {s₀ s : Engine} {key keyID : String} {now : Time} {lim : Limits}
    {check : Counters → Option Denial} (h : Limited s₀ keyID s) (hpos : s₀.rpmLimit keyID ≠ 0)
    (hlim : lim.rpm = s₀.rpmLimit key)
    (hcheck : ∀ c, check c = none → lim.rpm ≠ 0 → c.minuteRequests + 1 ≤ lim.rpm)
    (hguard : key = keyID → (s.store.lookup keyID).minuteStart ≤ windowStart .minute now ∧
      ((s.store.lookup keyID).roll now).minuteRequests.toNat + 1 < 2 ^ 64) :
    Limited s₀ keyID (s.reserve key now check) := by
  refine ⟨by rw [Engine.reserve_rpmLimit, h.limits], ?_⟩
  rcases eq_or_ne key keyID with rfl | hne
  · obtain ⟨hle, hmax⟩ := hguard rfl
    refine Engine.reserve_tallied h.tallied (fun c hc ↦ ?_) hle hmax
    rw [← hlim] at hpos ⊢
    exact hcheck c hc hpos
  · obtain ⟨hn, hs⟩ := Engine.reserve_of_ne s now check hne
    rw [hn, hs]
    exact h.tallied

theorem Limited.rollAll {s₀ s : Engine} {keyID : String} {now : Time} (h : Limited s₀ keyID s)
    (hle : (s.store.lookup keyID).minuteStart ≤ windowStart .minute now) :
    Limited s₀ keyID { s with store := s.store.rollAll now } := by
  refine ⟨h.limits, ?_⟩
  have hroll := h.tallied.roll hle
  cases hk : s.store keyID with
  | none =>
    have : (s.store.rollAll now).lookup keyID = s.store.lookup keyID := by
      simp [CounterStore.lookup, CounterStore.rollAll, hk]
    simpa [this] using h.tallied
  | some c =>
    have : (s.store.rollAll now).lookup keyID = (s.store.lookup keyID).roll now := by
      simp [CounterStore.lookup, CounterStore.rollAll, hk]
    simpa [this] using hroll

theorem exec_limited {s₀ : Engine} {keyID : String} {c : Config Engine Instr} {i : Instr} {x : Choice}
    {e : Effect Engine Instr} (hpos : s₀.rpmLimit keyID ≠ 0) (h : Limited s₀ keyID c.shared)
    (hi : CarriesLimit s₀ i) (hg : InOrder keyID c i x) (he : exec c.shared i x = some e) :
    Limited s₀ keyID e.shared ∧ ∀ k ∈ e.fresh, CarriesLimit s₀ k := by
  cases i with
  | serve =>
    cases x with
    | go => cases he
    | elapse d =>
      cases he
      exact ⟨⟨h.limits, h.tallied⟩, by simp [CarriesLimit]⟩
    | call call =>
      simp only [exec] at he
      split_ifs at he with hkey
      cases he
      exact ⟨h, by simp [CarriesLimit, hkey]⟩
  | enter call =>
    cases x <;> cases he
    exact ⟨h, by simpa using enter_carriesLimit h.limits hi⟩
  | reserve key lim now =>
    cases x <;> cases he
    refine ⟨h.reserve hpos hi (fun _ ↦ check_rpm) fun heq ↦ ?_, by simp⟩
    simpa [InOrder, Instr.touches, Instr.reserves, heq] using hg
  | reserveGlobal lim now =>
    cases x <;> cases he
    refine ⟨h.reserve hpos hi (fun _ ↦ checkGlobal_rpm) fun heq ↦ ?_, by simp⟩
    simpa [InOrder, Instr.touches, Instr.reserves, heq] using hg
  | addTokens key now | get key now =>
    cases x <;> cases he
    refine ⟨h.roll now (fun heq ↦ ?_) rfl rfl, by simp⟩
    simpa [InOrder, Instr.touches, Instr.reserves, heq] using hg
  | checkpoint now =>
    cases x <;> cases he
    refine ⟨h.rollAll ?_, by simp⟩
    simpa [InOrder, Instr.touches, Instr.reserves] using hg

/-- However the calls interleave, as long as no locked section on the counter key carries a
reading from before the stored minute, each minute admits at most the limit. -/
theorem rpm_admissions_le_limit (s₀ : Engine) (keyID : String) (c : Config Engine Instr)
    (hpos : 0 < s₀.rpmLimit keyID) (hstart : s₀.admitted = [])
    (hrun : machine.Runs (InOrder keyID) (start s₀) c) (t : Time) :
    admittedIn c.shared keyID (windowStart .minute t) ≤ (s₀.rpmLimit keyID).toNat := by
  have hne : s₀.rpmLimit keyID ≠ 0 := fun h ↦ by simp [h] at hpos
  have hzero (m : Time) : admittedIn s₀ keyID m = 0 := by simp [admittedIn, hstart]
  have hinit : Limited s₀ keyID s₀ := ⟨rfl, by constructor <;> simp [hzero]⟩
  have hinv := hrun.local_invariant (Limited s₀ keyID) (fun _ ↦ CarriesLimit s₀) hinit
    (by simp [start, Config.soup, CarriesLimit])
    (fun _ _ _ _ hI hJ hg he ↦ exec_limited hne hI hJ hg he)
    (fun _ _ _ _ _ _ _ _ _ _ hk ↦ hk)
  exact hinv.1.tallied.bound _

def onePerMinute : Engine := { defaults := { rpm := 1 }, clock := 59 * second }

theorem rpm_admissions_le_limit_onePerMinute :
    ∃ c, (machine.Runs (InOrder "a1") (start onePerMinute) c ∧
        c.shared.admitted = [("a1", 59 * second)]) ∧
      admittedIn c.shared "a1" (windowStart .minute (59 * second)) ≤ 1 := by
  have hplay : ∃ c, machine.Runs (InOrder "a1") (start onePerMinute) c ∧
      c.shared.admitted = [("a1", 59 * second)] := by
    apply Machine.exists_run [(0, .call (.checkAndReserve "a1")), (0, .call (.checkAndReserve "a1")),
      (1, .go), (2, .go), (1, .go), (2, .go)]
    decide
  obtain ⟨c, hrun, hadm⟩ := hplay
  exact ⟨c, ⟨hrun, hadm⟩, rpm_admissions_le_limit onePerMinute "a1" c (by decide) rfl hrun _⟩

/-- Two calls read the clock at second 59; a third, from the next minute, reaches the lock
between them, so the last one resets the window to the old minute and is admitted too. -/
theorem rpm_limit_exceeded_by_late_reading :
    onePerMinute.rpmLimit "a1" = 1 ∧ ∃ c, machine.Reaches (start onePerMinute) c ∧
      admittedIn c.shared "a1" (windowStart .minute (59 * second)) = 2 := by
  refine ⟨by decide, Machine.exists_run
    [(0, .call (.checkAndReserve "a1")), (0, .call (.checkAndReserve "a1")), (1, .go), (2, .go), (1, .go),
      (0, .elapse 2000000000), (0, .call (.checkAndReserve "a1")), (3, .go), (3, .go), (2, .go)] ?_⟩
  decide

end AgentGpu.Quota
