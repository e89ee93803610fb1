import AgentGpu.Quota.Accounting

namespace AgentGpu.Quota

open Foundation

/-- A call on the counter store. The check of a `Reserve` is whatever its caller passes. -/
inductive StoreCall
  | reserve (keyID : String) (now : Time) (check : Counters → Option Denial)
  | addTokens (keyID : String) (now : Time) (n : UInt64)
  | get (keyID : String) (now : Time)
  | checkpoint (now : Time)

def StoreCall.now : StoreCall → Time
  | .reserve _ t _ | .addTokens _ t _ | .get _ t | .checkpoint t => t

inductive StoreReply
  | reserved (denial : Option Denial)
  | added
  | counters (c : Counters)
  | written (snapshot : CounterStore)

namespace CounterStore

def call (m : CounterStore) : StoreCall → CounterStore × StoreReply
  | .reserve keyID now check => (m.reserve keyID now check).map id .reserved
  | .addTokens keyID now n => (m.addTokens keyID now n, .added)
  | .get keyID now => (m.get keyID now).map id .counters
  | .checkpoint now => (m.rollAll now, .written (m.rollAll now))

end CounterStore

def Op.storeCall : Op → StoreCall
  | .reserve keyID lim now => .reserve keyID now (check lim)
  | .reserveGlobal lim now => .reserve globalKeyID now (checkGlobal lim)
  | .addTokens keyID now n => .addTokens keyID now n
  | .get keyID now => .get keyID now
  | .checkpoint now => .checkpoint now

theorem Books.store_apply (b : Books) (op : Op) :
    (b.apply op).1.store = (b.store.call op.storeCall).1 := by
  have hreserve (keyID : String) (now : Time) (check : Counters → Option Denial) :
      (b.reserve keyID now check).1.store = (b.store.reserve keyID now check).1 := by
    unfold Books.reserve
    split <;> simp [*]
  cases op with
  | reserve keyID lim now => exact hreserve ..
  | reserveGlobal lim now => exact hreserve ..
  | addTokens | get | checkpoint => rfl

namespace CounterStore

def after (m : CounterStore) (calls : List StoreCall) : CounterStore :=
  calls.foldl (fun m c ↦ (m.call c).1) m

def replies (m : CounterStore) : List StoreCall → List StoreReply
  | [] => []
  | c :: calls => (m.call c).2 :: replies (m.call c).1 calls

section File

variable {File : Type} (marshal : CounterStore → File) (unmarshal : File → Option CounterStore)

/-- Rolls every key in place and writes what results; returns the store and the file. -/
def checkpoint (m : CounterStore) (now : Time) : CounterStore × File :=
  (m.rollAll now, marshal (m.rollAll now))

/-- A missing file leaves the store as it is, and so does one that does not parse. -/
def loadCheckpoint (m : CounterStore) (file : Option File) : CounterStore :=
  (file.bind unmarshal).getD m

end File

def Agree (t : Time) (m m' : CounterStore) : Prop :=
  ∀ keyID now, t ≤ now → (m keyID).map (·.roll now) = (m' keyID).map (·.roll now)

variable {m m' : CounterStore} {t : Time}

theorem Agree.lookup (h : Agree t m m') (keyID : String) {now : Time} (hle : t ≤ now) :
    (m.lookup keyID).roll now = (m'.lookup keyID).roll now := by
  have hkey := h keyID now hle
  unfold CounterStore.lookup
  cases hm : m keyID <;> cases hm' : m' keyID <;> simp_all

theorem Agree.put (h : Agree t m m') {now : Time} (hle : t ≤ now) (keyID : String) (c : Counters) :
    Agree now (m.put keyID c) (m'.put keyID c) := by
  intro k later hlater
  by_cases hk : k = keyID
  · subst hk
    simp [CounterStore.put]
  · simp only [CounterStore.put, Function.update_of_ne hk]
    exact h k later (hle.trans hlater)

theorem Agree.call (h : Agree t m m') (c : StoreCall) (hle : t ≤ c.now) :
    (m.call c).2 = (m'.call c).2 ∧ Agree c.now (m.call c).1 (m'.call c).1 := by
  cases c with
  | reserve keyID now check =>
    have hsame : (m.lookup keyID).roll now = (m'.lookup keyID).roll now := h.lookup keyID hle
    simp only [CounterStore.call, CounterStore.reserve, hsame]
    cases check ((m'.lookup keyID).roll now) with
    | none => exact ⟨rfl, h.put hle keyID _⟩
    | some d => exact ⟨rfl, h.put hle keyID _⟩
  | addTokens keyID now n =>
    have hsame : (m.lookup keyID).roll now = (m'.lookup keyID).roll now := h.lookup keyID hle
    simp only [CounterStore.call, CounterStore.addTokens, hsame]
    exact ⟨trivial, h.put hle keyID _⟩
  | get keyID now =>
    have hsame : (m.lookup keyID).roll now = (m'.lookup keyID).roll now := h.lookup keyID hle
    simp only [CounterStore.call, CounterStore.get, hsame]
    exact ⟨rfl, h.put hle keyID _⟩
  | checkpoint now =>
    have hsame : m.rollAll now = m'.rollAll now := funext fun keyID ↦ h keyID now hle
    simp only [CounterStore.call, hsame]
    exact ⟨trivial, fun _ _ _ ↦ rfl⟩

theorem Agree.replies (h : Agree t m m') {calls : List StoreCall} (hcalls : calls.Pairwise (·.now ≤ ·.now))
    (hlater : ∀ c ∈ calls, t ≤ c.now) : m.replies calls = m'.replies calls := by
  induction calls generalizing t m m' with
  | nil => rfl
  | cons c calls ih =>
    obtain ⟨hnext, hcalls⟩ := List.pairwise_cons.mp hcalls
    obtain ⟨hreply, hagree⟩ := h.call c (hlater c List.mem_cons_self)
    rw [CounterStore.replies, CounterStore.replies, hreply, ih hagree hcalls hnext]

def Past (t : Time) (m : CounterStore) : Prop :=
  ∀ keyID c, m keyID = some c → ∀ g, ∃ u ≤ t, (c.gauge g).window = windowStart g.window u

theorem Past.put (h : Past t m) {keyID : String} {c : Counters} {now : Time} (hle : now ≤ t)
    (hc : ∀ g, (c.gauge g).window = windowStart g.window now) : Past t (m.put keyID c) := by
  intro k c' hk g
  by_cases hkey : k = keyID
  · subst hkey
    rw [CounterStore.put, Function.update_self] at hk
    cases hk
    exact ⟨now, hle, hc g⟩
  · rw [CounterStore.put, Function.update_of_ne hkey] at hk
    exact h k c' hk g

theorem window_roll (c : Counters) (now : Time) (g : Gauge) :
    ((c.roll now).gauge g).window = windowStart g.window now := by
  rw [Counters.gauge_roll, Tally.roll_window]

theorem Past.call (h : Past t m) (c : StoreCall) (hle : c.now ≤ t) : Past t (m.call c).1 := by
  cases c with
  | reserve keyID now check =>
    simp only [CounterStore.call, CounterStore.reserve]
    cases check ((m.lookup keyID).roll now) with
    | some d => exact h.put hle (window_roll _ now)
    | none =>
      refine h.put hle fun g ↦ ?_
      have hwindow := window_roll (m.lookup keyID) now g
      rcases g with _ | _ | _ | _ <;> exact hwindow
  | addTokens keyID now n =>
    refine h.put hle fun g ↦ ?_
    have hwindow := window_roll (m.lookup keyID) now g
    rcases g with _ | _ | _ | _ <;> exact hwindow
  | get keyID now => exact h.put hle (window_roll _ now)
  | checkpoint now =>
    intro k c hk g
    obtain ⟨c', -, rfl⟩ := Option.map_eq_some_iff.mp hk
    exact ⟨now, hle, window_roll c' now g⟩

theorem Past.after (h : Past t m) {calls : List StoreCall} (hcalls : ∀ c ∈ calls, c.now ≤ t) :
    Past t (m.after calls) := by
  induction calls generalizing m with
  | nil => exact h
  | cons c calls ih =>
    obtain ⟨hc, hcalls⟩ := List.forall_mem_cons.mp hcalls
    exact ih (h.call c hc) hcalls

theorem Past.agree (h : Past t m) : Agree t (m.rollAll t) m := by
  intro keyID now hle
  rw [CounterStore.rollAll, Option.map_map]
  refine Option.map_congr fun c hc ↦ Counters.ext_gauge fun g ↦ ?_
  obtain ⟨u, hu, hwindow⟩ := h keyID c hc g
  simp only [Function.comp_apply, Counters.gauge_roll]
  exact Tally.roll_roll_of_le (windowStart_mono _) hwindow hu hle

end CounterStore

open CounterStore

/-- A store that is loaded from a checkpoint answers as the one that wrote it and went on. That
one was rolled in place; if no earlier reading was after the checkpoint's, it also answers as
if there had been no checkpoint. -/
theorem quota_restart_transparent {File : Type} (marshal : CounterStore → File)
    (unmarshal : File → Option CounterStore) (hjson : ∀ m, unmarshal (marshal m) = some m)
    (past later : List StoreCall) (t : Time) (hsorted : later.Pairwise (·.now ≤ ·.now))
    (hlater : ∀ c ∈ later, t ≤ c.now) :
    let m := CounterStore.after (fun _ ↦ none) past
    let written := m.checkpoint marshal t
    let restarted := loadCheckpoint unmarshal (fun _ ↦ none) (some written.2)
    restarted.replies later = written.1.replies later ∧
      ((∀ c ∈ past, c.now ≤ t) → restarted.replies later = m.replies later) := by
  intro m written restarted
  have hloaded : restarted = m.rollAll t := by
    simp [restarted, written, loadCheckpoint, checkpoint, hjson]
  rw [hloaded]
  refine ⟨rfl, fun hpast ↦ ?_⟩
  have hm : Past t m := Past.after (by simp [Past]) hpast
  exact hm.agree.replies hsorted hlater

/-- The checkpoint is written in the first minute, and the calls after it cross into the
second minute, the next day and the next month. -/
theorem quota_restart_transparent_threeWindows :
    let past : List StoreCall := [.addTokens "a" 0 5, .reserve "a" second (check { rpm := 1 })]
    let later : List StoreCall := [.get "a" second, .reserve "a" minute (check { tpm := 5 }),
      .reserve "a" day (check { dailyTokens := 5 }), .get "a" (31 * day)]
    let m := CounterStore.after (fun _ ↦ none) past
    let restarted := loadCheckpoint some (fun _ ↦ none) (some (m.checkpoint id second).2)
    restarted.replies later = m.replies later := by
  intro past later m restarted
  exact (quota_restart_transparent id some (fun _ ↦ rfl) past later second (by decide +kernel)
    (by decide +kernel)).2 (by decide +kernel)

end AgentGpu.Quota
