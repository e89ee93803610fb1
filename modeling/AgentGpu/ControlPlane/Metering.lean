import AgentGpu.ControlPlane.Provenance
import AgentGpu.Foundation.History
import AgentGpu.Quota.Accounting

namespace AgentGpu.ControlPlane

open Foundation Quota

structure Charge where
  request : ℕ
  time : Time
  tokens : UInt64
  deriving DecidableEq

namespace Charge

variable (a : Charge)

def record (keyID : String) (global : Limits) (m : CounterStore) : CounterStore :=
  if a.tokens = 0 then m
  else
    let m := m.addTokens keyID a.time a.tokens
    if global.rpm = 0 ∧ global.tpm = 0 then m else m.addTokens globalKeyID a.time a.tokens

end Charge

def Instr.records (s : Server) : Instr → Choice → Option (ℕ × UInt64)
  | .pick .fast job, .unserved | .removeWaiter job, .go => some (job.request, 0)
  | .finish .fast job res, .go => some (job.request, (res.map (·.result.tokens)).getD 0)
  | .awaitWaiter job ch, .go =>
    (s.results ch).recv.map fun p ↦ (job.request, p.1.result.tokens)
  | .settle job, .go =>
    (s.finished job.request).recv.map fun p ↦ (job.request, p.1.result.tokens)
  | _, _ => none

def Instr.accumulates (s : Server) : Instr → Choice → Option (ℕ × UInt64)
  | .read _, .message (.chunk c) =>
    c.source.bind fun r ↦
      if c.chunk.done ∧ s.gone r = false then some (r, c.chunk.tokens) else none
  | _, _ => none

structure Meter where
  terminal : ℕ → Option UInt64 := fun _ ↦ none
  charges : List Charge := []

namespace Meter

def charged (l : Meter) (r : ℕ) : List UInt64 :=
  (l.charges.filter (·.request = r)).map Charge.tokens

def note (s : Server) (i : Instr) (x : Choice) (l : Meter) : Meter where
  terminal r := (l.terminal r).or ((i.accumulates s x).bind fun p ↦ if p.1 = r then some p.2 else none)
  charges := l.charges ++ ((i.records s x).map fun p ↦ ⟨p.1, s.clock, p.2⟩).toList

end Meter

variable {s : Server} {i : Instr} {x : Choice} {e : Effect Server Instr} {l : Meter} {r : ℕ}

theorem Meter.charged_note_of_ne (h : ∀ n, i.records s x ≠ some (r, n)) :
    (l.note s i x).charged r = l.charged r := by
  cases hrec : i.records s x with
  | none => simp [Meter.charged, Meter.note, hrec]
  | some p =>
    have hne : p.1 ≠ r := by
      rintro rfl
      exact h p.2 hrec
    simp [Meter.charged, Meter.note, hrec, hne]

theorem Meter.charged_note {n : UInt64} (h : i.records s x = some (r, n)) :
    (l.note s i x).charged r = l.charged r ++ [n] := by
  simp [Meter.charged, Meter.note, h]

theorem Meter.terminal_note {n : UInt64} (h : l.terminal r = some n) :
    (l.note s i x).terminal r = some n := by
  simp [Meter.note, h]

theorem Meter.accumulates_of_note {n : UInt64} (hold : l.terminal r = none)
    (hnew : (l.note s i x).terminal r = some n) : i.accumulates s x = some (r, n) := by
  simp only [Meter.note, hold, Option.none_or] at hnew
  obtain ⟨⟨k, m⟩, hacc, hp⟩ := Option.bind_eq_some_iff.mp hnew
  split_ifs at hp with hk
  cases hp
  rwa [← hk]

theorem Instr.records_cases {n : UInt64} (h : i.records s x = some (r, n)) :
    (∃ job, i = .pick .fast job ∧ x = .unserved ∧ job.request = r) ∨
    (∃ job, i = .removeWaiter job ∧ x = .go ∧ job.request = r) ∨
    (∃ job res, i = .finish .fast job res ∧ x = .go ∧ job.request = r ∧
      (res.map (·.result.tokens)).getD 0 = n) ∨
    (∃ job ch res c, i = .awaitWaiter job ch ∧ x = .go ∧ job.request = r ∧
      (s.results ch).recv = some (res, c) ∧ res.result.tokens = n) ∨
    ∃ job res c, i = .settle job ∧ x = .go ∧ job.request = r ∧
      (s.finished r).recv = some (res, c) ∧ res.result.tokens = n := by
  unfold records at h
  split at h
  · next job =>
    cases h
    exact .inl ⟨job, rfl, rfl, rfl⟩
  · next job =>
    cases h
    exact .inr (.inl ⟨job, rfl, rfl, rfl⟩)
  · next job res =>
    cases h
    exact .inr (.inr (.inl ⟨job, res, rfl, rfl, rfl, rfl⟩))
  · next job ch =>
    obtain ⟨⟨res, c⟩, hrecv, hp⟩ := Option.map_eq_some_iff.mp h
    cases hp
    exact .inr (.inr (.inr (.inl ⟨job, ch, res, c, rfl, rfl, rfl, hrecv, rfl⟩)))
  · next job =>
    obtain ⟨⟨res, c⟩, hrecv, hp⟩ := Option.map_eq_some_iff.mp h
    cases hp
    exact .inr (.inr (.inr (.inr ⟨job, res, c, rfl, rfl, rfl, hrecv, rfl⟩)))
  · cases h

theorem Instr.pays_of_records {n : UInt64} (h : i.records s x = some (r, n)) : i.pays r := by
  rcases Instr.records_cases h with ⟨job, rfl, -, hr⟩ | ⟨job, rfl, -, hr⟩ | ⟨job, res, rfl, -, hr, -⟩ |
    ⟨job, ch, res, c, rfl, -, hr, -⟩ | ⟨job, res, c, rfl, -, hr, -⟩ <;> exact beq_iff_eq.mpr hr

theorem Step.records_fresh (hs : Step s i x e) {n : UInt64} (hrec : i.records s x = some (r, n)) :
    e.shared.requests = s.requests ∧ e.fresh.countP (·.pays r) = 0 := by
  rcases Instr.records_cases hrec with ⟨job, rfl, rfl, -⟩ | ⟨job, rfl, rfl, -⟩ | ⟨job, res, rfl, rfl, -⟩ |
    ⟨job, ch, res, c, rfl, rfl, -⟩ | ⟨job, res, c, rfl, rfl, -⟩ <;> cases hs <;>
    exact ⟨rfl, by rw [Effect.countP_fresh]; rfl⟩

theorem Step.meter_balance (hs : Step s i x e) {R : Multiset Instr}
    (hone : (i ::ₘ R).countP (·.pays r) + (l.charged r).length ≤ if r < s.requests then 1 else 0) :
    (e.fresh + R).countP (·.pays r) + ((l.note s i x).charged r).length ≤
      if r < e.shared.requests then 1 else 0 := by
  rw [Multiset.countP_cons] at hone
  rw [Multiset.countP_add]
  by_cases hrec : ∃ n, i.records s x = some (r, n)
  · obtain ⟨n, hrec⟩ := hrec
    obtain ⟨hrequests, hfresh⟩ := hs.records_fresh hrec
    rw [if_pos (Instr.pays_of_records hrec)] at hone
    rw [hfresh, Meter.charged_note hrec, hrequests, List.length_append, List.length_singleton]
    omega
  · have hbal := hs.pays_balance r
    rw [Meter.charged_note_of_ne (not_exists.mp hrec)]
    omega

section

variable {t : Time} {d : Duration} {n : ℕ} {c : Config (Server × Meter) Instr}
  {G : Config (Server × Meter) Instr → Instr → Choice → Prop}

theorem charges_le_one
    (hc : (controlPlane.record Meter.note).Runs G ((boot (new t d n)).logging {}) c) (r : ℕ) :
    c.soup.countP (·.pays r) + (c.shared.2.charged r).length ≤
      if r < c.shared.1.requests then 1 else 0 := by
  refine hc.record_invariant (fun s l S ↦ S.countP (·.pays r) + (l.charged r).length ≤
    if r < s.requests then 1 else 0) ?_ ?_
  · simp [boot, Config.logging, Config.soup, Instr.pays, Meter.charged]
  · intro c i x R e _ hone _ he
    exact (step_of_exec he).meter_balance hone

end

end AgentGpu.ControlPlane
