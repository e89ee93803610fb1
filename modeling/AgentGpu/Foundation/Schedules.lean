import AgentGpu.Foundation.Fairness
import AgentGpu.Foundation.Goroutines

namespace AgentGpu.Foundation

namespace Execution

variable {S E : Type} {step : S → E → Option S} (x : Execution step)

variable (step) in
def resting (s : S) : Execution step where
  state _ := s
  event _ := none
  next _ := rfl

def prepend {s : S} {e : E} (h : step s e = some (x.state 0)) : Execution step where
  state
    | 0 => s
    | n + 1 => x.state n
  event
    | 0 => some e
    | n + 1 => x.event n
  next
    | 0 => h
    | n + 1 => x.next n

def detour (N : ℕ) {e : E} {s : S} (h : step (x.state N) e = some s) : Execution step where
  state m := if m ≤ N then x.state m else s
  event m := if m < N then x.event m else if m = N then some e else none
  next m := by
    rcases lt_trichotomy m N with hm | rfl | hm
    · simpa [hm, hm.le, Nat.succ_le_of_lt hm] using x.next m
    · simpa using h
    · simp [hm.not_ge, hm.not_gt, hm.ne', show ¬ m + 1 ≤ N by omega]

variable {x} in
theorem Fair.of_rest {own : E → Prop} {N : ℕ} (h : ∀ m, N ≤ m → ¬ Ready step own (x.state m)) :
    x.Fair own := by
  intro n hready
  exact absurd (hready (max n N) (le_max_left ..)) (h _ (le_max_right ..))

variable {x} in
theorem StrongFair.of_rest {own : E → Prop} {N : ℕ} (h : ∀ m, N ≤ m → ¬ Ready step own (x.state m)) :
    x.StrongFair own := by
  intro n hready
  obtain ⟨k, hk, hown⟩ := hready (max n N) (le_max_left ..)
  exact absurd hown (h k ((le_max_right ..).trans hk))

variable (step) in
def follow (s₀ : S) (events : List E) : Execution step where
  state n := (events.take n).foldl (fun s e ↦ (step s e).getD s) s₀
  event n := events[n]?.filter fun e ↦ (step ((events.take n).foldl (fun s e ↦ (step s e).getD s) s₀) e).isSome
  next n := by
    rw [List.take_add_one, List.foldl_append]
    cases events[n]? with
    | none => rfl
    | some e =>
      generalize (events.take n).foldl (fun s e ↦ (step s e).getD s) s₀ = s
      cases hs : step s e <;> simp [Option.filter, hs]

variable {s₀ : S} {events : List E}

theorem follow_event {n : ℕ} {e : E} (h : (follow step s₀ events).event n = some e) : events[n]? = some e :=
  (Option.filter_eq_some_iff.mp h).1

theorem follow_rest {n : ℕ} (hn : events.length ≤ n) :
    (follow step s₀ events).state n = (follow step s₀ events).state events.length := by
  simp only [follow, List.take_of_length_le hn, List.take_length]

end Execution

variable {σ ι χ : Type} [DecidableEq ι]

structure Turn (ι χ : Type) where
  thread : ℕ
  instr : ι
  choice : χ

namespace Machine

def turn (M : Machine σ ι χ) (c : Config σ ι) (a : Turn ι χ) : Option (Config σ ι) :=
  match c.threads[a.thread]? with
  | some (i :: rest) =>
    if i = a.instr then (M.exec c.shared i a.choice).map (c.after a.thread rest) else none
  | _ => none

variable {M : Machine σ ι χ} {G : Config σ ι → ι → χ → Prop} {c c' : Config σ ι} {a : Turn ι χ}

theorem turn_eq_some : M.turn c a = some c' ↔ ∃ rest e,
    c.threads[a.thread]? = some (a.instr :: rest) ∧ M.exec c.shared a.instr a.choice = some e ∧
      c.after a.thread rest e = c' := by
  constructor
  · intro h
    unfold turn at h
    split at h
    · next i rest hi =>
      split_ifs at h with hia
      obtain ⟨e, he, rfl⟩ := Option.map_eq_some_iff.mp h
      exact ⟨rest, e, hia ▸ hi, hia ▸ he, rfl⟩
    · cases h
  · rintro ⟨rest, e, hhead, he, rfl⟩
    simp [turn, hhead, he]

theorem mem_soup_of_turn (h : M.turn c a = some c') : a.instr ∈ c.soup := by
  obtain ⟨rest, -, hhead, -, -⟩ := turn_eq_some.mp h
  exact Config.mem_soup.mpr ⟨_, List.mem_of_getElem? hhead, List.mem_cons_self⟩

theorem ready_of_head {own : Turn ι χ → Prop} {t : ℕ} {i : ι} {rest : List ι} {x : χ}
    (hhead : c.threads[t]? = some (i :: rest)) (hexec : (M.exec c.shared i x).isSome)
    (hown : own ⟨t, i, x⟩) : Ready M.turn own c := by
  obtain ⟨e, he⟩ := Option.isSome_iff_exists.mp hexec
  exact ⟨⟨t, i, x⟩, hown, Option.isSome_iff_exists.mpr ⟨_, turn_eq_some.mpr ⟨rest, e, hhead, he, rfl⟩⟩⟩

theorem not_ready {own : Turn ι χ → Prop}
    (h : ∀ i rest, i :: rest ∈ c.threads → ∀ t x, ¬ own ⟨t, i, x⟩) : ¬ Ready M.turn own c := by
  rintro ⟨a, ha, hturn⟩
  obtain ⟨c', hc'⟩ := Option.isSome_iff_exists.mp hturn
  obtain ⟨rest, -, hhead, -⟩ := turn_eq_some.mp hc'
  exact h a.instr rest (List.mem_of_getElem? hhead) a.thread a.choice ha

theorem Runs.of_execution {x : Execution M.turn}
    (hguard : ∀ n a, x.event n = some a → G (x.state n) a.instr a.choice) (n : ℕ) :
    M.Runs G (x.state 0) (x.state n) := by
  induction n with
  | zero => exact .start
  | succ n ih =>
    cases ha : x.event n with
    | none => rwa [x.eq_of_no_event ha]
    | some a =>
      obtain ⟨rest, e, hhead, he, hafter⟩ := turn_eq_some.mp (x.step_of_event ha)
      rw [← hafter]
      exact ih.step hhead (hguard n a ha) he

theorem Runs.exists_execution {c₀ : Config σ ι} (h : M.Runs G c₀ c) :
    ∃ x : Execution M.turn, x.state 0 = c₀ ∧
      (∀ n a, x.event n = some a → G (x.state n) a.instr a.choice) ∧
      ∃ N, ∀ m, N ≤ m → x.state m = c := by
  induction h with
  | start => exact ⟨.resting M.turn c₀, rfl, nofun, 0, fun _ _ ↦ rfl⟩
  | @step c t i rest a e _ ht hg he ih =>
    obtain ⟨x, hstart, hguard, N, hrest⟩ := ih
    have hturn : M.turn (x.state N) ⟨t, i, a⟩ = some (c.after t rest e) := by
      rw [hrest N le_rfl]
      exact turn_eq_some.mpr ⟨rest, e, ht, he, rfl⟩
    refine ⟨x.detour N hturn, ?_, fun n b hb ↦ ?_, N + 1, fun m hm ↦ ?_⟩
    · simp [Execution.detour, hstart]
    · rcases lt_trichotomy n N with hn | rfl | hn
      · simpa [Execution.detour, hn.le] using hguard n b (by simpa [Execution.detour, hn] using hb)
      · obtain rfl : ⟨t, i, a⟩ = b := by simpa [Execution.detour] using hb
        simpa [Execution.detour, hrest n le_rfl] using hg
      · simp [Execution.detour, hn.not_gt, hn.ne'] at hb
    · simp [Execution.detour, show ¬ m ≤ N by omega]

end Machine

end AgentGpu.Foundation
