import AgentGpu.Foundation.Goroutines

namespace AgentGpu.Foundation

variable {σ ι χ L : Type}

namespace Config

def logging (c : Config σ ι) (l : L) : Config (σ × L) ι := ⟨(c.shared, l), c.threads⟩

def erase (c : Config (σ × L) ι) : Config σ ι := ⟨c.shared.1, c.threads⟩

@[simp] theorem erase_logging (c : Config σ ι) (l : L) : (c.logging l).erase = c := rfl

@[simp] theorem erase_soup (c : Config (σ × L) ι) : c.erase.soup = c.soup := rfl

end Config

namespace Machine

variable {M : Machine σ ι χ} {note : σ → ι → χ → L → L}

/-- The machine with a history variable: every step is noted in a log that no instruction
reads. -/
def record (M : Machine σ ι χ) (note : σ → ι → χ → L → L) : Machine (σ × L) ι χ where
  exec p i x := (M.exec p.1 i x).map fun e ↦ ⟨(e.shared, note p.1 i x p.2), e.next, e.spawned⟩

theorem exec_record {p : σ × L} {i : ι} {x : χ} {e : Effect (σ × L) ι}
    (he : (M.record note).exec p i x = some e) :
    ∃ e', M.exec p.1 i x = some e' ∧
      e = ⟨(e'.shared, note p.1 i x p.2), e'.next, e'.spawned⟩ := by
  obtain ⟨e', he', rfl⟩ := Option.map_eq_some_iff.mp he
  exact ⟨e', he', rfl⟩

theorem Runs.erase {G : Config (σ × L) ι → ι → χ → Prop} {H : Config σ ι → ι → χ → Prop}
    (hGH : ∀ c i x, G c i x → H c.erase i x) {c₀ c : Config (σ × L) ι}
    (h : (M.record note).Runs G c₀ c) : M.Runs H c₀.erase c.erase := by
  induction h with
  | start => exact .start
  | @step c t i rest x e _ ht hg he ih =>
    obtain ⟨e', he', rfl⟩ := exec_record he
    exact ih.step ht (hGH c i x hg) he'

theorem Runs.erase_reaches {G : Config (σ × L) ι → ι → χ → Prop} {c₀ c : Config (σ × L) ι}
    (h : (M.record note).Runs G c₀ c) : M.Reaches c₀.erase c.erase :=
  h.erase fun _ _ _ _ ↦ trivial

/-- An invariant of the shared state, the log and the soup is checked one instruction of the
machine at a time. -/
theorem Runs.record_invariant {G : Config (σ × L) ι → ι → χ → Prop} {c₀ c : Config (σ × L) ι}
    (I : σ → L → Multiset ι → Prop) (hstart : I c₀.shared.1 c₀.shared.2 c₀.soup)
    (hstep : ∀ (c : Config (σ × L) ι) i x R e, c.soup = i ::ₘ R →
      I c.shared.1 c.shared.2 (i ::ₘ R) → G c i x → M.exec c.shared.1 i x = some e →
      I e.shared (note c.shared.1 i x c.shared.2) (e.fresh + R))
    (h : (M.record note).Runs G c₀ c) : I c.shared.1 c.shared.2 c.soup := by
  refine h.soup_invariant (fun p S ↦ I p.1 p.2 S) hstart ?_
  intro c i x R e hsoup hI hg he
  obtain ⟨e', he', rfl⟩ := exec_record he
  exact hstep c i x R e' hsoup hI hg he'

variable (M) in
/-- Runs with a log that is also told which goroutine moves, so that a goroutine can be known
by its number. -/
inductive Traces (note : σ → ℕ → ι → χ → L → L) (G : Config σ ι → L → ℕ → ι → χ → Prop)
    (c₀ : Config σ ι) (l₀ : L) : Config σ ι → L → Prop
  | start : Traces note G c₀ l₀ c₀ l₀
  | step {c : Config σ ι} {l : L} {t : ℕ} {i : ι} {rest : List ι} {x : χ} {e : Effect σ ι} :
      Traces note G c₀ l₀ c l → c.threads[t]? = some (i :: rest) → G c l t i x →
      M.exec c.shared i x = some e →
      Traces note G c₀ l₀ (c.after t rest e) (note c.shared t i x l)

section Traces

variable {note : σ → ℕ → ι → χ → L → L} {G : Config σ ι → L → ℕ → ι → χ → Prop}
  {c₀ c : Config σ ι} {l₀ l : L}

/-- An invariant `I` of the shared state, the log and the number of goroutines, and one `P` of
each goroutine: the goroutine that moves keeps both, and the others keep theirs. -/
theorem Traces.invariant (I : σ → L → ℕ → Prop) (P : σ → L → ℕ → List ι → Prop)
    (hI : I c₀.shared l₀ c₀.threads.length)
    (hP : ∀ k th, c₀.threads[k]? = some th → P c₀.shared l₀ k th)
    (own : ∀ (c : Config σ ι) l k i rest x e, I c.shared l c.threads.length →
      c.threads[k]? = some (i :: rest) → P c.shared l k (i :: rest) → G c l k i x →
      M.exec c.shared i x = some e →
      I e.shared (note c.shared k i x l) (c.threads.length + e.spawned.length) ∧
        P e.shared (note c.shared k i x l) k (e.next ++ rest) ∧
        ∀ m th, e.spawned[m]? = some th →
          P e.shared (note c.shared k i x l) (c.threads.length + m) th)
    (stable : ∀ (c : Config σ ι) l k i rest x e, I c.shared l c.threads.length →
      P c.shared l k (i :: rest) → G c l k i x → M.exec c.shared i x = some e →
      ∀ m th, m ≠ k → c.threads[m]? = some th → P c.shared l m th →
        P e.shared (note c.shared k i x l) m th)
    (h : M.Traces note G c₀ l₀ c l) :
    I c.shared l c.threads.length ∧ ∀ k th, c.threads[k]? = some th → P c.shared l k th := by
  induction h with
  | start => exact ⟨hI, hP⟩
  | @step c l k i rest x e _ hk hg he ih =>
    obtain ⟨hI, hP⟩ := ih
    obtain ⟨hI', hnext, hspawned⟩ := own c l k i rest x e hI hk (hP k _ hk) hg he
    refine ⟨?_, fun m th hm ↦ ?_⟩
    · rwa [Config.after, List.length_append, List.length_set]
    · rcases Config.getElem?_after_cases hk hm with ⟨rfl, rfl⟩ | ⟨hne, hold⟩ | ⟨j, rfl, hj⟩
      · exact hnext
      · exact stable c l k i rest x e hI (hP k _ hk) hg he m th hne hold (hP m th hold)
      · exact hspawned j th hj

variable (M) in
def trace (note : σ → ℕ → ι → χ → L → L) (G : Config σ ι → L → ℕ → ι → χ → Prop)
    [∀ c l t i x, Decidable (G c l t i x)] (c : Config σ ι) (l : L) :
    List (ℕ × χ) → Option (Config σ ι × L)
  | [] => some (c, l)
  | (t, x) :: rest =>
    match c.threads[t]? with
    | some (i :: is) =>
      if G c l t i x then
        match M.exec c.shared i x with
        | some e => trace note G (c.after t is e) (note c.shared t i x l) rest
        | none => none
      else none
    | _ => none

theorem exists_trace [∀ c l t i x, Decidable (G c l t i x)] {P : Config σ ι → L → Prop}
    [∀ c l, Decidable (P c l)] (schedule : List (ℕ × χ))
    (h : (M.trace note G c₀ l₀ schedule).any (fun d ↦ P d.1 d.2) = true) :
    ∃ c l, M.Traces note G c₀ l₀ c l ∧ P c l := by
  have htrace : ∀ (schedule : List (ℕ × χ)) c l d,
      M.Traces note G c₀ l₀ c l → M.trace note G c l schedule = some d →
      M.Traces note G c₀ l₀ d.1 d.2 := by
    intro schedule
    induction schedule with
    | nil =>
      intro c l d hc hd
      cases hd
      exact hc
    | cons move rest ih =>
      obtain ⟨t, x⟩ := move
      intro c l d hc hd
      simp only [trace] at hd
      split at hd
      · next i is ht =>
        split at hd
        · next hg =>
          split at hd
          · next e he => exact ih _ _ d (hc.step ht hg he) hd
          · cases hd
        · cases hd
      · cases hd
  cases hd : M.trace note G c₀ l₀ schedule with
  | none => simp [hd] at h
  | some d => exact ⟨d.1, d.2, htrace schedule c₀ l₀ d .start hd, by simpa [hd] using h⟩

end Traces

end Machine

end AgentGpu.Foundation
