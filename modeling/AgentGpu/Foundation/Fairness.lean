import Mathlib.Algebra.BigOperators.Group.List.Basic
import Mathlib.Algebra.GroupWithZero.Nat
import Mathlib.Algebra.Order.Group.Nat

namespace AgentGpu.Foundation

variable {S E : Type} {step : S → E → Option S}

/-- An infinite execution of a transition function. At a moment without an event nothing
happens, so an execution may also come to rest. -/
structure Execution (step : S → E → Option S) where
  state : ℕ → S
  event : ℕ → Option E
  next : ∀ n, (event n).elim (some (state n)) (step (state n)) = some (state (n + 1))

variable (step) in
def Ready (own : E → Prop) (s : S) : Prop := ∃ e, own e ∧ (step s e).isSome

namespace Execution

/-- The execution that tries the given events one after another and skips the ones that are
not possible. -/
def drive (step : S → E → Option S) (s₀ : S) (script : ℕ → E) : Execution step where
  state := Nat.rec s₀ fun n s ↦ (step s (script n)).getD s
  event n :=
    let s := Nat.rec (motive := fun _ ↦ S) s₀ (fun n s ↦ (step s (script n)).getD s) n
    if (step s (script n)).isSome then some (script n) else none
  next n := by
    dsimp only
    split
    · next h =>
      obtain ⟨s', hs'⟩ := Option.isSome_iff_exists.mp h
      simp [hs']
    · next h => simp [Option.not_isSome_iff_eq_none.mp h]

theorem drive_succ (s₀ : S) (script : ℕ → E) (n : ℕ) :
    (drive step s₀ script).state (n + 1) =
      (step ((drive step s₀ script).state n) (script n)).getD ((drive step s₀ script).state n) :=
  rfl

variable (x : Execution step)

theorem step_of_event {n : ℕ} {e : E} (h : x.event n = some e) :
    step (x.state n) e = some (x.state (n + 1)) := by
  simpa [h] using x.next n

theorem eq_of_no_event {n : ℕ} (h : x.event n = none) : x.state (n + 1) = x.state n := by
  have := x.next n
  rw [h] at this
  exact (Option.some.inj this).symm

variable {x} in
theorem always {P : S → Prop} {n : ℕ} (hn : P (x.state n))
    (hstep : ∀ m e, n ≤ m → x.event m = some e → P (x.state m) → P (x.state (m + 1))) :
    ∀ m, n ≤ m → P (x.state m) := by
  intro m hm
  induction m, hm using Nat.le_induction with
  | base => exact hn
  | succ m hm ih =>
    cases he : x.event m with
    | none => rwa [x.eq_of_no_event he]
    | some e => exact hstep m e hm he ih

variable {x} in
theorem exists_crossing {P : S → Prop} {n n' : ℕ} (hle : n ≤ n') (hn : ¬ P (x.state n))
    (hn' : P (x.state n')) :
    ∃ m e, n ≤ m ∧ m < n' ∧ x.event m = some e ∧ ¬ P (x.state m) ∧ P (x.state (m + 1)) := by
  induction n', hle using Nat.le_induction with
  | base => exact absurd hn' hn
  | succ k hk ih =>
    by_cases hP : P (x.state k)
    · obtain ⟨m, e, hnm, hmk, hcross⟩ := ih hP
      exact ⟨m, e, hnm, Nat.lt_succ_of_lt hmk, hcross⟩
    · cases he : x.event k with
      | none =>
        rw [x.eq_of_no_event he] at hn'
        exact absurd hn' hP
      | some e => exact ⟨k, e, hk, Nat.lt_succ_self k, he, hP, hn'⟩

/-- The program's own steps are not starved: while one of them is possible at every moment,
one of them is taken. -/
def Fair (own : E → Prop) : Prop :=
  ∀ n, (∀ m, n ≤ m → Ready step own (x.state m)) → ∃ m e, n ≤ m ∧ x.event m = some e ∧ own e

variable {x} in
/-- The rule for liveness: from `P` the execution gets to `Q` when every step keeps `P` without
raising the rank or is a step to `Q`, own steps lower the rank, and from some moment on an own
step is possible wherever `P` holds. -/
theorem Fair.leadsTo {own : E → Prop} (hfair : x.Fair own) {P Q : S → Prop} (rank : S → ℕ)
    (hstep : ∀ m e, x.event m = some e → P (x.state m) → Q (x.state (m + 1)) ∨
      P (x.state (m + 1)) ∧ rank (x.state (m + 1)) ≤ rank (x.state m) ∧
        (own e → rank (x.state (m + 1)) < rank (x.state m)))
    (hready : ∃ N, ∀ m, N ≤ m → P (x.state m) → Ready step own (x.state m))
    {n : ℕ} (hn : P (x.state n)) : ∃ m, n ≤ m ∧ Q (x.state m) := by
  by_contra! hQ
  have hkeep : ∀ m e, n ≤ m → x.event m = some e → P (x.state m) → P (x.state (m + 1)) ∧
      rank (x.state (m + 1)) ≤ rank (x.state m) ∧
        (own e → rank (x.state (m + 1)) < rank (x.state m)) := by
    intro m e hm he hP
    exact (hstep m e he hP).resolve_left (hQ (m + 1) (by omega))
  have hP : ∀ m, n ≤ m → P (x.state m) := always hn fun m e hm he h ↦ (hkeep m e hm he h).1
  have hmono : ∀ a, n ≤ a → ∀ b, a ≤ b → rank (x.state b) ≤ rank (x.state a) := by
    intro a ha
    refine always (P := fun s ↦ rank s ≤ rank (x.state a)) (le_refl _) fun m e hm he h ↦ ?_
    exact (hkeep m e (by omega) he (hP m (by omega))).2.1.trans h
  obtain ⟨N, hN⟩ := hready
  -- own steps keep coming, and each of them lowers the rank
  have hlower : ∀ m, max n N ≤ m → ∃ k, max n N ≤ k ∧ rank (x.state k) < rank (x.state m) := by
    intro m hm
    obtain ⟨k, e, hk, he, hown⟩ := hfair m fun j hj ↦ hN j (by omega) (hP j (by omega))
    have hlt := (hkeep k e (by omega) he (hP k (by omega))).2.2 hown
    exact ⟨k + 1, by omega, hlt.trans_le (hmono m (by omega) k hk)⟩
  have hdown : ∀ r m, max n N ≤ m → rank (x.state m) ≤ r → False := by
    intro r
    induction r with
    | zero =>
      intro m hm hr
      obtain ⟨k, -, hlt⟩ := hlower m hm
      omega
    | succ r ih =>
      intro m hm hr
      obtain ⟨k, hk, hlt⟩ := hlower m hm
      exact ih k hk (by omega)
  exact hdown _ (max n N) (le_refl _) (le_refl _)

def ownSteps (own : E → Prop) [DecidablePred own] (n : ℕ) : ℕ :=
  ((List.range n).filterMap x.event).countP own

variable {x} in
theorem ownSteps_add_rank_le {own : E → Prop} [DecidablePred own] {P : S → Prop} (rank : S → ℕ)
    (hstep : ∀ s e s', step s e = some s' → P s →
      P s' ∧ rank s' ≤ rank s ∧ (own e → rank s' < rank s))
    (h₀ : P (x.state 0)) (n : ℕ) :
    P (x.state n) ∧ x.ownSteps own n + rank (x.state n) ≤ rank (x.state 0) := by
  induction n with
  | zero => exact ⟨h₀, by simp [ownSteps]⟩
  | succ n ih =>
    obtain ⟨hP, hle⟩ := ih
    simp only [ownSteps, List.range_succ, List.filterMap_append, List.countP_append] at hle ⊢
    cases he : x.event n with
    | none =>
      rw [x.eq_of_no_event he]
      exact ⟨hP, by simpa [he] using hle⟩
    | some e =>
      obtain ⟨hP', hrank, hown⟩ := hstep _ e _ (x.step_of_event he) hP
      refine ⟨hP', ?_⟩
      by_cases ho : own e
      · have := hown ho
        simp only [List.filterMap_cons, he, List.filterMap_nil, List.countP_singleton, ho,
          decide_true, if_true]
        omega
      · simp only [List.filterMap_cons, he, List.filterMap_nil, List.countP_singleton, ho,
          decide_false, Bool.false_eq_true, if_false]
        omega

/-- Steps that compete with others for what they need, such as a lock: if one of them is possible
again and again, one of them is taken. -/
def StrongFair (own : E → Prop) : Prop :=
  ∀ n, (∀ m, n ≤ m → ∃ k, m ≤ k ∧ Ready step own (x.state k)) → ∃ m e, n ≤ m ∧ x.event m = some e ∧ own e

variable {x} in
/-- The rule with one party to wait for at a time: while `P v k` lasts an event of `k` comes, and
this event, if not already another one, gets to `Q` or to some `P` with a smaller number. -/
theorem leadsTo_of_relay {κ : Type} (own : κ → E → Prop) (P : ℕ → κ → S → Prop) (Q : S → Prop)
    (hcomes : ∀ n v k, (∀ m, n ≤ m → P v k (x.state m)) → ∃ m e, n ≤ m ∧ x.event m = some e ∧ own k e)
    (hstep : ∀ m e v k, x.event m = some e → P v k (x.state m) → Q (x.state (m + 1)) ∨
      (∃ v' < v, ∃ k', P v' k' (x.state (m + 1))) ∨ ¬ own k e ∧ P v k (x.state (m + 1)))
    {v : ℕ} {k : κ} {n : ℕ} (hn : P v k (x.state n)) : ∃ m, n ≤ m ∧ Q (x.state m) := by
  induction v using Nat.strong_induction_on generalizing k n with
  | _ v ih =>
    by_contra! hQ
    -- a smaller number would lead to `Q`, so `P v k` stays until an event of `k`
    have hnext : ∀ m e, n ≤ m → x.event m = some e → P v k (x.state m) →
        ¬ own k e ∧ P v k (x.state (m + 1)) := by
      intro m e hm he hP
      rcases hstep m e v k he hP with hend | ⟨v', hv', k', hP'⟩ | hkeep
      · exact absurd hend (hQ (m + 1) (by omega))
      · obtain ⟨m', hm', hend⟩ := ih v' hv' hP'
        exact absurd hend (hQ m' (by omega))
      · exact hkeep
    have hP : ∀ m, n ≤ m → P v k (x.state m) :=
      always hn fun m e hm he h ↦ (hnext m e hm he h).2
    obtain ⟨m, e, hm, he, hown⟩ := hcomes n v k hP
    exact (hnext m e hm he (hP m hm)).1 hown

end Execution

theorem sum_map_set {α : Type} (rank : α → ℕ) {l : List α} {i : ℕ} {a : α} (h : l[i]? = some a)
    (b : α) : ((l.set i b).map rank).sum + rank a = (l.map rank).sum + rank b := by
  induction l generalizing i with
  | nil => simp at h
  | cons c l ih =>
    cases i with
    | zero =>
      obtain rfl : c = a := by simpa using h
      simp only [List.set_cons_zero, List.map_cons, List.sum_cons]
      omega
    | succ i =>
      have := ih (i := i) (by simpa using h)
      simp only [List.set_cons_succ, List.map_cons, List.sum_cons]
      omega

end AgentGpu.Foundation
