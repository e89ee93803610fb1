import Mathlib.Data.Multiset.Basic
import Mathlib.Data.Multiset.AddSub
import Mathlib.Algebra.Order.Group.Multiset
import Mathlib.Data.List.Forall2
import Mathlib.Tactic.Abel

namespace AgentGpu.Foundation

variable {σ ι χ : Type}

structure Effect (σ ι : Type) where
  shared : σ
  next : List ι
  spawned : List (List ι) := []

/-- Goroutines over a shared state. An instruction runs atomically: it leaves a new shared
state, instructions to run next and goroutines to start. Its external choice (a received
message, a `select` arm) is an argument, and `none` means that it is blocked. -/
structure Machine (σ ι χ : Type) where
  exec : σ → ι → χ → Option (Effect σ ι)

structure Config (σ ι : Type) where
  shared : σ
  threads : List (List ι)

namespace Config

def soup (c : Config σ ι) : Multiset ι := (c.threads.flatten : List ι)

def after (c : Config σ ι) (t : ℕ) (rest : List ι) (e : Effect σ ι) : Config σ ι :=
  ⟨e.shared, c.threads.set t (e.next ++ rest) ++ e.spawned⟩

@[simp] theorem after_shared (c : Config σ ι) (t : ℕ) (rest : List ι) (e : Effect σ ι) :
    (c.after t rest e).shared = e.shared := rfl

theorem mem_soup {c : Config σ ι} {i : ι} : i ∈ c.soup ↔ ∃ th ∈ c.threads, i ∈ th := by
  simp [soup]

end Config

def Effect.fresh (e : Effect σ ι) : Multiset ι := (e.next ++ e.spawned.flatten : List ι)

@[simp] theorem Effect.mem_fresh {e : Effect σ ι} {i : ι} :
    i ∈ e.fresh ↔ i ∈ e.next ∨ ∃ th ∈ e.spawned, i ∈ th := by
  simp [Effect.fresh]

theorem Effect.forall_fresh {P : ι → Prop} {e : Effect σ ι} :
    (∀ i ∈ e.fresh, P i) ↔ (∀ i ∈ e.next, P i) ∧ ∀ th ∈ e.spawned, ∀ i ∈ th, P i := by
  simp only [Effect.mem_fresh, or_imp, forall_and]
  exact and_congr_right' ⟨fun h th hth i hi ↦ h i ⟨th, hth, hi⟩, fun h i ⟨th, hth, hi⟩ ↦ h th hth i hi⟩

theorem Effect.countP_fresh (p : ι → Bool) (e : Effect σ ι) :
    e.fresh.countP (p ·) = (e.next ++ e.spawned.flatten).countP p := by
  simp [Effect.fresh]

section

variable {s : σ} {i j : ι} {P : ι → Prop} {p : ι → Bool}

theorem Effect.forall_fresh_next {next : List ι} (h : ∀ k ∈ next, P k) :
    ∀ k ∈ (⟨s, next, []⟩ : Effect σ ι).fresh, P k := by
  simpa using h

theorem Effect.forall_fresh_nil : ∀ k ∈ (⟨s, [], []⟩ : Effect σ ι).fresh, P k := by
  simp

theorem Effect.forall_fresh_singleton (h : P j) : ∀ k ∈ (⟨s, [j], []⟩ : Effect σ ι).fresh, P k := by
  simpa using h

theorem Effect.forall_fresh_spawn (h : P i) (h' : P j) :
    ∀ k ∈ (⟨s, [i], [[j]]⟩ : Effect σ ι).fresh, P k := by
  simpa using ⟨h, h'⟩

theorem Effect.countP_fresh_eq_zero {e : Effect σ ι} (h : ∀ k ∈ e.fresh, p k = false) :
    e.fresh.countP (p ·) = 0 :=
  Multiset.countP_eq_zero.mpr fun k hk ↦ by simp [h k hk]

theorem Effect.countP_fresh_nil_le {n : ℕ} :
    (⟨s, [], []⟩ : Effect σ ι).fresh.countP (p ·) ≤ n := by
  simp [Effect.fresh]

theorem Effect.countP_fresh_singleton_of_not {n : ℕ} (h : p j = false) :
    (⟨s, [j], []⟩ : Effect σ ι).fresh.countP (p ·) ≤ n := by
  simp [Effect.countP_fresh, h]

theorem Effect.countP_fresh_singleton_le (h : p j = p i) :
    (⟨s, [j], []⟩ : Effect σ ι).fresh.countP (p ·) ≤ if p i then 1 else 0 := by
  simp [Effect.countP_fresh, h]

end

theorem not_of_countP_le_one {p : ι → Bool} {i j : ι} {R : Multiset ι}
    (h : (i ::ₘ R).countP (p ·) ≤ 1) (hj : j ∈ R) (hpj : p j) : p i = false := by
  refine Bool.eq_false_iff.mpr fun hi ↦ ?_
  have hpos : 0 < R.countP (p ·) := Multiset.countP_pos.mpr ⟨j, hj, hpj⟩
  rw [Multiset.countP_cons, if_pos hi] at h
  omega

theorem eq_of_countP_le_one {p : ι → Bool} {i j : ι} {S : Multiset ι} (h : S.countP (p ·) ≤ 1)
    (hi : i ∈ S) (hj : j ∈ S) (hpi : p i) (hpj : p j) : i = j := by
  obtain ⟨R, rfl⟩ := Multiset.exists_cons_of_mem hi
  rcases Multiset.mem_cons.mp hj with rfl | hj
  · rfl
  · cases (not_of_countP_le_one h hj hpj).symm.trans hpi

theorem Config.countP_soup_le {c : Config σ ι} {p : ι → Bool} {t n : ℕ}
    (hother : ∀ (k : ℕ) th, c.threads[k]? = some th → k ≠ t → ∀ j ∈ th, p j = false)
    (hown : ∀ th, c.threads[t]? = some th → th.countP p ≤ n) : c.soup.countP (p ·) ≤ n := by
  have hcount : ∀ (l : List (List ι)) (t : ℕ),
      (∀ (k : ℕ) th, l[k]? = some th → k ≠ t → ∀ j ∈ th, p j = false) →
      (∀ th, l[t]? = some th → th.countP p ≤ n) → l.flatten.countP p ≤ n := by
    intro l
    induction l with
    | nil => simp
    | cons a l ih =>
      intro t hother hown
      rw [List.flatten_cons, List.countP_append]
      cases t with
      | zero =>
        have hrest : l.flatten.countP p = 0 := by
          refine List.countP_eq_zero.mpr fun j hj ↦ ?_
          obtain ⟨th, hth, hj⟩ := List.mem_flatten.mp hj
          obtain ⟨k, hk⟩ := List.mem_iff_getElem?.mp hth
          simp [hother (k + 1) th hk (Nat.succ_ne_zero k) j hj]
        rw [hrest]
        exact hown a rfl
      | succ t =>
        have ha : a.countP p = 0 := by
          refine List.countP_eq_zero.mpr fun j hj ↦ ?_
          simp [hother 0 a rfl (Nat.succ_ne_zero t).symm j hj]
        rw [ha, Nat.zero_add]
        exact ih t (fun k th hk hne ↦ hother (k + 1) th hk (by omega)) hown
  simpa [Config.soup] using hcount c.threads t hother hown

section

variable {c : Config σ ι} {t k : ℕ} {i : ι} {rest th : List ι}

theorem Config.getElem?_after_self (ht : c.threads[t]? = some (i :: rest)) (e : Effect σ ι) :
    (c.after t rest e).threads[t]? = some (e.next ++ rest) := by
  have hlt := (List.getElem?_eq_some_iff.mp ht).1
  rw [Config.after, List.getElem?_append_left (by simpa using hlt), List.getElem?_set_self hlt]

theorem Config.getElem?_after_of_ne (hk : c.threads[k]? = some th) (hne : k ≠ t) (e : Effect σ ι) :
    (c.after t rest e).threads[k]? = some th := by
  have hlt := (List.getElem?_eq_some_iff.mp hk).1
  rw [Config.after, List.getElem?_append_left (by simpa using hlt), List.getElem?_set_ne hne.symm, hk]

theorem Config.getElem?_after_cases (ht : c.threads[t]? = some (i :: rest)) {e : Effect σ ι}
    (hk : (c.after t rest e).threads[k]? = some th) :
    k = t ∧ th = e.next ++ rest ∨ k ≠ t ∧ c.threads[k]? = some th ∨
      ∃ j, k = c.threads.length + j ∧ e.spawned[j]? = some th := by
  have hlen : (c.threads.set t (e.next ++ rest)).length = c.threads.length := List.length_set
  by_cases hlt : k < c.threads.length
  · by_cases hkt : k = t
    · subst hkt
      exact .inl ⟨rfl, Option.some.inj (hk.symm.trans (Config.getElem?_after_self ht e))⟩
    · rw [Config.after, List.getElem?_append_left (by rwa [hlen]),
        List.getElem?_set_ne (Ne.symm hkt)] at hk
      exact .inr (.inl ⟨hkt, hk⟩)
  · rw [Config.after, List.getElem?_append_right (by rwa [hlen, ← not_lt]), hlen] at hk
    exact .inr (.inr ⟨_, (Nat.add_sub_cancel' (not_lt.mp hlt)).symm, hk⟩)

end

/-- A labelling of the goroutines changes at the one that steps, and the ones it starts get labels. -/
theorem Config.forall₂_after {c : Config σ ι} {t : ℕ} {th : List ι} {ρ : Type} {P : ρ → List ι → Prop}
    {labels : List ρ} (hlabels : List.Forall₂ P labels c.threads) (ht : c.threads[t]? = some th)
    (rest : List ι) (e : Effect σ ι) :
    ∃ A r B, labels = A ++ r :: B ∧ P r th ∧ ∀ {r' new}, P r' (e.next ++ rest) →
      List.Forall₂ P new e.spawned → List.Forall₂ P (A ++ r' :: B ++ new) (c.after t rest e).threads := by
  obtain ⟨hlt, rfl⟩ := List.getElem?_eq_some_iff.mp ht
  have hlt' : t < labels.length := hlabels.length_eq ▸ hlt
  refine ⟨labels.take t, labels[t], labels.drop (t + 1), ?_, hlabels.get hlt' hlt, fun hr' hnew ↦ ?_⟩
  · rw [List.getElem_cons_drop, List.take_append_drop]
  · rw [Config.after, List.set_eq_take_cons_drop _ hlt]
    exact List.rel_append (List.rel_append (List.forall₂_take t hlabels)
      (.cons hr' (List.forall₂_drop _ hlabels))) hnew

/-- A goroutine's step trades its instruction for the fresh ones and leaves the rest of
the soup alone. -/
theorem Config.soup_step {c : Config σ ι} {t : ℕ} {i : ι} {rest : List ι}
    (ht : c.threads[t]? = some (i :: rest)) :
    ∃ R : Multiset ι, c.soup = i ::ₘ R ∧ ∀ e, (c.after t rest e).soup = e.fresh + R := by
  obtain ⟨hlt, hget⟩ := List.getElem?_eq_some_iff.mp ht
  have hsplit : c.threads = c.threads.take t ++ (i :: rest) :: c.threads.drop (t + 1) := by
    rw [← hget, List.getElem_cons_drop, List.take_append_drop]
  have hset (l : List ι) : c.threads.set t l = c.threads.take t ++ l :: c.threads.drop (t + 1) :=
    List.set_eq_take_cons_drop l hlt
  generalize c.threads.take t = before at hsplit hset
  generalize c.threads.drop (t + 1) = behind at hsplit hset
  refine ⟨(before.flatten ++ (rest ++ behind.flatten) : List ι), ?_, fun e ↦ ?_⟩
  · simp only [Config.soup, hsplit, List.flatten_append, List.flatten_cons, List.cons_append,
      Multiset.cons_coe, Multiset.coe_eq_coe]
    exact List.perm_middle
  · simp only [Config.soup, Config.after, Effect.fresh, hset, List.flatten_append,
      List.flatten_cons, ← Multiset.coe_add]
    abel

namespace Machine

variable (M : Machine σ ι χ)

/-- Runs in which every step meets the condition `G` on the configuration before it, the
instruction executed and the choice made. -/
inductive Runs (G : Config σ ι → ι → χ → Prop) (c₀ : Config σ ι) : Config σ ι → Prop
  | start : Runs G c₀ c₀
  | step {c : Config σ ι} {t : ℕ} {i : ι} {rest : List ι} {x : χ} {e : Effect σ ι} :
      Runs G c₀ c → c.threads[t]? = some (i :: rest) → G c i x →
      M.exec c.shared i x = some e → Runs G c₀ (c.after t rest e)

def Reaches (c₀ c : Config σ ι) : Prop := M.Runs (fun _ _ _ ↦ True) c₀ c

variable {M}

theorem Runs.mono {G H : Config σ ι → ι → χ → Prop} {c₀ c : Config σ ι}
    (hGH : ∀ c i x, G c i x → H c i x) (h : M.Runs G c₀ c) : M.Runs H c₀ c := by
  induction h with
  | start => exact .start
  | step _ ht hg he ih => exact ih.step ht (hGH _ _ _ hg) he

theorem Runs.strengthen {G : Config σ ι → ι → χ → Prop} {P : Config σ ι → Prop} {c₀ c : Config σ ι}
    (hP : ∀ c, M.Runs G c₀ c → P c) (h : M.Runs G c₀ c) :
    M.Runs (fun c i x ↦ G c i x ∧ P c) c₀ c := by
  induction h with
  | start => exact .start
  | step h ht hg he ih => exact ih.step ht ⟨hg, hP _ h⟩ he

/-- A run under one guard is a run under another, if it follows from the first and from what is
known of every state of the run. -/
theorem Runs.refine {G H : Config σ ι → ι → χ → Prop} {P : Config σ ι → Prop} {c₀ c : Config σ ι}
    (hP : ∀ c, M.Runs G c₀ c → P c) (hGH : ∀ c i x, i ∈ c.soup → P c → G c i x → H c i x)
    (h : M.Runs G c₀ c) : M.Runs H c₀ c := by
  induction h with
  | start => exact .start
  | @step c t i rest x e h ht hg he ih =>
    have hi : i ∈ c.soup := Config.mem_soup.mpr ⟨_, List.mem_of_getElem? ht, List.mem_cons_self⟩
    exact ih.step ht (hGH c i x hi (hP c h) hg) he

theorem Runs.reaches {G : Config σ ι → ι → χ → Prop} {c₀ c : Config σ ι}
    (h : M.Runs G c₀ c) : M.Reaches c₀ c := h.mono fun _ _ _ _ ↦ trivial

/-- An invariant of the shared state and the soup is checked one instruction at a time;
`R` is the soup without the instruction being executed. -/
theorem Runs.soup_invariant {G : Config σ ι → ι → χ → Prop} {c₀ c : Config σ ι}
    (I : σ → Multiset ι → Prop) (hstart : I c₀.shared c₀.soup)
    (hstep : ∀ (c : Config σ ι) i x R e, c.soup = i ::ₘ R → I c.shared (i ::ₘ R) → G c i x →
      M.exec c.shared i x = some e → I e.shared (e.fresh + R))
    (h : M.Runs G c₀ c) : I c.shared c.soup := by
  induction h with
  | start => exact hstart
  | @step c t i rest x e _ ht hg he ih =>
    obtain ⟨R, hR, hafter⟩ := Config.soup_step ht
    rw [hafter e]
    exact hstep c i x R e hR (hR ▸ ih) hg he

theorem Runs.ticket_invariant {G : Config σ ι → ι → χ → Prop} {c₀ c : Config σ ι}
    (next : σ → ℕ) (holds : ι → Bool) (k : ℕ)
    (hstart : c₀.soup.countP (holds ·) ≤ if k < next c₀.shared then 1 else 0)
    (hstep : ∀ (c : Config σ ι) i x e, G c i x → M.exec c.shared i x = some e →
      e.fresh.countP (holds ·) + (if k < next c.shared then 1 else 0) ≤
        (if holds i then 1 else 0) + (if k < next e.shared then 1 else 0))
    (h : M.Runs G c₀ c) : c.soup.countP (holds ·) ≤ if k < next c.shared then 1 else 0 := by
  refine h.soup_invariant (fun s S ↦ S.countP (holds ·) ≤ if k < next s then 1 else 0) hstart ?_
  intro c i x R e _ hinv hg he
  have hbalance := hstep c i x e hg he
  rw [Multiset.countP_cons] at hinv
  rw [Multiset.countP_add]
  omega

/-- Owicki and Gries: `I` holds of the shared state and `J` of every instruction still to
be executed, provided each instruction establishes both for what it leaves behind and no
instruction interferes with another's `J`. -/
theorem Runs.local_invariant {G : Config σ ι → ι → χ → Prop} {c₀ c : Config σ ι}
    (I : σ → Prop) (J : σ → ι → Prop) (hI : I c₀.shared) (hJ : ∀ i ∈ c₀.soup, J c₀.shared i)
    (own : ∀ (c : Config σ ι) i x e, I c.shared → J c.shared i → G c i x →
      M.exec c.shared i x = some e → I e.shared ∧ ∀ k ∈ e.fresh, J e.shared k)
    (stable : ∀ (c : Config σ ι) i x e, I c.shared → J c.shared i → G c i x →
      M.exec c.shared i x = some e → ∀ k ∈ c.soup, J c.shared k → J e.shared k)
    (h : M.Runs G c₀ c) : I c.shared ∧ ∀ i ∈ c.soup, J c.shared i := by
  refine h.soup_invariant (fun s S ↦ I s ∧ ∀ i ∈ S, J s i) ⟨hI, hJ⟩ ?_
  intro c i x R e hsoup hinv hg he
  obtain ⟨hs, hS⟩ := hinv
  have hi := hS i (Multiset.mem_cons_self i R)
  obtain ⟨hs', hfresh⟩ := own c i x e hs hi hg he
  refine ⟨hs', fun k hk ↦ ?_⟩
  rcases Multiset.mem_add.mp hk with hk | hk
  · exact hfresh k hk
  · have hk := Multiset.mem_cons_of_mem (b := i) hk
    exact stable c i x e hs hi hg he k (hsoup ▸ hk) (hS k hk)

theorem Runs.shared_invariant {G : Config σ ι → ι → χ → Prop} {c₀ c : Config σ ι}
    (I : σ → Prop) (hI : I c₀.shared)
    (hstep : ∀ (c : Config σ ι) i x e, I c.shared → G c i x →
      M.exec c.shared i x = some e → I e.shared)
    (h : M.Runs G c₀ c) : I c.shared := by
  induction h with
  | start => exact hI
  | step _ _ hg he ih => exact hstep _ _ _ _ ih hg he

/-- A goroutine of its own kind: `P` of goroutine `t` is kept by its own steps and by those of
all others. -/
theorem Runs.thread_invariant {G : Config σ ι → ι → χ → Prop} {c₀ c : Config σ ι} {t : ℕ}
    (P : σ → List ι → Prop) (hstart : ∃ th, c₀.threads[t]? = some th ∧ P c₀.shared th)
    (own : ∀ s i rest x e, P s (i :: rest) → M.exec s i x = some e → P e.shared (e.next ++ rest))
    (stable : ∀ s i x e th, P s th → M.exec s i x = some e → P e.shared th)
    (h : M.Runs G c₀ c) : ∃ th, c.threads[t]? = some th ∧ P c.shared th := by
  induction h with
  | start => exact hstart
  | @step c k i rest x e _ hk _ he ih =>
    obtain ⟨th, ht, hth⟩ := ih
    by_cases hkt : t = k
    · subst hkt
      obtain rfl : th = i :: rest := Option.some.inj (ht.symm.trans hk)
      exact ⟨_, Config.getElem?_after_self hk e, own _ _ _ _ _ hth he⟩
    · exact ⟨th, Config.getElem?_after_of_ne ht hkt e, stable _ _ _ _ _ hth he⟩

theorem Runs.length_le {G : Config σ ι → ι → χ → Prop} {c₀ c : Config σ ι} (h : M.Runs G c₀ c) :
    c₀.threads.length ≤ c.threads.length := by
  induction h with
  | start => exact le_rfl
  | step _ _ _ _ ih =>
    rw [Config.after, List.length_append, List.length_set]
    omega

/-- The same for all goroutines at once, each by its number. Those that a step starts are
numbered on from the last, and what a step does to the others may be judged from the goroutine
that takes it. -/
theorem Runs.threads_invariant {G : Config σ ι → ι → χ → Prop} {c₀ c : Config σ ι}
    (P : σ → ℕ → List ι → Prop) (hstart : ∀ k th, c₀.threads[k]? = some th → P c₀.shared k th)
    (own : ∀ (c : Config σ ι) k i rest x e, P c.shared k (i :: rest) → G c i x →
      M.exec c.shared i x = some e → P e.shared k (e.next ++ rest) ∧
        ∀ m th, e.spawned[m]? = some th → P e.shared (c.threads.length + m) th)
    (stable : ∀ (c : Config σ ι) k i rest x e, P c.shared k (i :: rest) → G c i x →
      M.exec c.shared i x = some e → ∀ m th, m ≠ k → P c.shared m th → P e.shared m th)
    (h : M.Runs G c₀ c) : ∀ k th, c.threads[k]? = some th → P c.shared k th := by
  induction h with
  | start => exact hstart
  | @step c k i rest x e _ hk hg he ih =>
    intro m th hm
    obtain ⟨hnext, hspawned⟩ := own c k i rest x e (ih k _ hk) hg he
    rcases Config.getElem?_after_cases hk hm with ⟨rfl, rfl⟩ | ⟨hne, hold⟩ | ⟨j, rfl, hj⟩
    · exact hnext
    · exact stable c k i rest x e (ih k _ hk) hg he m th hne (ih m th hold)
    · exact hspawned j th hj

variable (M) in
def play (G : Config σ ι → ι → χ → Prop) [∀ c i x, Decidable (G c i x)]
    (c : Config σ ι) : List (ℕ × χ) → Option (Config σ ι)
  | [] => some c
  | (t, x) :: rest =>
    match c.threads[t]? with
    | some (i :: is) =>
      if G c i x then
        match M.exec c.shared i x with
        | some e => play G (c.after t is e) rest
        | none => none
      else none
    | _ => none

theorem runs_of_play {G : Config σ ι → ι → χ → Prop} [∀ c i x, Decidable (G c i x)]
    {c₀ c d : Config σ ι} {schedule : List (ℕ × χ)} (h₀ : M.Runs G c₀ c)
    (h : M.play G c schedule = some d) : M.Runs G c₀ d := by
  induction schedule generalizing c with
  | nil =>
    cases h
    exact h₀
  | cons m rest ih =>
    obtain ⟨t, x⟩ := m
    simp only [play] at h
    split at h
    · next i is ht =>
      split at h
      · next hg =>
        split at h
        · next e he => exact ih (h₀.step ht hg he) h
        · cases h
      · cases h
    · cases h

theorem exists_run {G : Config σ ι → ι → χ → Prop} [∀ c i x, Decidable (G c i x)]
    {c₀ : Config σ ι} {P : Config σ ι → Prop} [DecidablePred P] (schedule : List (ℕ × χ))
    (h : (M.play G c₀ schedule).any (P ·) = true) : ∃ c, M.Runs G c₀ c ∧ P c := by
  cases hp : M.play G c₀ schedule with
  | none => simp [hp] at h
  | some c => exact ⟨c, runs_of_play .start hp, by simpa [hp] using h⟩

variable (M) in
/-- One goroutine, run to its end with nothing else moving; it starts no others. -/
inductive Alone : σ → List ι → σ → Prop
  | done {s : σ} : Alone s [] s
  | step {s s' s'' : σ} {i : ι} {x : χ} {next rest : List ι} :
      M.exec s i x = some ⟨s', next, []⟩ → Alone s' (next ++ rest) s'' → Alone s (i :: rest) s''

theorem Alone.trans {s s' s'' : σ} {is js : List ι} (h : M.Alone s is s')
    (h' : M.Alone s' js s'') : M.Alone s (is ++ js) s'' := by
  induction h with
  | done => exact h'
  | step he _ ih =>
    rw [List.cons_append]
    refine .step he ?_
    rw [← List.append_assoc]
    exact ih h'

theorem Alone.invariant {I : σ → Prop} (hstep : ∀ s i x e, I s → M.exec s i x = some e → I e.shared)
    {s s' : σ} {is : List ι} (h : M.Alone s is s') (hs : I s) : I s' := by
  induction h with
  | done => exact hs
  | step he _ ih => exact ih (hstep _ _ _ _ hs he)

theorem Alone.reaches {s s' : σ} {is : List ι} (h : M.Alone s is s') {threads : List (List ι)}
    {t : ℕ} (ht : threads[t]? = some is) : M.Reaches ⟨s, threads⟩ ⟨s', threads.set t []⟩ := by
  suffices hrun : ∀ c₀, M.Reaches c₀ ⟨s, threads⟩ → M.Reaches c₀ ⟨s', threads.set t []⟩ from
    hrun _ .start
  intro c₀ hc₀
  induction h generalizing threads with
  | @done s =>
    obtain ⟨hlt, hget⟩ := List.getElem?_eq_some_iff.mp ht
    rwa [← hget, List.set_getElem_self]
  | @step s s' s'' i x next rest he _ ih =>
    have hset : (threads.set t (next ++ rest))[t]? = some (next ++ rest) := by
      obtain ⟨hlt, -⟩ := List.getElem?_eq_some_iff.mp ht
      simp [hlt]
    have hnext : M.Reaches c₀ ⟨s', threads.set t (next ++ rest)⟩ := by
      have hstep := Runs.step hc₀ ht trivial he
      rwa [Config.after, List.append_nil] at hstep
    have hlast := ih hset hnext
    rwa [List.set_set] at hlast

end Machine

end AgentGpu.Foundation
