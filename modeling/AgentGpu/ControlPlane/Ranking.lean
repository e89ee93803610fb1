import AgentGpu.ControlPlane.Scheduler
import AgentGpu.Foundation.Sorting
import AgentGpu.Foundation.Weights
import Mathlib.Data.String.Basic
import Mathlib.Tactic.Ring

namespace AgentGpu.ControlPlane

open Foundation OrderDual

namespace Snapshot

variable {w : Snapshot} (model preferredWorkerID : String)

/-- The worker the conversation is bound to; an empty id names none. -/
def preferred (w : Snapshot) : Bool := preferredWorkerID ≠ "" ∧ w.id = preferredWorkerID

def freeGiB (w : Snapshot) : ℕ := (w.freeVRAM / freeVRAMUnit).toNat

/-- What the score stands for: model locality, then affinity, headroom, load, active jobs. -/
def merit (w : Snapshot) : Bool ×ₗ Bool ×ₗ ℕ ×ₗ ℕᵒᵈ ×ₗ ℕᵒᵈ :=
  toLex (w.hasModel model, toLex (w.preferred preferredWorkerID, toLex (w.freeGiB,
    toLex (toDual w.load.toNat, toDual w.activeJobs.toNat))))

/-- The whole order of placement: merit, then the smaller id. -/
def rank (w : Snapshot) : (Bool ×ₗ Bool ×ₗ ℕ ×ₗ ℕᵒᵈ ×ₗ ℕᵒᵈ) ×ₗ Stringᵒᵈ :=
  toLex (w.merit model preferredWorkerID, toDual w.id)

structure InRange (w : Snapshot) : Prop where
  load : w.load.toNat ≤ 100
  activeJobs : w.activeJobs.toNat ≤ 49
  freeVRAM : w.freeVRAM.toNat < 10000 * 2 ^ 30

theorem InRange.freeGiB (h : w.InRange) : w.freeGiB ≤ 9999 := by
  have hvram := h.freeVRAM
  rw [Snapshot.freeGiB, UInt64.toNat_div, show freeVRAMUnit.toNat = 2 ^ 30 from rfl]
  omega

theorem orders_toNat (f : Snapshot → Bool) (S : Set Snapshot) :
    Orders S (fun w ↦ ((f w).toNat : ℤ)) f := by
  intro w _ v _
  dsimp only
  cases f w <;> cases f v <;> decide

theorem orders_neg (f : Snapshot → ℕ) (S : Set Snapshot) :
    Orders S (fun w ↦ -(f w : ℤ)) fun w ↦ toDual (f w) := by
  intro w _ v _
  rw [toDual_lt_toDual, neg_lt_neg_iff, Int.ofNat_lt]

theorem scoreFor_eq (w : Snapshot) :
    w.scoreFor model preferredWorkerID =
      (w.hasModel model).toNat * weightModelLoaded +
        ((w.preferred preferredWorkerID).toNat * weightBoundWorkerBonus +
          (w.freeGiB * weightFreeVRAMPerGiB +
            (-w.load.toNat * weightLoadPenalty + -w.activeJobs.toNat))) := by
  have hmodel : (if w.hasModel model then weightModelLoaded else 0) =
      (w.hasModel model).toNat * weightModelLoaded := by
    cases w.hasModel model <;> rfl
  have hbonus : (if preferredWorkerID ≠ "" ∧ w.id = preferredWorkerID then weightBoundWorkerBonus else 0) =
      (w.preferred preferredWorkerID).toNat * weightBoundWorkerBonus := by
    rw [preferred]
    split_ifs with h <;> simp [h]
  rw [scoreFor, score, hmodel, hbonus, freeGiB, show weightActiveJobPenalty = 1 from rfl]
  ring

theorem orders_merit :
    Orders {w : Snapshot | w.InRange} (scoreFor · model preferredWorkerID)
      (merit model preferredWorkerID) := by
  simp only [scoreFor_eq]
  refine (orders_toNat (·.hasModel model) _).weigh ((orders_toNat (·.preferred preferredWorkerID) _).weigh
    (Orders.weigh (v := fun w ↦ (w.freeGiB : ℤ)) (fun _ _ _ _ ↦ Int.ofNat_lt)
      ((orders_neg (·.load.toNat) _).weigh (orders_neg (·.activeJobs.toNat) _) _ ?_) _ ?_) _ ?_) _ ?_
  all_goals
    intro w hw v hv
    have hload := hw.load
    have hload' := hv.load
    have hjobs := hw.activeJobs
    have hjobs' := hv.activeJobs
    have hgib := hw.freeGiB
    have hgib' := hv.freeGiB
  · rw [show weightLoadPenalty = 50 from rfl]
    omega
  · rw [show weightLoadPenalty = 50 from rfl, show weightFreeVRAMPerGiB = 10000 from rfl]
    omega
  · rw [show weightLoadPenalty = 50 from rfl, show weightFreeVRAMPerGiB = 10000 from rfl,
      show weightBoundWorkerBonus = 100000000 from rfl]
    omega
  · have hbonus := Bool.toNat_le (w.preferred preferredWorkerID)
    rw [show weightLoadPenalty = 50 from rfl, show weightFreeVRAMPerGiB = 10000 from rfl,
      show weightBoundWorkerBonus = 100000000 from rfl, show weightModelLoaded = 1000000000 from rfl]
    omega

end Snapshot

section Best

variable {score : Snapshot → ℤ} {best w : Snapshot} {rest : List Snapshot}

theorem bestOf_mem : bestOf score best rest ∈ best :: rest := by
  induction rest generalizing best with
  | nil => exact List.mem_singleton_self best
  | cons w rest ih =>
    rw [bestOf]
    split_ifs
    · exact List.mem_cons_of_mem best ih
    · exact List.cons_subset_cons best (List.subset_cons_self w rest) ih

theorem le_bestOf (score : Snapshot → ℤ) (hsorted : (best :: rest).Pairwise (·.id < ·.id)) (hw : w ∈ best :: rest) :
    toLex (score w, toDual w.id) ≤
      toLex (score (bestOf score best rest), toDual (bestOf score best rest).id) := by
  induction rest generalizing best w with
  | nil => rw [List.mem_singleton.mp hw, bestOf]
  | cons v rest ih =>
    obtain ⟨hbest, hrest⟩ := List.pairwise_cons.mp hsorted
    rw [bestOf]
    split_ifs with hlt
    · rcases List.mem_cons.mp hw with rfl | hw
      · refine le_trans (le_of_lt ?_) (ih hrest List.mem_cons_self)
        exact Prod.Lex.toLex_lt_toLex.mpr (.inl hlt)
      · exact ih hrest hw
    · have hkept : (best :: rest).Pairwise (·.id < ·.id) := hsorted.sublist (by simp)
      rcases List.mem_cons.mp hw with rfl | hw
      · exact ih hkept List.mem_cons_self
      rcases List.mem_cons.mp hw with rfl | hw
      · -- at the same score, the one before has the smaller id
        refine le_trans ?_ (ih hkept List.mem_cons_self)
        have hid := hbest w List.mem_cons_self
        exact Prod.Lex.toLex_le_toLex.mpr ((lt_or_eq_of_le (not_lt.mp hlt)).imp_right fun heq ↦
          ⟨heq, toDual_le_toDual.mpr hid.le⟩)
      · exact ih hkept (List.mem_cons_of_mem best hw)

end Best

section Choice

variable {workers : List Snapshot} {model preferredWorkerID : String}

def Greatest (workers : List Snapshot) (model preferredWorkerID : String) (w : Snapshot) : Prop :=
  w ∈ workers ∧ w.runnable model ∧
    ∀ v ∈ workers, v.runnable model → v ≠ w →
      v.rank model preferredWorkerID < w.rank model preferredWorkerID

theorem Greatest.unique {w w' : Snapshot} (h : Greatest workers model preferredWorkerID w)
    (h' : Greatest workers model preferredWorkerID w') : w = w' := by
  by_contra hne
  have hlt := h'.2.2 w h.1 h.2.1 hne
  have hgt := h.2.2 w' h'.1 h'.2.1 (Ne.symm hne)
  exact lt_asymm hlt hgt

theorem mem_candidates {w : Snapshot} :
    w ∈ (workers.filter (·.runnable model)).insertionSort (·.id ≤ ·.id) ↔ w ∈ workers ∧ w.runnable model := by
  rw [List.mem_insertionSort, List.mem_filter]

theorem candidates_sorted (hids : (workers.map Snapshot.id).Nodup) :
    ((workers.filter (·.runnable model)).insertionSort (·.id ≤ ·.id)).Pairwise (·.id < ·.id) := by
  have hkeys : ((workers.filter (·.runnable model)).map Snapshot.id).Nodup :=
    hids.sublist (List.filter_sublist.map Snapshot.id)
  exact pairwise_lt_insertionSort_key hkeys

theorem bestOf_greatest {w : Snapshot} {rest : List Snapshot} (hids : (workers.map Snapshot.id).Nodup)
    (hrange : ∀ w ∈ workers, w.InRange)
    (hsort : (workers.filter (·.runnable model)).insertionSort (·.id ≤ ·.id) = w :: rest) :
    Greatest workers model preferredWorkerID (bestOf (·.scoreFor model preferredWorkerID) w rest) := by
  have hmem (v : Snapshot) : v ∈ w :: rest ↔ v ∈ workers ∧ v.runnable model := by
    rw [← hsort, mem_candidates]
  have hsorted : (w :: rest).Pairwise (·.id < ·.id) := hsort ▸ candidates_sorted hids
  set best := bestOf (·.scoreFor model preferredWorkerID) w rest with hbest
  obtain ⟨hin, hrun⟩ := (hmem best).mp bestOf_mem
  refine ⟨hin, hrun, fun v hv hvrun hne ↦ ?_⟩
  have hle : toLex (v.scoreFor model preferredWorkerID, toDual v.id) ≤
      toLex (best.scoreFor model preferredWorkerID, toDual best.id) :=
    le_bestOf (·.scoreFor model preferredWorkerID) hsorted ((hmem v).mpr ⟨hv, hvrun⟩)
  have hid : v.id ≠ best.id := fun hid ↦ hne (List.inj_on_of_nodup_map hids hv hin hid)
  have horders := Snapshot.orders_merit model preferredWorkerID
  rw [Snapshot.rank, Snapshot.rank, Prod.Lex.toLex_lt_toLex]
  rcases Prod.Lex.toLex_le_toLex.mp hle with hlt | ⟨heq, hlast⟩
  · exact .inl ((horders v (hrange v hv) best (hrange best hin)).mp hlt)
  · refine .inr ⟨(horders.eq_iff (hrange v hv) (hrange best hin)).mp heq, ?_⟩
    exact lt_of_le_of_ne hlast fun h ↦ hid (toDual_inj.mp h)

theorem pickPreferring_eq_none :
    pickPreferring workers model preferredWorkerID = none ↔ ∀ w ∈ workers, w.runnable model = false := by
  rw [pickPreferring]
  split
  case h_1 hsort =>
    refine iff_of_true rfl fun w hw ↦ Bool.eq_false_iff.mpr fun hrun ↦ ?_
    have hin := mem_candidates.mpr ⟨hw, hrun⟩
    rw [hsort] at hin
    cases hin
  case h_2 w rest hsort =>
    refine iff_of_false (Option.some_ne_none _) fun hnone ↦ ?_
    obtain ⟨hw, hrun⟩ := mem_candidates.mp (hsort ▸ List.mem_cons_self)
    rw [hnone w hw] at hrun
    cases hrun

theorem pickPreferring_eq_some (hids : (workers.map Snapshot.id).Nodup)
    (hrange : ∀ w ∈ workers, w.InRange) (id : String) :
    pickPreferring workers model preferredWorkerID = some id ↔
      ∃ w, Greatest workers model preferredWorkerID w ∧ w.id = id := by
  rw [pickPreferring]
  split
  case h_1 hsort =>
    refine iff_of_false (Option.some_ne_none id).symm fun ⟨w, hw, _⟩ ↦ ?_
    have hin := mem_candidates.mpr ⟨hw.1, hw.2.1⟩
    rw [hsort] at hin
    cases hin
  case h_2 w rest hsort =>
    have hbest : Greatest workers model preferredWorkerID _ := bestOf_greatest hids hrange hsort
    rw [Option.some_inj]
    refine ⟨fun hid ↦ ⟨_, hbest, hid⟩, fun ⟨v, hv, hid⟩ ↦ ?_⟩
    rw [hbest.unique hv, hid]

theorem Greatest.perm {workers' : List Snapshot} {w : Snapshot} (hperm : workers.Perm workers') :
    Greatest workers' model preferredWorkerID w ↔ Greatest workers model preferredWorkerID w := by
  simp only [Greatest, hperm.mem_iff]

/-- `PickPreferring` chooses the greatest worker by rank, whatever the order of the fleet. -/
theorem pickPreferring_lexicographic (workers : List Snapshot) (hids : (workers.map Snapshot.id).Nodup)
    (hrange : ∀ w ∈ workers, w.InRange) (model preferredWorkerID : String) :
    (∀ id, pickPreferring workers model preferredWorkerID = some id ↔
      ∃ w, Greatest workers model preferredWorkerID w ∧ w.id = id) ∧
    (pickPreferring workers model preferredWorkerID = none ↔ ∀ w ∈ workers, w.runnable model = false) ∧
    ∀ workers', workers.Perm workers' →
      pickPreferring workers' model preferredWorkerID = pickPreferring workers model preferredWorkerID := by
  refine ⟨pickPreferring_eq_some hids hrange, pickPreferring_eq_none, fun workers' hperm ↦ ?_⟩
  have hids' : (workers'.map Snapshot.id).Nodup := (hperm.map Snapshot.id).nodup_iff.mp hids
  have hrange' (w : Snapshot) (hw : w ∈ workers') : w.InRange := hrange w (hperm.mem_iff.mpr hw)
  refine Option.ext fun id ↦ ?_
  rw [pickPreferring_eq_some hids' hrange', pickPreferring_eq_some hids hrange]
  simp only [Greatest.perm hperm]

def freshAndBound : List Snapshot :=
  [⟨"w1", [{ name := "llama3" }], 0, 0, 25769803776, 21474836480, 0, "", .online, 0⟩,
    ⟨"w2", [{ name := "llama3" }], 0, 3, 25769803776, 2147483648, 90, "", .online, 0⟩]

theorem pickPreferring_lexicographic_freshAndBound :
    ∃ w, Greatest freshAndBound "llama3" "w2" w ∧ w.id = "w2" := by
  have hids : (freshAndBound.map Snapshot.id).Nodup := by decide
  have hrange : ∀ w ∈ freshAndBound, w.InRange := by
    simp only [freshAndBound, List.forall_mem_cons, List.not_mem_nil, false_imp_iff, implies_true, and_true]
    exact ⟨⟨by decide, by decide, by decide⟩, by decide, by decide, by decide⟩
  obtain ⟨hsome, -, -⟩ := pickPreferring_lexicographic freshAndBound hids hrange "llama3" "w2"
  exact (hsome "w2").mp (by decide +kernel)

end Choice

end AgentGpu.ControlPlane
