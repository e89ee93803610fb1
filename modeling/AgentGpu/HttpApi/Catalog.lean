import AgentGpu.ControlPlane.Submission
import AgentGpu.Foundation.Grouping

namespace AgentGpu.HttpApi

open Foundation Auth ControlPlane

structure CatalogModel where
  name : String
  digest : String
  workers : List String
  deriving DecidableEq

structure Agg where
  digest : String := ""
  workers : List String := []

abbrev Report := String × Model

def gather (byName : Table String Agg) (r : Report) : Table String Agg :=
  let a := (byName.lookup r.2.name).getD {}
  byName.insert r.2.name
    { digest := if a.digest = "" then r.2.digest else a.digest
      workers := a.workers.insert r.1 }

def aggregate (fleet : List Snapshot) : Table String Agg :=
  fleet.foldl (fun byName wk ↦
    if wk.status ≠ .online then byName
    else wk.models.foldl (fun byName m ↦ gather byName (wk.id, m)) byName) ∅

def catalog (fleet : List Snapshot) (key : APIKey) : List CatalogModel :=
  let visible := (aggregate fleet).entries.filter fun e ↦ (Action.decide .infer key e.1).allowed
  let out := visible.map fun e ↦
    (⟨e.1, e.2.digest, e.2.workers.insertionSort (· ≤ ·)⟩ : CatalogModel)
  out.insertionSort (·.name ≤ ·.name)

def reports (fleet : List Snapshot) : List Report :=
  (fleet.filter (·.status = .online)).flatMap fun wk ↦ wk.models.map (wk.id, ·)

theorem mem_reports {fleet : List Snapshot} {r : Report} :
    r ∈ reports fleet ↔ ∃ w ∈ fleet, w.status = .online ∧ w.id = r.1 ∧ r.2 ∈ w.models := by
  simp only [reports, List.mem_flatMap, List.mem_filter, decide_eq_true_eq, List.mem_map]
  constructor
  · rintro ⟨w, ⟨hw, honline⟩, m, hm, rfl⟩
    exact ⟨w, hw, honline, rfl, hm⟩
  · rintro ⟨w, hw, honline, hid, hm⟩
    exact ⟨w, ⟨hw, honline⟩, r.2, hm, Prod.ext hid rfl⟩

theorem aggregate_eq (fleet : List Snapshot) : aggregate fleet = (reports fleet).foldl gather ∅ := by
  unfold aggregate
  generalize (∅ : Table String Agg) = byName
  induction fleet generalizing byName with
  | nil => rfl
  | cons wk fleet ih =>
    rw [List.foldl_cons, ih]
    by_cases honline : wk.status = .online
    · have hreports : reports (wk :: fleet) = wk.models.map (wk.id, ·) ++ reports fleet := by
        simp [reports, honline]
      rw [if_neg (not_not.mpr honline), hreports, List.foldl_append, List.foldl_map]
    · have hreports : reports (wk :: fleet) = reports fleet := by simp [reports, honline]
      rw [if_pos honline, hreports]

def Agg.add (a : Agg) (r : Report) : Agg where
  digest := if a.digest = "" then r.2.digest else a.digest
  workers := a.workers.insert r.1

theorem gather_eq_addTo : gather = Table.addTo (·.2.name) (fun _ ↦ {}) Agg.add := rfl

structure Agg.Sums (rs : List Report) (a : Agg) : Prop where
  mem_workers : ∀ id, id ∈ a.workers ↔ ∃ r ∈ rs, r.1 = id
  nodup_workers : a.workers.Nodup
  digest_of_mem : a.digest = "" → ∀ r ∈ rs, r.2.digest = ""
  mem_of_digest : a.digest ≠ "" → ∃ r ∈ rs, r.2.digest = a.digest

def reportsOf (name : String) (rs : List Report) : List Report := rs.filter (·.2.name = name)

structure Gathers (rs : List Report) (byName : Table String Agg) : Prop where
  mem_iff : ∀ name, name ∈ byName ↔ ∃ r ∈ rs, r.2.name = name
  sums : ∀ name, ((byName.lookup name).getD {}).Sums (reportsOf name rs)

section

variable {rs : List Report} {a : Agg}

theorem Agg.Sums.concat (h : a.Sums rs) (r : Report) : (a.add r).Sums (rs ++ [r]) where
  mem_workers id := by
    simp only [Agg.add, List.mem_insert_iff, h.mem_workers, List.mem_append, List.mem_singleton]
    constructor
    · rintro (rfl | ⟨r', hr', hid⟩)
      · exact ⟨r, .inr rfl, rfl⟩
      · exact ⟨r', .inl hr', hid⟩
    · rintro ⟨r', hr' | rfl, hid⟩
      · exact .inr ⟨r', hr', hid⟩
      · exact .inl hid.symm
  nodup_workers := h.nodup_workers.insert
  digest_of_mem hdigest r' hr' := by
    dsimp only [Agg.add] at hdigest
    by_cases hnone : a.digest = ""
    case neg => exact absurd hdigest (by rwa [if_neg hnone])
    rw [if_pos hnone] at hdigest
    rcases List.mem_append.mp hr' with hr' | hr'
    · exact h.digest_of_mem hnone r' hr'
    · rwa [List.mem_singleton.mp hr']
  mem_of_digest hdigest := by
    dsimp only [Agg.add] at hdigest ⊢
    split_ifs at hdigest ⊢ with hnone
    · exact ⟨r, List.mem_append_right _ (List.mem_singleton_self r), rfl⟩
    · obtain ⟨r', hr', heq⟩ := h.mem_of_digest hnone
      exact ⟨r', List.mem_append_left _ hr', heq⟩

theorem Agg.sums_foldl (rs : List Report) : (rs.foldl Agg.add {}).Sums rs := by
  induction rs using List.reverseRecOn with
  | nil => exact ⟨by simp, .nil, by simp, fun h ↦ absurd rfl h⟩
  | append_singleton rs r ih =>
    rw [List.foldl_append]
    exact ih.concat r

theorem gathers_foldl (rs : List Report) : Gathers rs (rs.foldl gather ∅) where
  mem_iff name := by
    rw [gather_eq_addTo, AList.mem_keys, Table.mem_keys_foldl_addTo, List.mem_map]
  sums name := by
    rw [gather_eq_addTo, Table.getD_lookup_foldl_addTo]
    exact Agg.sums_foldl (reportsOf name rs)

end

section

variable {fleet : List Snapshot} {key : APIKey} {c : CatalogModel}

theorem pairwise_catalog (fleet : List Snapshot) (key : APIKey) :
    (catalog fleet key).Pairwise (·.name < ·.name) := by
  refine pairwise_lt_insertionSort_key ?_
  rw [List.map_map]
  exact (aggregate fleet).nodupKeys.sublist List.filter_sublist

theorem mem_catalog : c ∈ catalog fleet key ↔
    (Action.decide .infer key c.name).allowed ∧
      ∃ a, (aggregate fleet).lookup c.name = some a ∧ c.digest = a.digest ∧
        c.workers = a.workers.insertionSort (· ≤ ·) := by
  rw [catalog, List.mem_insertionSort, List.mem_map]
  constructor
  · rintro ⟨⟨name, a⟩, he, rfl⟩
    obtain ⟨he, hallowed⟩ := List.mem_filter.mp he
    exact ⟨hallowed, a, AList.mem_lookup_iff.mpr he, rfl, rfl⟩
  · rintro ⟨hallowed, a, ha, hdigest, hworkers⟩
    refine ⟨⟨c.name, a⟩, List.mem_filter.mpr ⟨AList.mem_lookup_iff.mp ha, hallowed⟩, ?_⟩
    rw [← hdigest, ← hworkers]

structure CatalogModel.Describes (c : CatalogModel) (fleet : List Snapshot) : Prop where
  sorted : c.workers.Pairwise (· < ·)
  mem_workers : ∀ id, id ∈ c.workers ↔
    ∃ w ∈ fleet, w.status = .online ∧ w.hasModel c.name ∧ w.id = id
  digest_eq : ∀ w ∈ fleet, w.status = .online → ∀ m ∈ w.models, m.name = c.name →
    m.digest ≠ "" → m.digest = c.digest
  reported : c.digest ≠ "" →
    ∃ w ∈ fleet, w.status = .online ∧ ∃ m ∈ w.models, m.name = c.name ∧ m.digest = c.digest

theorem mem_reportsOf {name : String} {r : Report} : r ∈ reportsOf name (reports fleet) ↔
    ∃ w ∈ fleet, w.status = .online ∧ w.id = r.1 ∧ r.2 ∈ w.models ∧ r.2.name = name := by
  rw [reportsOf, List.mem_filter, mem_reports, decide_eq_true_eq]
  constructor
  · rintro ⟨⟨w, hw, honline, hid, hm⟩, hname⟩
    exact ⟨w, hw, honline, hid, hm, hname⟩
  · rintro ⟨w, hw, honline, hid, hm, hname⟩
    exact ⟨⟨w, hw, honline, hid, hm⟩, hname⟩

theorem mem_aggregate {name : String} : name ∈ aggregate fleet ↔
    ∃ w ∈ fleet, w.status = .online ∧ w.hasModel name := by
  rw [aggregate_eq, (gathers_foldl _).mem_iff]
  simp only [mem_reports, Snapshot.hasModel, List.any_eq_true, decide_eq_true_eq]
  constructor
  · rintro ⟨r, ⟨w, hw, honline, -, hm⟩, hname⟩
    exact ⟨w, hw, honline, r.2, hm, hname⟩
  · rintro ⟨w, hw, honline, m, hm, hname⟩
    exact ⟨(w.id, m), ⟨w, hw, honline, rfl, hm⟩, hname⟩

theorem describes_of_mem_catalog (hc : c ∈ catalog fleet key)
    (hdigests : ∀ w ∈ fleet, ∀ w' ∈ fleet, ∀ m ∈ w.models, ∀ m' ∈ w'.models, m.name = m'.name →
      m.digest = "" ∨ m'.digest = "" ∨ m.digest = m'.digest) : c.Describes fleet := by
  obtain ⟨-, a, ha, hdigest, hworkers⟩ := mem_catalog.mp hc
  have hsums : a.Sums (reportsOf c.name (reports fleet)) := by
    have h := (gathers_foldl (reports fleet)).sums c.name
    rwa [← aggregate_eq, ha] at h
  have hreported (h : c.digest ≠ "") :
      ∃ w ∈ fleet, w.status = .online ∧ ∃ m ∈ w.models, m.name = c.name ∧ m.digest = c.digest := by
    obtain ⟨r, hr, heq⟩ := hsums.mem_of_digest (hdigest ▸ h)
    obtain ⟨w, hw, honline, -, hm, hname⟩ := mem_reportsOf.mp hr
    exact ⟨w, hw, honline, r.2, hm, hname, heq.trans hdigest.symm⟩
  refine ⟨?_, fun id ↦ ?_, fun w hw honline m hm hname hne ↦ ?_, hreported⟩
  · have hnodup : (a.workers.map id).Nodup := (List.map_id a.workers).symm ▸ hsums.nodup_workers
    rw [hworkers]
    exact pairwise_lt_insertionSort_key hnodup
  · rw [hworkers, List.mem_insertionSort, hsums.mem_workers]
    simp only [mem_reportsOf, Snapshot.hasModel, List.any_eq_true, decide_eq_true_eq]
    constructor
    · rintro ⟨r, ⟨w, hw, honline, hid, hm, hname⟩, rfl⟩
      exact ⟨w, hw, honline, ⟨r.2, hm, hname⟩, hid⟩
    · rintro ⟨w, hw, honline, ⟨m, hm, hname⟩, rfl⟩
      exact ⟨(w.id, m), ⟨w, hw, honline, rfl, hm, hname⟩, rfl⟩
  · have hr : (w.id, m) ∈ reportsOf c.name (reports fleet) :=
      mem_reportsOf.mpr ⟨w, hw, honline, rfl, hm, hname⟩
    have hsome : c.digest ≠ "" := fun h ↦ hne (hsums.digest_of_mem (hdigest ▸ h) _ hr)
    obtain ⟨w', hw', -, m', hm', hname', heq⟩ := hreported hsome
    rcases hdigests w hw w' hw' m hm m' hm' (hname.trans hname'.symm) with h | h | h
    · exact absurd h hne
    · exact absurd (heq.symm.trans h) hsome
    · exact h.trans heq

/-- The catalog lists what may be submitted and is served, once each and in the order of the
names, and the submit calls on that fleet refuse none of it. -/
theorem catalog_matches_dispatch (fleet : List Snapshot) (key : APIKey)
    (hdigests : ∀ w ∈ fleet, ∀ w' ∈ fleet, ∀ m ∈ w.models, ∀ m' ∈ w'.models, m.name = m'.name →
      m.digest = "" ∨ m'.digest = "" ∨ m.digest = m'.digest) :
    (catalog fleet key).Pairwise (·.name < ·.name) ∧
      (∀ name, (∃ c ∈ catalog fleet key, c.name = name) ↔
        (∃ w ∈ fleet, w.status = .online ∧ w.hasModel name) ∧
          (Action.decide .infer key name).allowed) ∧
      (∀ c ∈ catalog fleet key, c.Describes fleet) ∧
      ∀ g : Gateway, g.server.fleet.Perm fleet → ∀ c ∈ catalog fleet key, ∀ sub : Submission,
        sub.job.model = c.name → ∀ err : SubmitError, err = .forbidden ∨ err = .modelUnavailable →
          (g.submitAuthorizedJob key sub).2 ≠ .refused err ∧
            (g.submitAuthorizedJobStream key sub).2 ≠ .refused err := by
  have hlisted (name : String) : (∃ c ∈ catalog fleet key, c.name = name) ↔
      (∃ w ∈ fleet, w.status = .online ∧ w.hasModel name) ∧
        (Action.decide .infer key name).allowed := by
    rw [← mem_aggregate, ← AList.lookup_isSome, Option.isSome_iff_exists]
    constructor
    · rintro ⟨c, hc, rfl⟩
      obtain ⟨hallowed, a, ha, -⟩ := mem_catalog.mp hc
      exact ⟨⟨a, ha⟩, hallowed⟩
    · rintro ⟨⟨a, ha⟩, hallowed⟩
      exact ⟨⟨name, a.digest, a.workers.insertionSort (· ≤ ·)⟩,
        mem_catalog.mpr ⟨hallowed, a, ha, rfl, rfl⟩, rfl⟩
  refine ⟨pairwise_catalog fleet key, hlisted, fun c hc ↦ describes_of_mem_catalog hc hdigests, ?_⟩
  intro g hfleet c hc sub hmodel err herr
  obtain ⟨⟨w, hw, honline, hhas⟩, hallowed⟩ := (hlisted c.name).mp ⟨c, hc, rfl⟩
  -- an online worker is one that `modelServed` counts
  have hserved : modelServed g.server sub.job.model = true := by
    refine List.any_eq_true.mpr ⟨w, hfleet.mem_iff.mpr hw, ?_⟩
    rw [honline, hmodel, hhas]
    rfl
  exact g.not_refused (hmodel ▸ hallowed) hserved herr

/-- Two workers with one model, of which one is online, and a key that may use it. -/
theorem catalog_matches_dispatch_two :
    let w (id : String) (status : WorkerStatus) (digest : String) : Snapshot :=
      { id, models := [⟨"m", digest⟩], lastSeen := 0, activeJobs := 0, totalVRAM := 0, freeVRAM := 0,
        load := 0, gpuType := "", status, registeredAt := 0 }
    let fleet := [w "b" .online "", w "c" .draining "d", w "a" .online "d"]
    let key : APIKey :=
      { id := "k1", secretHash := [], salt := [], createdAt := 0, roles := [roleUser],
        allowModels := ["m"] }
    catalog fleet key = [⟨"m", "d", ["a", "b"]⟩] ∧
      CatalogModel.Describes ⟨"m", "d", ["a", "b"]⟩ fleet := by
  intro w fleet key
  have hcatalog : catalog fleet key = [⟨"m", "d", ["a", "b"]⟩] := by decide +kernel
  obtain ⟨-, -, hdescribes, -⟩ := catalog_matches_dispatch fleet key (by decide)
  exact ⟨hcatalog, hdescribes _ (hcatalog ▸ List.mem_singleton_self _)⟩

end

end AgentGpu.HttpApi
