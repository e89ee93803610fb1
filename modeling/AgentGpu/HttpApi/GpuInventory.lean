import AgentGpu.ControlPlane.Placement
import AgentGpu.Foundation.Grouping
import AgentGpu.Foundation.Sorting
import Mathlib.Algebra.Order.BigOperators.Group.List
import Mathlib.Data.String.Basic

namespace AgentGpu.ControlPlane

def WorkerStatus.string : WorkerStatus → String
  | .online => "online"
  | .draining => "draining"
  | .stale => "stale"

end AgentGpu.ControlPlane

namespace AgentGpu.HttpApi

open Foundation ControlPlane

structure AdminGPUFleet where
  workerCount : ℕ
  totalVRAM : UInt64
  freeVRAM : UInt64
  meanLoad : UInt32
  maxLoad : UInt32
  deriving DecidableEq

structure AdminGPUByType where
  gpuType : String
  workerCount : ℕ := 0
  totalVRAM : UInt64 := 0
  freeVRAM : UInt64 := 0
  deriving DecidableEq

structure AdminGPUCell where
  id : String
  gpuType : String
  totalVRAM : UInt64
  freeVRAM : UInt64
  load : UInt32
  status : String
  activeJobs : UInt32
  deriving DecidableEq

structure AdminGPUsResponse where
  fleet : AdminGPUFleet
  byType : List AdminGPUByType
  workers : List AdminGPUCell
  deriving DecidableEq

def adminGPUCell (wk : Snapshot) : AdminGPUCell where
  id := wk.id
  gpuType := wk.gpuType
  totalVRAM := wk.totalVRAM
  freeVRAM := wk.freeVRAM
  load := wk.load
  status := wk.status.string
  activeJobs := wk.activeJobs

def AdminGPUByType.add (row : AdminGPUByType) (wk : Snapshot) : AdminGPUByType :=
  { row with
    workerCount := row.workerCount + 1
    totalVRAM := row.totalVRAM + wk.totalVRAM
    freeVRAM := row.freeVRAM + wk.freeVRAM }

structure GPUSums where
  totalVRAM : UInt64 := 0
  freeVRAM : UInt64 := 0
  loadSum : UInt64 := 0
  maxLoad : UInt32 := 0
  byType : Table String AdminGPUByType := ∅
  cells : List AdminGPUCell := []

def maxLoadOf (maxLoad : UInt32) (wk : Snapshot) : UInt32 :=
  if wk.load > maxLoad then wk.load else maxLoad

def GPUSums.add (s : GPUSums) (wk : Snapshot) : GPUSums where
  totalVRAM := s.totalVRAM + wk.totalVRAM
  freeVRAM := s.freeVRAM + wk.freeVRAM
  loadSum := s.loadSum + wk.load.toUInt64
  maxLoad := maxLoadOf s.maxLoad wk
  byType := Table.addTo Snapshot.gpuType (fun gpuType ↦ { gpuType }) AdminGPUByType.add s.byType wk
  cells := s.cells ++ [adminGPUCell wk]

/-- `sort.Slice` is not stable, and the map of the rows is walked in any order before it is sorted:
the sorters stand for both. -/
def aggregateGPUs (rows : KeySorter AdminGPUByType.gpuType) (cells : KeySorter AdminGPUCell.id)
    (fleet : List Snapshot) : AdminGPUsResponse :=
  let s := fleet.foldl GPUSums.add {}
  { fleet :=
      { workerCount := fleet.length
        totalVRAM := s.totalVRAM
        freeVRAM := s.freeVRAM
        meanLoad := if fleet.length > 0 then .ofNat (s.loadSum.toNat / fleet.length) else 0
        maxLoad := s.maxLoad }
    byType := rows.sort (s.byType.entries.map fun e ↦ e.2)
    workers := cells.sort s.cells }

theorem GPUSums.foldl_add (fleet : List Snapshot) (s : GPUSums) : fleet.foldl GPUSums.add s =
    { totalVRAM := fleet.foldl (fun sum wk ↦ sum + wk.totalVRAM) s.totalVRAM
      freeVRAM := fleet.foldl (fun sum wk ↦ sum + wk.freeVRAM) s.freeVRAM
      loadSum := fleet.foldl (fun sum wk ↦ sum + wk.load.toUInt64) s.loadSum
      maxLoad := fleet.foldl maxLoadOf s.maxLoad
      byType := fleet.foldl
        (Table.addTo Snapshot.gpuType (fun gpuType ↦ { gpuType }) AdminGPUByType.add) s.byType
      cells := s.cells ++ fleet.map adminGPUCell } := by
  induction fleet generalizing s with
  | nil => rw [List.map_nil, List.append_nil]; rfl
  | cons wk fleet ih =>
    rw [List.foldl_cons, ih, List.map_cons, List.append_cons]
    rfl

section

variable {fleet fleet' : List Snapshot}

instance : RightCommutative AdminGPUByType.add where
  right_comm row a b := by
    have htotal : row.totalVRAM + a.totalVRAM + b.totalVRAM = row.totalVRAM + b.totalVRAM + a.totalVRAM := by
      ac_rfl
    have hfree : row.freeVRAM + a.freeVRAM + b.freeVRAM = row.freeVRAM + b.freeVRAM + a.freeVRAM := by
      ac_rfl
    simp only [AdminGPUByType.add, htotal, hfree]

def rowOf (fleet : List Snapshot) (gpuType : String) : AdminGPUByType :=
  (fleet.filter (·.gpuType = gpuType)).foldl AdminGPUByType.add { gpuType }

theorem foldl_addRow (workers : List Snapshot) (row : AdminGPUByType) :
    workers.foldl AdminGPUByType.add row =
      { gpuType := row.gpuType
        workerCount := row.workerCount + workers.length
        totalVRAM := workers.foldl (fun sum wk ↦ sum + wk.totalVRAM) row.totalVRAM
        freeVRAM := workers.foldl (fun sum wk ↦ sum + wk.freeVRAM) row.freeVRAM } := by
  induction workers generalizing row with
  | nil => rfl
  | cons wk workers ih =>
    have hcount : row.workerCount + 1 + workers.length = row.workerCount + (workers.length + 1) := by
      omega
    rw [List.foldl_cons, ih, List.length_cons, ← hcount]
    rfl

theorem gpuType_rowOf (fleet : List Snapshot) (gpuType : String) :
    (rowOf fleet gpuType).gpuType = gpuType := by
  rw [rowOf, foldl_addRow]

def unsortedRows (fleet : List Snapshot) : List AdminGPUByType :=
  (fleet.foldl GPUSums.add {}).byType.entries.map fun e ↦ e.2

def rowTypes (fleet : List Snapshot) : List String := (fleet.foldl GPUSums.add {}).byType.keys

theorem unsortedRows_eq (fleet : List Snapshot) :
    unsortedRows fleet = (rowTypes fleet).map (rowOf fleet) := by
  rw [unsortedRows, rowTypes, GPUSums.foldl_add]
  exact Table.values_foldl_addTo fleet

theorem mem_rowTypes {gpuType : String} :
    gpuType ∈ rowTypes fleet ↔ gpuType ∈ fleet.map Snapshot.gpuType := by
  rw [rowTypes, GPUSums.foldl_add]
  exact Table.mem_keys_foldl_addTo

theorem nodup_rowTypes (fleet : List Snapshot) : (rowTypes fleet).Nodup :=
  (fleet.foldl GPUSums.add {}).byType.nodupKeys

theorem gpuType_unsortedRows (fleet : List Snapshot) :
    (unsortedRows fleet).map AdminGPUByType.gpuType = rowTypes fleet := by
  rw [unsortedRows_eq, List.map_map]
  exact (List.map_congr_left fun gpuType _ ↦ gpuType_rowOf fleet gpuType).trans (List.map_id _)

theorem mem_unsortedRows {row : AdminGPUByType} : row ∈ unsortedRows fleet ↔
    row.gpuType ∈ fleet.map Snapshot.gpuType ∧ rowOf fleet row.gpuType = row := by
  rw [unsortedRows_eq, List.mem_map]
  constructor
  · rintro ⟨gpuType, hmem, rfl⟩
    rw [gpuType_rowOf]
    exact ⟨mem_rowTypes.mp hmem, rfl⟩
  · rintro ⟨hmem, hrow⟩
    exact ⟨row.gpuType, mem_rowTypes.mpr hmem, hrow⟩

theorem unsortedRows_perm (h : fleet.Perm fleet') : (unsortedRows fleet).Perm (unsortedRows fleet') := by
  rw [unsortedRows, unsortedRows, GPUSums.foldl_add, GPUSums.foldl_add]
  exact (Table.foldl_addTo_perm h).map _

theorem foldl_maxLoadOf_perm (h : fleet.Perm fleet') :
    fleet.foldl maxLoadOf 0 = fleet'.foldl maxLoadOf 0 := by
  refine h.foldl_eq' (fun a _ b _ maxLoad ↦ ?_) 0
  unfold maxLoadOf
  grind

theorem aggregateGPUs_of_perm (rows rows' : KeySorter AdminGPUByType.gpuType)
    (cells cells' : KeySorter AdminGPUCell.id) (hids : (fleet.map Snapshot.id).Nodup)
    (h : fleet.Perm fleet') : aggregateGPUs rows cells fleet = aggregateGPUs rows' cells' fleet' := by
  have hrows : rows.sort (unsortedRows fleet) = rows'.sort (unsortedRows fleet') := by
    refine rows.sort_eq_of_perm rows' ?_ (unsortedRows_perm h)
    rw [gpuType_unsortedRows]
    exact nodup_rowTypes fleet
  have hcells : cells.sort (fleet.map adminGPUCell) = cells'.sort (fleet'.map adminGPUCell) := by
    refine cells.sort_eq_of_perm cells' ?_ (h.map _)
    rwa [List.map_map]
  unfold unsortedRows at hrows
  simp only [aggregateGPUs]
  rw [hrows]
  simp only [GPUSums.foldl_add, List.nil_append, hcells, h.length_eq, foldl_add_perm _ h,
    foldl_maxLoadOf_perm h]

structure SumsOver (workers : List Snapshot) (workerCount : ℕ) (totalVRAM freeVRAM : UInt64) : Prop where
  workerCount_eq : workerCount = workers.length
  totalVRAM_eq : totalVRAM.toNat = (workers.map (·.totalVRAM.toNat)).sum
  freeVRAM_eq : freeVRAM.toNat = (workers.map (·.freeVRAM.toNat)).sum

structure Fits (fleet : List Snapshot) : Prop where
  totalVRAM_lt : (fleet.map (·.totalVRAM.toNat)).sum < 2 ^ 64
  freeVRAM_lt : (fleet.map (·.freeVRAM.toNat)).sum < 2 ^ 64

theorem Fits.sublist (h : Fits fleet) (hsub : fleet'.Sublist fleet) : Fits fleet' where
  totalVRAM_lt := ((hsub.map _).sum_le_sum fun _ _ ↦ Nat.zero_le _).trans_lt h.totalVRAM_lt
  freeVRAM_lt := ((hsub.map _).sum_le_sum fun _ _ ↦ Nat.zero_le _).trans_lt h.freeVRAM_lt

theorem Fits.sumsOver (h : Fits fleet) :
    SumsOver fleet fleet.length (fleet.foldl (fun sum wk ↦ sum + wk.totalVRAM) 0)
      (fleet.foldl (fun sum wk ↦ sum + wk.freeVRAM) 0) :=
  ⟨rfl, toNat_foldl_add_of_lt _ h.totalVRAM_lt, toNat_foldl_add_of_lt _ h.freeVRAM_lt⟩

theorem sumsOver_rowOf (h : Fits fleet) (gpuType : String) :
    SumsOver (fleet.filter (·.gpuType = gpuType)) (rowOf fleet gpuType).workerCount
      (rowOf fleet gpuType).totalVRAM (rowOf fleet gpuType).freeVRAM := by
  have hsums := (h.sublist (List.filter_sublist (p := (·.gpuType = gpuType)))).sumsOver
  rw [rowOf, foldl_addRow, Nat.zero_add]
  exact hsums

theorem sum_unsortedRows {f : AdminGPUByType → ℕ} {g : Snapshot → ℕ}
    (h : ∀ gpuType, f (rowOf fleet gpuType) =
      ((fleet.filter (·.gpuType = gpuType)).map g).sum) :
    ((unsortedRows fleet).map f).sum = (fleet.map g).sum := by
  rw [unsortedRows_eq, List.map_map]
  simp only [Function.comp_def, h]
  refine sum_map_sum_filter g (nodup_rowTypes fleet) fun wk hwk ↦ ?_
  exact mem_rowTypes.mpr (List.mem_map_of_mem hwk)

theorem load_le_foldl (fleet : List Snapshot) (maxLoad : UInt32) :
    maxLoad.toNat ≤ (fleet.foldl maxLoadOf maxLoad).toNat ∧
      ∀ wk ∈ fleet, wk.load.toNat ≤ (fleet.foldl maxLoadOf maxLoad).toNat := by
  induction fleet generalizing maxLoad with
  | nil => exact ⟨le_rfl, List.forall_mem_nil _⟩
  | cons wk fleet ih =>
    obtain ⟨hle, hall⟩ := ih (maxLoadOf maxLoad wk)
    have hmax : maxLoad.toNat ≤ (maxLoadOf maxLoad wk).toNat ∧
        wk.load.toNat ≤ (maxLoadOf maxLoad wk).toNat := by
      unfold maxLoadOf
      split_ifs with hgt
      · exact ⟨(UInt32.lt_iff_toNat_lt.mp hgt).le, le_rfl⟩
      · exact ⟨le_rfl, Nat.le_of_not_lt fun hlt ↦ hgt (UInt32.lt_iff_toNat_lt.mpr hlt)⟩
    exact ⟨hmax.1.trans hle, List.forall_mem_cons.mpr ⟨hmax.2.trans hle, hall⟩⟩

theorem meanLoad_le_maxLoad (rows : KeySorter AdminGPUByType.gpuType) (cells : KeySorter AdminGPUCell.id)
    (fleet : List Snapshot) :
    (aggregateGPUs rows cells fleet).fleet.meanLoad ≤ (aggregateGPUs rows cells fleet).fleet.maxLoad := by
  simp only [aggregateGPUs, GPUSums.foldl_add]
  split_ifs with hpos
  · have hmax := (load_le_foldl fleet 0).2
    have hsum : (fleet.map fun wk ↦ wk.load.toUInt64.toNat).sum ≤
        fleet.length * (fleet.foldl maxLoadOf 0).toNat := by
      have hle := List.sum_le_card_nsmul (fleet.map fun wk ↦ wk.load.toUInt64.toNat)
        (fleet.foldl maxLoadOf 0).toNat (by simpa using hmax)
      rw [List.length_map] at hle
      exact hle
    have hload : (fleet.foldl (fun (sum : UInt64) wk ↦ sum + wk.load.toUInt64) 0).toNat ≤
        fleet.length * (fleet.foldl maxLoadOf 0).toNat := by
      rw [toNat_foldl_add_mod, UInt64.toNat_zero, Nat.zero_add]
      exact (Nat.mod_le _ _).trans hsum
    have hmean := Nat.div_le_of_le_mul hload
    rw [UInt32.le_iff_toNat_le, UInt32.toNat_ofNat']
    exact (Nat.mod_le _ _).trans hmean
  · exact UInt32.le_iff_toNat_le.mpr (Nat.zero_le _)

end

/-- The inventory of a fleet is the same in any order, its rows are a partition of the fleet with
the sums of their workers, and its cells are the workers. -/
theorem gpu_inventory_rolls_up (rows : KeySorter AdminGPUByType.gpuType)
    (cells : KeySorter AdminGPUCell.id) (fleet : List Snapshot) (hids : (fleet.map Snapshot.id).Nodup)
    (hfits : Fits fleet) :
    let inv := aggregateGPUs rows cells fleet
    (∀ rows' cells' fleet', fleet'.Perm fleet → aggregateGPUs rows' cells' fleet' = inv) ∧
      inv.byType.Pairwise (·.gpuType < ·.gpuType) ∧
      (∀ gpuType, (∃ row ∈ inv.byType, row.gpuType = gpuType) ↔ ∃ wk ∈ fleet, wk.gpuType = gpuType) ∧
      (∀ row ∈ inv.byType, SumsOver (fleet.filter (·.gpuType = row.gpuType)) row.workerCount
        row.totalVRAM row.freeVRAM) ∧
      SumsOver fleet inv.fleet.workerCount inv.fleet.totalVRAM inv.fleet.freeVRAM ∧
      (inv.byType.map (·.workerCount)).sum = inv.fleet.workerCount ∧
      (inv.byType.map (·.totalVRAM.toNat)).sum = inv.fleet.totalVRAM.toNat ∧
      (inv.byType.map (·.freeVRAM.toNat)).sum = inv.fleet.freeVRAM.toNat ∧
      inv.workers.Pairwise (·.id < ·.id) ∧ inv.workers.Perm (fleet.map adminGPUCell) ∧
      inv.fleet.meanLoad ≤ inv.fleet.maxLoad := by
  intro inv
  have hrows : inv.byType.Perm (unsortedRows fleet) := rows.perm _
  have hkeys : ((unsortedRows fleet).map AdminGPUByType.gpuType).Nodup := by
    rw [gpuType_unsortedRows]
    exact nodup_rowTypes fleet
  have hcells : inv.workers = cells.sort (fleet.map adminGPUCell) := by
    simp only [inv, aggregateGPUs, GPUSums.foldl_add, List.nil_append]
  have hfleet : SumsOver fleet inv.fleet.workerCount inv.fleet.totalVRAM inv.fleet.freeVRAM := by
    simp only [inv, aggregateGPUs, GPUSums.foldl_add]
    exact hfits.sumsOver
  refine ⟨fun rows' cells' fleet' hperm ↦ ?_, rows.pairwise_lt_sort hkeys, fun gpuType ↦ ?_,
    fun row hrow ↦ ?_, hfleet, ?_, ?_, ?_, ?_, ?_, meanLoad_le_maxLoad rows cells fleet⟩
  · exact (aggregateGPUs_of_perm rows rows' cells cells' hids hperm.symm).symm
  · simp only [hrows.mem_iff]
    constructor
    · rintro ⟨row, hrow, rfl⟩
      exact List.mem_map.mp (mem_unsortedRows.mp hrow).1
    · intro hmem
      have htype := gpuType_rowOf fleet gpuType
      refine ⟨rowOf fleet gpuType, mem_unsortedRows.mpr ?_, htype⟩
      rw [htype]
      exact ⟨List.mem_map.mpr hmem, rfl⟩
  · have hsums := sumsOver_rowOf hfits row.gpuType
    rwa [(mem_unsortedRows.mp (hrows.mem_iff.mp hrow)).2] at hsums
  · have hcount (gpuType : String) : (rowOf fleet gpuType).workerCount =
        ((fleet.filter (·.gpuType = gpuType)).map fun _ ↦ 1).sum := by
      rw [(sumsOver_rowOf hfits gpuType).workerCount_eq, List.map_const', List.sum_replicate_nat,
        Nat.mul_one]
    rw [(hrows.map _).sum_nat, sum_unsortedRows hcount, hfleet.workerCount_eq, List.map_const',
      List.sum_replicate_nat, Nat.mul_one]
  · rw [(hrows.map _).sum_nat, hfleet.totalVRAM_eq]
    exact sum_unsortedRows fun gpuType ↦ (sumsOver_rowOf hfits gpuType).totalVRAM_eq
  · rw [(hrows.map _).sum_nat, hfleet.freeVRAM_eq]
    exact sum_unsortedRows fun gpuType ↦ (sumsOver_rowOf hfits gpuType).freeVRAM_eq
  · rw [hcells]
    refine cells.pairwise_lt_sort ?_
    rwa [List.map_map]
  · rw [hcells]
    exact cells.perm _

theorem gpu_inventory_rolls_up_three :
    let wk (id gpuType : String) (totalVRAM freeVRAM : UInt64) (load : UInt32) : Snapshot :=
      { id, models := [], lastSeen := 0, activeJobs := 1, totalVRAM, freeVRAM, load, gpuType,
        status := .online, registeredAt := 0 }
    let fleet := [wk "c" "A100" 80 40 40, wk "a" "RTX" 48 30 60, wk "b" "RTX" 48 24 21]
    let inv := aggregateGPUs .insertion .insertion fleet
    (fleet.map Snapshot.id).Nodup ∧ Fits fleet ∧ inv.fleet = ⟨3, 176, 94, 40, 60⟩ ∧
      inv.byType = [⟨"A100", 1, 80, 40⟩, ⟨"RTX", 2, 96, 54⟩] ∧
      inv.workers.map (·.id) = ["a", "b", "c"] ∧
      aggregateGPUs .insertion .insertion fleet.reverse = inv := by
  intro wk fleet inv
  have hids : (fleet.map Snapshot.id).Nodup := by decide
  have hfits : Fits fleet := ⟨by decide, by decide⟩
  refine ⟨hids, hfits, by decide +kernel, by decide +kernel, by decide +kernel, ?_⟩
  exact (gpu_inventory_rolls_up .insertion .insertion fleet hids hfits).1 _ _ _ (List.reverse_perm fleet)

def handleAdminGPUs (rows : KeySorter AdminGPUByType.gpuType) (cells : KeySorter AdminGPUCell.id)
    (s : Server) : AdminGPUsResponse :=
  aggregateGPUs rows cells s.fleet

theorem id_fleet {s : Server} (h : RegistryKeyed s) : s.fleet.map Snapshot.id = s.workers.keys := by
  rw [Server.fleet, List.map_map]
  exact List.map_congr_left fun e he ↦ h e.1 e.2 (AList.mem_lookup_iff.mpr he)

theorem handleAdminGPUs_of_perm {t : Time} {d : Duration} {n : ℕ} {c : Config Server Instr}
    (hc : controlPlane.Reaches (boot (new t d n)) c) {fleet : List Snapshot}
    (hperm : c.shared.fleet.Perm fleet) (rows rows' : KeySorter AdminGPUByType.gpuType)
    (cells cells' : KeySorter AdminGPUCell.id) :
    handleAdminGPUs rows cells c.shared = aggregateGPUs rows' cells' fleet := by
  refine aggregateGPUs_of_perm rows rows' cells cells' ?_ hperm
  rw [id_fleet (registryKeyed_of_reaches hc)]
  exact c.shared.workers.nodupKeys

end AgentGpu.HttpApi
