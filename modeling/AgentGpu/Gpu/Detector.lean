import AgentGpu.Foundation.Grouping
import AgentGpu.Gpu.Tools

namespace AgentGpu.Gpu

open Foundation HttpApi

structure Capacity where
  type : String
  totalVRAM : UInt64 := 0
  freeVRAM : UInt64 := 0
  load : UInt32 := 0
  deriving DecidableEq

def cpuType : String := "cpu"

def cpuFallback : Capacity := { type := cpuType }

def combineNames (devices : List Device) : String :=
  let names := devices.map fun dev ↦
    let name := trimSpace dev.name
    if name = "" then "GPU" else name
  let counted (name : String) : String := String.ofList (itoa (names.count name)) ++ "x " ++ name
  match names.foldl (fun order name ↦ if name ∈ order then order else order ++ [name]) [] with
  | [] => cpuType
  | [name] => if names.count name = 1 then name else counted name
  | order => String.intercalate " + " ((order.insertionSort (· ≤ ·)).map counted)

/-- The mean, rounded to the nearest number. Of no loads it is zero. -/
def meanLoad (loads : List ℕ) : ℕ := (loads.sum + loads.length / 2) / loads.length

/-- The sums of the memory wrap around. Loads are far too small for that. -/
def aggregate (devices : List Device) : Capacity :=
  if devices = [] then cpuFallback
  else
    let mean := meanLoad (devices.map (·.load.toNat))
    { type := combineNames devices
      totalVRAM := devices.foldl (fun sum dev ↦ sum + dev.totalVRAM) 0
      freeVRAM := devices.foldl (fun sum dev ↦ sum + dev.freeVRAM) 0
      load := .ofNat (if mean > 100 then 100 else mean) }

inductive GOOS
  | linux
  | windows
  | darwin
  | other
  deriving DecidableEq

/-- What the tools of a host say when they are run, and what the probe for Apple devices makes of
its own. -/
structure Runner where
  nvidiaSMI : Except ProbeError String
  amdSMI : Except ProbeError Output
  rocmSMI : Except ProbeError Output
  apple : Except ProbeError (List Device) := .error .notFound

namespace Runner

variable (r : Runner) (range : MapOrder)

def detectNVIDIA : Except ProbeError (List Device) := r.nvidiaSMI.bind parseNvidiaSMI

/-- The devices of `amd-smi`, if it is there and writes some. -/
def amdDevices : List Device :=
  match r.amdSMI.bind parseAmdSMI with
  | .ok devices => devices
  | .error _ => []

def detectAMD : Except ProbeError (List Device) :=
  if r.amdDevices ≠ [] then .ok r.amdDevices else r.rocmSMI.bind range.parseRocmSMI

def probes : GOOS → List (Except ProbeError (List Device))
  | .linux => [r.detectNVIDIA, r.detectAMD range]
  | .windows => [r.detectNVIDIA]
  | .darwin => [r.apple]
  | .other => []

end Runner

def detectFrom : List (Except ProbeError (List Device)) → Capacity
  | [] => cpuFallback
  | .ok (dev :: devices) :: _ => aggregate (dev :: devices)
  | _ :: probes => detectFrom probes

def detect (goos : GOOS) (range : MapOrder) (r : Runner) : Capacity := detectFrom (r.probes range goos)

structure Reads (entry : Table String String) (substr : String) (n : Option UInt64) : Prop where
  all : ∀ e ∈ entry.entries, hasText substr e → parseUintField (trimSpace e.2) = n
  some : n.isSome → ∃ e ∈ entry.entries, hasText substr e

structure Card where
  id : String
  entry : Table String String
  total : UInt64
  used : UInt64
  use : Option UInt64
  reads_total : Reads entry "vram total memory" total
  reads_used : Reads entry "vram total used memory" used
  reads_use : Reads entry "gpu use" use
  used_le : used ≤ total

namespace Card

def free (c : Card) : ℕ := c.total.toNat - c.used.toNat

def load (c : Card) : ℕ := min (c.use.getD 0).toNat 100

end Card

def Lists (out : Output) (cards : List Card) : Prop :=
  ∃ j raw, out = .value j ∧ j.decodeMap (Json.decodeMap (Json.decodeString "")) = some raw ∧
    (cards.map fun c ↦ (⟨c.id, c.entry⟩ : (_ : String) × Table String String)).Perm
      (raw.entries.filter fun e ↦ "card".toList <+: lower e.1)

section

variable {range : MapOrder} {r : Runner}

theorem MapOrder.uint_eq {entry : Table String String} {substr : String} {n : Option UInt64}
    (h : Reads entry substr n) (id : String) : range.uint id entry substr = n := by
  have hmem (e : (_ : String) × String) : e ∈ range.order id substr entry ↔ e ∈ entry.entries :=
    (range.perm id substr entry).mem_iff
  unfold MapOrder.uint rocmUintBySubstr rocmStrBySubstr
  cases hfound : (range.order id substr entry).find? (hasText substr) with
  | none =>
    cases n with
    | none => rfl
    | some n =>
      obtain ⟨e, he, htext⟩ := h.some rfl
      exact absurd htext (List.find?_eq_none.mp hfound e ((hmem e).mpr he))
  | some e =>
    rw [Option.map_some, Option.bind_some]
    exact h.all e ((hmem e).mp (List.mem_of_find?_eq_some hfound)) (List.find?_some hfound)

def Card.device (range : MapOrder) (c : Card) : Device :=
  { name := range.rocmName c.id c.entry
    totalVRAM := c.total
    freeVRAM := c.total - c.used
    load := (c.use.map clampLoad).getD 0 }

theorem Card.rocmDevice_eq (c : Card) : range.rocmDevice c.id c.entry = some (c.device range) := by
  unfold MapOrder.rocmDevice
  rw [MapOrder.uint_eq c.reads_total, MapOrder.uint_eq c.reads_used, MapOrder.uint_eq c.reads_use]
  dsimp only
  rw [if_pos c.used_le]
  rfl

theorem Card.freeVRAM_device (c : Card) : (c.device range).freeVRAM.toNat = c.free :=
  UInt64.toNat_sub_of_le _ _ c.used_le

theorem toNat_clampLoad (util : UInt64) : (clampLoad util).toNat = min util.toNat 100 := by
  unfold clampLoad
  split_ifs with h
  · have hutil : 100 < util.toNat := UInt64.lt_iff_toNat_lt.mp h
    exact (min_eq_right hutil.le).symm
  · have hutil : util.toNat ≤ 100 := UInt64.le_iff_toNat_le.mp (UInt64.not_lt.mp h)
    rw [UInt64.toNat_toUInt32, min_eq_left hutil, Nat.mod_eq_of_lt (by omega)]

theorem Card.load_device (c : Card) : (c.device range).load.toNat = c.load := by
  unfold Card.device Card.load
  cases c.use with
  | none => rfl
  | some util => exact toNat_clampLoad util

theorem parseRocmSMI_of_lists (range : MapOrder) {out : Output} {cards : List Card} (h : Lists out cards) :
    ∃ devices, range.parseRocmSMI out = .ok devices ∧
      devices.Perm (cards.map (Card.device range)) := by
  obtain ⟨j, raw, rfl, hraw, hperm⟩ := h
  refine ⟨_, by rw [MapOrder.parseRocmSMI, hraw], ?_⟩
  have hids := ((List.perm_insertionSort (· ≤ ·) raw.keys).filter
    fun id ↦ decide ("card".toList <+: lower id)).filterMap
      fun id ↦ range.rocmDevice id ((raw.lookup id).getD ∅)
  refine hids.trans ?_
  have hkeys : (raw.keys.filter fun id ↦ decide ("card".toList <+: lower id)).filterMap
      (fun id ↦ range.rocmDevice id ((raw.lookup id).getD ∅)) =
      (raw.entries.filter fun e ↦ decide ("card".toList <+: lower e.1)).filterMap
        fun e ↦ range.rocmDevice e.1 e.2 := by
    rw [AList.keys, List.keys, List.filter_map, List.filterMap_map]
    refine List.filterMap_congr fun e he ↦ ?_
    have hlookup : raw.lookup e.1 = some e.2 := AList.mem_lookup_iff.mpr (List.mem_of_mem_filter he)
    rw [Function.comp_apply, hlookup, Option.getD_some]
  rw [hkeys]
  refine (hperm.symm.filterMap _).trans (.of_eq ?_)
  rw [List.filterMap_map]
  exact (List.filterMap_congr fun c _ ↦ c.rocmDevice_eq).trans (congrFun List.filterMap_eq_map' cards)

theorem meanLoad_perm {loads loads' : List ℕ} (h : loads.Perm loads') :
    meanLoad loads = meanLoad loads' := by
  rw [meanLoad, meanLoad, h.sum_nat, h.length_eq]

theorem meanLoad_le {loads : List ℕ} (h : ∀ l ∈ loads, l ≤ 100) : meanLoad loads ≤ 100 := by
  have hsum : loads.sum ≤ loads.length * 100 := by
    induction loads with
    | nil => exact le_rfl
    | cons l loads ih =>
      obtain ⟨hl, hloads⟩ := List.forall_mem_cons.mp h
      have := ih hloads
      rw [List.sum_cons, List.length_cons]
      omega
  unfold meanLoad
  rcases Nat.eq_zero_or_pos loads.length with hzero | hpos
  · rw [hzero, Nat.div_zero]
    exact Nat.zero_le _
  · exact Nat.le_of_lt_succ (Nat.div_lt_of_lt_mul (by omega))

theorem toNat_load_aggregate {devices : List Device} (h : ∀ dev ∈ devices, dev.load.toNat ≤ 100) :
    (aggregate devices).load.toNat = meanLoad (devices.map (·.load.toNat)) := by
  have hle : meanLoad (devices.map (·.load.toNat)) ≤ 100 := meanLoad_le (by simpa using h)
  unfold aggregate
  split_ifs with hnone
  · rw [hnone]
    rfl
  · dsimp only
    rw [if_neg (Nat.not_lt.mpr hle)]
    exact UInt32.toNat_ofNat_of_lt (Nat.lt_of_le_of_lt hle (by decide))

theorem toNat_freeVRAM_aggregate (devices : List Device) : (aggregate devices).freeVRAM.toNat =
    (devices.map (·.freeVRAM.toNat)).sum % 2 ^ 64 := by
  unfold aggregate
  split_ifs with hnone
  · rw [hnone]
    rfl
  · refine (toNat_foldl_add_mod Device.freeVRAM devices 0).trans ?_
    exact congrArg (· % 2 ^ 64) (Nat.zero_add _)

theorem aggregate_of_perm {devices : List Device} {cards : List Card}
    (h : devices.Perm (cards.map (Card.device range))) :
    (aggregate devices).freeVRAM.toNat = (cards.map Card.free).sum % 2 ^ 64 ∧
      (aggregate devices).load.toNat = meanLoad (cards.map Card.load) := by
  have hfree : (devices.map (·.freeVRAM.toNat)).Perm (cards.map Card.free) := by
    refine (h.map _).trans (.of_eq ?_)
    rw [List.map_map]
    exact List.map_congr_left fun c _ ↦ c.freeVRAM_device
  have hload : (devices.map (·.load.toNat)).Perm (cards.map Card.load) := by
    refine (h.map _).trans (.of_eq ?_)
    rw [List.map_map]
    exact List.map_congr_left fun c _ ↦ c.load_device
  have hle : ∀ dev ∈ devices, dev.load.toNat ≤ 100 := by
    intro dev hdev
    obtain ⟨c, -, hc⟩ := List.mem_map.mp (hload.subset (List.mem_map_of_mem hdev))
    exact hc ▸ Nat.min_le_right _ _
  exact ⟨by rw [toNat_freeVRAM_aggregate, hfree.sum_nat],
    by rw [toNat_load_aggregate hle, meanLoad_perm hload]⟩

theorem of_parseAmdSMI {out : Output} {devices : List Device} (h : parseAmdSMI out = .ok devices) :
    ∀ dev ∈ devices, dev.freeVRAM = 0 ∧ dev.load = 0 := by
  unfold parseAmdSMI at h
  split at h
  · cases h
  · cases h
  · dsimp only at h
    split at h
    · cases h
    · cases h
      intro dev hdev
      obtain ⟨g, -, rfl⟩ := List.mem_map.mp (List.mem_of_mem_filter hdev)
      exact ⟨rfl, rfl⟩

theorem of_mem_amdDevices (r : Runner) : ∀ dev ∈ r.amdDevices, dev.freeVRAM = 0 ∧ dev.load = 0 := by
  unfold Runner.amdDevices
  cases hout : r.amdSMI with
  | error e => exact nofun
  | ok out =>
    rw [Except.bind]
    cases hdevices : parseAmdSMI out with
    | error e => exact nofun
    | ok devices => exact of_parseAmdSMI hdevices

theorem meanLoad_replicate_zero (n : ℕ) : meanLoad (List.replicate n 0) = 0 := by
  rw [meanLoad, List.sum_replicate_nat, List.length_replicate, Nat.mul_zero, Nat.zero_add]
  rcases Nat.eq_zero_or_pos n with rfl | hpos
  · rfl
  · exact Nat.div_eq_of_lt (Nat.div_lt_self hpos (by decide))

theorem aggregate_amdDevices (r : Runner) :
    (aggregate r.amdDevices).freeVRAM.toNat = 0 ∧ (aggregate r.amdDevices).load.toNat = 0 := by
  have hzero := of_mem_amdDevices r
  have hfree : r.amdDevices.map (·.freeVRAM.toNat) = List.replicate r.amdDevices.length 0 :=
    List.map_eq_replicate_iff.mpr fun dev hdev ↦ congrArg UInt64.toNat (hzero dev hdev).1
  have hload : r.amdDevices.map (·.load.toNat) = List.replicate r.amdDevices.length 0 :=
    List.map_eq_replicate_iff.mpr fun dev hdev ↦ congrArg UInt32.toNat (hzero dev hdev).2
  have hle : ∀ dev ∈ r.amdDevices, dev.load.toNat ≤ 100 := fun dev hdev ↦ by
    rw [(hzero dev hdev).2]
    exact Nat.zero_le _
  refine ⟨?_, ?_⟩
  · rw [toNat_freeVRAM_aggregate, hfree, List.sum_replicate_nat, Nat.mul_zero, Nat.zero_mod]
  · rw [toNat_load_aggregate hle, hload, meanLoad_replicate_zero]

theorem detect_linux (hnvidia : ∀ devices, r.detectNVIDIA = .ok devices → devices = []) :
    detect .linux range r = match r.detectAMD range with
      | .ok devices => aggregate devices
      | .error _ => cpuFallback := by
  have hskip (probes : List (Except ProbeError (List Device))) :
      detectFrom (r.detectNVIDIA :: probes) = detectFrom probes := by
    cases hn : r.detectNVIDIA with
    | error e => rfl
    | ok devices =>
      rw [hnvidia devices hn]
      rfl
  rw [detect, Runner.probes, hskip]
  cases r.detectAMD range with
  | error e => rfl
  | ok devices => cases devices <;> rfl

end

/-- The free memory and the mean load of the cards are reported if and only if `amd-smi` lists no
devices and the sum fits in 64 bits, or there is nothing to report. -/
theorem amd_free_reported_iff (range : MapOrder) (r : Runner) (out : Output) (cards : List Card)
    (hnvidia : ∀ devices, r.detectNVIDIA = .ok devices → devices = [])
    (hrocm : r.rocmSMI = .ok out) (hcards : Lists out cards) :
    ((detect .linux range r).freeVRAM.toNat = (cards.map Card.free).sum ∧
        (detect .linux range r).load.toNat = meanLoad (cards.map Card.load)) ↔
      if r.amdDevices = [] then (cards.map Card.free).sum < 2 ^ 64
      else (cards.map Card.free).sum = 0 ∧ meanLoad (cards.map Card.load) = 0 := by
  rw [detect_linux hnvidia, Runner.detectAMD]
  by_cases hamd : r.amdDevices = []
  · obtain ⟨devices, hdevices, hperm⟩ := parseRocmSMI_of_lists range hcards
    obtain ⟨hfree, hload⟩ := aggregate_of_perm hperm
    rw [if_neg (not_not.mpr hamd), if_pos hamd, hrocm, Except.bind, hdevices]
    dsimp only
    rw [hfree, hload, and_iff_left rfl, Nat.mod_eq_iff_lt (by decide)]
  · obtain ⟨hfree, hload⟩ := aggregate_amdDevices r
    rw [if_pos hamd, if_neg hamd]
    dsimp only
    rw [hfree, hload, eq_comm, @eq_comm ℕ 0 (meanLoad _)]

def insertionOrder : MapOrder := ⟨fun _ _ entry ↦ entry.entries, fun _ _ _ ↦ .refl _⟩

def halfUsed : Output :=
  .value (.object [("card0", .object [("VRAM Total Memory (B)", .string "100"),
    ("VRAM Total Used Memory (B)", .string "40"), ("GPU use (%)", .string "50")])])

def amdHost (amdSMI : Except ProbeError Output) : Runner :=
  { nvidiaSMI := .error .notFound, amdSMI, rocmSMI := .ok halfUsed }

def halfUsedCard : Card where
  id := "card0"
  entry := ((∅ : Table String String).insert "VRAM Total Memory (B)" "100").insert
    "VRAM Total Used Memory (B)" "40" |>.insert "GPU use (%)" "50"
  total := 100
  used := 40
  use := some 50
  reads_total := ⟨by decide +kernel, by decide +kernel⟩
  reads_used := ⟨by decide +kernel, by decide +kernel⟩
  reads_use := ⟨by decide +kernel, by decide +kernel⟩
  used_le := by decide

theorem lists_halfUsed : Lists halfUsed [halfUsedCard] :=
  ⟨_, (∅ : Table String (Table String String)).insert "card0" halfUsedCard.entry, rfl, rfl, .refl _⟩

theorem detectNVIDIA_amdHost (amdSMI : Except ProbeError Output) (devices : List Device)
    (h : (amdHost amdSMI).detectNVIDIA = .ok devices) : devices = [] := by cases h

def quarterUsedCard : Card where
  id := "card1"
  entry := ((∅ : Table String String).insert "VRAM Total Memory (B)" "200").insert
    "VRAM Total Used Memory (B)" "50" |>.insert "GPU use (%)" "25"
  total := 200
  used := 50
  use := some 25
  reads_total := ⟨by decide +kernel, by decide +kernel⟩
  reads_used := ⟨by decide +kernel, by decide +kernel⟩
  reads_use := ⟨by decide +kernel, by decide +kernel⟩
  used_le := by decide

def twoCards : Output :=
  .value (.object [("card0", .object [("VRAM Total Memory (B)", .string "100"),
      ("VRAM Total Used Memory (B)", .string "40"), ("GPU use (%)", .string "50")]),
    ("card1", .object [("VRAM Total Memory (B)", .string "200"),
      ("VRAM Total Used Memory (B)", .string "50"), ("GPU use (%)", .string "25")])])

theorem lists_twoCards : Lists twoCards [quarterUsedCard, halfUsedCard] :=
  ⟨_, ((∅ : Table String (Table String String)).insert "card0" halfUsedCard.entry).insert "card1"
    quarterUsedCard.entry, rfl, rfl, .refl _⟩

theorem amd_free_reported_absent :
    let r := { amdHost (.error .notFound) with rocmSMI := .ok twoCards }
    ([quarterUsedCard, halfUsedCard].map Card.free).sum = 210 ∧
      meanLoad ([quarterUsedCard, halfUsedCard].map Card.load) = 38 ∧
      (detect .linux insertionOrder r).freeVRAM.toNat =
        ([quarterUsedCard, halfUsedCard].map Card.free).sum ∧
      (detect .linux insertionOrder r).load.toNat =
        meanLoad ([quarterUsedCard, halfUsedCard].map Card.load) := by
  intro r
  refine ⟨by decide +kernel, by decide +kernel, ?_⟩
  exact (amd_free_reported_iff insertionOrder r twoCards [quarterUsedCard, halfUsedCard]
    (detectNVIDIA_amdHost (.error .notFound)) rfl lists_twoCards).mpr (by decide +kernel)

theorem amd_free_not_reported :
    let r := amdHost <| .ok <| .value <| .array
      [.object [("asic", .object [("market_name", .string "MI210")]),
        ("vram", .object [("size", .object [("value", .number "64"), ("unit", .string "GB")])])]]
    (∀ devices, r.detectNVIDIA = .ok devices → devices = []) ∧ r.rocmSMI = .ok halfUsed ∧
      Lists halfUsed [halfUsedCard] ∧ ([halfUsedCard].map Card.free).sum = 60 ∧
      detect .linux insertionOrder r =
        { type := "MI210", totalVRAM := 64 * 1024 * 1024 * 1024, freeVRAM := 0, load := 0 } :=
  ⟨detectNVIDIA_amdHost _, rfl, lists_halfUsed, by decide +kernel, by decide +kernel⟩

end AgentGpu.Gpu
