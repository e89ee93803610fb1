import AgentGpu.Foundation.Text
import AgentGpu.HttpApi.Settings
import Mathlib.Data.List.Infix
import Mathlib.Data.List.Sort
import Mathlib.Data.String.Basic

namespace AgentGpu.Gpu

open Foundation HttpApi

structure Device where
  name : String
  totalVRAM : UInt64 := 0
  freeVRAM : UInt64 := 0
  load : UInt32 := 0
  deriving DecidableEq

/-- Why a probe has no devices. Of a message, the part before the tool's own text is given. -/
inductive ProbeError
  | notFound
  | failed
  | output (message : String)
  deriving DecidableEq

def mib : UInt64 := 1024 * 1024

def lower (s : String) : List Char := s.toList.map toLower

/-! `nvidia-smi` writes a line of values for each device. -/

def splitOn (sep : Char) (s : String) : List String := (s.toList.splitOn sep).map String.ofList

def parseUintField (field : String) : Option UInt64 := parseUint (trimSpace field).toList

def clampLoad (util : UInt64) : UInt32 := if util > 100 then 100 else util.toUInt32

def parseNvidiaLine (line : String) : Except ProbeError Device :=
  match splitOn ',' line with
  | name :: total :: free :: rest =>
    match parseUintField total, parseUintField free with
    | none, _ => .error (.output "gpu: nvidia-smi memory.total")
    | _, none => .error (.output "gpu: nvidia-smi memory.free")
    | some totalMiB, some freeMiB =>
      .ok
        { name := trimSpace name
          totalVRAM := totalMiB * mib
          freeVRAM := freeMiB * mib
          load := ((rest.head?.bind parseUintField).map clampLoad).getD 0 }
  | _ => .error (.output "gpu: malformed nvidia-smi line")

def parseNvidiaSMI (out : String) : Except ProbeError (List Device) :=
  (((splitOn '\n' out).map trimSpace).filter (· ≠ "")).mapM parseNvidiaLine

/-! The other tools write JSON. -/

inductive Json
  | null
  | bool (b : Bool)
  | number (literal : String)
  | string (s : String)
  | array (elements : List Json)
  | object (fields : List (String × Json))

inductive Output
  | blank
  | malformed
  | value (j : Json)

namespace Json

/-! `Unmarshal` into a variable that holds `cur`. `null` leaves it as it is, and a value of
another type is an error. -/

def decodeUint64 (cur : UInt64) : Json → Option UInt64
  | .null => some cur
  | .number literal => parseUint literal.toList
  | _ => none

def decodeString (cur : String) : Json → Option String
  | .null => some cur
  | .string s => some s
  | _ => none

def decodeStruct {α : Type} (cur : α) (set : α → String → Json → Option α) : Json → Option α
  | .null => some cur
  | .object fields => fields.foldlM (fun a f ↦ set a f.1 f.2) cur
  | _ => none

/-- The keys of a map are taken as they are, and the last value of a key is kept. -/
def decodeMap {α : Type} (value : Json → Option α) : Json → Option (Table String α)
  | .null => some ∅
  | .object fields => fields.foldlM (fun t f ↦ (value f.2).map (t.insert f.1 ·)) ∅
  | _ => none

def names (key field : String) : Bool :=
  key.toList.map (fun c ↦ if c.toNat = 0x17f then 's' else if c.toNat = 0x212a then 'k' else c.toLower) =
    field.toList

end Json

/-! `amd-smi static --json` writes an array of devices. -/

structure AmdVRAM where
  value : UInt64 := 0
  unit : String := ""

structure AmdGPU where
  marketName : String := ""
  vram : AmdVRAM := {}

def amdDecodeQuantity (raw : Json) : Option (UInt64 × String) :=
  match raw.decodeUint64 0 with
  | some n => some (n, "")
  | none =>
    let q := raw.decodeStruct ((0, "") : UInt64 × String) fun q key v ↦
      if Json.names key "value" then (v.decodeUint64 q.1).map (·, q.2)
      else if Json.names key "unit" then (v.decodeString q.2).map (q.1, ·)
      else some q
    match q with
    | some (value, unit) => if value > 0 then some (value, normalize unit) else none
    | none => none

/-- A block that has no quantity leaves the variable as it is. -/
def AmdVRAM.unmarshal (v : AmdVRAM) (data : Json) : AmdVRAM :=
  match data.decodeMap some with
  | none => v
  | some obj =>
    match ["total", "size", "total_vram"].findSome? fun key ↦
        (obj.lookup key).bind amdDecodeQuantity with
    | some (value, unit) => ⟨value, unit⟩
    | none => v

def decodeAmdGPU (j : Json) : Option AmdGPU :=
  j.decodeStruct ({} : AmdGPU) fun g key v ↦
    if Json.names key "asic" then
      (v.decodeStruct g.marketName fun name key v ↦
        if Json.names key "market_name" then v.decodeString name else some name).map
          ({ g with marketName := · })
    else if Json.names key "vram" then some { g with vram := g.vram.unmarshal v }
    else some g

def amdVRAMToBytes (v : AmdVRAM) : UInt64 :=
  if v.value = 0 then 0
  else
    match v.unit with
    | "gb" | "gib" => v.value * 1024 * 1024 * 1024
    | "kb" | "kib" => v.value * 1024
    | "b" | "bytes" => v.value
    | _ => v.value * mib

def parseAmdSMI : Output → Except ProbeError (List Device)
  | .blank => .error (.output "gpu: empty amd-smi output")
  | .malformed => .error (.output "gpu: parse amd-smi json")
  | .value j =>
    let gpus := match j with
      | .null => some []
      | .array elements => elements.mapM decodeAmdGPU
      | _ => none
    match gpus with
    | none => .error (.output "gpu: parse amd-smi json")
    | some gpus =>
      let devices := gpus.map fun g ↦
        ({ name := trimSpace g.marketName, totalVRAM := amdVRAMToBytes g.vram } : Device)
      .ok (devices.filter fun dev ↦ !(dev.name = "" && dev.totalVRAM = 0))

/-! `rocm-smi … --json` writes an object of cards, whose values are all strings. -/

/-- The order in which a `range` over the entry of a card goes, when a text is looked up. -/
structure MapOrder where
  order : String → String → Table String String → List ((_ : String) × String)
  perm : ∀ id substr entry, (order id substr entry).Perm entry.entries

section

variable (visited : List ((_ : String) × String)) (substr : String)

def hasText (e : (_ : String) × String) : Bool :=
  lower substr <:+: lower e.1 && trimSpace e.2 ≠ ""

def rocmStrBySubstr : Option String := (visited.find? (hasText substr)).map fun e ↦ trimSpace e.2

def rocmUintBySubstr : Option UInt64 :=
  (rocmStrBySubstr visited substr).bind parseUintField

end

namespace MapOrder

variable (range : MapOrder) (id : String) (entry : Table String String)

def str (substr : String) : Option String := rocmStrBySubstr (range.order id substr entry) substr

def uint (substr : String) : Option UInt64 := rocmUintBySubstr (range.order id substr entry) substr

def rocmName : String :=
  (["card series", "card model", "card vendor", "gpu name", "product name"].findSome?
    (range.str id entry)).getD ""

/-- A card without a name and a total is left out. -/
def rocmDevice : Option Device :=
  let name := range.rocmName id entry
  let total := range.uint id entry "vram total memory"
  let used := range.uint id entry "vram total used memory"
  let load := ((range.uint id entry "gpu use").map clampLoad).getD 0
  match total with
  | none => if name = "" then none else some { name, load }
  | some total =>
    let free := match used with
      | some used => if used ≤ total then total - used else 0
      | none => 0
    some { name, totalVRAM := total, freeVRAM := free, load }

def parseRocmSMI : Output → Except ProbeError (List Device)
  | .blank => .error (.output "gpu: empty rocm-smi output")
  | .malformed => .error (.output "gpu: parse rocm-smi json")
  | .value j =>
    match j.decodeMap (Json.decodeMap (Json.decodeString "")) with
    | none => .error (.output "gpu: parse rocm-smi json")
    | some raw =>
      let ids := raw.keys.insertionSort (· ≤ ·)
      .ok ((ids.filter fun id ↦ "card".toList <+: lower id).filterMap fun id ↦
        range.rocmDevice id ((raw.lookup id).getD ∅))

end MapOrder

end AgentGpu.Gpu
