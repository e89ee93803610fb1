import AgentGpu.Cmd.LogTail

namespace AgentGpu.Cmd

open Foundation HttpApi

/-- A value as it is passed to the logger. A `LogValuer` of some type stands for another value. -/
inductive Value
  | leaf (v : AttrValue)
  | group (attrs : List (String × Value))
  | logValuer (type : String) (v : Value)

abbrev Attr := String × Value

namespace Value

/-- The rest of the calls of `LogValue`, for a value that began as a `LogValuer`. -/
def unwrap (type : String) : ℕ → Value → Value
  | 0, _ => .leaf (.other ("LogValue called too many times on " ++ type))
  | n + 1, .logValuer _ v => unwrap type n v
  | _ + 1, v => v

def maxLogValues : ℕ := 100

def resolve : Value → Value
  | .logValuer type v => unwrap type (maxLogValues - 1) v
  | v => v

theorem sizeOf_unwrap {type : String} {n : ℕ} {v : Value} {attrs : List Attr}
    (h : unwrap type n v = .group attrs) : sizeOf attrs < sizeOf v := by
  fun_induction unwrap type n v with
  | case1 => cases h
  | case2 n type' v ih =>
    have := ih h
    rw [logValuer.sizeOf_spec]
    omega
  | case3 n v =>
    rw [h, group.sizeOf_spec]
    omega

theorem sizeOf_resolve {v : Value} {attrs : List Attr} (h : v.resolve = .group attrs) :
    sizeOf attrs < sizeOf v := by
  cases v with
  | leaf v => cases h
  | group attrs' =>
    cases h
    rw [group.sizeOf_spec]
    omega
  | logValuer type v =>
    have := sizeOf_unwrap h
    rw [logValuer.sizeOf_spec]
    omega

end Value

def redactedPlaceholder : String := "[REDACTED]"

def sensitiveKeys : List String :=
  ["secret", "secret_hash", "secrethash", "salt", "token", "authorization", "password", "api_key",
    "apikey", "bearer"]

def redactAttr (key : String) (v : AttrValue) : AttrValue :=
  if String.ofList (key.toList.map toLower) ∈ sensitiveKeys then .string redactedPlaceholder else v

theorem sizeOf_lt_of_mem_group {a ga : Attr} {attrs : List Attr} (h : a.2.resolve = .group attrs)
    (hga : ga ∈ attrs) : sizeOf ga < sizeOf a := by
  have hvalue := Value.sizeOf_resolve h
  have hmem := List.sizeOf_lt_of_mem hga
  have hpair : sizeOf a = 1 + sizeOf a.1 + sizeOf a.2 := by cases a; rfl
  omega

def collectPrefixed (pre : String) (a : Attr) : List (String × AttrValue) :=
  match _h : a.2.resolve with
  | .group attrs =>
    let next :=
      if a.1 ≠ "" then
        if pre = "" then a.1 else pre ++ "." ++ a.1
      else pre
    attrs.attach.flatMap fun ga ↦ collectPrefixed next ga.1
  | .leaf v =>
    if a.1 = "" then []
    else [(if pre ≠ "" then pre ++ "." ++ a.1 else a.1, redactAttr a.1 v)]
  | .logValuer _ _ => []
termination_by sizeOf a
decreasing_by exact sizeOf_lt_of_mem_group _h ga.2

def joinDots : List String → String
  | [] => ""
  | [name] => name
  | name :: names => name ++ "." ++ joinDots names

structure RingHandler where
  attrs : List Attr := []
  groups : List String := []

inductive Derivation
  | withAttrs (attrs : List Attr)
  | withGroup (name : String)

structure Record where
  time : Time
  level : ℤ := 0
  message : String := ""
  attrs : List Attr := []

namespace RingHandler

def stores (h : RingHandler) (rec : Record) : List (String × AttrValue) :=
  let groupPrefix := joinDots h.groups
  h.attrs.flatMap (collectPrefixed groupPrefix) ++ rec.attrs.flatMap (collectPrefixed groupPrefix)

/-- A time is kept as the 64 bits of its nanoseconds. -/
def handle (h : RingHandler) (ring : LogRing) (rec : Record) : LogRing :=
  if 0 < ring.cap then
    ring.append
      { time := rec.time.bmod (2 ^ 64), level := rec.level, message := rec.message,
        attrs := some ((h.stores rec).foldl (fun dst s ↦ dst.insert s.1 s.2) ∅) }
  else ring

end RingHandler

/-! What a handler of the library logs: an attribute stands under the groups that were open when
it was bound. A group without a name is not opened, and a group attribute without a name has its
members in its place. An attribute without a key and a value is left out. -/

structure Leaf where
  groups : List String
  key : String
  value : AttrValue

def Leaf.inGroup (name : String) (l : Leaf) : Leaf :=
  if name = "" then l else { l with groups := name :: l.groups }

def leaves (a : Attr) : List Leaf :=
  match _h : a.2.resolve with
  | .group attrs => (attrs.attach.flatMap fun ga ↦ leaves ga.1).map (Leaf.inGroup a.1)
  | .leaf v => if a.1 = "" ∧ v = .nil then [] else [⟨[], a.1, redactAttr a.1 v⟩]
  | .logValuer _ _ => []
termination_by sizeOf a
decreasing_by exact sizeOf_lt_of_mem_group _h ga.2

structure SlogHandler where
  bound : List (List String × Attr) := []
  groups : List String := []

namespace SlogHandler

def attached (h : SlogHandler) (rec : Record) : List (List String × Attr) :=
  h.bound ++ rec.attrs.map (h.groups, ·)

def leaves (h : SlogHandler) (rec : Record) : List (List String × Leaf) :=
  (h.attached rec).flatMap fun b ↦ (Cmd.leaves b.2).map (b.1, ·)

def logs (h : SlogHandler) (rec : Record) : List (String × AttrValue) :=
  (h.leaves rec).map fun b ↦ (joinDots (b.1 ++ b.2.groups ++ [b.2.key]), b.2.value)

end SlogHandler

section

variable {a : Attr} {attrs : List Attr} {v : AttrValue}

end

/-! Keys as prefixes of names with a dot behind each. -/

def dotted (names : List String) : String := names.foldr (fun name s ↦ name ++ "." ++ s) ""

def withDot (pre : String) : String := if pre = "" then "" else pre ++ "."

section

variable {a : Attr} {pre : String}

def Leaf.stored (pre : String) (l : Leaf) : Option (String × AttrValue) :=
  if l.key = "" then none else some (withDot pre ++ dotted l.groups ++ l.key, l.value)

end

section

variable {h : RingHandler} {s : SlogHandler} {rec : Record}

def RingHandler.Opens (h : RingHandler) (groups : List String) : Prop :=
  groups.Sublist h.groups ∧ "" ∉ groups

structure RingHandler.Follows (h : RingHandler) (s : SlogHandler) : Prop where
  attrs_eq : h.attrs = s.bound.map Prod.snd
  groups : h.Opens s.groups
  bound : ∀ b ∈ s.bound, h.Opens b.1

theorem RingHandler.Follows.attached (hs : h.Follows s) {b : List String × Attr}
    (hb : b ∈ s.attached rec) : h.Opens b.1 := by
  rcases List.mem_append.mp hb with hbound | hrec
  · exact hs.bound b hbound
  · obtain ⟨a, -, rfl⟩ := List.mem_map.mp hrec
    exact hs.groups

def opened (ds : List Derivation) : List String :=
  ds.filterMap fun
    | .withAttrs _ => none
    | .withGroup name => some name

end

end AgentGpu.Cmd
