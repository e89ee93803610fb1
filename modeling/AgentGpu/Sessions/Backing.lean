import AgentGpu.Foundation.Slices
import AgentGpu.Sessions.Operations
import AgentGpu.Sessions.Overflow

namespace AgentGpu.Sessions

open Foundation

instance : Inhabited Message := ⟨{}⟩

/-- The history store as it is laid out: each history is a slice of some backing array. -/
structure MemoryHistoryStore where
  memory : Memory Message
  history : String → Option Slice

namespace MemoryHistoryStore

def empty : MemoryHistoryStore := ⟨[], fun _ ↦ none⟩

variable (st : MemoryHistoryStore) (caps : HistoryCaps) (sessionID : String)

/-- `m.history[sessionID]`, which is nil for an unknown session. -/
def slice : Slice := (st.history sessionID).getD .nil

def contents : History := fun sessionID ↦ (st.history sessionID).map st.memory.read

/-- The passes of `trim` only reslice; if they dropped turns, the rest moves to a new array. -/
def trim (mem : Memory Message) (turns : Slice) (spare : ℕ) : Memory Message × Slice :=
  let kept := turns.drop (turns.length - (Sessions.trim caps (mem.read turns)).length)
  if kept.length < turns.length then mem.append .nil (mem.read kept) spare else (mem, kept)

/-- The room that the runtime leaves in the arrays it allocates during a call. -/
structure Spare where
  grown : ℕ
  compacted : ℕ

/-- The locked part of `Append` and `AppendBatch`, and whether it accepts the turns. A refused
call has written behind the stored slice, or left an array that nothing points to. -/
def appendLocked (turns : List Message) (spare : Spare) : MemoryHistoryStore × Bool :=
  let combined := st.memory.append (st.slice sessionID) turns spare.grown
  if caps.policy = .reject ∧ exceedsCap caps (combined.1.read combined.2) then (⟨combined.1, st.history⟩, false)
  else
    let kept := trim caps combined.1 combined.2 spare.compacted
    (⟨kept.1, Function.update st.history sessionID (some kept.2)⟩, true)

def append (turn : Message) (spare : Spare) : MemoryHistoryStore × Bool :=
  st.appendLocked caps sessionID [turn] spare

def appendBatch (turns : List Message) (spare : Spare) : MemoryHistoryStore × Bool :=
  if turns.isEmpty then (st, true) else st.appendLocked caps sessionID turns spare

def wouldReject (turns : List Message) : Bool :=
  if caps.policy ≠ .reject ∨ turns.isEmpty then false
  else exceedsCap caps (st.memory.read (st.slice sessionID) ++ turns)

end MemoryHistoryStore

theorem trim_suffix (caps : HistoryCaps) (turns : List Message) : trim caps turns <:+ turns := by
  rw [trim_eq]
  exact keepSuffix_suffix _ turns

theorem trim_ne_nil {caps : HistoryCaps} {turns : List Message} (hne : turns ≠ []) : trim caps turns ≠ [] := by
  rw [trim_eq]
  exact keepSuffix_ne_nil hne

namespace MemoryHistoryStore

variable {st : MemoryHistoryStore} {caps : HistoryCaps} {id : String} {mem : Memory Message} {new : Slice}
  {turns : List Message} {spare : Spare}

structure Sound (st : MemoryHistoryStore) : Prop where
  holds : ∀ id s, st.history id = some s → st.memory.Holds s
  apart : ∀ id id' s s', id ≠ id' → st.history id = some s → st.history id' = some s' → s.array ≠ s'.array

structure Placed (st : MemoryHistoryStore) (id : String) (mem : Memory Message) (new : Slice)
    (turns : List Message) : Prop where
  holds : mem.Holds new
  read : mem.read new = turns
  kept : ∀ id' s, st.history id' = some s → st.memory.Keeps mem s
  apart : ∀ id' s, id' ≠ id → st.history id' = some s → s.array ≠ new.array

theorem sound_empty : Sound empty where
  holds _ _ h := nomatch h
  apart _ _ _ _ _ h := nomatch h

theorem placed_alloc (hkept : ∀ id' s, st.history id' = some s → st.memory.Keeps mem s)
    (turns : List Message) (k : ℕ) :
    Placed st id (mem.alloc turns k).1 (mem.alloc turns k).2 turns where
  holds := mem.holds_alloc turns k
  read := mem.read_alloc turns k
  kept id' s hs := by
    obtain ⟨hold, hread⟩ := hkept id' s hs
    obtain ⟨hold', hread'⟩ := Memory.alloc_keeps hold turns k
    exact ⟨hold', hread'.trans hread⟩
  apart id' s _ hs := (hkept id' s hs).1.array_lt.ne

theorem Sound.placed_append (h : st.Sound) (id : String) (hne : turns ≠ []) (k : ℕ) :
    Placed st id (st.memory.append (st.slice id) turns k).1 (st.memory.append (st.slice id) turns k).2
      (st.contents.get id ++ turns) := by
  have hkept (id' : String) (s : Slice) (hs : st.history id' = some s) : st.memory.Keeps st.memory s :=
    ⟨h.holds id' s hs, rfl⟩
  cases hslice : st.history id with
  | none =>
    rw [show st.slice id = .nil by rw [slice, hslice]; rfl, Memory.append_nil hne,
      show st.contents.get id = [] by simp [History.get, contents, hslice], List.nil_append]
    exact placed_alloc hkept turns k
  | some s =>
    have hold := h.holds id s hslice
    rw [show st.slice id = s by rw [slice, hslice]; rfl,
      show st.contents.get id = st.memory.read s by simp [History.get, contents, hslice]]
    refine ⟨Memory.holds_append hold, Memory.read_append hold, fun id' s' hs' ↦ ?_, fun id' s' hid hs' ↦ ?_⟩
    · refine Memory.append_keeps hold (h.holds id' s' hs') fun harray ↦ ?_
      -- only the session's own slice is in that array
      have hid : id' = id := by_contra fun hid ↦ h.apart id' id s' s hid hs' hslice harray
      rw [hid, hslice] at hs'
      cases hs'
      exact le_rfl
    · rcases st.memory.array_append s turns k with harray | harray
      · rw [harray]
        exact h.apart id' id s' s hid hs' hslice
      · rw [harray]
        exact (h.holds id' s' hs').array_lt.ne

theorem Placed.trim (h : Placed st id mem new turns) (caps : HistoryCaps) (k : ℕ) :
    Placed st id (MemoryHistoryStore.trim caps mem new k).1 (MemoryHistoryStore.trim caps mem new k).2
      (Sessions.trim caps turns) := by
  have hsuffix := trim_suffix caps turns
  have hlength : turns.length = new.length := h.read ▸ Memory.length_read h.holds
  have hread : mem.read (new.drop (new.length - (Sessions.trim caps turns).length)) =
      Sessions.trim caps turns := by
    rw [Memory.read_drop, h.read, ← hlength, ← List.suffix_iff_eq_drop.mp hsuffix]
  rw [MemoryHistoryStore.trim, h.read]
  split_ifs with hdropped
  · have hne : Sessions.trim caps turns ≠ [] := by
      refine trim_ne_nil fun hnil ↦ ?_
      rw [← hlength, hnil] at hdropped
      exact Nat.not_lt_zero _ hdropped
    rw [hread, Memory.append_nil hne]
    exact placed_alloc h.kept _ k
  · have hzero : new.length - (Sessions.trim caps turns).length = 0 := by
      simp only [Slice.drop] at hdropped
      omega
    rw [hzero] at hread ⊢
    exact { h with read := hread }

theorem update_eq_some {history : String → Option Slice} {id' : String} {s : Slice}
    (hs : Function.update history id (some new) id' = some s) :
    (id' = id ∧ s = new) ∨ (id' ≠ id ∧ history id' = some s) := by
  by_cases hid : id' = id
  · subst hid
    rw [Function.update_self] at hs
    exact .inl ⟨rfl, (Option.some.inj hs).symm⟩
  · rw [Function.update_of_ne hid] at hs
    exact .inr ⟨hid, hs⟩

theorem Placed.sound (h : Placed st id mem new turns) (hst : st.Sound) :
    Sound ⟨mem, Function.update st.history id (some new)⟩ := by
  refine ⟨fun id' s hs ↦ ?_, fun id₁ id₂ s₁ s₂ hne hs₁ hs₂ ↦ ?_⟩
  · obtain ⟨-, rfl⟩ | ⟨-, hs⟩ := update_eq_some hs
    · exact h.holds
    · exact (h.kept id' s hs).1
  · obtain ⟨rfl, rfl⟩ | ⟨hid₁, hold₁⟩ := update_eq_some hs₁ <;>
      obtain ⟨rfl, rfl⟩ | ⟨hid₂, hold₂⟩ := update_eq_some hs₂
    · exact absurd rfl hne
    · exact (h.apart id₂ s₂ hid₂ hold₂).symm
    · exact h.apart id₁ s₁ hid₁ hold₁
    · exact hst.apart id₁ id₂ s₁ s₂ hne hold₁ hold₂

theorem Placed.contents_eq (h : Placed st id mem new turns) :
    contents ⟨mem, Function.update st.history id (some new)⟩ =
      Function.update st.contents id (some turns) := by
  funext id'
  by_cases hid : id' = id
  · subst hid
    simp [contents, h.read]
  · simp only [contents, Function.update_of_ne hid]
    exact Option.map_congr fun s hs ↦ (h.kept id' s hs).2

theorem Placed.refused (h : Placed st id mem new turns) (hst : st.Sound) :
    Sound ⟨mem, st.history⟩ ∧ contents ⟨mem, st.history⟩ = st.contents :=
  ⟨⟨fun id' s hs ↦ (h.kept id' s hs).1, hst.apart⟩,
    funext fun id' ↦ Option.map_congr fun s hs ↦ (h.kept id' s hs).2⟩

/-- What a call makes of the store is what the lists of turns say; a refused call changes no
history. -/
structure Refined (st : MemoryHistoryStore) (caps : HistoryCaps) (id : String) (turns : List Message)
    (r : MemoryHistoryStore × Bool) : Prop where
  sound : r.1.Sound
  lists : st.contents.appendBatch caps id turns = if r.2 then some r.1.contents else none
  refused : r.2 = false → r.1.contents = st.contents

theorem appendLocked_refined (h : st.Sound) (hne : turns ≠ []) (spare : Spare) :
    Refined st caps id turns (st.appendLocked caps id turns spare) := by
  have hplaced := h.placed_append id hne spare.grown
  simp only [appendLocked, hplaced.read]
  generalize st.memory.append (st.slice id) turns spare.grown = combined at hplaced ⊢
  split_ifs with hreject
  · obtain ⟨hsound, hcontents⟩ := hplaced.refused h
    exact ⟨hsound, History.appendBatch_eq_none.mpr ⟨hreject.1, hne, hreject.2⟩, fun _ ↦ hcontents⟩
  · have htrim := hplaced.trim caps spare.compacted
    generalize trim caps combined.1 combined.2 spare.compacted = kept at htrim ⊢
    refine ⟨htrim.sound h, ?_, Bool.noConfusion⟩
    rw [htrim.contents_eq, History.appendBatch, if_neg (by simpa using hne)]
    exact if_neg hreject

theorem appendBatch_refined (h : st.Sound) (spare : Spare) :
    Refined st caps id turns (st.appendBatch caps id turns spare) := by
  cases turns with
  | nil => exact ⟨h, rfl, Bool.noConfusion⟩
  | cons turn turns => exact appendLocked_refined h (List.cons_ne_nil turn turns) spare

namespace Refined

variable {p : MemoryHistoryStore} {r r' : MemoryHistoryStore × Bool}

theorem contents_of_ne (hr : Refined st caps id turns r) {id' : String} (hid : id' ≠ id) :
    r.1.contents id' = st.contents id' := by
  cases haccepted : r.2 with
  | false => rw [hr.refused haccepted]
  | true => exact History.appendBatch_frame (by rw [hr.lists, haccepted]; rfl) hid

theorem congr (hr : Refined st caps id turns r) (hr' : Refined p caps id turns r')
    (hid : p.contents id = st.contents id) : r'.2 = r.2 ∧ r'.1.contents id = r.1.contents id := by
  have hlists : Option.map (· id) (p.contents.appendBatch caps id turns) =
      Option.map (· id) (st.contents.appendBatch caps id turns) := History.appendBatch_congr hid
  rw [hr.lists, hr'.lists] at hlists
  cases haccepted : r.2 <;> cases haccepted' : r'.2 <;> rw [haccepted, haccepted'] at hlists
  · rw [hr.refused haccepted, hr'.refused haccepted']
    exact ⟨rfl, hid⟩
  · cases hlists
  · cases hlists
  · exact ⟨rfl, Option.some.inj hlists⟩

theorem within (hr : Refined st caps id turns r) (hpolicy : caps.policy = .reject)
    (hfits : ∀ id turns, st.contents id = some turns → exceedsCap caps turns = false) (id' : String)
    (turns' : List Message) (hstored : r.1.contents id' = some turns') : exceedsCap caps turns' = false := by
  cases haccepted : r.2 with
  | false =>
    rw [hr.refused haccepted] at hstored
    exact hfits id' turns' hstored
  | true =>
    have hlists := hr.lists
    rw [haccepted] at hlists
    exact History.appendBatch_within hpolicy hfits hlists id' turns' hstored

theorem refuses_iff (hr : Refined st caps id turns r) :
    r.2 = false ↔ caps.policy = .reject ∧ turns ≠ [] ∧ exceedsCap caps (st.contents.get id ++ turns) := by
  rw [← History.appendBatch_eq_none, hr.lists]
  cases r.2 <;> simp

end Refined

theorem wouldReject_iff :
    st.wouldReject caps id turns ↔
      caps.policy = .reject ∧ turns ≠ [] ∧ exceedsCap caps (st.contents.get id ++ turns) := by
  have hread : st.memory.read (st.slice id) = st.contents.get id := by
    rw [slice, History.get, contents]
    cases st.history id <;> rfl
  simp only [wouldReject, hread, List.isEmpty_iff]
  by_cases hpolicy : caps.policy = .reject <;> by_cases hempty : turns = [] <;> simp [hpolicy, hempty]

end MemoryHistoryStore

inductive AppendCall
  | append (sessionID : String) (turn : Message)
  | appendBatch (sessionID : String) (turns : List Message)

namespace AppendCall

def session : AppendCall → String
  | append sessionID _ | appendBatch sessionID _ => sessionID

def turns : AppendCall → List Message
  | append _ turn => [turn]
  | appendBatch _ turns => turns

end AppendCall

namespace MemoryHistoryStore

variable {st st' : MemoryHistoryStore} {caps : HistoryCaps} {id : String} {call : AppendCall}

def apply (st : MemoryHistoryStore) (caps : HistoryCaps) (spare : Spare) :
    AppendCall → MemoryHistoryStore × Bool
  | .append sessionID turn => st.append caps sessionID turn spare
  | .appendBatch sessionID turns => st.appendBatch caps sessionID turns spare

def run (caps : HistoryCaps) : MemoryHistoryStore → List (AppendCall × Spare) →
    MemoryHistoryStore × List (AppendCall × Bool)
  | st, [] => (st, [])
  | st, (call, spare) :: calls =>
    let r := st.apply caps spare call
    let rest := run caps r.1 calls
    (rest.1, (call, r.2) :: rest.2)

theorem apply_refined (h : st.Sound) (spare : Spare) (call : AppendCall) :
    Refined st caps call.session call.turns (st.apply caps spare call) := by
  cases call with
  | append sessionID turn => exact appendLocked_refined h (List.cons_ne_nil turn []) spare
  | appendBatch sessionID turns => exact appendBatch_refined h spare

theorem run_within (hpolicy : caps.policy = .reject) (calls : List (AppendCall × Spare)) (h : st.Sound)
    (hfits : ∀ id turns, st.contents id = some turns → exceedsCap caps turns = false) :
    (run caps st calls).1.Sound ∧
      ∀ id turns, (run caps st calls).1.contents id = some turns → exceedsCap caps turns = false := by
  induction calls generalizing st with
  | nil => exact ⟨h, hfits⟩
  | cons c calls ih =>
    have hr : Refined st caps _ _ _ := apply_refined h c.2 c.1
    exact ih hr.sound (hr.within hpolicy hfits)

theorem run_filter (calls : List (AppendCall × Spare)) (h : st.Sound) (h' : st'.Sound)
    (hid : st'.contents id = st.contents id) :
    (run caps st calls).2.filter (·.1.session = id) =
      (run caps st' (calls.filter (·.1.session = id))).2 := by
  induction calls generalizing st st' with
  | nil => rfl
  | cons c calls ih =>
    obtain ⟨call, spare⟩ := c
    have hr : Refined st caps _ _ _ := apply_refined h spare call
    by_cases hsession : call.session = id
    · subst hsession
      have hr' : Refined st' caps _ _ _ := apply_refined h' spare call
      obtain ⟨haccepted, hcontents⟩ := hr.congr hr' hid
      simp only [run, List.filter_cons_of_pos, decide_true, haccepted]
      exact congrArg _ (ih hr.sound hr'.sound hcontents)
    · rw [List.filter_cons_of_neg (by simpa using hsession), run,
        List.filter_cons_of_neg (by simpa using hsession)]
      exact ih hr.sound h' (hid.trans (hr.contents_of_ne (Ne.symm hsession)).symm)

/-- Under the reject policy: stored histories stay within the caps, a refused call changes
nothing, `WouldReject` foretells it, and the other sessions have no part in it. -/
theorem reject_policy_atomic (caps : HistoryCaps) (hpolicy : caps.policy = .reject)
    (calls : List (AppendCall × Spare)) :
    (∀ id turns, (run caps empty calls).1.contents id = some turns → exceedsCap caps turns = false) ∧
    (∀ call spare, ((run caps empty calls).1.apply caps spare call).2 = false →
      ((run caps empty calls).1.apply caps spare call).1.contents = (run caps empty calls).1.contents) ∧
    (∀ id turns spare, (run caps empty calls).1.wouldReject caps id turns ↔
      ((run caps empty calls).1.appendBatch caps id turns spare).2 = false) ∧
    ∀ id, (run caps empty calls).2.filter (·.1.session = id) =
      (run caps empty (calls.filter (·.1.session = id))).2 := by
  obtain ⟨hsound, hfits⟩ := run_within hpolicy calls sound_empty fun _ _ h ↦ nomatch h
  refine ⟨hfits, fun call spare ↦ (apply_refined hsound spare call).refused, fun id turns spare ↦ ?_,
    fun id ↦ run_filter calls sound_empty sound_empty rfl⟩
  rw [wouldReject_iff, (appendBatch_refined hsound spare).refuses_iff]

theorem reject_policy_atomic_one :
    (run { maxTurns := 1, policy := .reject } empty [(.append "sess_0" {}, ⟨3, 0⟩)]).1.wouldReject
        { maxTurns := 1, policy := .reject } "sess_0" [{}] ∧
      ((run { maxTurns := 1, policy := .reject } empty [(.append "sess_0" {}, ⟨3, 0⟩)]).1.appendBatch
        { maxTurns := 1, policy := .reject } "sess_0" [{}] ⟨3, 0⟩).2 = false := by
  obtain ⟨-, -, hforetold, -⟩ := reject_policy_atomic { maxTurns := 1, policy := .reject } rfl
    [(.append "sess_0" {}, ⟨3, 0⟩)]
  have hreject : (run { maxTurns := 1, policy := .reject } empty
      [(.append "sess_0" {}, ⟨3, 0⟩)]).1.wouldReject { maxTurns := 1, policy := .reject } "sess_0" [{}] := by
    decide +kernel
  exact ⟨hreject, (hforetold "sess_0" [{}] ⟨3, 0⟩).mp hreject⟩

end MemoryHistoryStore

end AgentGpu.Sessions
