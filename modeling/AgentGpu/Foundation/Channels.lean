import Mathlib.Data.Nat.Notation
import Mathlib.Data.List.Infix
import Mathlib.Logic.Function.Basic
import Mathlib.Tactic.SplitIfs

namespace AgentGpu.Foundation

/-- A buffered channel as everything ever sent on it and how much of that has been received;
what lies between is in the buffer. -/
structure Chan (α : Type) where
  cap : ℕ
  sent : List α := []
  taken : ℕ := 0
  closed : Bool := false
  taken_le : taken ≤ sent.length := by simp
  fits : sent.length ≤ taken + cap := by simp
  deriving DecidableEq

namespace Chan

variable {α : Type} {c c' : Chan α} {a : α}

def make (α : Type) (cap : ℕ) : Chan α := { cap := cap }

def buffered (c : Chan α) : List α := c.sent.drop c.taken

/-- `none` while the buffer is full. -/
def send (c : Chan α) (a : α) : Option (Chan α) :=
  if h : c.sent.length < c.taken + c.cap then
    some { c with
      sent := c.sent ++ [a]
      taken_le := by have := c.taken_le; simp only [List.length_append]; omega
      fits := by simp only [List.length_append, List.length_singleton]; omega }
  else none

/-- The `default` arm of a select drops the value while the buffer is full. -/
def trySend (c : Chan α) (a : α) : Chan α := (c.send a).getD c

def recv (c : Chan α) : Option (α × Chan α) :=
  if h : c.taken < c.sent.length then
    some (c.sent[c.taken], { c with
      taken := c.taken + 1
      taken_le := h
      fits := by have := c.fits; omega })
  else none

def close (c : Chan α) : Chan α := { c with closed := true }

def drained (c : Chan α) : Bool := c.closed && c.taken == c.sent.length

theorem send_some (h : c.send a = some c') :
    c.sent.length < c.taken + c.cap ∧ c'.sent = c.sent ++ [a] ∧ c'.taken = c.taken ∧
      c'.closed = c.closed ∧ c'.cap = c.cap := by
  unfold send at h
  split_ifs at h with hroom
  cases h
  exact ⟨hroom, rfl, rfl, rfl, rfl⟩

theorem send_isSome (h : c.sent.length < c.taken + c.cap) : (c.send a).isSome := by
  simp [send, h]

theorem recv_some (h : c.recv = some (a, c')) :
    c.sent[c.taken]? = some a ∧ c'.sent = c.sent ∧ c'.taken = c.taken + 1 ∧
      c'.closed = c.closed ∧ c'.cap = c.cap := by
  unfold recv at h
  split_ifs at h with hmore
  cases h
  exact ⟨List.getElem?_eq_getElem hmore, rfl, rfl, rfl, rfl⟩

theorem recv_isSome (h : c.taken < c.sent.length) : c.recv.isSome := by
  simp [recv, h]

theorem mem_of_send (h : c.send a = some c') : ∀ b ∈ c'.sent, b ∈ c.sent ∨ b = a := by
  obtain ⟨-, hsent, -, -, -⟩ := send_some h
  simp [hsent]

theorem mem_of_recv (h : c.recv = some (a, c')) : a ∈ c.sent :=
  List.mem_of_getElem? (recv_some h).1

theorem mem_of_trySend : ∀ b ∈ (c.trySend a).sent, b ∈ c.sent ∨ b = a := by
  unfold trySend
  cases h : c.send a with
  | none => exact fun _ ↦ .inl
  | some c' => exact mem_of_send h

theorem buffered_of_send (h : c.send a = some c') : c'.buffered = c.buffered ++ [a] := by
  obtain ⟨-, hsent, htaken, -, -⟩ := send_some h
  rw [buffered, buffered, hsent, htaken, List.drop_append_of_le_length c.taken_le]

theorem buffered_lt_of_send (h : c.send a = some c') : c.buffered.length < c.cap := by
  have hroom := (send_some h).1
  have hle := c.taken_le
  rw [buffered, List.length_drop]
  omega

theorem buffered_of_recv (h : c.recv = some (a, c')) : c.buffered = a :: c'.buffered := by
  obtain ⟨hget, hsent, htaken, -, -⟩ := recv_some h
  rw [buffered, buffered, hsent, htaken]
  obtain ⟨hlt, rfl⟩ := List.getElem?_eq_some_iff.mp hget
  exact List.drop_eq_getElem_cons hlt

def Full (c : Chan α) : Prop := c.taken + c.cap ≤ c.sent.length

instance : Decidable c.Full := inferInstanceAs (Decidable (_ ≤ _))

theorem Full.send_eq_none (h : c.Full) : c.send a = none := by
  simp [send, h.not_gt]

theorem send_isSome_of_not_full (h : ¬c.Full) : (c.send a).isSome :=
  send_isSome (Nat.lt_of_not_le h)

theorem not_full_of_recv (h : c.recv = some (a, c')) : ¬c'.Full := by
  obtain ⟨-, hsent, htaken, -, hcap⟩ := recv_some h
  have hfits := c.fits
  rw [Full, hsent, htaken, hcap]
  omega

/-- The value is in the channel, and nothing else ever was. -/
def Sole (c : Chan α) (a : α) : Prop := c.sent = [a] ∧ c.taken = 0

theorem sole_of_send (h : c.send a = some c') (hnil : c.sent = []) : c'.Sole a := by
  obtain ⟨-, hsent, htaken, -, -⟩ := send_some h
  have hle := c.taken_le
  rw [hnil] at hsent hle
  exact ⟨hsent, htaken.trans (Nat.le_zero.mp hle)⟩

theorem Sole.recv_eq {b : α} (hS : c.Sole a) (h : c.recv = some (b, c')) : b = a := by
  obtain ⟨hget, -⟩ := recv_some h
  rw [hS.1, hS.2] at hget
  exact (Option.some.inj hget).symm

theorem Sole.recv_isSome (hS : c.Sole a) : c.recv.isSome :=
  Chan.recv_isSome (by rw [hS.1, hS.2]; exact Nat.one_pos)

theorem recv_of_nil (hnil : c.sent = []) : c.recv = none := by
  simp [recv, hnil]

@[simp] theorem trySend_closed : (c.trySend a).closed = c.closed := by
  unfold trySend
  cases h : c.send a with
  | none => rfl
  | some c' => exact (send_some h).2.2.2.1

@[simp] theorem trySend_taken : (c.trySend a).taken = c.taken := by
  unfold trySend
  cases h : c.send a with
  | none => rfl
  | some c' => exact (send_some h).2.2.1

@[simp] theorem close_closed : c.close.closed = true := rfl

@[simp] theorem close_sent : c.close.sent = c.sent := rfl

structure Grows (c c' : Chan α) : Prop where
  sent : c.sent <+: c'.sent
  taken : c.taken ≤ c'.taken
  closed : c.closed → c'.closed
  cap : c'.cap = c.cap

theorem Grows.refl (c : Chan α) : c.Grows c := ⟨List.prefix_rfl, le_rfl, id, rfl⟩

theorem grows_of_send (h : c.send a = some c') : c.Grows c' := by
  obtain ⟨-, hsent, htaken, hclosed, hcap⟩ := send_some h
  exact ⟨hsent ▸ List.prefix_append .., htaken.ge, fun hc ↦ hclosed ▸ hc, hcap⟩

theorem grows_of_recv (h : c.recv = some (a, c')) : c.Grows c' := by
  obtain ⟨-, hsent, htaken, hclosed, hcap⟩ := recv_some h
  exact ⟨hsent ▸ List.prefix_rfl, by omega, fun hc ↦ hclosed ▸ hc, hcap⟩

theorem grows_trySend (c : Chan α) (a : α) : c.Grows (c.trySend a) := by
  unfold trySend
  cases h : c.send a with
  | none => exact .refl c
  | some c' => exact grows_of_send h

theorem grows_close (c : Chan α) : c.Grows c.close := ⟨List.prefix_rfl, le_rfl, fun _ ↦ rfl, rfl⟩

theorem proj_of_update {β : Type} (proj : Chan α → β) {f g : ℕ → Chan α} {k : ℕ}
    (hg : g = Function.update f k c) (hc : proj c = proj (f k)) (ch : ℕ) :
    proj (g ch) = proj (f ch) := by
  subst hg
  by_cases hk : ch = k
  · subst hk
    rw [Function.update_self, hc]
  · rw [Function.update_of_ne hk]

theorem Grows.update {f g : ℕ → Chan α} {k : ℕ} (hg : g = Function.update f k c)
    (hc : (f k).Grows c) (ch : ℕ) : (f ch).Grows (g ch) := by
  subst hg
  by_cases hk : ch = k
  · subst hk
    rwa [Function.update_self]
  · rw [Function.update_of_ne hk]
    exact .refl _

theorem mem_update {f g : ℕ → Chan α} {k ch : ℕ} {b : α} {P : α → Prop}
    (hg : g = Function.update f k c) (hc : ∀ b ∈ c.sent, b ∈ (f k).sent ∨ P b)
    (hb : b ∈ (g ch).sent) : b ∈ (f ch).sent ∨ ch = k ∧ P b := by
  subst hg
  by_cases hk : ch = k
  · subst hk
    rw [Function.update_self] at hb
    exact (hc b hb).imp_right (⟨rfl, ·⟩)
  · rw [Function.update_of_ne hk] at hb
    exact .inl hb

theorem mem_of_update {f g : ℕ → Chan α} {k ch : ℕ} {b : α}
    (hg : g = Function.update f k c) (hc : c.sent = (f k).sent) (hb : b ∈ (g ch).sent) :
    b ∈ (f ch).sent :=
  (mem_update (P := fun _ ↦ False) hg (fun _ h ↦ .inl (hc ▸ h)) hb).resolve_right (·.2)

end Chan

end AgentGpu.Foundation
