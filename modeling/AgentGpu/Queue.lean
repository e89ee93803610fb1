import AgentGpu.Foundation.Heap
import AgentGpu.Types
import Mathlib.Data.UInt
import Mathlib.Logic.Function.Basic

namespace AgentGpu

open Foundation

variable {J : Type}

namespace Queue

structure Item (J : Type) where
  job : J
  key : String
  priority : ℤ
  seq : UInt64
  enqueuedAt : Time

def Item.less (a b : Item J) : Bool :=
  if a.priority ≠ b.priority then a.priority > b.priority else a.seq < b.seq

inductive QueueError
  | full
  | closed
  deriving DecidableEq

structure Stats where
  total : ℕ
  byPriority : ℤ → Option ℕ

end Queue

structure Queue (J : Type) where
  items : Array (Queue.Item J) := #[]
  seq : UInt64 := 0
  maxDepth : ℕ := 0
  closed : Bool := false

namespace Queue

/-- A call with what its caller passes and what it reads from outside: the clock, and the
error of the context if it is done. -/
inductive Op (J : Type)
  | enqueue (job : J) (key : String) (p : ℤ) (now : Time)
  | dequeue
  | dequeueWait (ctxErr : Option String)
  | stats
  | close

def Op.isEnqueue : Op J → Bool
  | .enqueue .. => true
  | _ => false

def Op.removes : Op J → Bool
  | .dequeue | .dequeueWait _ => true
  | _ => false

/-- `waiting` stands for a call that has not returned. -/
inductive Reply (J : Type)
  | enqueued (err : Option QueueError)
  | item (it : Item J)
  | empty
  | closed
  | ctxErr (err : String)
  | waiting
  | stats (stats : Stats)
  | done

def Reply.taken : Reply J → List (Item J)
  | .item it => [it]
  | _ => []

section Calls

variable (q : Queue J)

/-- A bound that is not positive is none. -/
def new (maxDepth : ℤ) : Queue J := { maxDepth := maxDepth.toNat }

def enqueue (job : J) (key : String) (p : ℤ) (now : Time) : Queue J × Option QueueError :=
  if q.closed then (q, some .closed)
  else if 0 < q.maxDepth ∧ q.maxDepth ≤ q.items.size then (q, some .full)
  else
    let it : Item J := ⟨job, key, p, q.seq, now⟩
    ({ q with seq := q.seq + 1, items := Heap.push Item.less q.items it }, none)

def popLocked : Queue J × Option (Item J) :=
  if q.items.size = 0 then (q, none)
  else
    match Heap.pop Item.less q.items with
    | none => (q, none)
    | some (it, items) => ({ q with items := items }, some it)

/-- The round of the loop in which `DequeueWait` returns, or goes on waiting. -/
def dequeueWait (ctxErr : Option String) : Queue J × Reply J :=
  match q.popLocked with
  | (q, some it) => (q, .item it)
  | (q, none) =>
    if q.closed then (q, .closed)
    else
      match ctxErr with
      | some err => (q, .ctxErr err)
      | none => (q, .waiting)

/-- `byPriority[it.Priority]++` on a map in which a missing key counts as zero. -/
def countItem (m : ℤ → Option ℕ) (it : Item J) : ℤ → Option ℕ :=
  Function.update m it.priority (some ((m it.priority).getD 0 + 1))

def stats : Stats where
  total := q.items.size
  byPriority := q.items.foldl countItem fun _ ↦ none

def close : Queue J := if q.closed then q else { q with closed := true }

def apply : Op J → Queue J × Reply J
  | .enqueue job key p now => (q.enqueue job key p now).map id .enqueued
  | .dequeue => q.popLocked.map id fun it ↦ it.elim .empty .item
  | .dequeueWait ctxErr => q.dequeueWait ctxErr
  | .stats => (q, .stats q.stats)
  | .close => (q.close, .done)

def after (ops : List (Op J)) : Queue J := ops.foldl (fun q op ↦ (q.apply op).1) q

def replies (q : Queue J) : List (Op J) → List (Reply J)
  | [] => []
  | op :: ops => (q.apply op).2 :: replies (q.apply op).1 ops

end Calls

/-- What the queue is for: it holds items in the order they came in and gives away one of
highest priority, the earliest if there are several. -/
structure Reference (J : Type) where
  held : List (Item J) := []
  enqueued : ℕ := 0
  maxDepth : ℤ := 0
  closed : Bool := false

def takeNext : List (Item J) → Option (Item J × List (Item J))
  | [] => none
  | a :: held =>
    match takeNext held with
    | none => some (a, held)
    | some (b, rest) => if a.priority < b.priority then some (b, a :: rest) else some (a, held)

namespace Reference

variable (r : Reference J)

def enqueue (job : J) (key : String) (p : ℤ) (now : Time) : Reference J × Option QueueError :=
  if r.closed then (r, some .closed)
  else if 0 < r.maxDepth ∧ r.maxDepth ≤ r.held.length then (r, some .full)
  else
    let it : Item J := ⟨job, key, p, .ofNat r.enqueued, now⟩
    ({ r with held := r.held ++ [it], enqueued := r.enqueued + 1 }, none)

def take (otherwise : Reply J) : Reference J × Reply J :=
  match takeNext r.held with
  | some (it, held) => ({ r with held := held }, .item it)
  | none => (r, otherwise)

def stats : Stats where
  total := r.held.length
  byPriority p :=
    let count := r.held.countP (·.priority = p)
    if count = 0 then none else some count

def apply : Op J → Reference J × Reply J
  | .enqueue job key p now => (r.enqueue job key p now).map id .enqueued
  | .dequeue => r.take .empty
  | .dequeueWait ctxErr => r.take (if r.closed then .closed else ctxErr.elim .waiting .ctxErr)
  | .stats => (r, .stats r.stats)
  | .close => ({ r with closed := true }, .done)

def after (ops : List (Op J)) : Reference J := ops.foldl (fun r op ↦ (r.apply op).1) r

def replies (r : Reference J) : List (Op J) → List (Reply J)
  | [] => []
  | op :: ops => (r.apply op).2 :: replies (r.apply op).1 ops

end Reference

theorem Item.less_eq_false_iff {a b : Item J} :
    a.less b = false ↔
      a.priority < b.priority ∨ a.priority = b.priority ∧ b.seq.toNat ≤ a.seq.toNat := by
  unfold Item.less
  split_ifs with h
  · simp only [gt_iff_lt, decide_eq_false_iff_not]
    omega
  · simp only [decide_eq_false_iff_not, UInt64.lt_iff_toNat_lt]
    omega

theorem less_orders : Heap.Orders (Item.less (J := J)) where
  asymm a b h := by
    rw [← Bool.not_eq_false, Item.less_eq_false_iff] at h
    rw [Item.less_eq_false_iff]
    rcases lt_trichotomy a.priority b.priority with hlt | heq | hgt
    · exact absurd (.inl hlt) h
    · exact .inr ⟨heq.symm, le_of_not_ge fun hle ↦ h (.inr ⟨heq, hle⟩)⟩
    · exact .inl hgt
  trans a b c hab hbc := by
    rw [Item.less_eq_false_iff] at *
    rcases hab with hab | ⟨hab, hseq⟩ <;> rcases hbc with hbc | ⟨hbc, hseq'⟩
    · exact .inl (hab.trans hbc)
    · exact .inl (hbc ▸ hab)
    · exact .inl (hab ▸ hbc)
    · exact .inr ⟨hab.trans hbc, hseq'.trans hseq⟩

section TakeNext

variable {held rest before after : List (Item J)} {it : Item J}

theorem takeNext_eq_none (h : takeNext held = none) : held = [] := by
  cases held with
  | nil => rfl
  | cons a held =>
    simp only [takeNext] at h
    split at h
    · cases h
    · split_ifs at h

theorem takeNext_perm (h : takeNext held = some (it, rest)) : held.Perm (it :: rest) := by
  induction held generalizing it rest with
  | nil => cases h
  | cons a held ih =>
    simp only [takeNext] at h
    split at h
    · cases h
      exact .refl _
    · next b rest' hb =>
      split_ifs at h <;> cases h
      · exact ((ih hb).cons a).trans (.swap it a rest')
      · exact .refl _

theorem takeNext_first (hsorted : held.Pairwise (·.seq.toNat < ·.seq.toNat))
    (h : takeNext held = some (it, rest)) : ∀ b ∈ held, b.less it = false := by
  induction held generalizing it rest with
  | nil => cases h
  | cons a held ih =>
    obtain ⟨hbehind, hsorted⟩ := List.pairwise_cons.mp hsorted
    have hself : a.less a = false := Item.less_eq_false_iff.mpr (.inr ⟨rfl, Nat.le_refl _⟩)
    simp only [takeNext] at h
    rw [List.forall_mem_cons]
    split at h
    · next hnone =>
      cases h
      rw [takeNext_eq_none hnone]
      exact ⟨hself, fun _ hb ↦ nomatch hb⟩
    · next c rest' hc =>
      have hfirst := ih hsorted hc
      split_ifs at h with hlt <;> cases h
      · exact ⟨Item.less_eq_false_iff.mpr (.inl hlt), hfirst⟩
      · refine ⟨hself, fun b hb ↦ Item.less_eq_false_iff.mpr ?_⟩
        have hseq := hbehind b hb
        rcases Item.less_eq_false_iff.mp (hfirst b hb) with hbc | ⟨hbc, -⟩ <;> omega

theorem takeNext_of_split (hbefore : ∀ b ∈ before, b.priority < it.priority)
    (hafter : ∀ c ∈ after, c.priority ≤ it.priority) :
    takeNext (before ++ it :: after) = some (it, before ++ after) := by
  induction before with
  | nil =>
    simp only [List.nil_append, takeNext]
    split
    · rfl
    · next b rest hb => rw [if_neg (Int.not_lt.mpr (hafter b ((takeNext_perm hb).mem_iff.mpr List.mem_cons_self)))]
  | cons a before ih =>
    obtain ⟨ha, hbefore⟩ := List.forall_mem_cons.mp hbefore
    simp only [List.cons_append, takeNext, ih hbefore]
    rw [if_pos ha]

end TakeNext

/-- The heap holds what the reference holds, and the sequence numbers follow the order in
which it came in. -/
structure Refines (q : Queue J) (r : Reference J) : Prop where
  perm : q.items.toList.Perm r.held
  heap : Heap.IsHeap Item.less q.items q.items.size
  sorted : r.held.Pairwise (·.seq.toNat < ·.seq.toNat)
  below : ∀ it ∈ r.held, it.seq.toNat < r.enqueued
  seq : q.seq = .ofNat r.enqueued
  maxDepth : q.maxDepth = r.maxDepth.toNat
  closed : q.closed = r.closed

section Refines

variable {q : Queue J} {r : Reference J}

theorem Refines.size_eq (h : Refines q r) : q.items.size = r.held.length := h.perm.length_eq

theorem Refines.full_iff (h : Refines q r) : (0 < q.maxDepth ∧ q.maxDepth ≤ q.items.size) ↔
    (0 < r.maxDepth ∧ r.maxDepth ≤ r.held.length) := by
  rw [h.maxDepth, h.size_eq]
  omega

theorem Refines.enqueue (h : Refines q r) (henqueued : r.enqueued < 2 ^ 64) (job : J)
    (key : String) (p : ℤ) (now : Time) :
    (q.enqueue job key p now).2 = (r.enqueue job key p now).2 ∧
      Refines (q.enqueue job key p now).1 (r.enqueue job key p now).1 := by
  unfold Queue.enqueue Reference.enqueue
  rw [h.closed]
  split_ifs with hclosed hfull hfull' hfull'
  · exact ⟨rfl, h⟩
  · exact ⟨rfl, h⟩
  · exact absurd (h.full_iff.mp hfull) hfull'
  · exact absurd (h.full_iff.mpr hfull') hfull
  · rw [h.seq]
    obtain ⟨it, hit⟩ : ∃ it : Item J, it = ⟨job, key, p, .ofNat r.enqueued, now⟩ := ⟨_, rfl⟩
    have hseq : it.seq.toNat = r.enqueued := by
      rw [hit]
      exact UInt64.toNat_ofNat_of_lt henqueued
    have hpush := Array.perm_iff_toList_perm.mp (Heap.push_perm Item.less q.items it)
    rw [Array.toList_push] at hpush
    refine ⟨rfl, ?_, ?_, ?_, ?_, ?_, h.maxDepth, rfl⟩
    · rw [← hit]
      exact hpush.trans (h.perm.append_right [it])
    · rw [← hit, (Heap.push_perm Item.less q.items it).size_eq, Array.size_push]
      exact Heap.isHeap_push less_orders h.heap
    · rw [← hit, List.pairwise_append]
      refine ⟨h.sorted, List.pairwise_singleton _ _, fun a ha b hb ↦ ?_⟩
      rw [List.mem_singleton.mp hb, hseq]
      exact h.below a ha
    · intro a ha
      rw [← hit] at ha
      rcases List.mem_append.mp ha with ha | ha
      · exact Nat.lt_succ_of_lt (h.below a ha)
      · rw [List.mem_singleton.mp ha, hseq]
        exact Nat.lt_succ_self _
    · exact (UInt64.ofNat_add _ _).symm

theorem Refines.popLocked (h : Refines q r) :
    match takeNext r.held with
    | none => q.popLocked = (q, none)
    | some (it, held) =>
      q.popLocked.2 = some it ∧ Refines q.popLocked.1 { r with held := held } := by
  unfold Queue.popLocked
  by_cases hempty : q.items.size = 0
  · have hnil : r.held = [] := List.eq_nil_of_length_eq_zero (h.size_eq.symm.trans hempty)
    simp only [hnil, takeNext, hempty, if_true]
  · obtain ⟨it, items, hpop, hperm, hheap, hfirst⟩ :=
      Heap.pop_spec less_orders h.heap (Nat.pos_of_ne_zero hempty)
    have hin : it ∈ r.held := h.perm.mem_iff.mp (hperm.mem_iff.mpr List.mem_cons_self)
    obtain ⟨before, after, hsplit⟩ := List.append_of_mem hin
    have hless (b : Item J) (hb : b ∈ r.held) :=
      Item.less_eq_false_iff.mp (hfirst b (h.perm.mem_iff.mpr hb))
    have hsorted := h.sorted
    rw [hsplit, List.pairwise_append] at hsorted
    have hnext : takeNext r.held = some (it, before ++ after) := by
      rw [hsplit]
      refine takeNext_of_split (fun b hb ↦ ?_) fun c hc ↦ ?_
      · -- an older item of the same priority would go first
        have hseq := hsorted.2.2 b hb it List.mem_cons_self
        rcases hless b (by rw [hsplit]; exact List.mem_append_left _ hb) with hlt | ⟨-, hle⟩
        · exact hlt
        · omega
      · rcases hless c (by rw [hsplit]; simp [hc]) with hlt | ⟨heq, -⟩
        · exact hlt.le
        · exact heq.le
    have hsub : (before ++ after).Sublist r.held := by
      rw [hsplit]
      exact (List.sublist_cons_self it after).append_left before
    simp only [hnext, hpop, if_neg hempty]
    refine ⟨trivial, ?_, hheap, h.sorted.sublist hsub, fun b hb ↦ h.below b (hsub.subset hb), h.seq,
      h.maxDepth, h.closed⟩
    have hwhole := hperm.symm.trans h.perm
    rw [hsplit] at hwhole
    exact (hwhole.trans List.perm_middle).cons_inv

theorem foldl_countItem (l : List (Item J)) (m : ℤ → Option ℕ) (p : ℤ) :
    l.foldl Queue.countItem m p =
      if l.countP (·.priority = p) = 0 then m p
      else some ((m p).getD 0 + l.countP (·.priority = p)) := by
  induction l generalizing m with
  | nil => rfl
  | cons a l ih =>
    rw [List.foldl_cons, ih, List.countP_cons]
    unfold Queue.countItem
    by_cases hp : a.priority = p
    · subst hp
      simp only [Function.update_self, decide_true, if_true, Option.getD_some,
        if_neg (Nat.succ_ne_zero _)]
      split_ifs with h0
      · rw [h0]
      · rw [Nat.add_assoc, Nat.add_comm 1]
    · simp [hp, Function.update_of_ne (Ne.symm hp)]

theorem Refines.stats (h : Refines q r) : q.stats = r.stats := by
  unfold Queue.stats Reference.stats
  refine congrArg₂ Stats.mk h.size_eq (funext fun p ↦ ?_)
  rw [← Array.foldl_toList, foldl_countItem, h.perm.countP_eq]
  simp

theorem Refines.close (h : Refines q r) : Refines q.close { r with closed := true } := by
  unfold Queue.close
  split_ifs with hclosed
  · exact ⟨h.perm, h.heap, h.sorted, h.below, h.seq, h.maxDepth, hclosed⟩
  · exact ⟨h.perm, h.heap, h.sorted, h.below, h.seq, h.maxDepth, rfl⟩

theorem Refines.apply (h : Refines q r) (henqueued : r.enqueued < 2 ^ 64) (op : Op J) :
    (q.apply op).2 = (r.apply op).2 ∧ Refines (q.apply op).1 (r.apply op).1 := by
  cases op with
  | enqueue job key p now =>
    obtain ⟨hreply, hrefines⟩ := h.enqueue henqueued job key p now
    exact ⟨congrArg Reply.enqueued hreply, hrefines⟩
  | dequeue =>
    have hpop := h.popLocked
    simp only [Queue.apply, Reference.apply, Reference.take]
    cases hnext : takeNext r.held with
    | none =>
      simp only [hnext] at hpop
      rw [hpop]
      exact ⟨rfl, h⟩
    | some next =>
      simp only [hnext] at hpop
      simp only [Prod.map_snd, hpop.1]
      exact ⟨rfl, hpop.2⟩
  | dequeueWait ctxErr =>
    have hpop := h.popLocked
    simp only [Queue.apply, Reference.apply, Reference.take, Queue.dequeueWait]
    cases hnext : takeNext r.held with
    | none =>
      simp only [hnext] at hpop
      simp only [hpop, h.closed]
      split_ifs
      · exact ⟨rfl, h⟩
      · cases ctxErr <;> exact ⟨rfl, h⟩
    | some next =>
      simp only [hnext] at hpop
      obtain ⟨hit, hrefines⟩ := hpop
      generalize q.popLocked = popped at *
      obtain ⟨q', it⟩ := popped
      cases hit
      exact ⟨rfl, hrefines⟩
  | stats => exact ⟨congrArg Reply.stats h.stats, h⟩
  | close => exact ⟨rfl, h.close⟩

theorem Reference.enqueued_take (r : Reference J) (otherwise : Reply J) :
    (r.take otherwise).1.enqueued = r.enqueued := by
  unfold Reference.take
  split <;> rfl

theorem Reference.enqueued_enqueue (r : Reference J) (job : J) (key : String) (p : ℤ)
    (now : Time) : (r.enqueue job key p now).1.enqueued ≤ r.enqueued + 1 := by
  unfold Reference.enqueue
  split_ifs
  · exact Nat.le_succ _
  · exact Nat.le_succ _
  · exact Nat.le_refl _

theorem Reference.enqueued_apply (r : Reference J) (op : Op J) :
    (r.apply op).1.enqueued ≤ r.enqueued + if op.isEnqueue then 1 else 0 := by
  cases op with
  | enqueue job key p now => exact r.enqueued_enqueue job key p now
  | dequeue => exact (r.enqueued_take _).le
  | dequeueWait ctxErr => exact (r.enqueued_take _).le
  | stats | close => exact Nat.le_refl _

theorem Reference.enqueued_after (r : Reference J) (ops : List (Op J)) :
    (r.after ops).enqueued ≤ r.enqueued + ops.countP Op.isEnqueue := by
  induction ops generalizing r with
  | nil => exact Nat.le_refl _
  | cons op ops ih =>
    have hstep := r.enqueued_apply op
    have hrun := ih (r.apply op).1
    rw [List.countP_cons]
    exact hrun.trans (by omega)

theorem Refines.run (h : Refines q r) (ops : List (Op J))
    (hops : r.enqueued + ops.countP Op.isEnqueue < 2 ^ 64) :
    q.replies ops = r.replies ops ∧ Refines (q.after ops) (r.after ops) := by
  induction ops generalizing q r with
  | nil => exact ⟨rfl, h⟩
  | cons op ops ih =>
    obtain ⟨hreply, hrefines⟩ := h.apply (by omega) op
    have henqueued := r.enqueued_apply op
    rw [List.countP_cons] at hops
    obtain ⟨hreplies, hafter⟩ := ih hrefines (by omega)
    exact ⟨congrArg₂ List.cons hreply hreplies, hafter⟩

theorem refines_new (n : ℤ) : Refines (Queue.new n : Queue J) { maxDepth := n } where
  perm := .refl _
  heap := fun i _ hi ↦ absurd hi (Nat.not_lt_zero i)
  sorted := .nil
  below := fun _ hit ↦ nomatch hit
  seq := rfl
  maxDepth := rfl
  closed := rfl

end Refines

section Drain

variable {r : Reference J}

theorem Reference.take_spec (r : Reference J) (otherwise : Reply J)
    (hother : otherwise.taken = []) :
    ((r.take otherwise).2.taken ++ (r.take otherwise).1.held).Perm r.held ∧
      (r.take otherwise).2.taken.length = min 1 r.held.length ∧
      (r.take otherwise).1.closed = r.closed := by
  unfold Reference.take
  cases hnext : takeNext r.held with
  | none =>
    have hnil := takeNext_eq_none hnext
    refine ⟨?_, ?_, rfl⟩
    · rw [hother]
      exact .refl _
    · rw [hother, hnil]
      rfl
  | some next =>
    have hperm := takeNext_perm hnext
    refine ⟨hperm.symm, ?_, rfl⟩
    rw [hperm.length_eq, List.length_cons, Nat.min_eq_left (Nat.le_add_left 1 _)]
    rfl

theorem Reference.apply_of_closed (hclosed : r.closed = true) (op : Op J) :
    (r.apply op).1.closed = true ∧
      ((r.apply op).2.taken ++ (r.apply op).1.held).Perm r.held ∧
      (r.apply op).2.taken.length = min (if op.removes then 1 else 0) r.held.length := by
  cases op with
  | enqueue job key p now =>
    simp only [Reference.apply, Reference.enqueue, hclosed, if_true]
    exact ⟨hclosed, .refl _, (Nat.zero_min _).symm⟩
  | dequeue =>
    obtain ⟨hperm, hlength, hkeeps⟩ := r.take_spec .empty rfl
    exact ⟨hkeeps.trans hclosed, hperm, hlength⟩
  | dequeueWait ctxErr =>
    simp only [Reference.apply, hclosed, if_true]
    obtain ⟨hperm, hlength, hkeeps⟩ := r.take_spec .closed rfl
    exact ⟨hkeeps.trans hclosed, hperm, hlength⟩
  | stats => exact ⟨hclosed, .refl _, (Nat.zero_min _).symm⟩
  | close => exact ⟨rfl, .refl _, (Nat.zero_min _).symm⟩

theorem Reference.drain (hclosed : r.closed = true) (ops : List (Op J)) :
    ((r.replies ops).flatMap Reply.taken ++ (r.after ops).held).Perm r.held ∧
      ((r.replies ops).flatMap Reply.taken).length =
        min (ops.countP Op.removes) r.held.length := by
  induction ops generalizing r with
  | nil => exact ⟨.refl _, (Nat.zero_min _).symm⟩
  | cons op ops ih =>
    obtain ⟨hclosed', hstep, hcount⟩ := Reference.apply_of_closed hclosed op
    obtain ⟨hrest, hlength⟩ := ih hclosed'
    have hheld := hstep.length_eq
    refine ⟨?_, ?_⟩
    · simp only [Reference.replies, List.flatMap_cons, List.append_assoc]
      exact (hrest.append_left _).trans hstep
    · simp only [Reference.replies, List.flatMap_cons, List.length_append, List.countP_cons] at *
      rw [hlength]
      split_ifs at * <;> omega

theorem Refines.drain {q : Queue J} (h : Refines q r) (later : List (Op J))
    (hbound : r.enqueued + later.countP Op.isEnqueue < 2 ^ 64) :
    let taken := (q.close.replies later).flatMap Reply.taken
    (taken ++ (q.close.after later).items.toList).Perm q.items.toList ∧
      taken.length = min (later.countP Op.removes) q.items.size := by
  obtain ⟨hreplies, hafter⟩ := h.close.run later hbound
  obtain ⟨hperm, hlength⟩ := Reference.drain (r := { r with closed := true }) rfl later
  rw [hreplies, h.size_eq]
  exact ⟨((hafter.perm.append_left _).trans hperm).trans h.perm.symm, hlength⟩

end Drain

theorem Reference.length_take (r : Reference J) (otherwise : Reply J) :
    (r.take otherwise).1.held.length ≤ r.held.length := by
  unfold Reference.take
  split
  · next it held hnext =>
    rw [(takeNext_perm hnext).length_eq]
    exact Nat.le_succ _
  · exact Nat.le_refl _

theorem Reference.maxDepth_take (r : Reference J) (otherwise : Reply J) :
    (r.take otherwise).1.maxDepth = r.maxDepth := by
  unfold Reference.take
  split <;> rfl

theorem Reference.length_apply (r : Reference J) (hpos : 0 < r.maxDepth)
    (hle : (r.held.length : ℤ) ≤ r.maxDepth) (op : Op J) :
    (r.apply op).1.maxDepth = r.maxDepth ∧ ((r.apply op).1.held.length : ℤ) ≤ r.maxDepth := by
  have htake (otherwise : Reply J) := Int.ofNat_le.mpr (r.length_take otherwise)
  cases op with
  | enqueue job key p now =>
    simp only [Reference.apply, Reference.enqueue]
    split_ifs with hclosed hfull
    · exact ⟨rfl, hle⟩
    · exact ⟨rfl, hle⟩
    · refine ⟨rfl, ?_⟩
      simp only [Prod.map_fst, id_eq, List.length_append, List.length_singleton]
      omega
  | dequeue => exact ⟨r.maxDepth_take _, (htake _).trans hle⟩
  | dequeueWait ctxErr => exact ⟨r.maxDepth_take _, (htake _).trans hle⟩
  | stats | close => exact ⟨rfl, hle⟩

theorem Reference.length_le (r : Reference J) (hpos : 0 < r.maxDepth)
    (hle : (r.held.length : ℤ) ≤ r.maxDepth) (ops : List (Op J)) :
    ((r.after ops).held.length : ℤ) ≤ r.maxDepth := by
  induction ops generalizing r with
  | nil => exact hle
  | cons op ops ih =>
    obtain ⟨hmax, hstep⟩ := r.length_apply hpos hle op
    have hrun := ih (r.apply op).1 (by rwa [hmax]) (by rwa [hmax])
    rwa [hmax] at hrun

theorem Stats.exact (r : Reference J) (p : ℤ) :
    (r.stats.byPriority p).getD 0 = r.held.countP (·.priority = p) ∧
      ((r.stats.byPriority p).isSome ↔ ∃ it ∈ r.held, it.priority = p) := by
  simp only [Reference.stats]
  split_ifs with hzero
  · refine ⟨hzero.symm, fun h ↦ absurd h Bool.false_ne_true, ?_⟩
    rintro ⟨it, hit, hp⟩
    exact absurd (decide_eq_true hp) (List.countP_eq_zero.mp hzero it hit)
  · obtain ⟨it, hit, hp⟩ := List.countP_pos_iff.mp (Nat.pos_of_ne_zero hzero)
    exact ⟨rfl, fun _ ↦ ⟨it, hit, of_decide_eq_true hp⟩, fun _ ↦ rfl⟩

theorem queue_refines (n : ℤ) (ops : List (Op J)) (hops : ops.countP Op.isEnqueue < 2 ^ 64) :
    let q := (Queue.new n : Queue J).after ops
    (Queue.new n : Queue J).replies ops = ({ maxDepth := n } : Reference J).replies ops ∧
      (∀ job key p now, (q.enqueue job key p now).2 ≠ none →
        (q.enqueue job key p now).1 = q) ∧
      (0 < n → (q.items.size : ℤ) ≤ n) ∧
      (∀ before later, ops = before ++ .close :: later →
        let atClose := (Queue.new n : Queue J).after before
        let taken := (atClose.close.replies later).flatMap Reply.taken
        (taken ++ q.items.toList).Perm atClose.items.toList ∧
          taken.length = min (later.countP Op.removes) atClose.items.size) ∧
      q.stats.total = q.items.size ∧
      ∀ p, (q.stats.byPriority p).getD 0 = q.items.toList.countP (·.priority = p) ∧
        ((q.stats.byPriority p).isSome ↔ ∃ it ∈ q.items.toList, it.priority = p) := by
  have hnew := refines_new (J := J) n
  have hzero (m : ℕ) : ({ maxDepth := n } : Reference J).enqueued + m = m := Nat.zero_add m
  obtain ⟨hreplies, hrefines⟩ := hnew.run ops (by rwa [hzero])
  refine ⟨hreplies, ?_, ?_, ?_, rfl, fun p ↦ ?_⟩
  · intro job key p now
    unfold Queue.enqueue
    split_ifs
    · exact fun _ ↦ rfl
    · exact fun _ ↦ rfl
    · exact fun h ↦ absurd rfl h
  · intro hpos
    rw [hrefines.size_eq]
    exact Reference.length_le { maxDepth := n } hpos hpos.le ops
  · rintro before later rfl
    rw [List.countP_append, List.countP_cons] at hops
    have hbound := ({ maxDepth := n } : Reference J).enqueued_after before
    rw [hzero] at hbound
    obtain ⟨-, hbefore⟩ := hnew.run before (by rw [hzero]; omega)
    have hdrain := hbefore.drain later (by omega)
    simpa only [Queue.after, List.foldl_append, List.foldl_cons, Queue.apply] using hdrain
  · have hexact := Stats.exact (({ maxDepth := n } : Reference J).after ops) p
    simp only [hrefines.stats, hrefines.perm.countP_eq, hrefines.perm.mem_iff]
    exact hexact

/-- A queue of at most two: the third job is turned away, the high one leaves first, and the
other is still there after the queue is closed. -/
theorem queue_refines_lowThenHigh :
    let ops : List (Op ℕ) := [.enqueue 7 "k" 0 100, .enqueue 8 "k" 2 101, .enqueue 9 "k" 2 102,
      .dequeue, .close, .dequeueWait none]
    (Queue.new 2 : Queue ℕ).replies ops = ({ maxDepth := 2 } : Reference ℕ).replies ops ∧
      ((Queue.new 2 : Queue ℕ).replies ops).flatMap Reply.taken =
        [⟨8, "k", 2, 1, 101⟩, ⟨7, "k", 0, 0, 100⟩] := by
  intro ops
  have hreplies := (queue_refines 2 ops (by decide)).1
  refine ⟨hreplies, ?_⟩
  rw [hreplies]
  rfl

end Queue

end AgentGpu
