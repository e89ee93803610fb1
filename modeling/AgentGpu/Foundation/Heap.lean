import Mathlib.Logic.Equiv.Basic
import Mathlib.Data.Nat.Notation
import Mathlib.Tactic.SplitIfs

namespace AgentGpu.Foundation.Heap

variable {α : Type} (less : α → α → Bool)

def lessAt (a : Array α) (i j : ℕ) : Bool :=
  match a[i]?, a[j]? with
  | some x, some y => less x y
  | _, _ => false

def up (a : Array α) (j : ℕ) : Array α :=
  if _ : j = 0 then a
  else if lessAt less a j ((j - 1) / 2) then
    up (a.swapIfInBounds ((j - 1) / 2) j) ((j - 1) / 2)
  else a
termination_by j

def child (a : Array α) (i n : ℕ) : ℕ :=
  if 2 * i + 2 < n ∧ lessAt less a (2 * i + 2) (2 * i + 1) then 2 * i + 2 else 2 * i + 1

theorem child_cases (a : Array α) (i n : ℕ) :
    child less a i n = 2 * i + 1 ∨ 2 * i + 2 < n ∧ child less a i n = 2 * i + 2 := by
  unfold child
  split_ifs with h
  · exact .inr ⟨h.1, rfl⟩
  · exact .inl rfl

theorem child_parent (a : Array α) (i n : ℕ) :
    (child less a i n - 1) / 2 = i ∧ i < child less a i n := by
  rcases child_cases less a i n with h | ⟨-, h⟩ <;> omega

theorem child_lt (a : Array α) {i n : ℕ} (hi : 2 * i + 1 < n) : child less a i n < n := by
  rcases child_cases less a i n with h | ⟨hn, h⟩ <;> omega

/-- Swaps element `i` with its first child while that is before it, within the first `n`
elements. -/
def down (a : Array α) (i n : ℕ) : Array α :=
  if _ : 2 * i + 1 < n then
    if lessAt less a (child less a i n) i then
      down (a.swapIfInBounds i (child less a i n)) (child less a i n) n
    else a
  else a
termination_by n - i
decreasing_by
  have hchild := child_parent less a i n
  omega

def push (a : Array α) (x : α) : Array α := up less (a.push x) a.size

/-- The last element is put first and sinks among the others; the old first is cut off. -/
def pop (a : Array α) : Option (α × Array α) :=
  let n := a.size - 1
  let b := down less (a.swapIfInBounds 0 n) 0 n
  b.back?.map (·, b.pop)

theorem swapIfInBounds_perm (a : Array α) (p q : ℕ) : (a.swapIfInBounds p q).Perm a := by
  rw [Array.swapIfInBounds_def]
  split_ifs
  · exact Array.swap_perm _ _
  · exact .refl a
  · exact .refl a

theorem up_perm (a : Array α) (j : ℕ) : (up less a j).Perm a := by
  fun_induction up less a j with
  | case1 a => exact .refl a
  | case2 a j h0 hless ih => exact ih.trans (swapIfInBounds_perm a _ j)
  | case3 a j h0 hless => exact .refl a

theorem down_perm (a : Array α) (i n : ℕ) : (down less a i n).Perm a := by
  fun_induction down less a i n with
  | case1 a i hi hless ih => exact ih.trans (swapIfInBounds_perm a i _)
  | case2 a i hi hless => exact .refl a
  | case3 a i hi => exact .refl a

theorem push_perm (a : Array α) (x : α) : (push less a x).Perm (a.push x) := up_perm less _ _

theorem pop_size {a : Array α} (ha : 0 < a.size) : ∃ x b, pop less a = some (x, b) ∧ b.size + 1 = a.size := by
  obtain ⟨b, hb⟩ : ∃ b, b = down less (a.swapIfInBounds 0 (a.size - 1)) 0 (a.size - 1) := ⟨_, rfl⟩
  have hsize : b.size = a.size :=
    (hb ▸ (down_perm less _ 0 _).trans (swapIfInBounds_perm a 0 _) : b.Perm a).size_eq
  obtain ⟨x, hx⟩ : ∃ x, b.back? = some x := by
    rw [Array.back?_eq_getElem?, Array.getElem?_eq_getElem (by omega)]
    exact ⟨_, rfl⟩
  refine ⟨x, b.pop, ?_, ?_⟩
  · rw [pop, ← hb, hx, Option.map_some]
  · rw [Array.size_pop]
    omega

theorem getElem?_swapIfInBounds (a : Array α) {p q : ℕ} (hp : p < a.size) (hq : q < a.size) (i : ℕ) :
    (a.swapIfInBounds p q)[i]? = a[Equiv.swap p q i]? := by
  rw [Array.swapIfInBounds_def, dif_pos hp, dif_pos hq, Array.getElem?_swap]
  by_cases hiq : i = q
  · rw [hiq, if_pos rfl, Equiv.swap_apply_right, Array.getElem?_eq_getElem hp]
  · rw [if_neg (Ne.symm hiq)]
    by_cases hip : i = p
    · rw [hip, if_pos rfl, Equiv.swap_apply_left, Array.getElem?_eq_getElem hq]
    · rw [if_neg (Ne.symm hip), Equiv.swap_apply_of_ne_of_ne hip hiq]

theorem lessAt_swap (a : Array α) {p q : ℕ} (hp : p < a.size) (hq : q < a.size) (i j : ℕ) :
    lessAt less (a.swapIfInBounds p q) i j =
      lessAt less a (Equiv.swap p q i) (Equiv.swap p q j) := by
  rw [lessAt, lessAt, getElem?_swapIfInBounds a hp hq, getElem?_swapIfInBounds a hp hq]

def IsHeap (a : Array α) (n : ℕ) : Prop :=
  ∀ i, 0 < i → i < n → lessAt less a i ((i - 1) / 2) = false

/-- What `up` starts from and keeps: only `j` may be before its parent, and its children are
not before that parent either. -/
structure Rising (a : Array α) (j : ℕ) : Prop where
  order : ∀ i, 0 < i → i ≠ j → lessAt less a i ((i - 1) / 2) = false
  grand : ∀ c, 0 < j → 0 < c → (c - 1) / 2 = j → lessAt less a c ((j - 1) / 2) = false

/-- What `down` starts from and keeps: only the children of `i` may be before their parent, and
they are not before the parent of `i`. -/
structure Sinking (a : Array α) (i n : ℕ) : Prop where
  order : ∀ k, 0 < k → k < n → (k - 1) / 2 ≠ i → lessAt less a k ((k - 1) / 2) = false
  grand : ∀ c, 0 < i → 0 < c → c < n → (c - 1) / 2 = i → lessAt less a c ((i - 1) / 2) = false

/-- `less` orders its arguments, up to elements that go at the same time. -/
structure Orders : Prop where
  asymm : ∀ x y, less x y = true → less y x = false
  trans : ∀ x y z, less x y = false → less y z = false → less x z = false

section Order

variable {less} {a : Array α} {i j k n : ℕ}

theorem Orders.irrefl (h : Orders less) (x : α) : less x x = false := by
  cases hx : less x x with
  | false => rfl
  | true => exact hx.symm.trans (h.asymm x x hx)

theorem Orders.asymmAt (h : Orders less) (hij : lessAt less a i j = true) :
    lessAt less a j i = false := by
  unfold lessAt at hij ⊢
  split at hij
  · next x y hx hy =>
    simp only [hx, hy]
    exact h.asymm x y hij
  · cases hij

theorem Orders.transAt (h : Orders less) (hj : j < a.size) (hij : lessAt less a i j = false)
    (hjk : lessAt less a j k = false) : lessAt less a i k = false := by
  unfold lessAt at *
  rw [Array.getElem?_eq_getElem hj] at hij hjk
  cases hi : a[i]? with
  | none => rfl
  | some x =>
    cases hk : a[k]? with
    | none => rfl
    | some z =>
      rw [hi] at hij
      rw [hk] at hjk
      exact h.trans x a[j] z hij hjk

theorem Rising.swap (ho : Orders less) (h : Rising less a j) (h0 : j ≠ 0) (hj : j < a.size)
    (hless : lessAt less a j ((j - 1) / 2) = true) :
    Rising less (a.swapIfInBounds ((j - 1) / 2) j) ((j - 1) / 2) := by
  obtain ⟨p, hp⟩ : ∃ p, p = (j - 1) / 2 := ⟨_, rfl⟩
  rw [← hp] at hless ⊢
  have hpa : p < a.size := by omega
  constructor
  · intro i hi hip
    rw [lessAt_swap less a hpa hj]
    by_cases hij : i = j
    · -- the old parent, now under the element that rose
      subst hij
      rw [← hp, Equiv.swap_apply_right, Equiv.swap_apply_left]
      exact ho.asymmAt hless
    · rw [Equiv.swap_apply_of_ne_of_ne hip hij]
      by_cases hq : (i - 1) / 2 = j
      · rw [hq, Equiv.swap_apply_right, hp]
        exact h.grand i (by omega) hi hq
      · have horder := h.order i hi hij
        by_cases hqp : (i - 1) / 2 = p
        · rw [hqp, Equiv.swap_apply_left]
          exact ho.transAt hpa (hqp ▸ horder) (ho.asymmAt hless)
        · rwa [Equiv.swap_apply_of_ne_of_ne hqp hq]
  · intro c hpos hc hcp
    have hparent := h.order p hpos (by omega)
    rw [lessAt_swap less a hpa hj,
      Equiv.swap_apply_of_ne_of_ne (x := (p - 1) / 2) (by omega) (by omega)]
    by_cases hcj : c = j
    · rwa [hcj, Equiv.swap_apply_right]
    · rw [Equiv.swap_apply_of_ne_of_ne (by omega) hcj]
      exact ho.transAt hpa (hcp ▸ h.order c hc hcj) hparent

theorem isHeap_up (ho : Orders less) (hj : j < a.size) (h : Rising less a j) (n : ℕ) :
    IsHeap less (up less a j) n := by
  fun_induction up less a j with
  | case1 a => exact fun i hi _ ↦ h.order i hi (by omega)
  | case2 a j h0 hless ih => exact ih (by rw [Array.size_swapIfInBounds]; omega) (h.swap ho h0 hj hless)
  | case3 a j h0 hless =>
    intro i hi _
    by_cases hij : i = j
    · rw [hij]
      simpa using hless
    · exact h.order i hi hij

theorem Orders.irreflAt (h : Orders less) : lessAt less a i i = false := by
  unfold lessAt
  split
  · next x y hx hy => exact Option.some.inj (hx.symm.trans hy) ▸ h.irrefl x
  · rfl

theorem child_first (ho : Orders less) {c : ℕ} (hc : 0 < c) (hcn : c < n) (hp : (c - 1) / 2 = i) :
    lessAt less a c (child less a i n) = false := by
  have hleft_or_right : c = 2 * i + 1 ∨ c = 2 * i + 2 := by omega
  unfold child
  split_ifs with h
  · rcases hleft_or_right with rfl | rfl
    · exact ho.asymmAt h.2
    · exact ho.irreflAt
  · rcases hleft_or_right with rfl | rfl
    · exact ho.irreflAt
    · exact eq_false_of_ne_true fun hless ↦ h ⟨hcn, hless⟩

theorem Sinking.swap (ho : Orders less) (h : Sinking less a i n) (hn : n ≤ a.size)
    (hi : 2 * i + 1 < n) (hless : lessAt less a (child less a i n) i = true) :
    Sinking less (a.swapIfInBounds i (child less a i n)) (child less a i n) n := by
  have hfirst {c : ℕ} (hc : 0 < c) (hcn : c < n) (hp : (c - 1) / 2 = i) :=
    child_first (a := a) ho hc hcn hp
  have hjn := child_lt less a hi
  obtain ⟨hp, hij⟩ := child_parent less a i n
  generalize child less a i n = j at *
  have hia : i < a.size := by omega
  have hja : j < a.size := by omega
  constructor
  · intro k hk hkn hkj
    rw [lessAt_swap less a hia hja]
    by_cases hki : (k - 1) / 2 = i
    · -- the children of `i` are now under the first of them
      rw [hki, Equiv.swap_apply_left]
      by_cases hk' : k = j
      · rw [hk', Equiv.swap_apply_right]
        exact ho.asymmAt hless
      · rw [Equiv.swap_apply_of_ne_of_ne (by omega) hk']
        exact hfirst hk hkn hki
    · rw [Equiv.swap_apply_of_ne_of_ne hki hkj]
      by_cases hk' : k = i
      · rw [hk', Equiv.swap_apply_left]
        exact h.grand j (by omega) (by omega) hjn hp
      · rw [Equiv.swap_apply_of_ne_of_ne hk' (by rintro rfl; exact hki hp)]
        exact h.order k hk hkn hki
  · intro c _ hc hcn hcj
    rw [lessAt_swap less a hia hja, hp, Equiv.swap_apply_left,
      Equiv.swap_apply_of_ne_of_ne (by omega) (by omega)]
    have horder := h.order c hc hcn (by omega)
    rwa [hcj] at horder

theorem isHeap_down (ho : Orders less) (hn : n ≤ a.size) (h : Sinking less a i n) :
    IsHeap less (down less a i n) n := by
  fun_induction down less a i n with
  | case1 a i hi hless ih =>
    exact ih (by rwa [Array.size_swapIfInBounds]) (h.swap ho hn hi hless)
  | case2 a i hi hless =>
    intro k hk hkn
    by_cases hki : (k - 1) / 2 = i
    · rw [hki]
      have hj := child_lt less a hi
      exact ho.transAt (Nat.lt_of_lt_of_le hj hn) (child_first ho hk hkn hki) (by simpa using hless)
    · exact h.order k hk hkn hki
  | case3 a i hi =>
    intro k hk hkn
    exact h.order k hk hkn (by omega)

theorem getElem?_down (hn : n ≤ a.size) (hk : n ≤ k) : (down less a i n)[k]? = a[k]? := by
  fun_induction down less a i n with
  | case1 a i hi hless ih =>
    have hj := child_lt less a hi
    rw [ih (by rwa [Array.size_swapIfInBounds]), getElem?_swapIfInBounds a (by omega) (by omega),
      Equiv.swap_apply_of_ne_of_ne (by omega) (by omega)]
  | case2 => rfl
  | case3 => rfl

theorem isHeap_push (ho : Orders less) {x : α} (h : IsHeap less a a.size) :
    IsHeap less (push less a x) (a.size + 1) := by
  have hout {c : ℕ} (hc : a.size < c) (j : ℕ) : lessAt less (a.push x) c j = false := by
    have hnone : (a.push x)[c]? = none := by simp; omega
    simp [lessAt, hnone]
  refine isHeap_up ho (by simp) ⟨fun i hi hne ↦ ?_, fun c hpos hc hcp ↦ hout (by omega) _⟩ _
  by_cases hia : i < a.size
  · have hold := h i hi hia
    unfold lessAt at hold ⊢
    rwa [Array.getElem?_push_lt hia, Array.getElem?_push_lt (by omega), ← Array.getElem?_eq_getElem,
      ← Array.getElem?_eq_getElem]
  · exact hout (by omega) _

theorem IsHeap.root_first (ho : Orders less) (h : IsHeap less a n) (hn : n ≤ a.size) {i : ℕ}
    (hi : i < n) : lessAt less a i 0 = false := by
  induction i using Nat.strongRecOn with
  | ind i ih =>
    by_cases h0 : i = 0
    · rw [h0]
      exact ho.irreflAt
    · exact ho.transAt (by omega) (h i (by omega) hi) (ih ((i - 1) / 2) (by omega) (by omega))

/-- What `pop` returns goes before everything else that was there, and it is what is missing
in the heap that is left. -/
theorem pop_spec (ho : Orders less) (h : IsHeap less a a.size) (ha : 0 < a.size) :
    ∃ x b, pop less a = some (x, b) ∧ a.toList.Perm (x :: b.toList) ∧ IsHeap less b b.size ∧
      ∀ y ∈ a.toList, less y x = false := by
  obtain ⟨n, hn⟩ : ∃ n, n = a.size - 1 := ⟨_, rfl⟩
  obtain ⟨b, hb⟩ : ∃ b, b = down less (a.swapIfInBounds 0 n) 0 n := ⟨_, rfl⟩
  have hperm : b.Perm a := hb ▸ (down_perm less _ 0 n).trans (swapIfInBounds_perm a 0 n)
  have hsize : b.size = a.size := hperm.size_eq
  have hback : b.back? = some a[0] := by
    rw [Array.back?_eq_getElem?, hsize, ← hn, hb, getElem?_down (by rw [Array.size_swapIfInBounds]; omega) Nat.le.refl,
      getElem?_swapIfInBounds a ha (by omega), Equiv.swap_apply_right, Array.getElem?_eq_getElem ha]
  have hsink : Sinking less (a.swapIfInBounds 0 n) 0 n := by
    refine ⟨fun k hk hkn hk0 ↦ ?_, fun c hpos ↦ absurd hpos (Nat.lt_irrefl 0)⟩
    rw [lessAt_swap less a ha (by omega), Equiv.swap_apply_of_ne_of_ne (by omega) (by omega),
      Equiv.swap_apply_of_ne_of_ne hk0 (by omega)]
    exact h k hk (by omega)
  have hheap : IsHeap less b n := hb ▸ isHeap_down ho (by rw [Array.size_swapIfInBounds]; omega) hsink
  refine ⟨a[0], b.pop, ?_, ?_, ?_, ?_⟩
  · rw [pop, ← hn, ← hb, hback, Option.map_some]
  · rw [← Array.getLast?_toList, List.getLast?_eq_some_iff] at hback
    obtain ⟨rest, hrest⟩ := hback
    have hcut : b.pop.toList = rest := by rw [Array.toList_pop, hrest, List.dropLast_concat]
    have hwhole := (Array.perm_iff_toList_perm.mp hperm).symm
    rw [hrest] at hwhole
    rw [hcut]
    exact hwhole.trans (List.perm_append_singleton _ _)
  · intro i hi hib
    rw [Array.size_pop] at hib
    have hold := hheap i hi (by omega)
    unfold lessAt at hold ⊢
    rwa [Array.getElem?_pop, Array.getElem?_pop, if_pos hib, if_pos (by omega)]
  · intro y hy
    obtain ⟨i, hi, rfl⟩ := Array.mem_iff_getElem.mp (Array.mem_toList_iff.mp hy)
    have hroot := h.root_first ho Nat.le.refl hi
    rwa [lessAt, Array.getElem?_eq_getElem hi, Array.getElem?_eq_getElem ha] at hroot

end Order

end AgentGpu.Foundation.Heap
