import Mathlib.Algebra.Group.Int.Defs
import Mathlib.Algebra.Group.Nat.Defs
import Mathlib.Data.Int.Notation
import Mathlib.Data.Nat.Notation
import Mathlib.Tactic.SplitIfs

namespace AgentGpu.Foundation

/-! Decimal numbers as texts: `Itoa`, `Atoi` and `ParseUint` in base 10. -/

def digits (cs : List Char) : Option ℕ :=
  if cs ≠ [] ∧ cs.all Char.isDigit then some (Nat.ofDigitChars 10 cs 0) else none

/-- A 64-bit unsigned number, without a sign. -/
def parseUint (cs : List Char) : Option UInt64 :=
  (digits cs).bind fun n ↦ if n < 2 ^ 64 then some (.ofNat n) else none

/-- A 64-bit number with an optional sign. -/
def atoi : List Char → Option ℤ
  | '-' :: cs => (digits cs).bind fun n ↦ if n ≤ 2 ^ 63 then some (-n) else none
  | '+' :: cs => (digits cs).bind fun n ↦ if n < 2 ^ 63 then some n else none
  | cs => (digits cs).bind fun n ↦ if n < 2 ^ 63 then some n else none

def itoa : ℤ → List Char
  | .ofNat n => Nat.toDigits 10 n
  | .negSucc n => '-' :: Nat.toDigits 10 (n + 1)

theorem digits_itoa (n : ℕ) : digits (itoa n) = some n := by
  have hdigit : (itoa n).all Char.isDigit :=
    List.all_eq_true.mpr fun _ hc ↦ Nat.isDigit_of_mem_toDigits (by decide) (by decide) hc
  rw [digits, if_pos ⟨Nat.toDigits_ne_nil, hdigit⟩]
  exact congrArg some Nat.ofDigitChars_ten_toDigits

theorem atoi_itoa {n : ℕ} (hn : n < 2 ^ 63) : atoi (itoa n) = some (n : ℤ) := by
  have hdigit (c : Char) (hc : c ∈ itoa n) : c.isDigit :=
    Nat.isDigit_of_mem_toDigits (by decide) (by decide) hc
  have hplain : atoi (itoa n) =
      (digits (itoa n)).bind fun n ↦ if n < 2 ^ 63 then some (n : ℤ) else none := by
    unfold atoi
    split
    · next cs hcs => exact absurd (hdigit '-' (hcs ▸ List.mem_cons_self)) (by decide)
    · next cs hcs => exact absurd (hdigit '+' (hcs ▸ List.mem_cons_self)) (by decide)
    · rfl
  rw [hplain, digits_itoa, Option.bind_some, if_pos hn]

/-! Texts as bytes, one for each character below 256. -/

def toBytes (cs : List Char) : List UInt8 := cs.map fun c ↦ .ofNat c.toNat

def ofBytes (bs : List UInt8) : List Char := bs.map fun b ↦ .ofNat b.toNat

theorem ofBytes_toBytes {cs : List Char} (h : ∀ c ∈ cs, c.toNat < 256) : ofBytes (toBytes cs) = cs := by
  rw [ofBytes, toBytes, List.map_map]
  refine (List.map_congr_left fun c hc ↦ ?_).trans (List.map_id cs)
  have hbyte : (UInt8.ofNat c.toNat).toNat = c.toNat := UInt8.toNat_ofNat_of_lt (h c hc)
  simp only [Function.comp_apply, hbyte, Char.ofNat_toNat, id]

theorem toNat_lt_of_mem_itoa {n : ℕ} {c : Char} (hc : c ∈ itoa n) : c.toNat < 256 := by
  have hdigit : c.isDigit := Nat.isDigit_of_mem_toDigits (by decide) (by decide) hc
  have hle : c.val ≤ 57 := by
    simp only [Char.isDigit, Bool.and_eq_true, decide_eq_true_eq] at hdigit
    exact hdigit.2
  exact Nat.lt_of_le_of_lt (UInt32.le_iff_toNat_le.mp hle) (by decide)

/-! Base 64 with the URL alphabet and without padding. -/

namespace RawURL

def alphabet : List Char :=
  "ABCDEFGHIJKLMNOPQRSTUVWXYZabcdefghijklmnopqrstuvwxyz0123456789-_".toList

/-- The groups of six bits of the bytes, the last one filled up with zeros. -/
def sextets : List UInt8 → List ℕ
  | a :: b :: c :: bs =>
    let n := a.toNat * 65536 + b.toNat * 256 + c.toNat
    n / 262144 :: n / 4096 % 64 :: n / 64 % 64 :: n % 64 :: sextets bs
  | [a, b] =>
    let n := a.toNat * 1024 + b.toNat * 4
    [n / 4096, n / 64 % 64, n % 64]
  | [a] =>
    let n := a.toNat * 16
    [n / 64, n % 64]
  | [] => []

/-- The bytes of groups of six bits. What is left over of the last group is not looked at. -/
def bytes : List ℕ → Option (List UInt8)
  | w :: x :: y :: z :: ds =>
    let n := w * 262144 + x * 4096 + y * 64 + z
    (bytes ds).map fun bs ↦ .ofNat (n / 65536) :: .ofNat (n / 256 % 256) :: .ofNat (n % 256) :: bs
  | [w, x, y] =>
    let n := w * 4096 + x * 64 + y
    some [.ofNat (n / 1024), .ofNat (n / 4 % 256)]
  | [w, x] => some [.ofNat ((w * 64 + x) / 16)]
  | [_] => none
  | [] => some []

def encode (bs : List UInt8) : List Char := (sextets bs).map (alphabet.getD · 'A')

/-- Line ends are skipped wherever they stand. -/
def decode (cs : List Char) : Option (List UInt8) :=
  ((cs.filter fun c ↦ c ≠ '\r' ∧ c ≠ '\n').mapM alphabet.idxOf?).bind bytes

theorem sextets_lt (bs : List UInt8) : ∀ d ∈ sextets bs, d < 64 := by
  fun_induction sextets bs with
  | case1 a b c bs n ih =>
    have ha := a.toNat_lt
    have hn : n < 16777216 := by
      have := b.toNat_lt
      have := c.toNat_lt
      omega
    simp only [List.forall_mem_cons]
    exact ⟨by omega, by omega, by omega, by omega, ih⟩
  | case2 a b n =>
    have ha := a.toNat_lt
    have hb := b.toNat_lt
    simp only [List.forall_mem_cons, List.not_mem_nil, false_imp_iff, implies_true, and_true]
    omega
  | case3 a n =>
    have ha := a.toNat_lt
    simp only [List.forall_mem_cons, List.not_mem_nil, false_imp_iff, implies_true, and_true]
    omega
  | case4 => exact List.forall_mem_nil _

theorem ofNat_eq {a : UInt8} {n : ℕ} (h : n = a.toNat) : UInt8.ofNat n = a := by
  rw [h, UInt8.ofNat_toNat]

theorem bytes_sextets (bs : List UInt8) : bytes (sextets bs) = some bs := by
  fun_induction sextets bs with
  | case1 a b c bs n ih =>
    have ha := a.toNat_lt
    have hb := b.toNat_lt
    have hc := c.toNat_lt
    have hn : n / 262144 * 262144 + n / 4096 % 64 * 4096 + n / 64 % 64 * 64 + n % 64 = n := by omega
    simp only [bytes, ih, Option.map_some, hn]
    rw [ofNat_eq (a := a) (by omega), ofNat_eq (a := b) (by omega), ofNat_eq (a := c) (by omega)]
  | case2 a b n =>
    have ha := a.toNat_lt
    have hb := b.toNat_lt
    have hn : n / 4096 * 4096 + n / 64 % 64 * 64 + n % 64 = n := by omega
    simp only [bytes, hn]
    rw [ofNat_eq (a := a) (by omega), ofNat_eq (a := b) (by omega)]
  | case3 a n =>
    have ha := a.toNat_lt
    simp only [bytes]
    rw [ofNat_eq (a := a) (by omega)]
  | case4 => rfl

theorem alphabet_eq :
    alphabet = ['A', 'B', 'C', 'D', 'E', 'F', 'G', 'H', 'I', 'J', 'K', 'L', 'M', 'N', 'O', 'P',
      'Q', 'R', 'S', 'T', 'U', 'V', 'W', 'X', 'Y', 'Z', 'a', 'b', 'c', 'd', 'e', 'f',
      'g', 'h', 'i', 'j', 'k', 'l', 'm', 'n', 'o', 'p', 'q', 'r', 's', 't', 'u', 'v',
      'w', 'x', 'y', 'z', '0', '1', '2', '3', '4', '5', '6', '7', '8', '9', '-', '_'] :=
  String.toList_ofList

theorem length_alphabet : alphabet.length = 64 := by
  rw [alphabet_eq]
  rfl

theorem nodup_alphabet : alphabet.Nodup := by
  rw [alphabet_eq]
  decide +kernel

theorem lineEnd_not_mem_alphabet : '\r' ∉ alphabet ∧ '\n' ∉ alphabet := by
  rw [alphabet_eq]
  decide +kernel

theorem getD_alphabet {d : ℕ} (hd : d < 64) :
    alphabet.getD d 'A' ∈ alphabet ∧ alphabet.idxOf? (alphabet.getD d 'A') = some d := by
  have hlen : d < alphabet.length := by rwa [length_alphabet]
  rw [← List.getElem_eq_getD (h := hlen), List.idxOf?_eq_some_iff]
  refine ⟨List.getElem_mem hlen, hlen, rfl, fun e he heq ↦ ?_⟩
  exact absurd ((List.getElem_inj nodup_alphabet).mp heq) (Nat.ne_of_lt he)

theorem decode_encode (bs : List UInt8) : decode (encode bs) = some bs := by
  have hlt := sextets_lt bs
  have hkept : (encode bs).filter (fun c ↦ c ≠ '\r' ∧ c ≠ '\n') = encode bs := by
    rw [List.filter_eq_self]
    intro c hc
    obtain ⟨d, hd, rfl⟩ := List.mem_map.mp hc
    have hmem := (getD_alphabet (hlt d hd)).1
    exact decide_eq_true
      ⟨ne_of_mem_of_not_mem hmem lineEnd_not_mem_alphabet.1,
        ne_of_mem_of_not_mem hmem lineEnd_not_mem_alphabet.2⟩
  have hdigits : (encode bs).mapM alphabet.idxOf? = some (sextets bs) := by
    rw [encode]
    generalize sextets bs = ds at hlt
    induction ds with
    | nil => rfl
    | cons d ds ih =>
      obtain ⟨hd, hds⟩ := List.forall_mem_cons.mp hlt
      rw [List.map_cons, List.mapM_cons, (getD_alphabet hd).2, ih hds]
      rfl
  rw [decode, hkept, hdigits, Option.bind_some, bytes_sextets]

end RawURL

end AgentGpu.Foundation
