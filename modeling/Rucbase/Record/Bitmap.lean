import Mathlib.Tactic.Common
import Mathlib.Tactic.IntervalCases
import Mathlib.Logic.Function.Basic
import Mathlib.Data.Nat.Count

/-!
# `Bitmap`

`record/bitmap.h`. A bitmap is a stretch of a byte buffer that starts at `bm`; position
`pos` is bit `pos % 8` of byte `pos / 8`, counted from the most significant end. `char` is
signed there, but every operation works on the byte as a pattern, so bytes are `UInt8`;
`CharBitmap` has the operations on signed bytes and shows that they come down to these.
-/

namespace Rucbase.Bitmap

/-- `get_bucket`. -/
def getBucket (pos : Nat) : Nat := pos / 8

/-- `get_bit`: `BITMAP_HIGHEST_BIT >> (pos % BITMAP_WIDTH)`. -/
def getBit (pos : Nat) : UInt8 := 0x80 >>> UInt8.ofNat (pos % 8)

/-- `set`. -/
def set (b : Nat → UInt8) (bm pos : Nat) : Nat → UInt8 :=
  Function.update b (bm + getBucket pos) (b (bm + getBucket pos) ||| getBit pos)

/-- `reset`. -/
def reset (b : Nat → UInt8) (bm pos : Nat) : Nat → UInt8 :=
  Function.update b (bm + getBucket pos) (b (bm + getBucket pos) &&& ~~~ getBit pos)

/-- `is_set`. -/
def isSet (b : Nat → UInt8) (bm pos : Nat) : Bool := b (bm + getBucket pos) &&& getBit pos != 0

/-- `init`: `size` bytes of zeros. -/
def init (b : Nat → UInt8) (bm size : Nat) : Nat → UInt8 :=
  fun i => if bm ≤ i ∧ i < bm + size then 0 else b i

/-- The loop of `next_bit`, with `n` positions left from `i`. -/
def search (bit : Bool) (b : Nat → UInt8) (bm maxN : Nat) : Nat → Nat → Nat
  | 0, _ => maxN
  | n + 1, i => if isSet b bm i = bit then i else search bit b bm maxN n (i + 1)

/-- `next_bit`; `curr` is at least -1. -/
def nextBit (bit : Bool) (b : Nat → UInt8) (bm maxN : Nat) (curr : Int) : Nat :=
  search bit b bm maxN (maxN - (curr + 1).toNat) (curr + 1).toNat

/-- `first_bit`. -/
def firstBit (bit : Bool) (b : Nat → UInt8) (bm maxN : Nat) : Nat := nextBit bit b bm maxN (-1)

variable {b b' : Nat → UInt8} {bm p q n i maxN : Nat} {bit : Bool}

/-! ## Bits of a byte -/

theorem getBit_toBitVec (pos : Nat) : (getBit pos).toBitVec = BitVec.twoPow 8 (7 - pos % 8) := by
  have h : pos % 8 < 8 := Nat.mod_lt _ (by decide)
  unfold getBit
  generalize pos % 8 = k at h
  interval_cases k <;> rfl

/-- A position is set when its bit is. -/
theorem isSet_eq (b : Nat → UInt8) (bm pos : Nat) :
    isSet b bm pos = (b (bm + getBucket pos)).toBitVec.getLsbD (7 - pos % 8) := by
  unfold isSet
  generalize b (bm + getBucket pos) = x
  have hand : (x &&& getBit pos).toBitVec
      = if x.toBitVec.getLsbD (7 - pos % 8) then BitVec.twoPow 8 (7 - pos % 8) else 0#8 := by
    rw [UInt8.toBitVec_and, getBit_toBitVec, BitVec.and_twoPow]
  have hpow : BitVec.twoPow 8 (7 - pos % 8) ≠ 0#8 := by
    intro h
    have := congrArg (fun v => v.getLsbD (7 - pos % 8)) h
    simp only [BitVec.getLsbD_twoPow, BitVec.getLsbD_zero, decide_true, Bool.and_true,
      decide_eq_false_iff_not] at this
    omega
  rw [Bool.eq_iff_iff, bne_iff_ne, ne_eq, ← UInt8.toBitVec_inj, hand]
  cases hx : x.toBitVec.getLsbD (7 - pos % 8) with
  | true => simpa using hpow
  | false => simp

/-- Two positions in the same byte with the same bit are the same position. -/
theorem eq_of_bucket_bit (h1 : getBucket p = getBucket q) (h2 : 7 - p % 8 = 7 - q % 8) : p = q := by
  unfold getBucket at h1
  omega

/-! ## The operations as changes of a set of positions -/

/-- **After `set`**, the position is in and the others are as before. -/
theorem isSet_set : isSet (set b bm p) bm q = (decide (q = p) || isSet b bm q) := by
  rw [isSet_eq, isSet_eq, set]
  by_cases hb : getBucket q = getBucket p
  · rw [hb, Function.update_self, UInt8.toBitVec_or, getBit_toBitVec, BitVec.getLsbD_or,
      BitVec.getLsbD_twoPow]
    by_cases hq : q = p
    · subst hq
      have : 7 - q % 8 < 8 := by omega
      simp [this]
    · have hne : 7 - p % 8 ≠ 7 - q % 8 := fun h => hq (eq_of_bucket_bit hb h.symm)
      simp [hq, hne]
  · have hq : q ≠ p := fun h => hb (by rw [h])
    rw [Function.update_of_ne (by omega)]
    simp [hq]

/-- **After `reset`**, the position is out and the others are as before. -/
theorem isSet_reset : isSet (reset b bm p) bm q = (decide (q ≠ p) && isSet b bm q) := by
  rw [isSet_eq, isSet_eq, reset]
  by_cases hb : getBucket q = getBucket p
  · rw [hb, Function.update_self, UInt8.toBitVec_and, UInt8.toBitVec_not, getBit_toBitVec,
      BitVec.getLsbD_and, BitVec.getLsbD_not, BitVec.getLsbD_twoPow]
    have hlt : 7 - q % 8 < 8 := by omega
    by_cases hq : q = p
    · subst hq
      simp [hlt]
    · have hne : 7 - p % 8 ≠ 7 - q % 8 := fun h => hq (eq_of_bucket_bit hb h.symm)
      simp [hq, hne, hlt]
  · have hq : q ≠ p := fun h => hb (by rw [h])
    rw [Function.update_of_ne (by omega)]
    simp [hq]

/-- After `init` every position of the stretch is clear. -/
theorem isSet_init (h : getBucket p < n) : isSet (init b bm n) bm p = false := by
  rw [isSet_eq, init, if_pos (by omega)]
  exact BitVec.getLsbD_zero

theorem isSet_congr (h : b (bm + getBucket p) = b' (bm + getBucket p)) :
    isSet b bm p = isSet b' bm p := by
  rw [isSet, isSet, h]

/-! ## Searching -/

/-- What the loop of `next_bit` finds: the first hit from `i` on, or nothing. -/
theorem search_spec (bit : Bool) (b : Nat → UInt8) (bm maxN n i : Nat) (hn : i + n ≤ maxN) :
    (∀ j, i ≤ j → j < search bit b bm maxN n i → j < i + n → isSet b bm j ≠ bit)
      ∧ (search bit b bm maxN n i < i + n →
          i ≤ search bit b bm maxN n i ∧ isSet b bm (search bit b bm maxN n i) = bit)
      ∧ (i + n ≤ search bit b bm maxN n i → search bit b bm maxN n i = maxN) := by
  induction n generalizing i with
  | zero =>
      refine ⟨?_, ?_, fun _ => rfl⟩
      · intro j h1 _ h3
        omega
      · intro h
        simp only [search] at h
        omega
  | succ n ih =>
      obtain ⟨h1, h2, h3⟩ := ih (i + 1) (by omega)
      unfold search
      split
      · rename_i hhit
        refine ⟨?_, fun _ => ⟨le_rfl, hhit⟩, ?_⟩
        · intro j hij hj _
          omega
        · intro hle
          omega
      · rename_i hmiss
        refine ⟨?_, ?_, ?_⟩
        · intro j hij hj hjn
          rcases Nat.eq_or_lt_of_le hij with rfl | hlt
          · exact hmiss
          · exact h1 j hlt hj (by omega)
        · intro hlt
          obtain ⟨hge, hset⟩ := h2 (by omega)
          exact ⟨by omega, hset⟩
        · intro hle
          exact h3 (by omega)

/-- **`next_bit` finds the first position behind `curr` with the bit**, or answers `maxN`. -/
theorem nextBit_spec (bit : Bool) (b : Nat → UInt8) (bm maxN : Nat) {curr : Int}
    (hcurr : -1 ≤ curr) :
    (∀ j : Nat, curr < j → j < nextBit bit b bm maxN curr → j < maxN → isSet b bm j ≠ bit)
      ∧ (nextBit bit b bm maxN curr < maxN →
        curr < nextBit bit b bm maxN curr ∧ isSet b bm (nextBit bit b bm maxN curr) = bit) := by
  unfold nextBit
  by_cases hle : (curr + 1).toNat ≤ maxN
  · obtain ⟨h1, h2, _⟩ := search_spec bit b bm maxN (maxN - (curr + 1).toNat) (curr + 1).toNat
      (by omega)
    refine ⟨fun j hj hlt hmax => h1 j (by omega) hlt (by omega), fun hlt => ?_⟩
    obtain ⟨hge, hset⟩ := h2 (by omega)
    exact ⟨by omega, hset⟩
  · rw [Nat.sub_eq_zero_of_le (by omega)]
    exact ⟨fun j hj _ hmax => by omega, fun hlt => absurd hlt (Nat.lt_irrefl _)⟩

/-- **`first_bit` finds the first position with the bit**, if there is one below `maxN`. -/
theorem firstBit_spec (h : ∃ j, j < maxN ∧ isSet b bm j = bit) :
    firstBit bit b bm maxN < maxN ∧ isSet b bm (firstBit bit b bm maxN) = bit := by
  obtain ⟨j, hj, hset⟩ := h
  obtain ⟨h1, h2, h3⟩ := search_spec bit b bm maxN maxN 0 (by omega)
  have hfirst : firstBit bit b bm maxN = search bit b bm maxN maxN 0 := rfl
  rw [hfirst]
  by_cases hlt : search bit b bm maxN maxN 0 < 0 + maxN
  · exact ⟨by omega, (h2 hlt).2⟩
  · have := h3 (by omega)
    exact absurd hset (h1 j (by omega) (by omega) (by omega))

/-! ## Counting -/

/-- How many of the first `n` positions are set. -/
def count (b : Nat → UInt8) (bm n : Nat) : Nat := Nat.count (fun i => isSet b bm i = true) n

theorem count_congr (h : ∀ i, i < n → isSet b bm i = isSet b' bm i) :
    count b bm n = count b' bm n := by
  unfold count
  induction n with
  | zero => rfl
  | succ n ih =>
      rw [Nat.count_succ, Nat.count_succ, ih (fun i hi => h i (by omega)), h n (by omega)]

/-- Flipping one clear position adds one to the count. -/
theorem count_of_insert (hp : p < n) (hclear : isSet b bm p = false)
    (h : ∀ q, q < n → isSet b' bm q = (decide (q = p) || isSet b bm q)) :
    count b' bm n = count b bm n + 1 := by
  induction n with
  | zero => omega
  | succ n ih =>
      unfold count at ih ⊢
      rw [Nat.count_succ, Nat.count_succ]
      rcases Nat.lt_succ_iff_lt_or_eq.mp hp with hlt | rfl
      · have hne : n ≠ p := by omega
        have hsame : isSet b' bm n = isSet b bm n := by simp [h n (by omega), hne]
        rw [ih hlt (fun q hq => h q (by omega)), hsame]
        omega
      · have hold : count b' bm p = count b bm p := by
          refine count_congr (fun i hi => ?_)
          have hne : i ≠ p := by omega
          simp [h i (by omega), hne]
        unfold count at hold
        have hnew : isSet b' bm p = true := by simp [h p (by omega)]
        rw [hold, hnew, hclear]
        simp

/-- If some position is clear, the count is below `n`, and the other way round. -/
theorem count_lt_iff : count b bm n < n ↔ ∃ i, i < n ∧ isSet b bm i = false := by
  unfold count
  induction n with
  | zero => simp
  | succ n ih =>
      rw [Nat.count_succ]
      have hle := Nat.count_le (p := fun i => isSet b bm i = true) (n := n)
      constructor
      · intro hlt
        cases hn : isSet b bm n with
        | false => exact ⟨n, by omega, hn⟩
        | true =>
            rw [hn, if_pos rfl] at hlt
            obtain ⟨i, hi, hset⟩ := ih.mp (by omega)
            exact ⟨i, by omega, hset⟩
      · rintro ⟨i, hi, hset⟩
        rcases Nat.lt_succ_iff_lt_or_eq.mp hi with hlt | rfl
        · have := ih.mpr ⟨i, hlt, hset⟩
          split <;> omega
        · rw [hset, if_neg (by simp)]
          omega

theorem count_le : count b bm n ≤ n := Nat.count_le _

end Rucbase.Bitmap
