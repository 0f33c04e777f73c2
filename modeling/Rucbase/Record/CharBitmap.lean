import Mathlib.Data.Set.Insert
import Rucbase.Lib.FirstHit
import Rucbase.Record.RmScan

/-!
# `Bitmap` on `char`

`record/bitmap.h` as C++ computes it, with a signed `char`: every `&`, `|` and `~` works on an
`int` that has the sign of the `char`, and every assignment to a `char` cuts it down again. The
bytes are `m`, the bitmap starts at `bm`, and positions are of type `int`.

Narrowing undoes the promotion, so all of it comes down to the bytes as patterns, which is what
`Rucbase.Bitmap` has.
-/

namespace Rucbase.CharBitmap

open Lib

/-- `BITMAP_HIGHEST_BIT`, an `unsigned`. -/
def bitmapHighestBit : UInt32 := 0x80

/-- `get_bucket`. -/
def getBucket (pos : Int) : Int := pos.tdiv bitmapWidth

/-- `get_bit`. The shift is one of `unsigned`, by a `char`; what it gives is a `char` again. -/
def getBit (pos : Int) : Int8 :=
  (bitmapHighestBit >>> (Int8.ofInt (pos.tmod bitmapWidth)).toInt32.toUInt32).toUInt8.toInt8

/-- Where `bm[get_bucket(pos)]` is. -/
def cell (bm : Nat) (pos : Int) : Nat := bm + (getBucket pos).toNat

/-- `init`: `memset(bm, 0, size)`. -/
def init (m : Nat → Int8) (bm : Nat) (size : Int) : Nat → Int8 :=
  fun i => if bm ≤ i ∧ i < bm + size.toNat then 0 else m i

/-- `set`: `|=` on `int`, stored as a `char`. -/
def set (m : Nat → Int8) (bm : Nat) (pos : Int) : Nat → Int8 :=
  Function.update m (cell bm pos) ((m (cell bm pos)).toInt32 ||| (getBit pos).toInt32).toInt8

/-- `reset`: `~` on `int`, cast to `char`; then `&=` on `int`, stored as a `char`. -/
def reset (m : Nat → Int8) (bm : Nat) (pos : Int) : Nat → Int8 :=
  Function.update m (cell bm pos)
    ((m (cell bm pos)).toInt32 &&& (~~~ (getBit pos).toInt32).toInt8.toInt32).toInt8

/-- `is_set`: the `int` that `&` gives, compared with 0. -/
def isSet (m : Nat → Int8) (bm : Nat) (pos : Int) : Bool :=
  (m (cell bm pos)).toInt32 &&& (getBit pos).toInt32 != 0

/-- `next_bit`. The loop counts with an `int`, which `curr + 1` is for every `curr` but the largest. -/
def nextBit (bit : Bool) (m : Nat → Int8) (bm : Nat) (maxN curr : Int) : Int :=
  firstHit (fun i => isSet m bm i == bit) (curr + 1) maxN

/-- `first_bit`. -/
def firstBit (bit : Bool) (m : Nat → Int8) (bm : Nat) (maxN : Int) : Int := nextBit bit m bm maxN (-1)

/-- The bytes as patterns. -/
def bytes (m : Nat → Int8) : Nat → UInt8 := fun i => (m i).toUInt8

variable {m : Nat → Int8} {b : Nat → UInt8} {bm size i : Nat} {p q maxN curr : Int} {bit : Bool}

/-! ## Promotion and narrowing -/

theorem getBucket_of_nonneg (hp : 0 ≤ p) : getBucket p = (Bitmap.getBucket p.toNat : Nat) := by
  obtain ⟨n, rfl⟩ := Int.eq_ofNat_of_zero_le hp
  rfl

theorem cell_of_nonneg (hp : 0 ≤ p) : cell bm p = bm + Bitmap.getBucket p.toNat := by
  rw [cell, getBucket_of_nonneg hp, Int.toNat_natCast]

/-- The bit of a position, as a pattern. -/
theorem getBit_toUInt8 (hp : 0 ≤ p) : (getBit p).toUInt8 = Bitmap.getBit p.toNat := by
  obtain ⟨n, rfl⟩ := Int.eq_ofNat_of_zero_le hp
  have hmod : (n : Int).tmod bitmapWidth = (n % 8 : Nat) := rfl
  unfold getBit Bitmap.getBit
  rw [hmod, Int.toNat_natCast]
  have hlt : n % 8 < 8 := Nat.mod_lt _ (by decide)
  generalize n % 8 = k at hlt
  interval_cases k <;> rfl

/-- `|` on promoted bytes is `|` on the bytes. -/
theorem toInt8_or_promoted (x y : Int8) : (x.toInt32 ||| y.toInt32).toInt8 = x ||| y := by
  rw [Int32.toInt8_or, Int8.toInt8_toInt32, Int8.toInt8_toInt32]

/-- `&` with a narrowed complement is `&` with the complement. -/
theorem toInt8_and_not_promoted (x y : Int8) :
    (x.toInt32 &&& (~~~ y.toInt32).toInt8.toInt32).toInt8 = x &&& ~~~ y := by
  rw [Int32.toInt8_and, Int8.toInt8_toInt32, Int8.toInt8_toInt32, Int32.toInt8_not,
    Int8.toInt8_toInt32]

/-- `&` on promoted bytes is 0 exactly if it is on the bytes. -/
theorem and_promoted_eq_zero (x y : Int8) : x.toInt32 &&& y.toInt32 = 0 ↔ x &&& y = 0 := by
  rw [← Int8.toInt32_and]
  constructor
  · intro h
    have := congrArg Int32.toInt8 h
    rwa [Int8.toInt8_toInt32] at this
  · intro h
    rw [h]
    rfl

/-! ## The operations on the patterns -/

theorem bytes_set (hp : 0 ≤ p) : bytes (set m bm p) = Bitmap.set (bytes m) bm p.toNat := by
  unfold set Bitmap.set
  rw [cell_of_nonneg hp, toInt8_or_promoted, ← getBit_toUInt8 hp]
  exact Function.comp_update Int8.toUInt8 m _ _

theorem bytes_reset (hp : 0 ≤ p) : bytes (reset m bm p) = Bitmap.reset (bytes m) bm p.toNat := by
  unfold reset Bitmap.reset
  rw [cell_of_nonneg hp, toInt8_and_not_promoted, ← getBit_toUInt8 hp]
  exact Function.comp_update Int8.toUInt8 m _ _

theorem bytes_init {n : Int} : bytes (init m bm n) = Bitmap.init (bytes m) bm n.toNat := by
  funext i
  unfold bytes init Bitmap.init
  split <;> rfl

theorem isSet_bytes (hp : 0 ≤ p) : isSet m bm p = Bitmap.isSet (bytes m) bm p.toNat := by
  unfold isSet Bitmap.isSet
  rw [cell_of_nonneg hp, ← getBit_toUInt8 hp, Bool.eq_iff_iff, bne_iff_ne, bne_iff_ne, ne_eq, ne_eq,
    and_promoted_eq_zero]
  exact not_congr ⟨congrArg Int8.toUInt8, congrArg UInt8.toInt8⟩

/-- The loop of `next_bit` on the patterns. -/
theorem firstHitFrom_bytes (rounds : Nat) (h : 0 ≤ maxN) (hi : 0 ≤ p) :
    firstHitFrom (fun i => isSet m bm i == bit) maxN rounds p
      = Bitmap.search bit (bytes m) bm maxN.toNat rounds p.toNat := by
  induction rounds generalizing p with
  | zero => exact (Int.toNat_of_nonneg h).symm
  | succ rounds ih =>
      have hnext : (p + 1).toNat = p.toNat + 1 := by omega
      unfold firstHitFrom Bitmap.search
      rw [isSet_bytes hi, ih (by omega), hnext]
      by_cases hbit : Bitmap.isSet (bytes m) bm p.toNat = bit
      · rw [if_pos hbit, if_pos (beq_iff_eq.mpr hbit)]
        exact (Int.toNat_of_nonneg hi).symm
      · rw [if_neg hbit, if_neg (fun h => hbit (beq_iff_eq.mp h))]

theorem nextBit_bytes (h : 0 ≤ maxN) (hcurr : -1 ≤ curr) :
    nextBit bit m bm maxN curr = Bitmap.nextBit bit (bytes m) bm maxN.toNat curr := by
  have hrounds : (maxN - (curr + 1)).toNat = maxN.toNat - (curr + 1).toNat := by omega
  unfold nextBit firstHit Bitmap.nextBit
  rw [firstHitFrom_bytes _ h (by omega), hrounds]

/-! ## A set of positions -/

/-- The positions of a bitmap of `size` bytes. -/
def Inside (size : Nat) (pos : Int) : Prop := 0 ≤ pos ∧ pos < 8 * size

instance (size : Nat) (pos : Int) : Decidable (Inside size pos) :=
  inferInstanceAs (Decidable (0 ≤ pos ∧ pos < 8 * size))

/-- The byte of a position lies in the bitmap. -/
theorem Inside.cell (hp : Inside size p) : bm ≤ cell bm p ∧ cell bm p < bm + size := by
  obtain ⟨h0, hlt⟩ := hp
  rw [cell_of_nonneg h0]
  unfold Bitmap.getBucket
  omega

theorem isSet_set (hp : 0 ≤ p) (hq : 0 ≤ q) :
    isSet (set m bm p) bm q = true ↔ q = p ∨ isSet m bm q = true := by
  have heq : q.toNat = p.toNat ↔ q = p := by omega
  rw [isSet_bytes hq, isSet_bytes hq, bytes_set hp, Bitmap.isSet_set, Bool.or_eq_true,
    decide_eq_true_iff, heq]

theorem isSet_reset (hp : 0 ≤ p) (hq : 0 ≤ q) :
    isSet (reset m bm p) bm q = true ↔ q ≠ p ∧ isSet m bm q = true := by
  have heq : q.toNat ≠ p.toNat ↔ q ≠ p := by omega
  rw [isSet_bytes hq, isSet_bytes hq, bytes_reset hp, Bitmap.isSet_reset, Bool.and_eq_true,
    decide_eq_true_iff, heq]

theorem isSet_init (hp : Inside size p) : isSet (init m bm size) bm p = false := by
  have hcell : cell bm p < bm + size := hp.cell.2
  rw [cell_of_nonneg hp.1] at hcell
  rw [isSet_bytes hp.1, bytes_init, Int.toNat_natCast]
  exact Bitmap.isSet_init (by omega)

/-- `set` and `reset` write one byte. -/
theorem set_apply_of_ne (h : i ≠ cell bm p) : set m bm p i = m i := Function.update_of_ne h ..

theorem reset_apply_of_ne (h : i ≠ cell bm p) : reset m bm p i = m i := Function.update_of_ne h ..

/-- **`next_bit`** answers the least position behind `curr` with the bit, or `max_n`. -/
theorem nextBit_spec (bit : Bool) (m : Nat → Int8) (bm : Nat) (maxN curr : Int) :
    IsLeast {i | curr < i ∧ i < maxN ∧ isSet m bm i = bit} (nextBit bit m bm maxN curr)
      ∨ {i | curr < i ∧ i < maxN ∧ isSet m bm i = bit} = ∅ ∧ nextBit bit m bm maxN curr = maxN := by
  have hspec := firstHit_spec (fun i => isSet m bm i == bit) (curr + 1) maxN
  simp only [beq_iff_eq] at hspec
  exact hspec

/-! ## The bitmap of a page -/

/-- The bytes of a buffer, as `char`. -/
def chars (b : Nat → UInt8) : Nat → Int8 := fun i => (b i).toInt8

variable {d : PageData} {h : RmFileHdr} {k : Nat}

theorem bytes_chars : bytes (chars b) = b := rfl

theorem page_isSet : RmPageHandle.isSet d k = isSet (chars d.toBuf) RmPageHandle.bitmap k := by
  rw [isSet_bytes (Int.natCast_nonneg k), bytes_chars]
  rfl

theorem page_setBit : RmPageHandle.setBit d k
    = RmPageHandle.edit d fun b => bytes (set (chars b) RmPageHandle.bitmap k) := by
  simp only [bytes_set (Int.natCast_nonneg k), bytes_chars]
  rfl

theorem page_resetBit : RmPageHandle.resetBit d k
    = RmPageHandle.edit d fun b => bytes (reset (chars b) RmPageHandle.bitmap k) := by
  simp only [bytes_reset (Int.natCast_nonneg k), bytes_chars]
  rfl

theorem page_initBitmap : RmPageHandle.initBitmap h d
    = RmPageHandle.edit d fun b => bytes (init (chars b) RmPageHandle.bitmap h.bitmapSize) := by
  simp only [bytes_init, bytes_chars]
  rfl

/-- The slot `insert_record` takes. -/
theorem page_freeSlot : (RmFileHandle.freeSlot h d : Int)
    = firstBit false (chars d.toBuf) RmPageHandle.bitmap h.slotsPerPage := by
  unfold firstBit
  rw [nextBit_bytes (Int.natCast_nonneg _) (Int.le_refl _), bytes_chars, Int.toNat_natCast]
  rfl

/-- The slot a scan goes on to. -/
theorem page_nextSlot (hcurr : -1 ≤ curr) : (RmScan.nextSlot h d curr : Int)
    = nextBit true (chars d.toBuf) RmPageHandle.bitmap h.slotsPerPage curr := by
  rw [nextBit_bytes (Int.natCast_nonneg _) hcurr, bytes_chars, Int.toNat_natCast]
  rfl

/-! ## The laws -/

/-- **The bitmap is a faithful set of positions**, though its bytes are signed: `get_bit(0)` is
-128, as a `char` and as the `int` that the operators see. -/
theorem bitmap_positions (m : Nat → Int8) (bm size : Nat) :
    (getBit 0 = -128 ∧ (getBit 0).toInt32 = -128)
      ∧ (∀ p q, Inside size p → Inside size q →
        (isSet (set m bm p) bm q = true ↔ q = p ∨ isSet m bm q = true)
          ∧ (isSet (reset m bm p) bm q = true ↔ q ≠ p ∧ isSet m bm q = true))
      ∧ (∀ p, Inside size p → (bm ≤ cell bm p ∧ cell bm p < bm + size)
        ∧ ∀ i, i ≠ cell bm p → set m bm p i = m i ∧ reset m bm p i = m i)
      ∧ (∀ p, Inside size p → isSet (init m bm size) bm p = false)
      ∧ ∀ (bit : Bool) (maxN curr : Int), -1 ≤ curr →
        IsLeast {i | curr < i ∧ i < maxN ∧ isSet m bm i = bit} (nextBit bit m bm maxN curr)
          ∨ {i | curr < i ∧ i < maxN ∧ isSet m bm i = bit} = ∅
            ∧ nextBit bit m bm maxN curr = maxN := by
  refine ⟨⟨rfl, rfl⟩, fun p q hp hq => ?_, fun p hp => ?_, fun p hp => isSet_init hp, ?_⟩
  · exact ⟨isSet_set hp.1 hq.1, isSet_reset hp.1 hq.1⟩
  · exact ⟨hp.cell, fun i hi => ⟨set_apply_of_ne hi, reset_apply_of_ne hi⟩⟩
  · exact fun bit maxN curr _ => nextBit_spec bit m bm maxN curr

/-- Two bytes of ones: resetting position 0, the sign of its byte, leaves position 1 of that byte. -/
theorem bitmap_positions_ones : isSet (reset (fun _ => -1) 12 0) 12 1 = true :=
  ((bitmap_positions (fun _ => -1) 12 2).2.1 0 1 (by decide) (by decide)).2.mpr
    ⟨by decide, by decide⟩

end Rucbase.CharBitmap
