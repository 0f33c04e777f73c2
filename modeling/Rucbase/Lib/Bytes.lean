import Mathlib.Tactic.NormNum

/-!
# Byte buffers

Memory that C++ code reads through `char *` and casts of it: a buffer is a function from
offsets to bytes, `memcpy` overwrites a range of it, and a 32-bit `int` is four bytes of it,
least significant first.
-/

namespace Rucbase.Lib

/-- `memcpy(dst + off, src, n)`. -/
def memcpy (dst : Nat → UInt8) (off : Nat) (src : Nat → UInt8) (n : Nat) : Nat → UInt8 :=
  fun i => if off ≤ i ∧ i < off + n then src (i - off) else dst i

/-- Byte `k` of a 32-bit integer. -/
def byteOf (v : Int) (k : Nat) : UInt8 := .ofNat ((v % 4294967296).toNat >>> (8 * k))

/-- `*(int *)(b + off)`. -/
def int32At (b : Nat → UInt8) (off : Nat) : Int :=
  let u := (b off).toNat + 256 * (b (off + 1)).toNat + 65536 * (b (off + 2)).toNat
    + 16777216 * (b (off + 3)).toNat
  if u < 2147483648 then u else (u : Int) - 4294967296

/-- `*(int *)(b + off) = v`. -/
def putInt32 (b : Nat → UInt8) (off : Nat) (v : Int) : Nat → UInt8 := memcpy b off (byteOf v) 4

/-- The values a 32-bit `int` has. -/
def IsInt32 (v : Int) : Prop := -2147483648 ≤ v ∧ v < 2147483648

instance (v : Int) : Decidable (IsInt32 v) :=
  inferInstanceAs (Decidable (-2147483648 ≤ v ∧ v < 2147483648))

variable {b b' src : Nat → UInt8} {off off' n i : Nat} {v : Int}

theorem memcpy_apply_of_mem (h1 : off ≤ i) (h2 : i < off + n) : memcpy b off src n i = src (i - off) :=
  if_pos ⟨h1, h2⟩

theorem memcpy_apply_of_not (h : i < off ∨ off + n ≤ i) : memcpy b off src n i = b i := by
  refine if_neg ?_
  rintro ⟨h1, h2⟩
  omega

/-- A byte depends on the same byte of what is overwritten. -/
theorem memcpy_congr_apply (h : b i = b' i) : memcpy b off src n i = memcpy b' off src n i := by
  unfold memcpy
  rw [h]

/-- An integer depends on its four bytes only. -/
theorem int32At_congr (h : ∀ k, k < 4 → b (off + k) = b' (off + k)) :
    int32At b off = int32At b' off := by
  have h0 : b off = b' off := h 0 (by omega)
  have h1 : b (off + 1) = b' (off + 1) := h 1 (by omega)
  have h2 : b (off + 2) = b' (off + 2) := h 2 (by omega)
  have h3 : b (off + 3) = b' (off + 3) := h 3 (by omega)
  simp only [int32At, h0, h1, h2, h3]

/-- Overwriting other bytes leaves an integer alone. -/
theorem int32At_memcpy_of_disjoint (h : off' + 4 ≤ off ∨ off + n ≤ off') :
    int32At (memcpy b off src n) off' = int32At b off' := by
  refine int32At_congr (fun k hk => memcpy_apply_of_not ?_)
  omega

theorem int32At_putInt32_of_disjoint (h : off' + 4 ≤ off ∨ off + 4 ≤ off') :
    int32At (putInt32 b off v) off' = int32At b off' := int32At_memcpy_of_disjoint h

theorem toNat_byteOf (v : Int) (k : Nat) :
    (byteOf v k).toNat = (v % 4294967296).toNat / 2 ^ (8 * k) % 256 := by
  simp [byteOf, Nat.shiftRight_eq_div_pow]

/-- **Reading back the integer written.** -/
theorem int32At_putInt32 (hv : IsInt32 v) : int32At (putInt32 b off v) off = v := by
  have hbyte : ∀ k, k < 4 → putInt32 b off v (off + k) = byteOf v k := by
    intro k hk
    rw [putInt32, memcpy_apply_of_mem (by omega) (by omega), Nat.add_sub_cancel_left]
  have h0 : putInt32 b off v off = byteOf v 0 := hbyte 0 (by omega)
  unfold int32At
  rw [h0, hbyte 1 (by omega), hbyte 2 (by omega), hbyte 3 (by omega)]
  simp only [toNat_byteOf]
  obtain ⟨h1, h2⟩ := hv
  norm_num at h1 h2 ⊢
  -- the four base-256 digits add up to the residue of `v`
  have hu : 0 ≤ v % 4294967296 ∧ v % 4294967296 < 4294967296 := by omega
  generalize hw : (v % 4294967296).toNat = u
  have hsum : u % 256 + 256 * (u / 256 % 256) + 65536 * (u / 65536 % 256)
      + 16777216 * (u / 16777216 % 256) = u := by omega
  rw [hsum]
  split <;> omega

end Rucbase.Lib
