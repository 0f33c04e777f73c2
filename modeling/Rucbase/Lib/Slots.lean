import Rucbase.Lib.Bytes

/-!
# Arrays in memory

An array whose elements have `w` bytes, `o` bytes into a buffer: element `i` has the bytes from
`o + i * w` on. Stretches of it are moved with `memmove` and filled with `memcpy`.
-/

namespace Rucbase.Lib

/-- `memmove(b + dst, b + src, n)`. -/
def memmove (b : Nat → UInt8) (dst src n : Nat) : Nat → UInt8 := memcpy b dst (fun i => b (src + i)) n

variable {b src : Nat → UInt8} {o w i j a c dst pos n m p : Nat}

theorem memmove_apply_of_not (h : p < dst ∨ dst + n ≤ p) : memmove b dst a n p = b p :=
  memcpy_apply_of_not h

/-- A byte of an element lies in the stretch that the element lies in. -/
theorem slot_mem (hj : j < w) :
    (o + a * w ≤ o + i * w + j ∧ o + i * w + j < o + a * w + n * w) ↔ a ≤ i ∧ i < a + n := by
  constructor
  · rintro ⟨hlo, hhi⟩
    have h1 : a < i + 1 := by
      refine Nat.lt_of_mul_lt_mul_right (a := w) ?_
      rw [Nat.add_mul, Nat.one_mul]
      omega
    have h2 : i < a + n := by
      refine Nat.lt_of_mul_lt_mul_right (a := w) ?_
      rw [Nat.add_mul]
      omega
    exact ⟨by omega, h2⟩
  · rintro ⟨hlo, hhi⟩
    have h1 := Nat.mul_le_mul_right w hlo
    have h2 := Nat.mul_le_mul_right w (show i + 1 ≤ a + n by omega)
    rw [Nat.add_mul, Nat.add_mul, Nat.one_mul] at h2
    omega

/-- `n` elements are copied to position `pos`. -/
theorem memcpy_slot (hj : j < w) : memcpy b (o + pos * w) src (n * w) (o + i * w + j)
    = if pos ≤ i ∧ i < pos + n then src ((i - pos) * w + j) else b (o + i * w + j) := by
  unfold memcpy
  by_cases h : pos ≤ i ∧ i < pos + n
  · rw [if_pos h, if_pos ((slot_mem hj).mpr h)]
    have hsplit : i * w = (i - pos) * w + pos * w := by
      rw [← Nat.add_mul, Nat.sub_add_cancel h.1]
    exact congrArg src (by omega)
  · rw [if_neg h, if_neg fun hin => h ((slot_mem hj).mp hin)]

/-- `n` elements are moved from position `a` to position `pos`. -/
theorem memmove_slot (hj : j < w) : memmove b (o + pos * w) (o + a * w) (n * w) (o + i * w + j)
    = if pos ≤ i ∧ i < pos + n then b (o + (i - pos + a) * w + j) else b (o + i * w + j) := by
  unfold memmove
  rw [memcpy_slot hj]
  by_cases h : pos ≤ i ∧ i < pos + n
  · rw [if_pos h, if_pos h, Nat.add_mul]
    exact congrArg b (by omega)
  · rw [if_neg h, if_neg h]

/-- **Making room and filling it**: behind `n` new elements at `pos` come the ones that were there,
and what lies behind the `m` elements and the new ones stays. -/
theorem splice_slot (hj : j < w) (hpos : pos ≤ m) :
    memcpy (memmove b (o + (pos + n) * w) (o + pos * w) ((m - pos) * w)) (o + pos * w) src (n * w)
        (o + i * w + j)
      = if i < pos then b (o + i * w + j)
        else if i < pos + n then src ((i - pos) * w + j)
        else if i < m + n then b (o + (i - n) * w + j)
        else b (o + i * w + j) := by
  rw [memcpy_slot hj]
  by_cases hold : i < pos
  · rw [if_neg (by omega), if_pos hold, memmove_slot hj, if_neg (by omega)]
  · rw [if_neg hold]
    by_cases hnew : i < pos + n
    · rw [if_pos (by omega), if_pos hnew]
    · rw [if_neg (by omega), if_neg hnew, memmove_slot hj]
      by_cases hin : i < m + n
      · have hback : i - (pos + n) + pos = i - n := by omega
        rw [if_pos (by omega), if_pos hin, hback]
      · rw [if_neg (by omega), if_neg hin]

/-- **Closing a gap**: what comes behind element `pos` moves up. -/
theorem close_slot (hj : j < w) :
    memmove b (o + pos * w) (o + (pos + 1) * w) ((m - pos - 1) * w) (o + i * w + j)
      = if pos ≤ i ∧ i < m - 1 then b (o + (i + 1) * w + j) else b (o + i * w + j) := by
  rw [memmove_slot hj]
  by_cases hold : pos ≤ i ∧ i < m - 1
  · have hnext : i - pos + (pos + 1) = i + 1 := by omega
    rw [if_pos (by omega), if_pos hold, hnext]
  · rw [if_neg (by omega), if_neg hold]

end Rucbase.Lib
