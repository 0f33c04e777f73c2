import Rucbase.Lib.Bytes

/-!
# Comparing bytes

`memcmp` on byte buffers, of which callers only use the sign. It compares the first bytes as lists
(`memcmp_eq_compare`), so it is a total preorder. A string in a buffer that is padded with zeros is
compared as a string as long as its characters are not zero (`memcmp_padded`).
-/

namespace Rucbase.Lib

/-- `memcmp(a, b, n)`. -/
def memcmp : Nat → (Nat → UInt8) → (Nat → UInt8) → Ordering
  | 0, _, _ => .eq
  | n + 1, a, b => (compare (a 0) (b 0)).then (memcmp n (fun i => a (i + 1)) fun i => b (i + 1))

/-- The first `n` bytes of a buffer. -/
def firstBytes (b : Nat → UInt8) (n : Nat) : List UInt8 := (List.range n).map b

/-- A string and zeros behind it. -/
def padded (s : List UInt8) : Nat → UInt8 := fun i => s.getD i 0

variable {a b a' b' : Nat → UInt8} {m n i : Nat} {s t : List UInt8}

@[simp] theorem length_firstBytes : (firstBytes b n).length = n := by
  simp [firstBytes]

theorem firstBytes_succ : firstBytes b (n + 1) = b 0 :: firstBytes (fun i => b (i + 1)) n := by
  rw [firstBytes, List.range_succ_eq_map, List.map_cons, List.map_map]
  rfl

theorem memcmp_eq_compare : memcmp n a b = compare (firstBytes a n) (firstBytes b n) := by
  induction n generalizing a b with
  | zero => rfl
  | succ n ih =>
      rw [firstBytes_succ, firstBytes_succ, List.compare_cons_cons, memcmp, ih]

theorem firstBytes_congr (h : ∀ i, i < n → a i = b i) : firstBytes a n = firstBytes b n :=
  List.map_congr_left fun i hi => h i (List.mem_range.mp hi)

/-- Only the first `n` bytes matter. -/
theorem memcmp_congr (ha : ∀ i, i < n → a i = a' i) (hb : ∀ i, i < n → b i = b' i) :
    memcmp n a b = memcmp n a' b' := by
  rw [memcmp_eq_compare, memcmp_eq_compare, firstBytes_congr ha, firstBytes_congr hb]

/-- Comparing two stretches one after the other. -/
theorem memcmp_add : memcmp (m + n) a b
    = (memcmp m a b).then (memcmp n (fun i => a (m + i)) fun i => b (m + i)) := by
  induction m generalizing a b with
  | zero =>
      simp only [Nat.zero_add, memcmp]
      rfl
  | succ m ih =>
      have hswap : ∀ c : Nat → UInt8, (fun i => c (m + i + 1)) = fun i => c (m + 1 + i) :=
        fun c => funext fun i => congrArg c (by omega)
      rw [Nat.succ_add, memcmp, memcmp, ih, hswap a, hswap b, Ordering.then_assoc]

/-! ## Strings -/

theorem padded_cons_zero {c : UInt8} : padded (c :: s) 0 = c := rfl

theorem padded_cons_succ {c : UInt8} : padded (c :: s) (i + 1) = padded s i := rfl

theorem padded_of_le (h : s.length ≤ i) : padded s i = 0 := by
  simp [padded, h]

/-- The bytes from `m` on are those of the rest of the string. -/
theorem padded_drop : padded (s.drop m) i = padded s (m + i) := by
  simp [padded, List.getD_eq_getElem?_getD, List.getElem?_drop]

theorem firstBytes_padded : firstBytes (padded s) s.length = s := by
  induction s with
  | nil => rfl
  | cons c s ih =>
      rw [List.length_cons, firstBytes_succ, padded_cons_zero]
      exact congrArg _ ih

/-- Strings are compared piece by piece. -/
theorem compare_take_drop : compare s t
    = (compare (s.take n) (t.take n)).then (compare (s.drop n) (t.drop n)) := by
  induction n generalizing s t with
  | zero => rfl
  | succ n ih =>
      cases s with
      | nil =>
          cases t with
          | nil => rfl
          | cons d t => rfl
      | cons c s =>
          cases t with
          | nil => rfl
          | cons d t =>
              simp only [List.take_succ_cons, List.drop_succ_cons, List.compare_cons_cons]
              cases compare c d with
              | lt => rfl
              | gt => rfl
              | eq => exact ih

/-- **Padded strings are compared as strings**, as far as they are looked at. -/
theorem memcmp_padded (hs : ∀ c ∈ s, c ≠ 0) (ht : ∀ c ∈ t, c ≠ 0) :
    memcmp n (padded s) (padded t) = compare (s.take n) (t.take n) := by
  have hpos : ∀ c : UInt8, c ≠ 0 → compare 0 c = .lt := by
    intro c hc
    rw [Std.compare_eq_lt, UInt8.lt_iff_toNat_lt]
    exact Nat.pos_of_ne_zero fun h => hc (UInt8.toNat_inj.mp h)
  induction n generalizing s t with
  | zero => rfl
  | succ n ih =>
      cases s with
      | nil =>
          cases t with
          | nil =>
              have hrest := ih hs ht
              rw [List.take_nil] at hrest
              rw [memcmp, List.take_nil, ← hrest]
              exact congrArg₂ _ rfl (memcmp_congr (fun _ _ => rfl) fun _ _ => rfl)
          | cons d t =>
              rw [memcmp, padded_cons_zero, padded_of_le (Nat.zero_le 0), hpos d (ht d (by simp))]
              rfl
      | cons c s =>
          cases t with
          | nil =>
              rw [memcmp, padded_cons_zero, padded_of_le (Nat.zero_le 0),
                Std.OrientedCmp.gt_of_lt (hpos c (hs c (by simp)))]
              rfl
          | cons d t =>
              have hrest := ih (fun x hx => hs x (List.mem_cons_of_mem _ hx))
                (fun x hx => ht x (List.mem_cons_of_mem _ hx))
              rw [memcmp, List.take_succ_cons, List.take_succ_cons, List.compare_cons_cons]
              simp only [padded_cons_zero, padded_cons_succ, hrest]

end Rucbase.Lib
