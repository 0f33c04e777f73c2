import Rucbase.Lib.Bisect
import Mathlib.Data.Nat.Count

/-!
# Binary search with a comparison

Lower and upper bounds in an array that ascends under a three-way comparison, of which nothing but
transitivity is known: different keys may compare as equal.
-/

namespace Rucbase.Lib

variable {κ : Type} {cmp : κ → κ → Ordering} {keys keys' : Nat → κ} {n m i : Nat} {k : κ}

/-- The first `n` keys ascend strictly. -/
def Ascending (cmp : κ → κ → Ordering) (keys : Nat → κ) (n : Nat) : Prop :=
  ∀ i j, i < j → j < n → cmp (keys i) (keys j) = .lt

/-- The position of the first key that is not before `k`. -/
def lowerPos (cmp : κ → κ → Ordering) (keys : Nat → κ) (n : Nat) (k : κ) : Nat :=
  bisect (fun mid => cmp (keys mid) k == .lt) n 0 n

/-- The position of the first key that is behind `k`. -/
def upperPos (cmp : κ → κ → Ordering) (keys : Nat → κ) (n : Nat) (k : κ) : Nat :=
  bisect (fun mid => cmp (keys mid) k != .gt) n 0 n

/-- Counting what holds on a prefix and nowhere else. -/
theorem count_of_cut {p : Nat → Prop} [DecidablePred p] (hm : m ≤ n) (htrue : ∀ i, i < m → p i)
    (hfalse : ∀ i, m ≤ i → i < n → ¬ p i) : Nat.count p n = m := by
  obtain ⟨k, rfl⟩ := Nat.exists_eq_add_of_le hm
  have hfront : Nat.count p m = m := Nat.count_of_forall htrue
  have hback : Nat.count (fun i => p (m + i)) k = 0 :=
    Nat.count_of_forall_not fun i hi => hfalse _ (Nat.le_add_right m i) (Nat.add_lt_add_left hi m)
  rw [Nat.count_add, hfront, hback, Nat.add_zero]

section

variable [Std.TransCmp cmp]

/-- **The lower bound** cuts the keys before the first that is not before `k`. -/
theorem lowerPos_spec (h : Ascending cmp keys n) (k : κ) : lowerPos cmp keys n k ≤ n
    ∧ (∀ i, i < lowerPos cmp keys n k → cmp (keys i) k = .lt)
    ∧ ∀ i, lowerPos cmp keys n k ≤ i → i < n → cmp (keys i) k ≠ .lt := by
  obtain ⟨h1, h2, h3⟩ := bisect_mono (p := fun mid => cmp (keys mid) k == .lt) (n := n)
    (fun i j hij hj hp => by
      rw [beq_iff_eq] at hp ⊢
      rcases Nat.eq_or_lt_of_le hij with rfl | hlt
      · exact hp
      · exact Std.TransCmp.lt_trans (h i j hlt hj) hp)
  exact ⟨h1, fun i hi => beq_iff_eq.mp (h2 i hi), fun i hi hn => beq_eq_false_iff_ne.mp (h3 i hi hn)⟩

/-- **The upper bound** cuts the keys before the first that is behind `k`. -/
theorem upperPos_spec (h : Ascending cmp keys n) (k : κ) : upperPos cmp keys n k ≤ n
    ∧ (∀ i, i < upperPos cmp keys n k → cmp (keys i) k ≠ .gt)
    ∧ ∀ i, upperPos cmp keys n k ≤ i → i < n → cmp (keys i) k = .gt := by
  obtain ⟨h1, h2, h3⟩ := bisect_mono (p := fun mid => cmp (keys mid) k != .gt) (n := n)
    (fun i j hij hj hp => by
      rw [bne_iff_ne] at hp ⊢
      rcases Nat.eq_or_lt_of_le hij with rfl | hlt
      · exact hp
      · have hle := Std.TransCmp.isLE_trans (Ordering.isLE_of_eq_lt (h i j hlt hj))
          (Ordering.isLE_iff_ne_gt.mpr hp)
        exact Ordering.isLE_iff_ne_gt.mp hle)
  exact ⟨h1, fun i hi => bne_iff_ne.mp (h2 i hi), fun i hi hn => by simpa using h3 i hi hn⟩

theorem lowerPos_eq_count (h : Ascending cmp keys n) (k : κ) :
    lowerPos cmp keys n k = Nat.count (fun i => cmp (keys i) k = .lt) n := by
  obtain ⟨h1, h2, h3⟩ := lowerPos_spec h k
  exact (count_of_cut h1 h2 h3).symm

theorem upperPos_eq_count (h : Ascending cmp keys n) (k : κ) :
    upperPos cmp keys n k = Nat.count (fun i => cmp (keys i) k ≠ .gt) n := by
  obtain ⟨h1, h2, h3⟩ := upperPos_spec h k
  exact (count_of_cut h1 h2 fun i hi hn => not_not.mpr (h3 i hi hn)).symm

/-- A key that compares as equal is where the lower bound is. -/
theorem lowerPos_of_eq (h : Ascending cmp keys n) (hi : i < n) (heq : cmp (keys i) k = .eq) :
    lowerPos cmp keys n k = i := by
  obtain ⟨_, h2, h3⟩ := lowerPos_spec h k
  rcases Nat.lt_trichotomy (lowerPos cmp keys n k) i with hlt | hlt | hlt
  · have hmid := Std.TransCmp.lt_of_lt_of_eq (h _ i hlt hi) heq
    exact absurd hmid (h3 _ (Nat.le_refl _) (Nat.lt_trans hlt hi))
  · exact hlt
  · rw [h2 i hlt] at heq
    exact absurd heq (by simp)

/-- Whether a key is there shows at the lower bound. -/
theorem exists_eq_iff (h : Ascending cmp keys n) : (∃ i, i < n ∧ cmp (keys i) k = .eq)
    ↔ lowerPos cmp keys n k < n ∧ cmp (keys (lowerPos cmp keys n k)) k = .eq := by
  constructor
  · rintro ⟨i, hi, heq⟩
    rw [lowerPos_of_eq h hi heq]
    exact ⟨hi, heq⟩
  · exact fun hat => ⟨_, hat⟩

/-- A key that is not there may be put at the lower bound. -/
theorem ascending_insert (h : Ascending cmp keys n) (hno : ∀ i, i < n → cmp (keys i) k ≠ .eq) :
    Ascending cmp (fun i => if i < lowerPos cmp keys n k then keys i
      else if i = lowerPos cmp keys n k then k else keys (i - 1)) (n + 1) := by
  obtain ⟨h1, h2, h3⟩ := lowerPos_spec h k
  generalize lowerPos cmp keys n k = p at *
  have hbehind : ∀ i, p ≤ i → i < n → cmp k (keys i) = .lt := by
    intro i hi hn
    refine Std.OrientedCmp.lt_of_gt ?_
    cases hc : cmp (keys i) k with
    | lt => exact absurd hc (h3 i hi hn)
    | eq => exact absurd hc (hno i hn)
    | gt => rfl
  intro i j hij hj
  dsimp only
  rcases Nat.lt_trichotomy j p with hjp | hjp | hjp
  · rw [if_pos (by omega), if_pos hjp]
    exact h i j hij (by omega)
  · rw [if_pos (by omega), if_neg (by omega), if_pos hjp]
    exact h2 i (by omega)
  · rw [if_neg (show ¬ j < p by omega), if_neg (show ¬ j = p by omega)]
    rcases Nat.lt_trichotomy i p with hip | hip | hip
    · rw [if_pos hip]
      exact h i (j - 1) (by omega) (by omega)
    · rw [if_neg (by omega), if_pos hip]
      exact hbehind (j - 1) (by omega) (by omega)
    · rw [if_neg (by omega), if_neg (by omega)]
      exact h (i - 1) (j - 1) (by omega) (by omega)

end

/-- Keys that are left out leave the others ascending. -/
theorem ascending_erase (h : Ascending cmp keys n) (p : Nat) :
    Ascending cmp (fun i => if i < p then keys i else keys (i + 1)) (n - 1) := by
  intro i j hij hj
  dsimp only
  split <;> split <;> exact h _ _ (by omega) (by omega)

theorem Ascending.congr (h : Ascending cmp keys n)
    (hc : ∀ i j, i < n → j < n → cmp (keys' i) (keys' j) = cmp (keys i) (keys j)) :
    Ascending cmp keys' n := by
  intro i j hij hj
  rw [hc i j (by omega) hj]
  exact h i j hij hj

end Rucbase.Lib
