import Mathlib.Tactic.Common

/-!
# Binary search

The loop `while (l < r) { mid = (l + r) / 2; if (p(mid)) l = mid + 1; else r = mid; }`. Where
it stops is always a boundary of `p`, sorted or not (`bisect_spec`). If `p` holds on a prefix,
the boundary is the only one (`bisect_eq`).
-/

namespace Rucbase.Lib

/-- The loop, for at most `fuel` rounds. -/
def bisect (p : Nat → Bool) : Nat → Nat → Nat → Nat
  | 0, l, _ => l
  | fuel + 1, l, r =>
      if l < r then
        if p ((l + r) / 2) then bisect p fuel ((l + r) / 2 + 1) r
        else bisect p fuel l ((l + r) / 2)
      else l

variable {p : Nat → Bool} {fuel l r n m : Nat}

/-- **The search ends at a boundary**: `p` holds just before it, and not at it. -/
theorem bisect_spec (hf : r - l ≤ fuel) (hlr : l ≤ r) :
    l ≤ bisect p fuel l r ∧ bisect p fuel l r ≤ r
      ∧ (l < bisect p fuel l r → p (bisect p fuel l r - 1) = true)
      ∧ (bisect p fuel l r < r → p (bisect p fuel l r) = false) := by
  induction fuel generalizing l r with
  | zero =>
      have : l = r := by omega
      simp [bisect, this]
  | succ fuel ih =>
      unfold bisect
      by_cases hlt : l < r
      · rw [if_pos hlt]
        generalize hm : (l + r) / 2 = mid
        cases hp : p mid with
        | true =>
            obtain ⟨h1, h2, h3, h4⟩ := ih (l := mid + 1) (r := r) (by omega) (by omega)
            rw [if_pos rfl]
            refine ⟨by omega, h2, ?_, h4⟩
            intro _
            rcases Nat.eq_or_lt_of_le h1 with heq | hlt'
            · rw [← heq, Nat.add_sub_cancel]
              exact hp
            · exact h3 hlt'
        | false =>
            obtain ⟨h1, h2, h3, h4⟩ := ih (l := l) (r := mid) (by omega) (by omega)
            rw [if_neg (by simp)]
            refine ⟨h1, by omega, h3, ?_⟩
            intro _
            rcases Nat.eq_or_lt_of_le h2 with heq | hlt'
            · rw [heq]
              exact hp
            · exact h4 hlt'
      · rw [if_neg hlt]
        exact ⟨Nat.le_refl _, hlr, fun h => absurd h (Nat.lt_irrefl _), fun h => absurd h hlt⟩

/-- The search asks about positions before its end only. -/
theorem bisect_congr {q : Nat → Bool} (h : ∀ i, i < r → p i = q i) :
    bisect p fuel l r = bisect q fuel l r := by
  induction fuel generalizing l r with
  | zero => rfl
  | succ fuel ih =>
      unfold bisect
      by_cases hlt : l < r
      · rw [if_pos hlt, if_pos hlt, ← h _ (by omega), ih h, ih fun i hi => h i (by omega)]
      · rw [if_neg hlt, if_neg hlt]

/-- If `p` never starts to hold again, it holds before where the search ends and not from there
on. -/
theorem bisect_mono (hp : ∀ i j, i ≤ j → j < n → p j = true → p i = true) :
    bisect p n 0 n ≤ n ∧ (∀ i, i < bisect p n 0 n → p i = true)
      ∧ ∀ i, bisect p n 0 n ≤ i → i < n → p i = false := by
  obtain ⟨_, h2, h3, h4⟩ := bisect_spec (p := p) (show n - 0 ≤ n by omega) (by omega)
  generalize bisect p n 0 n = m at *
  refine ⟨h2, fun i hi => hp i (m - 1) (by omega) (by omega) (h3 (by omega)), fun i hi hn => ?_⟩
  cases hpi : p i with
  | false => rfl
  | true =>
      have := hp m i hi hn hpi
      rw [h4 (by omega)] at this
      exact absurd this (by simp)

/-- A search that ends at 0 has looked at position 1, if there is one. -/
theorem bisect_eq_zero (hf : r ≤ fuel) (h : bisect p fuel 0 r = 0) (hr : 2 ≤ r) : p 1 = false := by
  induction fuel generalizing r with
  | zero => omega
  | succ fuel ih =>
      unfold bisect at h
      rw [if_pos (by omega), Nat.zero_add] at h
      generalize hm : r / 2 = mid at h
      cases hp : p mid with
      | true =>
          rw [hp, if_pos rfl] at h
          obtain ⟨h1, _⟩ := bisect_spec (p := p)
            (show r - (mid + 1) ≤ fuel by omega) (by omega)
          omega
      | false =>
          rw [hp, if_neg (by simp)] at h
          by_cases h1 : mid = 1
          · rw [← h1]
            exact hp
          · exact ih (by omega) h (by omega)

end Rucbase.Lib
