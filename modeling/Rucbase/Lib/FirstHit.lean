import Mathlib.Order.Bounds.Basic
import Mathlib.Algebra.Order.Group.Int

/-!
# The first hit of a counting loop

`for (i = lo; i < hi; i++) { if (hit(i)) return i; } return hi;`, over the integers. It answers
the least hit from `lo` on, and `hi` if there is none below `hi`.
-/

namespace Rucbase.Lib

/-- The loop at `i`, with `rounds` numbers left. -/
def firstHitFrom (hit : Int → Bool) (hi : Int) : Nat → Int → Int
  | 0, _ => hi
  | rounds + 1, i => if hit i then i else firstHitFrom hit hi rounds (i + 1)

/-- The loop from `lo` up to `hi`. -/
def firstHit (hit : Int → Bool) (lo hi : Int) : Int := firstHitFrom hit hi (hi - lo).toNat lo

variable {hit : Int → Bool} {lo hi : Int}

theorem firstHit_of_le (h : hi ≤ lo) : firstHit hit lo hi = hi := by
  rw [firstHit, Int.toNat_of_nonpos (by omega)]
  rfl

/-- One round of the loop. -/
theorem firstHit_of_lt (h : lo < hi) :
    firstHit hit lo hi = if hit lo then lo else firstHit hit (lo + 1) hi := by
  have hrounds : (hi - lo).toNat = (hi - (lo + 1)).toNat + 1 := by omega
  rw [firstHit, hrounds]
  rfl

/-- **What the loop answers**: the least hit, or the end if there is no hit. -/
theorem firstHit_spec (hit : Int → Bool) (lo hi : Int) :
    IsLeast {i | lo ≤ i ∧ i < hi ∧ hit i = true} (firstHit hit lo hi)
      ∨ {i | lo ≤ i ∧ i < hi ∧ hit i = true} = ∅ ∧ firstHit hit lo hi = hi := by
  induction hn : (hi - lo).toNat generalizing lo with
  | zero =>
      refine .inr ⟨?_, firstHit_of_le (by omega)⟩
      refine Set.eq_empty_iff_forall_notMem.mpr ?_
      rintro i ⟨h1, h2, _⟩
      omega
  | succ n ih =>
      rw [firstHit_of_lt (by omega)]
      cases hlo : hit lo with
      | true =>
          rw [if_pos rfl]
          exact .inl ⟨⟨le_rfl, by omega, hlo⟩, fun i hi => hi.1⟩
      | false =>
          -- `lo` is no hit, so the hits from `lo` on are those behind it
          have hsame : {i | lo ≤ i ∧ i < hi ∧ hit i = true}
              = {i | lo + 1 ≤ i ∧ i < hi ∧ hit i = true} := by
            ext i
            constructor
            · rintro ⟨h1, h2, h3⟩
              have hne : i ≠ lo := by
                rintro rfl
                rw [hlo] at h3
                exact absurd h3 (by decide)
              exact ⟨by omega, h2, h3⟩
            · rintro ⟨h1, h2, h3⟩
              exact ⟨by omega, h2, h3⟩
          rw [if_neg (by decide), hsame]
          exact ih (lo + 1) (by omega)

end Rucbase.Lib
