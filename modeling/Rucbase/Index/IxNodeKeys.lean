import Rucbase.Index.IxNodeHandle
import Mathlib.Data.List.Lex

/-!
# The bytes of a node, and the nodes of the tree

`ix_compare` orders `int` keys as numbers and strings as lists of bytes. Either way a page is one of
the nodes that the tree is made of, and the operations on its bytes are those on `IxNode`.
-/

namespace Rucbase

open Lib

namespace IxNodeHandle

variable {κ : Type} [LinearOrder κ] {φ : (Nat → UInt8) → κ} {h : IxNodeHandle} {nd : IxNode κ}
  {key a b : Nat → UInt8} {v : Rid}

/-- `φ` sees keys in the order of `ix_compare`. -/
structure Orders (φ : (Nat → UInt8) → κ) (h : IxNodeHandle) : Prop where
  sees : Sees φ h.colLen
  lt_iff : ∀ a b, h.cmp a b = .lt ↔ φ a < φ b
  eq_iff : ∀ a b, h.cmp a b = .eq ↔ φ a = φ b

/-- `int` keys are ordered as numbers. -/
theorem orders_int (htype : h.colType = .typeInt) (hlen : 4 ≤ h.colLen) :
    Orders (fun b => int32At b 0) h := by
  have hcmp : ∀ a b, h.cmp a b = compare (int32At a 0) (int32At b 0) := by
    intro a b
    unfold cmp
    rw [htype]
    rfl
  refine ⟨fun a b hab => int32At_congr fun k hk => hab (0 + k) (by omega), fun a b => ?_,
    fun a b => ?_⟩
  · rw [hcmp]
    exact compare_lt_iff_lt
  · rw [hcmp]
    exact compare_eq_iff_eq

/-- The first bytes, as numbers. -/
def byteValues (b : Nat → UInt8) (n : Nat) : List Nat := (firstBytes b n).map UInt8.toNat

theorem memcmp_iff {n : Nat} : (memcmp n a b = .lt ↔ byteValues a n < byteValues b n)
    ∧ (memcmp n a b = .eq ↔ byteValues a n = byteValues b n) := by
  induction n generalizing a b with
  | zero => simp [memcmp, byteValues, firstBytes]
  | succ n ih =>
      obtain ⟨ihlt, iheq⟩ := ih (a := fun i => a (i + 1)) (b := fun i => b (i + 1))
      have hcons : ∀ c : Nat → UInt8, byteValues c (n + 1)
          = (c 0).toNat :: byteValues (fun i => c (i + 1)) n := by
        intro c
        rw [byteValues, firstBytes_succ, List.map_cons]
        rfl
      rw [hcons a, hcons b, List.cons_lt_cons_iff, List.cons.injEq, memcmp]
      rcases Nat.lt_trichotomy (a 0).toNat (b 0).toNat with hlt | heq | hgt
      · have hc : compare (a 0) (b 0) = .lt :=
          Std.compare_eq_lt.mpr (UInt8.lt_iff_toNat_lt.mpr hlt)
        simp [hc, hlt, Nat.ne_of_lt hlt]
      · have hc : compare (a 0) (b 0) = .eq := Std.compare_eq_iff_eq.mpr (UInt8.toNat_inj.mp heq)
        simp [hc, heq, ihlt, iheq]
      · have hc : compare (a 0) (b 0) = .gt :=
          Std.compare_eq_gt.mpr (UInt8.lt_iff_toNat_lt.mpr hgt)
        simp [hc, Nat.lt_asymm hgt, Nat.ne_of_gt hgt]

/-- Strings are ordered as lists of bytes. -/
theorem orders_string (htype : h.colType = .typeString) :
    Orders (fun b => byteValues b h.colLen) h := by
  have hcmp : ∀ a b, h.cmp a b = memcmp h.colLen a b := by
    intro a b
    unfold cmp
    rw [htype]
    rfl
  refine ⟨fun a b hab => congrArg _ (firstBytes_congr hab), fun a b => ?_, fun a b => ?_⟩
  · rw [hcmp]
    exact memcmp_iff.1
  · rw [hcmp]
    exact memcmp_iff.2

/-! ## The operations -/

namespace Represents

theorem lowerBound (hr : Represents φ h nd) (hs : h.Sound) (ho : Orders φ h) :
    h.lowerBound key = nd.lowerBound (φ key) := by
  have hm : h.numKey.toNat = nd.numKey := by rw [hr.numKey, Int.toNat_natCast]
  have hcap := hs.layout.2.2.2
  unfold IxNodeHandle.lowerBound IxNode.lowerBound lowerPos
  rw [hm]
  refine bisect_congr fun i hi => ?_
  rw [Bool.eq_iff_iff, beq_iff_eq, decide_eq_true_eq, ho.lt_iff, hr.keys i (by omega)]

theorem upperBound (hr : Represents φ h nd) (hs : h.Sound) (ho : Orders φ h) :
    h.upperBound key = nd.upperBound (φ key) := by
  have hm : h.numKey.toNat = nd.numKey := by rw [hr.numKey, Int.toNat_natCast]
  have hcap := hs.layout.2.2.2
  unfold IxNodeHandle.upperBound IxNode.upperBound upperPos
  rw [hm]
  refine bisect_congr fun i hi => ?_
  have hle : h.cmp (h.getKey i) key ≠ .gt ↔ φ (h.getKey i) ≤ φ key := by
    rw [le_iff_lt_or_eq, ← ho.lt_iff, ← ho.eq_iff]
    cases h.cmp (h.getKey i) key <;> simp
  rw [Bool.eq_iff_iff, bne_iff_ne, decide_eq_true_eq, hle, hr.keys i (by omega)]

/-- The test behind each search. -/
theorem hit_iff (hr : Represents φ h nd) (hs : h.Sound) (ho : Orders φ h) (key : Nat → UInt8) :
    ((h.lowerBound key : Int) < h.numKey ∧ h.cmp (h.getKey (h.lowerBound key)) key = .eq)
      ↔ nd.lowerBound (φ key) < nd.numKey ∧ nd.keys (nd.lowerBound (φ key)) = φ key := by
  have hcap := hs.layout.2.2.2
  rw [hr.lowerBound hs ho, hr.numKey, Int.ofNat_lt, ho.eq_iff]
  refine and_congr_right fun hlt => ?_
  have hnum := hr.numKey
  rw [hr.keys _ (by omega)]

theorem leafLookup (hr : Represents φ h nd) (hs : h.Sound) (ho : Orders φ h) :
    h.leafLookup key = nd.leafLookup (φ key) := by
  have hcap := hs.layout.2.2.2
  have hnum := hr.numKey
  have hhit := hr.hit_iff hs ho key
  unfold IxNodeHandle.leafLookup IxNode.leafLookup
  dsimp only
  by_cases hfound : nd.lowerBound (φ key) < nd.numKey ∧ nd.keys (nd.lowerBound (φ key)) = φ key
  · rw [if_pos (hhit.mpr hfound), if_pos hfound, hr.lowerBound hs ho, hr.rids _ (by omega)]
  · rw [if_neg fun h => hfound (hhit.mp h), if_neg hfound]

/-- **`Insert` on bytes is `Insert` on the node of the tree.** -/
theorem insert (hr : Represents φ h nd) (hs : h.Sound) (ho : Orders φ h)
    (hroom : h.numKey < h.getMaxSize) (hp : IsInt32 v.pageNo) (hsl : IsInt32 v.slotNo) :
    Represents φ (h.insert key v).1 (nd.insert (φ key) v) := by
  have hhit := hr.hit_iff hs ho key
  unfold IxNodeHandle.insert IxNode.insert
  dsimp only
  by_cases hfound : nd.lowerBound (φ key) < nd.numKey ∧ nd.keys (nd.lowerBound (φ key)) = φ key
  · rw [if_pos (hhit.mpr hfound), if_pos hfound]
    exact hr
  · rw [if_neg fun h => hfound (hhit.mp h), if_neg hfound, hr.lowerBound hs ho]
    have hpos : nd.lowerBound (φ key) ≤ nd.numKey :=
      (bisect_spec (Nat.le_refl _) (Nat.zero_le _)).2.1
    have hfit : h.numKey + (1 : Nat) ≤ h.getMaxSize := by omega
    -- the one key and the one `Rid` that are spliced in
    have hsame : nd.insertPairs (nd.lowerBound (φ key)) (fun i => φ fun j => key (i * h.colLen + j))
        (fun i => ridAt (ridBytes v) (i * 8)) 1
          = nd.insertPairs (nd.lowerBound (φ key)) (fun _ => φ key) (fun _ => v) 1 := by
      refine IxNode.insertPairs_congr (fun i hi => ?_) (fun i hi => ?_)
      · have hkey : (fun j => key (i * h.colLen + j)) = key :=
          funext fun j => congrArg key (by rw [Nat.lt_one_iff.mp hi]; omega)
        exact congrArg φ hkey
      · rw [Nat.lt_one_iff.mp hi]
        exact ridAt_ridBytes hp hsl
    rw [← hsame]
    exact hr.insertPairs hs ho.sees key (ridBytes v) hpos hfit

/-- **`Remove` on bytes is `Remove` on the node of the tree.** -/
theorem remove (hr : Represents φ h nd) (hs : h.Sound) (ho : Orders φ h) :
    Represents φ (h.remove key).1 (nd.remove (φ key)) := by
  have hhit := hr.hit_iff hs ho key
  unfold IxNodeHandle.remove IxNode.remove
  dsimp only
  by_cases hfound : nd.lowerBound (φ key) < nd.numKey ∧ nd.keys (nd.lowerBound (φ key)) = φ key
  · rw [if_pos (hhit.mpr hfound), if_pos hfound, hr.lowerBound hs ho]
    exact hr.erasePair hs ho.sees hfound.1
  · rw [if_neg fun h => hfound (hhit.mp h), if_neg hfound]
    exact hr

end Represents

end IxNodeHandle

end Rucbase
