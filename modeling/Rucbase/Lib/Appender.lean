import Mathlib.Algebra.GroupWithZero.Nat
import Mathlib.Tactic.Common

/-!
# A buffer that is filled from the front

Strings are copied behind each other into memory, at an `int` offset that is advanced by their
lengths, and nobody asks how much memory there is. As long as every copy ends within a limit, the
offset is the sum of the lengths.
-/

namespace Rucbase.Lib

/-- The conversion to `int`. -/
def toInt32Wrap (v : Int) : Int := (v + 2147483648) % 4294967296 - 2147483648

/-- The memory from the start of the buffer on, the offset, and where the copies so far have ended. -/
structure Appender where
  data : Int → UInt8
  offset : Int
  ends : List Int

namespace Appender

/-- `memcpy(data + offset, str, length)` and `offset += length`. -/
def append (b : Appender) (str : List UInt8) : Appender where
  data := fun i => if b.offset ≤ i ∧ i < b.offset + str.length then str.getD (i - b.offset).toNat 0
    else b.data i
  offset := toInt32Wrap (b.offset + str.length)
  ends := b.ends ++ [b.offset + str.length]

def appendAll (b : Appender) (strs : List (List UInt8)) : Appender := strs.foldl append b

/-- Every copy has ended at `limit` at the latest. -/
def Inside (limit : Int) (b : Appender) : Prop := ∀ e ∈ b.ends, e ≤ limit

variable {b : Appender} {str : List UInt8} {strs strs' : List (List UInt8)} {limit : Int}

@[simp] theorem appendAll_nil : b.appendAll [] = b := rfl

@[simp] theorem appendAll_append : b.appendAll (strs ++ strs') = (b.appendAll strs).appendAll strs' :=
  List.foldl_append

/-- How long a list of strings is. -/
def total (strs : List (List UInt8)) : Nat := (strs.map List.length).sum

@[simp] theorem total_nil : total [] = 0 := rfl

@[simp] theorem total_cons : total (str :: strs) = str.length + total strs := List.sum_cons

@[simp] theorem total_append : total (strs ++ strs') = total strs + total strs' := by
  simp [total]

theorem offset_append (h0 : 0 ≤ b.offset) (hfit : b.offset + str.length < 2147483648) :
    (b.append str).offset = b.offset + str.length := by
  show toInt32Wrap _ = _
  unfold toInt32Wrap
  rw [Int.emod_eq_of_lt (by omega) (by omega)]
  omega

theorem inside_append : (b.append str).Inside limit ↔ b.Inside limit ∧ b.offset + str.length ≤ limit := by
  simp [Inside, append, or_imp, forall_and]

/-- What has ended too far stays there. -/
theorem inside_of_appendAll (h : (b.appendAll strs).Inside limit) : b.Inside limit := by
  induction strs generalizing b with
  | nil => exact h
  | cons str strs ih => exact (inside_append.mp (ih h)).1

/-- **The copies end in time if and only if there is room for all of them.** -/
theorem inside_appendAll (h0 : 0 ≤ b.offset) (hoffset : b.offset ≤ limit) (hlimit : limit < 2147483648) :
    (b.appendAll strs).Inside limit ↔ b.Inside limit ∧ b.offset + total strs ≤ limit := by
  induction strs generalizing b with
  | nil => simp [hoffset]
  | cons str strs ih =>
      show ((b.append str).appendAll strs).Inside limit ↔ _
      rw [total_cons]
      by_cases hfit : b.offset + str.length ≤ limit
      · have hnext : (b.append str).offset = b.offset + str.length := offset_append h0 (by omega)
        rw [ih (by omega) (by omega), inside_append, hnext]
        constructor
        · rintro ⟨⟨hb, _⟩, hrest⟩
          exact ⟨hb, by omega⟩
        · rintro ⟨hb, hrest⟩
          exact ⟨⟨hb, hfit⟩, by omega⟩
      · constructor
        · intro h
          exact absurd (inside_append.mp (inside_of_appendAll h)).2 hfit
        · rintro ⟨_, hrest⟩
          omega

end Appender

end Rucbase.Lib
