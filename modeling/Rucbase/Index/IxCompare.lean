import Rucbase.Index.IxManager
import Rucbase.Lib.Memcmp

/-!
# `ix_compare`

The comparison of `index/ix_node_handle.h`, on the bytes of two values. Callers only ask whether
the result is negative, zero or positive.
-/

namespace Rucbase

open Lib

/-- The bit pattern is that of no number: a full exponent and a fraction. -/
def floatIsNaN (v : Int) : Bool := 2139095040 < v % 2147483648

/-- An integer that orders the other bit patterns as the floats they are. -/
def floatKey (v : Int) : Int := if v < 0 then -(v % 2147483648) else v

/-- `(fa < fb) ? -1 : ((fa > fb) ? 1 : 0)`, on bit patterns. -/
def compareFloat (a b : Int) : Ordering :=
  if floatIsNaN a || floatIsNaN b then .eq else compare (floatKey a) (floatKey b)

/-- `ix_compare`. -/
def ixCompare (a b : Nat → UInt8) (type : ColType) (colLen : Int) : Ordering :=
  match type with
  | .typeInt => compare (int32At a 0) (int32At b 0)
  | .typeFloat => compareFloat (int32At a 0) (int32At b 0)
  | .typeString => memcmp colLen.toNat a b

end Rucbase
