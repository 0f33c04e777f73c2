import Rucbase.Index.IxCompare
import Rucbase.System.SmManager

/-!
# Values and conditions

`execution/execution_manager.h`: what the executors pass around. A `Value` has its datum and, once
`init_raw` has run, the bytes a column stores it as. A float is kept as the `int` with the same
four bytes, and a string as its bytes.
-/

namespace Rucbase

open Lib

/-- `TabCol`. -/
structure TabCol where
  tabName : String
  colName : String
deriving DecidableEq, Repr

/-- `operator<`: by the table, then by the column. -/
instance : Ord TabCol where
  compare := compareLex (compareOn TabCol.tabName) (compareOn TabCol.colName)

instance : Std.TransOrd TabCol :=
  inferInstanceAs (Std.TransCmp (compareLex (compareOn TabCol.tabName) (compareOn TabCol.colName)))

instance : Std.LawfulEqOrd TabCol where
  eq_of_compare := by
    intro a b h
    obtain ⟨h1, h2⟩ := Ordering.then_eq_eq.mp h
    cases a
    cases b
    rw [TabCol.mk.injEq]
    exact ⟨Std.LawfulEqOrd.eq_of_compare h1, Std.LawfulEqOrd.eq_of_compare h2⟩

/-- The name a column has for the executors. -/
def ColMeta.tabCol (c : ColMeta) : TabCol := ⟨c.tabName, c.name⟩

/-- `RmRecord`: `data` are the bytes of memory from the record's buffer on, `size` of which are the
record's. -/
structure RmRecord where
  size : Int
  data : Nat → UInt8

/-- `rec->data + col.offset`. -/
def ColMeta.field (c : ColMeta) (rec : RmRecord) : Nat → UInt8 :=
  fun i => rec.data (c.offset.toNat + i)

/-- What a `Value` stands for. -/
inductive Datum where
  | int (v : Int32)
  | float (pattern : Int32)
  | str (s : List UInt8)
deriving DecidableEq, Repr

/-- `type`. -/
def Datum.type : Datum → ColType
  | .int _ => .typeInt
  | .float _ => .typeFloat
  | .str _ => .typeString

/-- `Value`. -/
structure Value where
  datum : Datum
  raw : Option RmRecord

/-- A conversion to `int`. -/
def toInt (n : Int) : Int := (Int32.ofInt n).toInt

namespace Value

/-- `set_int`, on a fresh value. -/
def setInt (v : Int32) : Value := ⟨.int v, none⟩

/-- `set_float`, on a fresh value. -/
def setFloat (pattern : Int32) : Value := ⟨.float pattern, none⟩

/-- `set_str`, on a fresh value. -/
def setStr (s : List UInt8) : Value := ⟨.str s, none⟩

/-- `init_raw`. `heap` is what memory holds from where the new buffer begins. -/
def initRaw (heap : Nat → UInt8) (v : Value) (len : Int) : Except RedBaseError Value :=
  if v.raw.isSome then .error .assertionFailure
  else if len < 0 then .error .badAlloc
  else
    match v.datum with
    | .int n =>
        if len = 4 then .ok { v with raw := some ⟨len, putInt32 heap 0 n.toInt⟩ }
        else .error .assertionFailure
    | .float n =>
        if len = 4 then .ok { v with raw := some ⟨len, putInt32 heap 0 n.toInt⟩ }
        else .error .assertionFailure
    | .str s =>
        if len < toInt s.length then .error .stringOverflowError
        else
          let zeroed := memcpy heap 0 (fun _ => 0) len.toNat
          .ok { v with raw := some ⟨len, memcpy zeroed 0 (padded s) s.length⟩ }

end Value

/-- `CompOp`. -/
inductive CompOp where
  | eq
  | ne
  | lt
  | gt
  | le
  | ge
deriving DecidableEq, Repr

/-- Whether the operator accepts the result of a comparison. -/
def CompOp.test : CompOp → Ordering → Bool
  | .eq, o => o.isEq
  | .ne, o => o.isNe
  | .lt, o => o.isLT
  | .gt, o => o.isGT
  | .le, o => o.isLE
  | .ge, o => o.isGE

/-- The right-hand side of a condition: `rhs_val` or `rhs_col`, as `is_rhs_val` says. -/
inductive Operand where
  | val (v : Value)
  | col (c : TabCol)

/-- `Condition`. -/
structure Condition where
  lhsCol : TabCol
  op : CompOp
  rhs : Operand

/-- `coltype2str`. -/
def coltype2str : ColType → String
  | .typeInt => "INT"
  | .typeFloat => "FLOAT"
  | .typeString => "STRING"

/-- The loop of `check_where_clause`, on a condition whose columns have their tables. `getCol` finds
the column in its table, and `heap` is where a constant gets its buffer. -/
def checkCond (getCol : TabCol → Except RedBaseError ColMeta) (heap : Nat → UInt8)
    (cond : Condition) : Except RedBaseError Condition := do
  let lhsCol ← getCol cond.lhsCol
  match cond.rhs with
  | .val v =>
      let v ← v.initRaw heap lhsCol.len
      if lhsCol.type = v.datum.type then return { cond with rhs := .val v }
      else throw (.incompatibleTypeError (coltype2str lhsCol.type) (coltype2str v.datum.type))
  | .col c =>
      let rhsCol ← getCol c
      if lhsCol.type = rhsCol.type then return cond
      else throw (.incompatibleTypeError (coltype2str lhsCol.type) (coltype2str rhsCol.type))

end Rucbase
