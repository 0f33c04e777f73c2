import Rucbase.Execution.RowDecoding
import Rucbase.Parser.Ast

/-!
# The `WHERE` clause

From the conditions of the syntax tree to those that `select_from` gives to the scans:
`interp_where_clause` of `interp.h`, and `check_column`, `get_all_cols` and `check_where_clause` of
`execution/execution_manager.cpp`. A name without a table is that of a column of the `FROM` list. A
name with a table is that of a column of any table in the catalog, in the `FROM` list or not.
-/

namespace Rucbase

open Lib SmManager

/-- What the checks throw: an error that the layers below know, or `AmbiguousColumnError`. -/
inductive QlError where
  | redBase (e : RedBaseError)
  | ambiguousColumnError (colName : String)
deriving DecidableEq, Repr

/-- What a call throws is thrown on. -/
def QlError.lift {α : Type} : Except RedBaseError α → Except QlError α
  | .ok a => .ok a
  | .error e => .error (.redBase e)

/-! ## `interp.h` -/

namespace Interp

/-- `interp_sv_comp_op`. -/
def interpSvCompOp : Ast.SvCompOp → CompOp
  | .eq => .eq
  | .ne => .ne
  | .lt => .lt
  | .gt => .gt
  | .le => .le
  | .ge => .ge

/-- `interp_sv_value`. A string has one character for each byte of the request. -/
def interpSvValue : Ast.Value → Value
  | .intLit val => .setInt val
  | .floatLit pattern => .setFloat pattern
  | .stringLit val => .setStr (val.toList.map fun c => .ofNat c.toNat)

/-- The loop of `interp_where_clause`. -/
def interpCond (expr : Ast.BinaryExpr) : Condition where
  lhsCol := ⟨expr.lhs.tabName, expr.lhs.colName⟩
  op := interpSvCompOp expr.op
  rhs :=
    match expr.rhs with
    | .value v => .val (interpSvValue v)
    | .col c => .col ⟨c.tabName, c.colName⟩

/-- `interp_where_clause`. -/
def interpWhereClause (svConds : List Ast.BinaryExpr) : List Condition := svConds.map interpCond

end Interp

/-! ## `execution_manager.cpp` -/

/-- `TabMeta::is_col`, which is left to be written. -/
abbrev IsCol := TabMeta → String → Bool

namespace QlManager

/-- `get_all_cols`. -/
def getAllCols (db : DbMeta) : List String → Except QlError (List ColMeta)
  | [] => .ok []
  | selTabName :: tabNames => do
      let tab ← QlError.lift (db.getTable selTabName)
      let rest ← getAllCols db tabNames
      return tab.cols ++ rest

/-- The loop of `check_column`: the table of the one column of that name, empty if there is none. -/
def inferTable (colName : String) : String → List ColMeta → Except QlError String
  | tabName, [] => .ok tabName
  | tabName, col :: cols =>
      if col.name = colName then
        if tabName ≠ "" then .error (.ambiguousColumnError colName)
        else inferTable colName col.tabName cols
      else inferTable colName tabName cols

/-- `check_column`. -/
def checkColumn (isCol : IsCol) (db : DbMeta) (allCols : List ColMeta) (target : TabCol) :
    Except QlError TabCol :=
  if target.tabName = "" then
    match inferTable target.colName "" allCols with
    | .error e => .error e
    | .ok tabName =>
        if tabName = "" then .error (.redBase (.columnNotFoundError target.colName))
        else .ok { target with tabName := tabName }
  else
    match db.getTable target.tabName with
    | .ok tab =>
        if isCol tab target.colName then .ok target
        else .error (.redBase (.columnNotFoundError (target.tabName ++ "." ++ target.colName)))
    | .error _ => .error (.redBase (.columnNotFoundError (target.tabName ++ "." ++ target.colName)))

/-- `db_.get_table(target.tab_name).get_col(target.col_name)`. -/
def findCol (getCol : GetCol) (db : DbMeta) (target : TabCol) : Except RedBaseError ColMeta := do
  let tab ← db.getTable target.tabName
  let i ← getCol tab target.colName
  return tab.cols.get i

/-- The loop of `check_where_clause`. `heap` is where a constant gets its buffer. -/
def checkOne (isCol : IsCol) (getCol : GetCol) (db : DbMeta) (heap : Nat → UInt8)
    (allCols : List ColMeta) (cond : Condition) : Except QlError Condition := do
  let lhsCol ← checkColumn isCol db allCols cond.lhsCol
  match cond.rhs with
  | .val v => QlError.lift (checkCond (findCol getCol db) heap ⟨lhsCol, cond.op, .val v⟩)
  | .col c =>
      let rhsCol ← checkColumn isCol db allCols c
      QlError.lift (checkCond (findCol getCol db) heap ⟨lhsCol, cond.op, .col rhsCol⟩)

/-- `check_where_clause`. `heap i` is where the constant of condition `i` gets its buffer. -/
def checkWhereClause (isCol : IsCol) (getCol : GetCol) (db : DbMeta) (heap : Nat → Nat → UInt8)
    (tabNames : List String) (conds : List Condition) : Except QlError (List Condition) := do
  let allCols ← getAllCols db tabNames
  conds.zipIdx.mapM fun entry => checkOne isCol getCol db (heap entry.2) allCols entry.1

end QlManager

/-! ## What the names stand for -/

/-- What the comments of `is_col` and `get_col` promise. -/
structure ColumnLookup (isCol : IsCol) (getCol : GetCol) : Prop where
  isCol_iff : ∀ tab colName, isCol tab colName = true ↔ ∃ col ∈ tab.cols, col.name = colName
  found : ∀ tab colName i, getCol tab colName = .ok i → (tab.cols.get i).name = colName
  finds : ∀ tab colName, (∃ col ∈ tab.cols, col.name = colName) → ∃ i, getCol tab colName = .ok i

/-- A catalog of tables that have columns, each column under the name of its table, with a name that
no other column of the table has, and of a length its values can have. -/
structure DbMeta.Sound (db : DbMeta) : Prop where
  named : ∀ (t : String) (tab : TabMeta), db.tabs[t]? = some tab → t ≠ ""
  owned : ∀ (t : String) (tab : TabMeta), db.tabs[t]? = some tab →
    ∀ col ∈ tab.cols, col.tabName = t
  names : ∀ (t : String) (tab : TabMeta), db.tabs[t]? = some tab →
    (tab.cols.map ColMeta.name).Nodup
  columns : ∀ (t : String) (tab : TabMeta), db.tabs[t]? = some tab → tab.cols ≠ []
  sized : ∀ (t : String) (tab : TabMeta), db.tabs[t]? = some tab → ∀ col ∈ tab.cols, col.Sized

/-- A column of the catalog. -/
def DbMeta.HasCol (db : DbMeta) (col : ColMeta) : Prop :=
  ∃ tab, db.tabs[col.tabName]? = some tab ∧ col ∈ tab.cols

/-- The columns of some tables. -/
def DbMeta.colsOf (db : DbMeta) (tabNames : List String) : List ColMeta :=
  tabNames.flatMap fun t => (db.tabs[t]?.map TabMeta.cols).getD []

/-- The column that a name in a clause stands for. -/
inductive Resolves (db : DbMeta) (tabNames : List String) : TabCol → ColMeta → Prop
  | qualified {target : TabCol} {col : ColMeta} : target.tabName ≠ "" → db.HasCol col →
      col.tabCol = target → Resolves db tabNames target col
  /-- It is the only one of that name. -/
  | inferred {colName : String} {col : ColMeta} :
      ((db.colsOf tabNames).filter fun c => c.name = colName) = [col] →
      Resolves db tabNames ⟨"", colName⟩ col

/-- The constant has the type of the column and is not too long for it. -/
def Datum.Suits (d : Datum) (col : ColMeta) : Prop :=
  d.type = col.type ∧
    match d with
    | .str s => toInt s.length ≤ col.len
    | _ => True

/-- The names stand for columns, and the two sides have one type. -/
inductive WellTyped (db : DbMeta) (tabNames : List String) : Condition → Prop
  | val {a : TabCol} {l : ColMeta} {op : CompOp} {v : Value} : Resolves db tabNames a l →
      v.datum.Suits l → WellTyped db tabNames ⟨a, op, .val v⟩
  | col {a b : TabCol} {l r : ColMeta} {op : CompOp} : Resolves db tabNames a l →
      Resolves db tabNames b r → l.type = r.type → WellTyped db tabNames ⟨a, op, .col b⟩

/-- A number is compared with a column that is not as long as a number. -/
def NumberMeetsLength (db : DbMeta) (tabNames : List String) (cond : Condition) : Prop :=
  ∃ l v, Resolves db tabNames cond.lhsCol l ∧ cond.rhs = .val v ∧ v.datum.type ≠ .typeString
    ∧ l.len ≠ 4

end Rucbase
