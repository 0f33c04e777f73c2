import Rucbase.Parser.CreateTable

/-!
# The syntax tree

`parser/ast.h`: what the parser makes of a statement, and the record of values its actions write
into. A pointer is what it points to; one that was never set points to a default node.
-/

namespace Rucbase

namespace Ast

/-- `SvCompOp`. -/
inductive SvCompOp where
  | eq
  | ne
  | lt
  | gt
  | le
  | ge
deriving DecidableEq, Repr, Inhabited

/-- `ColDef`, the only kind of `Field`. -/
structure ColDef where
  colName : String
  typeLen : TypeLen
deriving DecidableEq, Repr

/-- `Value`. A float is kept as the `int` with the same four bytes. -/
inductive Value where
  | intLit (val : Int32)
  | floatLit (pattern : Int32)
  | stringLit (val : String)
deriving DecidableEq, Repr

/-- `Col`. The table is empty if the statement does not name it. -/
structure Col where
  tabName : String
  colName : String
deriving DecidableEq, Repr, Inhabited

/-- `Expr`. -/
inductive Expr where
  | value (v : Value)
  | col (c : Col)
deriving DecidableEq, Repr

/-- `SetClause`. -/
structure SetClause where
  colName : String
  val : Value
deriving DecidableEq, Repr

/-- `BinaryExpr`. -/
structure BinaryExpr where
  lhs : Col
  op : SvCompOp
  rhs : Expr
deriving DecidableEq, Repr

/-- The nodes a statement may be. -/
inductive TreeNode where
  | help
  | showTables
  | txnBegin
  | txnCommit
  | txnAbort
  | txnRollback
  | createTable (tabName : String) (fields : List ColDef)
  | dropTable (tabName : String)
  | descTable (tabName : String)
  | createIndex (tabName colName : String)
  | dropIndex (tabName colName : String)
  | insertStmt (tabName : String) (vals : List Value)
  | deleteStmt (tabName : String) (conds : List BinaryExpr)
  | updateStmt (tabName : String) (setClauses : List SetClause) (conds : List BinaryExpr)
  | selectStmt (cols : List Col) (tabs : List String) (conds : List BinaryExpr)
deriving DecidableEq, Repr, Inhabited

instance : Inhabited TypeLen := ⟨⟨.svTypeInt, 0⟩⟩

instance : Inhabited Value := ⟨.intLit 0⟩

instance : Inhabited Expr := ⟨.value default⟩

instance : Inhabited ColDef := ⟨⟨"", default⟩⟩

instance : Inhabited SetClause := ⟨⟨"", default⟩⟩

instance : Inhabited BinaryExpr := ⟨⟨default, default, default⟩⟩

/-- `SemValue`, the `YYSTYPE` of the parser. -/
structure SemValue where
  svInt : Int32
  svFloat : Int32
  svStr : String
  svStrs : List String
  svNode : TreeNode
  svCompOp : SvCompOp
  svTypeLen : TypeLen
  svField : ColDef
  svFields : List ColDef
  svExpr : Expr
  svVal : Value
  svVals : List Value
  svCol : Col
  svCols : List Col
  svSetClause : SetClause
  svSetClauses : List SetClause
  svCond : BinaryExpr
  svConds : List BinaryExpr
deriving DecidableEq, Repr, Inhabited

end Ast

end Rucbase
