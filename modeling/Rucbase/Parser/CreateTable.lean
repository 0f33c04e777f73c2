import Rucbase.Index.IxManager

/-!
# `CREATE TABLE`

The way of a `CREATE TABLE` statement from its text to `SmManager`: the token `VALUE_INT` of
`parser/lex.l`, the rules `field` and `type` of `parser/yacc.y`, and the branch of `interp.h` that
turns the fields of the syntax tree into `ColDef`s.
-/

namespace Rucbase

open Lib

inductive Sign where
  | plus
  | minus
deriving DecidableEq, Repr

/-- The text of a `VALUE_INT`: `{sign}?{digit}+`. -/
structure ValueInt where
  sign : Option Sign
  digits : List (Fin 10)
  nonempty : digits ≠ []

/-- The number it stands for. -/
def ValueInt.value (v : ValueInt) : Int :=
  let n : Nat := v.digits.foldl (fun n d => 10 * n + d) 0
  if v.sign = some .minus then -n else n

/-- What C++ leaves open: the `int` that `atoi` returns for a number that no `int` holds, and the
`int` that comes of an addition that overflows. -/
structure Unspecified where
  atoi : ValueInt → Int32
  add : Int → Int → Int32

namespace Unspecified

variable (u : Unspecified)

/-- `atoi`, on the text of a `VALUE_INT`. -/
def atoiOf (v : ValueInt) : Int := if IsInt32 v.value then v.value else (u.atoi v).toInt

/-- `a + b` on `int`. -/
def addInt (a b : Int) : Int := if IsInt32 (a + b) then a + b else (u.add a b).toInt

end Unspecified

/-! ## The syntax tree -/

/-- `SvType`. -/
inductive SvType where
  | svTypeInt
  | svTypeFloat
  | svTypeString
deriving DecidableEq, Repr

/-- `TypeLen`. -/
structure TypeLen where
  type : SvType
  len : Int
deriving DecidableEq, Repr

/-- The rule `type`. -/
inductive FieldType where
  | int
  | char (n : ValueInt)
  | float

/-- The action of the rule. -/
def FieldType.typeLen (u : Unspecified) : FieldType → TypeLen
  | .int => ⟨.svTypeInt, 4⟩
  | .char n => ⟨.svTypeString, u.atoiOf n⟩
  | .float => ⟨.svTypeFloat, 4⟩

/-- The rule `field`. -/
structure Field where
  colName : String
  type : FieldType

/-- The rule `ddl`, the case of `CREATE TABLE`: a `fieldList` is not empty. -/
structure CreateTable where
  tabName : String
  fields : List Field
  nonempty : fields ≠ []

/-! ## The interpreter -/

/-- `interp_sv_type`. -/
def interpSvType : SvType → ColType
  | .svTypeInt => .typeInt
  | .svTypeFloat => .typeFloat
  | .svTypeString => .typeString

/-- `ColDef`. -/
structure ColDef where
  name : String
  type : ColType
  len : Int
deriving DecidableEq, Repr

/-- The column a field defines. -/
def Field.colDef (u : Unspecified) (f : Field) : ColDef where
  name := f.colName
  type := interpSvType (f.type.typeLen u).type
  len := (f.type.typeLen u).len

/-- The argument of `create_table`. -/
def CreateTable.colDefs (u : Unspecified) (stmt : CreateTable) : List ColDef :=
  stmt.fields.map (Field.colDef u)

end Rucbase
