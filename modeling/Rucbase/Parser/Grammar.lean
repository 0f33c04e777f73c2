import Rucbase.Lib.ShiftReduce
import Rucbase.Parser.Ast
import Rucbase.Parser.Lex

/-!
# The grammar

`parser/yacc.y`, rule by rule. The rules have the numbers that the generated parser calls them by:
1 is the rule that was added for the start symbol and the end of the input, 2 is the first of the
file. An action works on the values of the symbols, each in the one field its symbol is declared
with.
-/

namespace Rucbase

open Lib Ast

/-- The tokens of the grammar, without the texts and numbers they come with. -/
inductive Terminal where
  | keyword (k : Keyword)
  | leq
  | neq
  | geq
  | tEof
  | identifier
  | valueString
  | valueInt
  | valueFloat
  | semicolon
  | lparen
  | rparen
  | comma
  | dot
  | equals
  | less
  | greater
  | star
  /-- A character that is no token of the grammar. -/
  | undefined
deriving DecidableEq, Repr

inductive Nonterminal where
  | start
  | stmt
  | txnStmt
  | dbStmt
  | ddl
  | dml
  | fieldList
  | field
  | type
  | valueList
  | value
  | condition
  | optWhereClause
  | whereClause
  | col
  | colList
  | op
  | expr
  | setClauses
  | setClause
  | selector
  | tableList
  | tbName
  | colName
deriving DecidableEq, Repr

/-- The kind of a token. -/
def Token.terminal : Token → Terminal
  | .keyword k => .keyword k
  | .geq => .geq
  | .leq => .leq
  | .neq => .neq
  | .op ';' => .semicolon
  | .op '(' => .lparen
  | .op ')' => .rparen
  | .op ',' => .comma
  | .op '.' => .dot
  | .op '=' => .equals
  | .op '<' => .less
  | .op '>' => .greater
  | .op '*' => .star
  | .op _ => .undefined
  | .identifier _ => .identifier
  | .valueInt _ => .valueInt
  | .valueFloat _ => .valueFloat
  | .valueString _ => .valueString
  | .tEof => .tEof

/-- What the lexer computes from the text of a number: `atoi(yytext)`, and `atof(yytext)` as a
`float`, which is kept as the `int` with the same four bytes. -/
structure Numerals where
  atoi : List Char → Int32
  atof : List Char → Int32

namespace Grammar

/-- The value of a symbol, by the field of `SemValue` it is declared with. -/
inductive Val where
  | none
  | str (s : String)
  | int (i : Int32)
  | float (p : Int32)
  | strs (ss : List String)
  | node (n : TreeNode)
  | compOp (op : SvCompOp)
  | typeLen (t : TypeLen)
  | field (f : Ast.ColDef)
  | fields (fs : List Ast.ColDef)
  | expr (e : Expr)
  | val (v : Ast.Value)
  | vals (vs : List Ast.Value)
  | col (c : Col)
  | cols (cs : List Col)
  | setClause (s : Ast.SetClause)
  | setClauses (ss : List Ast.SetClause)
  | cond (c : BinaryExpr)
  | conds (cs : List BinaryExpr)
  /-- What the actions of `start` assign to `parse_tree`. -/
  | tree (t : Option TreeNode)
deriving DecidableEq, Repr

/-- The value of a token. -/
def tokenVal (N : Numerals) : Token → Val
  | .identifier text => .str (String.ofList text)
  | .valueString text => .str (String.ofList text)
  | .valueInt text => .int (N.atoi text)
  | .valueFloat text => .float (N.atof text)
  | _ => .none

/-- A rule: `lhs: rhs { act }`. -/
structure Rule where
  lhs : Nonterminal
  rhs : List (GrammarSymbol Terminal Nonterminal)
  act : List Val → Val

/-- A keyword. -/
abbrev kw (k : Keyword) : GrammarSymbol Terminal Nonterminal := .terminal (.keyword k)

/-- Another token. -/
abbrev tk (t : Terminal) : GrammarSymbol Terminal Nonterminal := .terminal t

abbrev nt (n : Nonterminal) : GrammarSymbol Terminal Nonterminal := .nonterminal n

/-- No action: `$$ = $1`. -/
def first : List Val → Val
  | v :: _ => v
  | [] => .none

/-- The rules of the file, in order. -/
def rules : List Rule :=
  [ ⟨.start, [nt .stmt, tk .semicolon], fun | [.node t, _] => .tree (some t) | _ => .none⟩,
    ⟨.start, [kw .HELP], fun _ => .tree (some .help)⟩,
    ⟨.start, [kw .EXIT], fun _ => .tree none⟩,
    ⟨.start, [tk .tEof], fun _ => .tree none⟩,
    ⟨.stmt, [nt .dbStmt], first⟩,
    ⟨.stmt, [nt .ddl], first⟩,
    ⟨.stmt, [nt .dml], first⟩,
    ⟨.stmt, [nt .txnStmt], first⟩,
    ⟨.txnStmt, [kw .TXN_BEGIN], fun _ => .node .txnBegin⟩,
    ⟨.txnStmt, [kw .TXN_COMMIT], fun _ => .node .txnCommit⟩,
    ⟨.txnStmt, [kw .TXN_ABORT], fun _ => .node .txnAbort⟩,
    ⟨.txnStmt, [kw .TXN_ROLLBACK], fun _ => .node .txnRollback⟩,
    ⟨.dbStmt, [kw .SHOW, kw .TABLES], fun _ => .node .showTables⟩,
    ⟨.ddl, [kw .CREATE, kw .TABLE, nt .tbName, tk .lparen, nt .fieldList, tk .rparen],
      fun | [_, _, .str t, _, .fields fs, _] => .node (.createTable t fs) | _ => .none⟩,
    ⟨.ddl, [kw .DROP, kw .TABLE, nt .tbName],
      fun | [_, _, .str t] => .node (.dropTable t) | _ => .none⟩,
    ⟨.ddl, [kw .DESC, nt .tbName], fun | [_, .str t] => .node (.descTable t) | _ => .none⟩,
    ⟨.ddl, [kw .CREATE, kw .INDEX, nt .tbName, tk .lparen, nt .colName, tk .rparen],
      fun | [_, _, .str t, _, .str c, _] => .node (.createIndex t c) | _ => .none⟩,
    ⟨.ddl, [kw .DROP, kw .INDEX, nt .tbName, tk .lparen, nt .colName, tk .rparen],
      fun | [_, _, .str t, _, .str c, _] => .node (.dropIndex t c) | _ => .none⟩,
    ⟨.dml, [kw .INSERT, kw .INTO, nt .tbName, kw .VALUES, tk .lparen, nt .valueList, tk .rparen],
      fun | [_, _, .str t, _, _, .vals vs, _] => .node (.insertStmt t vs) | _ => .none⟩,
    ⟨.dml, [kw .DELETE, kw .FROM, nt .tbName, nt .optWhereClause],
      fun | [_, _, .str t, .conds cs] => .node (.deleteStmt t cs) | _ => .none⟩,
    ⟨.dml, [kw .UPDATE, nt .tbName, kw .SET, nt .setClauses, nt .optWhereClause],
      fun | [_, .str t, _, .setClauses ss, .conds cs] => .node (.updateStmt t ss cs) | _ => .none⟩,
    ⟨.dml, [kw .SELECT, nt .selector, kw .FROM, nt .tableList, nt .optWhereClause],
      fun | [_, .cols cols, _, .strs ts, .conds cs] => .node (.selectStmt cols ts cs) | _ => .none⟩,
    ⟨.fieldList, [nt .field], fun | [.field f] => .fields [f] | _ => .none⟩,
    ⟨.fieldList, [nt .fieldList, tk .comma, nt .field],
      fun | [.fields fs, _, .field f] => .fields (fs ++ [f]) | _ => .none⟩,
    ⟨.field, [nt .colName, nt .type], fun | [.str c, .typeLen t] => .field ⟨c, t⟩ | _ => .none⟩,
    ⟨.type, [kw .INT], fun _ => .typeLen ⟨.svTypeInt, 4⟩⟩,
    ⟨.type, [kw .CHAR, tk .lparen, tk .valueInt, tk .rparen],
      fun | [_, _, .int n, _] => .typeLen ⟨.svTypeString, n.toInt⟩ | _ => .none⟩,
    ⟨.type, [kw .FLOAT], fun _ => .typeLen ⟨.svTypeFloat, 4⟩⟩,
    ⟨.valueList, [nt .value], fun | [.val v] => .vals [v] | _ => .none⟩,
    ⟨.valueList, [nt .valueList, tk .comma, nt .value],
      fun | [.vals vs, _, .val v] => .vals (vs ++ [v]) | _ => .none⟩,
    ⟨.value, [tk .valueInt], fun | [.int n] => .val (.intLit n) | _ => .none⟩,
    ⟨.value, [tk .valueFloat], fun | [.float p] => .val (.floatLit p) | _ => .none⟩,
    ⟨.value, [tk .valueString], fun | [.str s] => .val (.stringLit s) | _ => .none⟩,
    ⟨.condition, [nt .col, nt .op, nt .expr],
      fun | [.col c, .compOp o, .expr e] => .cond ⟨c, o, e⟩ | _ => .none⟩,
    ⟨.optWhereClause, [], fun _ => .conds []⟩,
    ⟨.optWhereClause, [kw .WHERE, nt .whereClause],
      fun | [_, .conds cs] => .conds cs | _ => .none⟩,
    ⟨.whereClause, [nt .condition], fun | [.cond c] => .conds [c] | _ => .none⟩,
    ⟨.whereClause, [nt .whereClause, kw .AND, nt .condition],
      fun | [.conds cs, _, .cond c] => .conds (cs ++ [c]) | _ => .none⟩,
    ⟨.col, [nt .tbName, tk .dot, nt .colName],
      fun | [.str t, _, .str c] => .col ⟨t, c⟩ | _ => .none⟩,
    ⟨.col, [nt .colName], fun | [.str c] => .col ⟨"", c⟩ | _ => .none⟩,
    ⟨.colList, [nt .col], fun | [.col c] => .cols [c] | _ => .none⟩,
    ⟨.colList, [nt .colList, tk .comma, nt .col],
      fun | [.cols cs, _, .col c] => .cols (cs ++ [c]) | _ => .none⟩,
    ⟨.op, [tk .equals], fun _ => .compOp .eq⟩,
    ⟨.op, [tk .less], fun _ => .compOp .lt⟩,
    ⟨.op, [tk .greater], fun _ => .compOp .gt⟩,
    ⟨.op, [tk .neq], fun _ => .compOp .ne⟩,
    ⟨.op, [tk .leq], fun _ => .compOp .le⟩,
    ⟨.op, [tk .geq], fun _ => .compOp .ge⟩,
    ⟨.expr, [nt .value], fun | [.val v] => .expr (.value v) | _ => .none⟩,
    ⟨.expr, [nt .col], fun | [.col c] => .expr (.col c) | _ => .none⟩,
    ⟨.setClauses, [nt .setClause], fun | [.setClause s] => .setClauses [s] | _ => .none⟩,
    ⟨.setClauses, [nt .setClauses, tk .comma, nt .setClause],
      fun | [.setClauses ss, _, .setClause s] => .setClauses (ss ++ [s]) | _ => .none⟩,
    ⟨.setClause, [nt .colName, tk .equals, nt .value],
      fun | [.str c, _, .val v] => .setClause ⟨c, v⟩ | _ => .none⟩,
    ⟨.selector, [tk .star], fun _ => .cols []⟩,
    ⟨.selector, [nt .colList], first⟩,
    ⟨.tableList, [nt .tbName], fun | [.str t] => .strs [t] | _ => .none⟩,
    ⟨.tableList, [nt .tableList, tk .comma, nt .tbName],
      fun | [.strs ts, _, .str t] => .strs (ts ++ [t]) | _ => .none⟩,
    ⟨.tableList, [nt .tableList, kw .JOIN, nt .tbName],
      fun | [.strs ts, _, .str t] => .strs (ts ++ [t]) | _ => .none⟩,
    ⟨.tbName, [tk .identifier], first⟩,
    ⟨.colName, [tk .identifier], first⟩ ]

/-- Rule `r`. -/
def rule (r : Nat) : Rule := rules.getD (r - 2) ⟨.start, [], first⟩

theorem rule_mem {r : Nat} (hr : r ∈ List.range' 2 60) : (rule r, r) ∈ rules.zipIdx 2 := by
  have hlength : rules.length = 60 := rfl
  rw [List.mem_range'_1] at hr
  have hlt : r - 2 < rules.length := by omega
  have hmem : (rules[r - 2], 2 + (r - 2)) ∈ rules.zipIdx 2 :=
    List.mem_iff_getElem.mpr ⟨r - 2, by simpa using hlt, by simp⟩
  rwa [Nat.add_sub_cancel' hr.1, List.getElem_eq_getD ⟨.start, [], first⟩] at hmem

/-- **The grammar.** -/
def grammar (N : Numerals) : Lib.Grammar Terminal Nonterminal Token Val where
  numbers := List.range' 2 60
  lhs r := (rule r).lhs
  rhs r := (rule r).rhs
  start := .start
  kind := Token.terminal
  value := tokenVal N
  act r := (rule r).act

end Grammar

end Rucbase
