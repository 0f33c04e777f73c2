import Rucbase.Parser.Grammar

/-!
# The generated parser

`parser/yacc.tab.cpp`: the tables, and `yyparse` with its stacks. The slots of the value stack are
numbered from its bottom, and a slot keeps what was written to it when the stack shrinks below it:
an empty rule takes its value from the slot above the top. The stacks have room for 200 symbols and
do not grow: `YYSTYPE` is no trivial type, so the parser gives up there.
-/

namespace Rucbase

open Lib Ast

namespace Yyparse

/-! ## Tables -/

/-- `YYNTOKENS`. -/
def yyNTokens : Nat := 47

/-- `YYLAST`. -/
def yyLast : Int := 100

/-- `YYPACT_NINF`. -/
def yypactNinf : Int := -68

/-- `YYTERROR`. -/
def yyTError : Int := 1

/-- `YYFINAL`. -/
def yyFinal : Nat := 39

/-- `YYINITDEPTH`. -/
def yyInitDepth : Nat := 200

def yypact : List Int :=
  [40, 34, 7, 10, -20, 29, 37, -20, -2, -68, -68, -68, -68, -68, -68, -68, 42, 13, -68, -68,
    -68, -68, -68, -20, -20, -20, -20, -68, -68, -20, -20, 38, 11, -68, -68, 15, 49, 21, -68,
    -68, -68, 41, 43, -68, 44, 68, 67, 50, 51, -20, 50, 50, 50, 50, 47, 51, -68, -68, -4, -68,
    45, -68, -11, -68, -68, -16, -68, -1, 53, 54, 35, -68, 65, 46, 50, -68, 35, -20, -20, -68,
    -68, 50, -68, 56, -68, -68, -68, -68, -68, -68, -68, -6, -68, 51, -68, -68, -68, -68, -68,
    -68, 24, -68, -68, -68, -68, -68, 60, -68, 35, -68, -68, -68, -68, 57, -68, -68]

def yydefact : List Nat :=
  [0, 0, 0, 0, 0, 0, 0, 0, 0, 4, 3, 10, 11, 12, 13, 5, 0, 0, 9, 6, 7, 8, 14, 0, 0, 0, 0, 60, 17,
    0, 0, 0, 61, 55, 42, 56, 0, 0, 41, 1, 2, 0, 0, 16, 0, 0, 36, 0, 0, 0, 0, 0, 0, 0, 0, 0, 21,
    61, 36, 52, 0, 43, 36, 57, 40, 0, 24, 0, 0, 0, 0, 38, 37, 0, 0, 22, 0, 0, 0, 23, 15, 0, 27,
    0, 29, 26, 18, 19, 34, 32, 33, 0, 30, 0, 48, 47, 49, 44, 45, 46, 0, 53, 54, 59, 58, 25, 0,
    20, 0, 39, 50, 51, 35, 0, 31, 28]

def yypgoto : List Int :=
  [-68, -68, -68, -68, -68, -68, -68, -68, 17, -68, -68, -67, 6, -47, -68, -8, -68, -68, -68,
    -68, 26, -68, -68, -3, -45]

def yydefgoto : List Int :=
  [-1, 16, 17, 18, 19, 20, 21, 65, 66, 85, 91, 92, 71, 56, 72, 73, 35, 100, 112, 58, 59, 36, 62,
    37, 38]

def yytable : List Int :=
  [34, 28, 60, 55, 31, 64, 67, 68, 69, 102, 55, 75, 77, 23, 27, 79, 25, 82, 83, 84, 41, 42, 43,
    44, 80, 81, 45, 46, 24, 60, 78, 26, 32, 110, 107, 108, 67, 74, 22, 29, 61, 114, 39, 1, 33,
    2, 63, 3, 4, 5, 30, 40, 6, -60, 47, 7, 48, 8, 32, 88, 89, 90, 49, 50, 9, 10, 11, 12, 13, 14,
    88, 89, 90, 15, 103, 104, 94, 95, 96, 54, 51, 55, 52, 53, 57, 32, 70, 93, 76, 97, 98, 99,
    111, 86, 87, 106, 113, 115, 105, 109, 101]

def yycheck : List Int :=
  [8, 4, 47, 14, 7, 50, 51, 52, 53, 76, 14, 58, 23, 6, 34, 62, 6, 18, 19, 20, 23, 24, 25, 26,
    40, 41, 29, 30, 21, 74, 41, 21, 34, 100, 40, 41, 81, 41, 4, 10, 48, 108, 0, 3, 46, 5, 49, 7,
    8, 9, 13, 38, 12, 42, 16, 15, 41, 17, 34, 35, 36, 37, 13, 42, 24, 25, 26, 27, 28, 29, 35,
    36, 37, 33, 77, 78, 30, 31, 32, 11, 39, 14, 39, 39, 34, 34, 39, 22, 43, 43, 44, 45, 100, 40,
    40, 39, 36, 40, 81, 93, 74]

def yyr1 : List Nat :=
  [0, 47, 48, 48, 48, 48, 49, 49, 49, 49, 50, 50, 50, 50, 51, 52, 52, 52, 52, 52, 53, 53, 53,
    53, 54, 54, 55, 56, 56, 56, 57, 57, 58, 58, 58, 59, 60, 60, 61, 61, 62, 62, 63, 63, 64, 64,
    64, 64, 64, 64, 65, 65, 66, 66, 67, 68, 68, 69, 69, 69, 70, 71]

def yyr2 : List Nat :=
  [0, 2, 2, 1, 1, 1, 1, 1, 1, 1, 1, 1, 1, 1, 2, 6, 3, 2, 6, 6, 7, 4, 5, 5, 1, 3, 2, 1, 4, 1, 1,
    3, 1, 1, 1, 3, 0, 2, 1, 3, 3, 1, 1, 3, 1, 1, 1, 1, 1, 1, 1, 1, 1, 3, 3, 1, 1, 1, 3, 3, 1, 1]

/-! ## Symbols -/

/-- The internal number of a keyword's token. -/
def keywordNumber : Keyword → Nat
  | .SHOW => 3
  | .TABLES => 4
  | .CREATE => 5
  | .TABLE => 6
  | .DROP => 7
  | .DESC => 8
  | .INSERT => 9
  | .INTO => 10
  | .VALUES => 11
  | .DELETE => 12
  | .FROM => 13
  | .WHERE => 14
  | .UPDATE => 15
  | .SET => 16
  | .SELECT => 17
  | .INT => 18
  | .CHAR => 19
  | .FLOAT => 20
  | .INDEX => 21
  | .AND => 22
  | .JOIN => 23
  | .EXIT => 24
  | .HELP => 25
  | .TXN_BEGIN => 26
  | .TXN_COMMIT => 27
  | .TXN_ABORT => 28
  | .TXN_ROLLBACK => 29

/-- `YYTRANSLATE`: the internal number of a token. -/
def yytranslate : Terminal → Nat
  | .keyword k => keywordNumber k
  | .leq => 30
  | .neq => 31
  | .geq => 32
  | .tEof => 33
  | .identifier => 34
  | .valueString => 35
  | .valueInt => 36
  | .valueFloat => 37
  | .semicolon => 38
  | .lparen => 39
  | .rparen => 40
  | .comma => 41
  | .dot => 42
  | .equals => 43
  | .less => 44
  | .greater => 45
  | .star => 46
  | .undefined => 2

/-! ## `yyparse` -/

/-- What `yylex` does to `yylval`: it writes the field of the token, if the token has one. -/
def yylex (N : Numerals) (yylval : SemValue) : Token → SemValue
  | .identifier text => { yylval with svStr := String.ofList text }
  | .valueString text => { yylval with svStr := String.ofList text }
  | .valueInt text => { yylval with svInt := N.atoi text }
  | .valueFloat text => { yylval with svFloat := N.atof text }
  | _ => yylval

/-- The actions that compute `$$`, by the number of the rule. `yyval` is the default, and `v n` is
`$n`. -/
def action (yyn : Nat) (yyval : SemValue) (v : Nat → SemValue) : SemValue :=
  match yyn with
  | 10 => { yyval with svNode := .txnBegin }
  | 11 => { yyval with svNode := .txnCommit }
  | 12 => { yyval with svNode := .txnAbort }
  | 13 => { yyval with svNode := .txnRollback }
  | 14 => { yyval with svNode := .showTables }
  | 15 => { yyval with svNode := .createTable (v 3).svStr (v 5).svFields }
  | 16 => { yyval with svNode := .dropTable (v 3).svStr }
  | 17 => { yyval with svNode := .descTable (v 2).svStr }
  | 18 => { yyval with svNode := .createIndex (v 3).svStr (v 5).svStr }
  | 19 => { yyval with svNode := .dropIndex (v 3).svStr (v 5).svStr }
  | 20 => { yyval with svNode := .insertStmt (v 3).svStr (v 6).svVals }
  | 21 => { yyval with svNode := .deleteStmt (v 3).svStr (v 4).svConds }
  | 22 => { yyval with svNode := .updateStmt (v 2).svStr (v 4).svSetClauses (v 5).svConds }
  | 23 => { yyval with svNode := .selectStmt (v 2).svCols (v 4).svStrs (v 5).svConds }
  | 24 => { yyval with svFields := [(v 1).svField] }
  | 25 => { yyval with svFields := yyval.svFields ++ [(v 3).svField] }
  | 26 => { yyval with svField := ⟨(v 1).svStr, (v 2).svTypeLen⟩ }
  | 27 => { yyval with svTypeLen := ⟨.svTypeInt, 4⟩ }
  | 28 => { yyval with svTypeLen := ⟨.svTypeString, (v 3).svInt.toInt⟩ }
  | 29 => { yyval with svTypeLen := ⟨.svTypeFloat, 4⟩ }
  | 30 => { yyval with svVals := [(v 1).svVal] }
  | 31 => { yyval with svVals := yyval.svVals ++ [(v 3).svVal] }
  | 32 => { yyval with svVal := .intLit (v 1).svInt }
  | 33 => { yyval with svVal := .floatLit (v 1).svFloat }
  | 34 => { yyval with svVal := .stringLit (v 1).svStr }
  | 35 => { yyval with svCond := ⟨(v 1).svCol, (v 2).svCompOp, (v 3).svExpr⟩ }
  | 37 => { yyval with svConds := (v 2).svConds }
  | 38 => { yyval with svConds := [(v 1).svCond] }
  | 39 => { yyval with svConds := yyval.svConds ++ [(v 3).svCond] }
  | 40 => { yyval with svCol := ⟨(v 1).svStr, (v 3).svStr⟩ }
  | 41 => { yyval with svCol := ⟨"", (v 1).svStr⟩ }
  | 42 => { yyval with svCols := [(v 1).svCol] }
  | 43 => { yyval with svCols := yyval.svCols ++ [(v 3).svCol] }
  | 44 => { yyval with svCompOp := .eq }
  | 45 => { yyval with svCompOp := .lt }
  | 46 => { yyval with svCompOp := .gt }
  | 47 => { yyval with svCompOp := .ne }
  | 48 => { yyval with svCompOp := .le }
  | 49 => { yyval with svCompOp := .ge }
  | 50 => { yyval with svExpr := .value (v 1).svVal }
  | 51 => { yyval with svExpr := .col (v 1).svCol }
  | 52 => { yyval with svSetClauses := [(v 1).svSetClause] }
  | 53 => { yyval with svSetClauses := yyval.svSetClauses ++ [(v 3).svSetClause] }
  | 54 => { yyval with svSetClause := ⟨(v 1).svStr, (v 3).svVal⟩ }
  | 55 => { yyval with svCols := [] }
  | 57 => { yyval with svStrs := [(v 1).svStr] }
  | 58 => { yyval with svStrs := yyval.svStrs ++ [(v 3).svStr] }
  | 59 => { yyval with svStrs := yyval.svStrs ++ [(v 3).svStr] }
  | _ => yyval

/-- The actions of `start`: what they assign to `parse_tree`, before they end the parse. -/
def parseTree (yyn : Nat) (v : Nat → SemValue) : Option (Option TreeNode) :=
  match yyn with
  | 2 => some (some (v 1).svNode)
  | 3 => some (some .help)
  | 4 => some none
  | 5 => some none
  | _ => none

/-- The variables of `yyparse`, and `parse_tree`. `yyss` has the state on top first; the slot of the
value stack that belongs to the state on top is the number of states below it. -/
structure Locals where
  yyss : List Nat
  yyvs : Nat → SemValue
  /-- The token that was read and not shifted; `none` is `YYEMPTY`. -/
  yychar : Option Token
  yylval : SemValue
  /-- The calls of `yylex` so far. -/
  calls : Nat
  parseTree : Option TreeNode

/-- `*yyssp`. -/
def Locals.yystate (s : Locals) : Nat := s.yyss.headD 0

/-- The slot that `yyvsp` points to. -/
def Locals.yyvsp (s : Locals) : Nat := s.yyss.length - 1

/-- What comes of a round. -/
inductive Round where
  | next (s : Locals)
  /-- `YYACCEPT`. -/
  | accept (s : Locals)
  /-- `YYABORT`. -/
  | abort
  /-- `yyexhaustedlab`. -/
  | exhausted

/-- `yynewstate`: state `q` is pushed, with a value. -/
def yynewstate (s : Locals) (q : Nat) (x : SemValue) : Round :=
  let s' := { s with yyss := q :: s.yyss, yyvs := Function.update s.yyvs (s.yyvsp + 1) x }
  if yyInitDepth - 1 ≤ s'.yyvsp then .exhausted
  else if q = yyFinal then .accept s'
  else .next s'

/-- The state to go to when symbol `yylhs` was reduced down to state `q`. -/
def gotoState (q yylhs : Nat) : Nat :=
  let yyi := yypgoto.getD (yylhs - yyNTokens) 0 + q
  if 0 ≤ yyi ∧ yyi ≤ yyLast ∧ yycheck.getD yyi.toNat 0 = q then (yytable.getD yyi.toNat 0).toNat
  else (yydefgoto.getD (yylhs - yyNTokens) 0).toNat

/-- `yyreduce`. -/
def yyreduce (s : Locals) (yyn : Nat) : Round :=
  let yylen := yyr2.getD yyn 0
  let v n := s.yyvs (s.yyvsp + n - yylen)
  match parseTree yyn v with
  | some tree => .accept { s with parseTree := tree }
  | none =>
      let below := { s with yyss := s.yyss.drop yylen }
      yynewstate below (gotoState below.yystate (yyr1.getD yyn 0)) (action yyn (v 1) v)

/-- The state shifts the token `error`. -/
def shiftsError (q : Nat) : Bool :=
  let yyn := yypact.getD q 0
  let yyi := yyn + yyTError
  yyn != yypactNinf && 0 ≤ yyi && yyi ≤ yyLast && yycheck.getD yyi.toNat 0 == yyTError
    && 0 < yytable.getD yyi.toNat 0

/-- `yyerrlab`: states are popped until one shifts `error`. -/
def yyerrlab (s : Locals) : Round :=
  match s.yyss.dropWhile fun q => !shiftsError q with
  | [] => .abort
  | q :: below =>
      yynewstate { s with yyss := q :: below }
        (yytable.getD (yypact.getD q 0 + yyTError).toNat 0).toNat s.yylval

/-- `yydefault`. -/
def yydefault (s : Locals) : Round :=
  match yydefact.getD s.yystate 0 with
  | 0 => yyerrlab s
  | yyn => yyreduce s yyn

/-- Read a token, if there is none that was not shifted yet. -/
def lookahead (N : Numerals) (input : Nat → Token) (s : Locals) : Locals :=
  match s.yychar with
  | some _ => s
  | none =>
      { s with
        yychar := some (input s.calls)
        yylval := yylex N s.yylval (input s.calls)
        calls := s.calls + 1 }

/-- `yybackup`. -/
def yybackup (N : Numerals) (input : Nat → Token) (s : Locals) : Round :=
  if yypact.getD s.yystate 0 = yypactNinf then yydefault s
  else
    let s := lookahead N input s
    let yytoken := yytranslate (s.yychar.getD .tEof).terminal
    let yyn := yypact.getD s.yystate 0 + yytoken
    if yyn < 0 ∨ yyLast < yyn ∨ yycheck.getD yyn.toNat 0 ≠ yytoken then yydefault s
    else
      let yyn := yytable.getD yyn.toNat 0
      if yyn ≤ 0 then yyreduce s (-yyn).toNat
      else yynewstate { s with yychar := none } yyn.toNat s.yylval

/-- How `yyparse` returns: 0, and what `parse_tree` is and how often `yylex` was called; 1, after a
syntax error; or 2. -/
inductive Result where
  | accepted (parseTree : Option TreeNode) (calls : Nat)
  | syntaxError
  | exhausted
deriving DecidableEq, Repr

/-- The rounds of `yyparse`. -/
def loop (N : Numerals) (input : Nat → Token) : Nat → Locals → Option Result
  | 0, _ => none
  | fuel + 1, s =>
      match yybackup N input s with
      | .next s => loop N input fuel s
      | .accept s => some (.accepted s.parseTree s.calls)
      | .abort => some .syntaxError
      | .exhausted => some .exhausted

/-- The variables at the start, and the `parse_tree` of the statement before. -/
def init (parseTree : Option TreeNode) : Locals :=
  ⟨[0], fun _ => default, none, default, 0, parseTree⟩

end Yyparse

/-- `yyparse`, when `yylex` returns `tokens`, and `T_EOF` from then on. -/
def yyparse (N : Numerals) (parseTree : Option TreeNode) (tokens : List Token) :
    Option Yyparse.Result :=
  Yyparse.loop N (fun i => tokens.getD i .tEof) (9 * (tokens.length + 1)) (Yyparse.init parseTree)

end Rucbase
