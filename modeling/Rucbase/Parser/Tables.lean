import Rucbase.Parser.Yyparse

/-!
# The tables as a shift-reduce parser

What the tables of `yacc.tab.cpp` say, in the words of the library, and the two checks of them
against the grammar of `yacc.y`. The chart and the plan are what the generator knew when it made the
tables and did not write down: which states can lie on which, and what may follow a phrase in which
state. The checks are run by the kernel.
-/

namespace Rucbase

open Lib

/-! ## The table -/

/-- The internal number of a nonterminal. -/
def Nonterminal.number : Nonterminal → Nat
  | .start => 48
  | .stmt => 49
  | .txnStmt => 50
  | .dbStmt => 51
  | .ddl => 52
  | .dml => 53
  | .fieldList => 54
  | .field => 55
  | .type => 56
  | .valueList => 57
  | .value => 58
  | .condition => 59
  | .optWhereClause => 60
  | .whereClause => 61
  | .col => 62
  | .colList => 63
  | .op => 64
  | .expr => 65
  | .setClauses => 66
  | .setClause => 67
  | .selector => 68
  | .tableList => 69
  | .tbName => 70
  | .colName => 71

namespace Yyparse

/-- What the tables say of a state and a token: the default of the state, if it has no entry. -/
def tableAction (q : Nat) (k : Terminal) : Move :=
  let byDefault :=
    match yydefact.getD q 0 with
    | 0 => .error
    | r => .reduce r
  let yyn := yypact.getD q 0 + yytranslate k
  if yypact.getD q 0 = yypactNinf then byDefault
  else if yyn < 0 ∨ yyLast < yyn ∨ yycheck.getD yyn.toNat 0 ≠ yytranslate k then byDefault
  else if yytable.getD yyn.toNat 0 ≤ 0 then .reduce (-yytable.getD yyn.toNat 0).toNat
  else .shift (yytable.getD yyn.toNat 0).toNat

/-- **The tables of the generated parser.** -/
def table : Table Terminal Nonterminal where
  action := tableAction
  goto q n := gotoState q n.number

/-! ## The chart -/

/-- `yystos`: the number of the symbol that a state is entered with. -/
def yystos : List Nat :=
  [0, 3, 5, 7, 8, 9, 12, 15, 17, 24, 25, 26, 27, 28, 29, 33, 48, 49, 50, 51, 52, 53, 4, 6, 21, 6,
    21, 34, 70, 10, 13, 70, 34, 46, 62, 63, 68, 70, 71, 0, 38, 70, 70, 70, 70, 70, 70, 16, 41, 13,
    42, 39, 39, 39, 11, 14, 60, 34, 66, 67, 71, 62, 69, 70, 71, 54, 55, 71, 71, 71, 39, 59, 61,
    62, 41, 60, 43, 23, 41, 60, 40, 41, 18, 19, 20, 56, 40, 40, 35, 36, 37, 57, 58, 22, 30, 31,
    32, 43, 44, 45, 64, 67, 58, 70, 70, 55, 39, 40, 41, 59, 58, 62, 65, 36, 58, 40]

/-- The kinds of tokens, by their internal numbers from 3 on. -/
def terminals : List Terminal :=
  [Keyword.SHOW, .TABLES, .CREATE, .TABLE, .DROP, .DESC, .INSERT, .INTO, .VALUES, .DELETE, .FROM,
      .WHERE, .UPDATE, .SET, .SELECT, .INT, .CHAR, .FLOAT, .INDEX, .AND, .JOIN, .EXIT, .HELP,
      .TXN_BEGIN, .TXN_COMMIT, .TXN_ABORT, .TXN_ROLLBACK].map .keyword
    ++ [.leq, .neq, .geq, .tEof, .identifier, .valueString, .valueInt, .valueFloat, .semicolon,
      .lparen, .rparen, .comma, .dot, .equals, .less, .greater, .star, .undefined]

/-- The nonterminals, by their internal numbers from 48 on. -/
def nonterminals : List Nonterminal :=
  [.start, .stmt, .txnStmt, .dbStmt, .ddl, .dml, .fieldList, .field, .type, .valueList, .value,
    .condition, .optWhereClause, .whereClause, .col, .colList, .op, .expr, .setClauses, .setClause,
    .selector, .tableList, .tbName, .colName]

/-- The symbols by their internal numbers. -/
def symbols : List (GrammarSymbol Terminal Nonterminal) :=
  (List.replicate 3 Terminal.undefined ++ terminals).map .terminal ++ nonterminals.map .nonterminal

/-- The states that a state can lie on. -/
def below : List (List Nat) :=
  [[], [0], [0], [0], [0], [0], [0], [0], [0], [0], [0], [0], [0], [0], [0], [0], [], [0], [0],
    [0], [0], [0], [1], [2], [2], [3], [3], [4, 7, 23, 24, 25, 26, 29, 30, 49, 77, 78], [4], [5],
    [6], [7], [8, 48, 55, 93, 100], [8], [8], [8], [8], [8, 48, 55, 93, 100],
    [8, 48, 55, 93, 100], [], [17], [23], [24], [25], [26], [29], [30], [31], [35], [36], [37],
    [41], [42], [44], [45], [46, 58, 62], [46], [47, 50, 51, 52, 53, 74, 81], [47], [47],
    [47, 74], [48], [49], [49], [50], [51], [51], [51, 81], [52], [53], [54], [55], [55],
    [55, 93], [58], [58], [60], [62], [62], [62], [65], [65], [67], [67], [67], [67], [68], [69],
    [70, 76, 100, 108], [70, 76, 100, 108], [70, 76, 100, 108], [70], [70], [72], [73], [73],
    [73], [73], [73], [73], [73], [74], [76], [77], [78], [81], [83], [91], [91], [93], [100],
    [100], [100], [106], [108], [113]]

/-- The rules that a state may reduce. -/
def reductions : List (List Nat) :=
  [[], [], [], [], [], [], [], [], [], [4], [3], [10], [11], [12], [13], [5], [], [], [9], [6],
    [7], [8], [14], [], [], [], [], [60], [17], [], [], [], [60, 61], [55], [42], [56], [], [],
    [41], [], [2], [], [], [16], [], [], [36], [], [], [], [], [], [], [], [], [], [21], [61],
    [36], [52], [], [43], [36], [57], [40], [], [24], [], [], [], [], [38], [37], [], [], [22],
    [], [], [], [23], [15], [], [27], [], [29], [26], [18], [19], [34], [32], [33], [], [30], [],
    [48], [47], [49], [44], [45], [46], [], [53], [54], [59], [58], [25], [], [20], [], [39],
    [50], [51], [35], [], [31], [28]]

/-- How many states lie below a state at most. -/
def heights : List Nat :=
  [0, 1, 1, 1, 1, 1, 1, 1, 1, 1, 1, 1, 1, 1, 1, 1, 0, 1, 1, 1, 1, 1, 2, 2, 2, 2, 2, 6, 2, 2, 2, 2,
    10, 2, 2, 2, 2, 10, 10, 0, 2, 3, 3, 3, 3, 3, 3, 3, 3, 3, 11, 4, 4, 4, 4, 5, 4, 12, 4, 4, 6, 4,
    4, 4, 12, 5, 5, 7, 5, 5, 5, 6, 6, 8, 5, 5, 7, 5, 5, 5, 6, 6, 8, 8, 8, 8, 6, 6, 10, 10, 10, 6,
    6, 7, 9, 9, 9, 9, 9, 9, 9, 6, 8, 6, 6, 7, 9, 7, 7, 8, 10, 10, 10, 10, 8, 11]

/-- An order of the states, such that a reduction ends in a later one than it began in. -/
def ranks : List Nat :=
  [7, 8, 8, 8, 8, 8, 8, 8, 8, 8, 8, 6, 6, 6, 6, 8, 0, 8, 7, 7, 7, 7, 6, 8, 8, 8, 8, 3, 6, 8, 8, 8,
    0, 7, 6, 7, 8, 8, 1, 0, 8, 8, 8, 6, 8, 8, 5, 8, 8, 8, 8, 8, 8, 8, 8, 8, 6, 0, 5, 4, 8, 6, 5,
    4, 1, 8, 7, 8, 8, 8, 8, 4, 5, 8, 8, 6, 8, 8, 8, 6, 6, 8, 5, 8, 5, 6, 6, 6, 1, 1, 1, 8, 7, 8,
    7, 7, 7, 7, 7, 7, 8, 4, 3, 4, 4, 7, 8, 6, 8, 4, 2, 2, 3, 8, 7, 5]

/-- The chart. State 16 accepts a start symbol and a token for the end of the file, state 39 is the
one after it; nothing comes to either, since the actions of `start` end the parse. -/
def chart : Chart Terminal Nonterminal where
  states := (List.range' 1 115).filter fun q => q ≠ 16 ∧ q ≠ yyFinal
  symbol q := symbols.getD (yystos.getD q 0) (.terminal .undefined)
  below q := below.getD q []
  reductions q := reductions.getD q []
  height q := heights.getD q 0
  rank q := ranks.getD q 0
  maxHeight := 12
  maxRank := 8

/-! ## The plan -/

/-- What is expected in which state, and what may follow it. -/
def awaits : List (Await Terminal Nonterminal) :=
  [⟨0, .start, terminals⟩, ⟨0, .stmt, [.semicolon]⟩, ⟨0, .txnStmt, [.semicolon]⟩,
    ⟨0, .dbStmt, [.semicolon]⟩, ⟨0, .ddl, [.semicolon]⟩, ⟨0, .dml, [.semicolon]⟩,
    ⟨4, .tbName, [.semicolon]⟩, ⟨7, .tbName, [.keyword .SET]⟩,
    ⟨8, .col, [.keyword .FROM, .comma]⟩, ⟨8, .colList, [.keyword .FROM, .comma]⟩,
    ⟨8, .selector, [.keyword .FROM]⟩, ⟨8, .tbName, [.dot]⟩,
    ⟨8, .colName, [.keyword .FROM, .comma]⟩, ⟨23, .tbName, [.lparen]⟩, ⟨24, .tbName, [.lparen]⟩,
    ⟨25, .tbName, [.semicolon]⟩, ⟨26, .tbName, [.lparen]⟩, ⟨29, .tbName, [.keyword .VALUES]⟩,
    ⟨30, .tbName, [.keyword .WHERE, .semicolon]⟩, ⟨46, .optWhereClause, [.semicolon]⟩,
    ⟨47, .setClauses, [.keyword .WHERE, .semicolon, .comma]⟩,
    ⟨47, .setClause, [.keyword .WHERE, .semicolon, .comma]⟩, ⟨47, .colName, [.equals]⟩,
    ⟨48, .col, [.keyword .FROM, .comma]⟩, ⟨48, .tbName, [.dot]⟩,
    ⟨48, .colName, [.keyword .FROM, .comma]⟩,
    ⟨49, .tableList, [.keyword .WHERE, .keyword .JOIN, .semicolon, .comma]⟩,
    ⟨49, .tbName, [.keyword .WHERE, .keyword .JOIN, .semicolon, .comma]⟩, ⟨50, .colName,
        [.keyword .FROM, .keyword .AND, .leq, .neq, .geq, .semicolon, .comma, .equals, .less,
        .greater]⟩, ⟨51, .fieldList, [.rparen, .comma]⟩, ⟨51, .field, [.rparen, .comma]⟩,
    ⟨51, .colName, [.keyword .INT, .keyword .CHAR, .keyword .FLOAT]⟩, ⟨52, .colName, [.rparen]⟩,
    ⟨53, .colName, [.rparen]⟩, ⟨55, .condition, [.keyword .AND, .semicolon]⟩,
    ⟨55, .whereClause, [.keyword .AND, .semicolon]⟩,
    ⟨55, .col, [.leq, .neq, .geq, .equals, .less, .greater]⟩, ⟨55, .tbName, [.dot]⟩,
    ⟨55, .colName, [.leq, .neq, .geq, .equals, .less, .greater]⟩,
    ⟨58, .optWhereClause, [.semicolon]⟩, ⟨62, .optWhereClause, [.semicolon]⟩,
    ⟨67, .type, [.rparen, .comma]⟩, ⟨70, .valueList, [.rparen, .comma]⟩,
    ⟨70, .value, [.rparen, .comma]⟩,
    ⟨73, .op, [.identifier, .valueString, .valueInt, .valueFloat]⟩,
    ⟨74, .setClause, [.keyword .WHERE, .semicolon, .comma]⟩, ⟨74, .colName, [.equals]⟩,
    ⟨76, .value, [.keyword .WHERE, .semicolon, .comma]⟩,
    ⟨77, .tbName, [.keyword .WHERE, .keyword .JOIN, .semicolon, .comma]⟩,
    ⟨78, .tbName, [.keyword .WHERE, .keyword .JOIN, .semicolon, .comma]⟩,
    ⟨81, .field, [.rparen, .comma]⟩,
    ⟨81, .colName, [.keyword .INT, .keyword .CHAR, .keyword .FLOAT]⟩,
    ⟨93, .condition, [.keyword .AND, .semicolon]⟩,
    ⟨93, .col, [.leq, .neq, .geq, .equals, .less, .greater]⟩, ⟨93, .tbName, [.dot]⟩,
    ⟨93, .colName, [.leq, .neq, .geq, .equals, .less, .greater]⟩,
    ⟨100, .value, [.keyword .AND, .semicolon]⟩, ⟨100, .col, [.keyword .AND, .semicolon]⟩,
    ⟨100, .expr, [.keyword .AND, .semicolon]⟩, ⟨100, .tbName, [.dot]⟩,
    ⟨100, .colName, [.keyword .AND, .semicolon]⟩, ⟨108, .value, [.rparen, .comma]⟩]

/-- The tokens that a phrase may begin with. -/
def firstTokens : Nonterminal → List Terminal
  | .start =>
      [.keyword .SHOW, .keyword .CREATE, .keyword .DROP, .keyword .DESC, .keyword .INSERT,
        .keyword .DELETE, .keyword .UPDATE, .keyword .SELECT, .keyword .EXIT, .keyword .HELP,
        .keyword .TXN_BEGIN, .keyword .TXN_COMMIT, .keyword .TXN_ABORT, .keyword .TXN_ROLLBACK,
        .tEof]
  | .stmt =>
      [.keyword .SHOW, .keyword .CREATE, .keyword .DROP, .keyword .DESC, .keyword .INSERT,
        .keyword .DELETE, .keyword .UPDATE, .keyword .SELECT, .keyword .TXN_BEGIN,
        .keyword .TXN_COMMIT, .keyword .TXN_ABORT, .keyword .TXN_ROLLBACK]
  | .txnStmt =>
      [.keyword .TXN_BEGIN, .keyword .TXN_COMMIT, .keyword .TXN_ABORT, .keyword .TXN_ROLLBACK]
  | .dbStmt => [.keyword .SHOW]
  | .ddl => [.keyword .CREATE, .keyword .DROP, .keyword .DESC]
  | .dml => [.keyword .INSERT, .keyword .DELETE, .keyword .UPDATE, .keyword .SELECT]
  | .fieldList | .field | .condition | .whereClause | .col | .colList | .setClauses | .setClause
  | .tableList | .tbName | .colName => [.identifier]
  | .type => [.keyword .INT, .keyword .CHAR, .keyword .FLOAT]
  | .valueList | .value => [.valueString, .valueInt, .valueFloat]
  | .optWhereClause => [.keyword .WHERE]
  | .op => [.leq, .neq, .geq, .equals, .less, .greater]
  | .expr => [.identifier, .valueString, .valueInt, .valueFloat]
  | .selector => [.identifier, .star]

/-- The plan. The only phrase that may be empty is the clause with the conditions. -/
def plan : Plan Terminal Nonterminal where
  awaits := awaits
  first := firstTokens
  nullable n := n = .optWhereClause

/-! ## The checks -/

theorem mem_terminals (k : Terminal) : k ∈ terminals := by
  cases k with
  | keyword k => cases k <;> decide
  | _ => decide

/-- The checks do not depend on the values of the tokens. -/
abbrev anyNumerals : Numerals := ⟨fun _ => 0, fun _ => 0⟩

/-- What the kernel checks of the chart. -/
theorem chart_checks :
    (∀ q ∈ 0 :: chart.states, ∀ k ∈ terminals, chart.Allows q k (tableAction q k)) ∧
    (∀ q ∈ chart.states, chart.height q ≤ chart.maxHeight ∧
      (∀ p ∈ chart.below q, chart.height p < chart.height q) ∧
      (chart.symbol q = .terminal .tEof → ∀ p ∈ chart.below q, chart.rank p < chart.rank q)) ∧
    (∀ q < 116, chart.below q ≠ [] → q ∈ chart.states) ∧
    (∀ q ∈ 0 :: chart.states, ∀ r ∈ chart.reductions q, r ∈ List.range' 2 60 ∧
      chart.pops (chart.lands (Grammar.grammar anyNumerals) table q r)
        (Grammar.rule r).rhs.reverse q = true) ∧
    ∀ n ∈ ranks, n ≤ chart.maxRank := by
  decide +kernel

theorem getD_le {xs : List Nat} {m : Nat} (h : ∀ n ∈ xs, n ≤ m) (q : Nat) : xs.getD q 0 ≤ m := by
  rw [List.getD_eq_getElem?_getD]
  cases hx : xs[q]? with
  | none => exact Nat.zero_le _
  | some x => exact h x (List.mem_of_getElem? hx)

/-- **The tables do what the chart says.** -/
theorem chart_sound (N : Numerals) : chart.Sound (Grammar.grammar N) table .tEof := by
  obtain ⟨hallows, hstates, hlisted, hreduces, hranks⟩ := chart_checks
  refine ⟨rfl, fun q hq => ?_, fun q hq => ⟨(hstates q hq).1, (hstates q hq).2.1⟩, getD_le hranks,
    fun q hq _ => hallows q hq _ (mem_terminals _), fun q hq => (hstates q hq).2.2, hreduces⟩
  refine hlisted q (Nat.lt_of_not_le fun hle => hq ?_) hq
  exact (List.getD_eq_getElem?_getD ..).trans (by rw [List.getElem?_eq_none hle]; rfl)

/-- What the kernel checks of the plan, rule by rule. -/
theorem plan_checks : ∀ p ∈ Grammar.rules.zipIdx 2,
    (∀ a ∈ awaits, p.1.lhs = a.symbol →
      plan.walks (Grammar.grammar anyNumerals) table a.follow p.2 p.1.rhs a.state = true) ∧
    (∀ k ∈ plan.firsts [] p.1.rhs, k ∈ plan.first p.1.lhs) ∧
    (p.1.rhs.all plan.empties = true → plan.nullable p.1.lhs = true) := by
  decide +kernel

theorem walks_anyNumerals (N : Numerals) (after : List Terminal) (r : Nat) :
    ∀ (Xs : List (GrammarSymbol Terminal Nonterminal)) (q : Nat),
      plan.walks (Grammar.grammar N) table after r Xs q
        = plan.walks (Grammar.grammar anyNumerals) table after r Xs q
  | [], _ => rfl
  | .terminal k :: Xs, q => by
      simp only [Plan.walks]
      cases table.action q k with
      | shift q' => exact walks_anyNumerals N after r Xs q'
      | _ => rfl
  | .nonterminal n :: Xs, q => by
      simp only [Plan.walks, walks_anyNumerals N after r Xs]
      rfl

/-- **The tables keep to the plan.** -/
theorem plan_complete (N : Numerals) : plan.Complete (Grammar.grammar N) table where
  walks a ha _ hr hsymbol :=
    (walks_anyNumerals N ..).trans ((plan_checks _ (Grammar.rule_mem hr)).1 a ha hsymbol)
  firsts _ hr := (plan_checks _ (Grammar.rule_mem hr)).2.1
  nullable _ hr := (plan_checks _ (Grammar.rule_mem hr)).2.2
  start := ⟨⟨0, .start, terminals⟩, List.mem_cons_self, rfl, rfl, fun _ => mem_terminals _⟩

end Yyparse

end Rucbase
