import Mathlib.Data.List.Induction
import Rucbase.Parser.TokenText
import Rucbase.Parser.YyparseProof

/-!
# The trees of requests

Which syntax trees the lexer and the parser make of the texts of requests: exactly those that can be
written. Names are identifiers, strings have no quote and no zero in them, numbers are what `atoi` and `atof` make
of a text, and the lists that the grammar wants are not empty.
-/

namespace Rucbase

open Lib Ast Lexer Grammar

/-! ## What can be written -/

/-- The name of a table or a column. -/
def IsIdentifier (s : String) : Prop := IsName s.toList

namespace Ast

variable (N : Numerals)

def Value.Writable : Ast.Value → Prop
  | .intLit i => ∃ text, IsInt text ∧ N.atoi text = i
  | .floatLit p => ∃ text, IsFloat text ∧ N.atof text = p
  | .stringLit s => '\'' ∉ s.toList ∧ ∀ c ∈ s.toList, IsByte c

structure Col.Writable (c : Col) : Prop where
  tabName : c.tabName = "" ∨ IsIdentifier c.tabName
  colName : IsIdentifier c.colName

def Expr.Writable : Expr → Prop
  | .value v => v.Writable N
  | .col c => c.Writable

structure BinaryExpr.Writable (c : BinaryExpr) : Prop where
  lhs : c.lhs.Writable
  rhs : c.rhs.Writable N

structure SetClause.Writable (s : Ast.SetClause) : Prop where
  colName : IsIdentifier s.colName
  val : s.val.Writable N

/-- The length of a `CHAR` is what `atoi` makes of a text, and may be negative. -/
inductive WritableType : TypeLen → Prop
  | int : WritableType ⟨.svTypeInt, 4⟩
  | char {n : Int32} : (Ast.Value.intLit n).Writable N → WritableType ⟨.svTypeString, n.toInt⟩
  | float : WritableType ⟨.svTypeFloat, 4⟩

structure ColDef.Writable (f : Ast.ColDef) : Prop where
  colName : IsIdentifier f.colName
  typeLen : WritableType N f.typeLen

/-- **A tree that can be written.** -/
def TreeNode.Writable : TreeNode → Prop
  | .help | .showTables | .txnBegin | .txnCommit | .txnAbort | .txnRollback => True
  | .createTable t fields => IsIdentifier t ∧ fields ≠ [] ∧ ∀ f ∈ fields, f.Writable N
  | .dropTable t | .descTable t => IsIdentifier t
  | .createIndex t c | .dropIndex t c => IsIdentifier t ∧ IsIdentifier c
  | .insertStmt t vals => IsIdentifier t ∧ vals ≠ [] ∧ ∀ v ∈ vals, v.Writable N
  | .deleteStmt t conds => IsIdentifier t ∧ ∀ c ∈ conds, c.Writable N
  | .updateStmt t sets conds =>
      IsIdentifier t ∧ (sets ≠ [] ∧ ∀ s ∈ sets, s.Writable N) ∧ ∀ c ∈ conds, c.Writable N
  | .selectStmt cols tabs conds =>
      (∀ c ∈ cols, c.Writable) ∧ (tabs ≠ [] ∧ ∀ t ∈ tabs, IsIdentifier t) ∧ ∀ c ∈ conds, c.Writable N

end Ast

namespace Grammar

/-! ## Parsed trees can be written -/

variable {N : Numerals}

/-- The values of a symbol, when the tokens have the right form. -/
def Means (N : Numerals) : GrammarSymbol Terminal Nonterminal → Val → Prop
  | .terminal .identifier, v => ∃ s, v = .str s ∧ IsIdentifier s
  | .terminal .valueString, v => ∃ s, v = .str s ∧ (Ast.Value.stringLit s).Writable N
  | .terminal .valueInt, v => ∃ i, v = .int i ∧ (Ast.Value.intLit i).Writable N
  | .terminal .valueFloat, v => ∃ p, v = .float p ∧ (Ast.Value.floatLit p).Writable N
  | .terminal _, v => v = .none
  | .nonterminal .start, v => ∃ t, v = .tree t ∧ ∀ n ∈ t, n.Writable N
  | .nonterminal .stmt, v | .nonterminal .txnStmt, v | .nonterminal .dbStmt, v
  | .nonterminal .ddl, v | .nonterminal .dml, v => ∃ n, v = .node n ∧ n.Writable N
  | .nonterminal .fieldList, v => ∃ fs, v = .fields fs ∧ fs ≠ [] ∧ ∀ f ∈ fs, f.Writable N
  | .nonterminal .field, v => ∃ f, v = .field f ∧ f.Writable N
  | .nonterminal .type, v => ∃ t, v = .typeLen t ∧ WritableType N t
  | .nonterminal .valueList, v => ∃ vs, v = .vals vs ∧ vs ≠ [] ∧ ∀ w ∈ vs, w.Writable N
  | .nonterminal .value, v => ∃ w, v = .val w ∧ w.Writable N
  | .nonterminal .condition, v => ∃ c, v = .cond c ∧ c.Writable N
  | .nonterminal .optWhereClause, v => ∃ cs, v = .conds cs ∧ ∀ c ∈ cs, c.Writable N
  | .nonterminal .whereClause, v => ∃ cs, v = .conds cs ∧ cs ≠ [] ∧ ∀ c ∈ cs, c.Writable N
  | .nonterminal .col, v => ∃ c, v = .col c ∧ c.Writable
  | .nonterminal .colList, v => ∃ cs, v = .cols cs ∧ cs ≠ [] ∧ ∀ c ∈ cs, c.Writable
  | .nonterminal .selector, v => ∃ cs, v = .cols cs ∧ ∀ c ∈ cs, c.Writable
  | .nonterminal .op, v => ∃ o, v = .compOp o
  | .nonterminal .expr, v => ∃ e, v = .expr e ∧ e.Writable N
  | .nonterminal .setClauses, v => ∃ ss, v = .setClauses ss ∧ ss ≠ [] ∧ ∀ s ∈ ss, s.Writable N
  | .nonterminal .setClause, v => ∃ s, v = .setClause s ∧ s.Writable N
  | .nonterminal .tableList, v => ∃ ts, v = .strs ts ∧ ts ≠ [] ∧ ∀ t ∈ ts, IsIdentifier t
  | .nonterminal .tbName, v | .nonterminal .colName, v => ∃ s, v = .str s ∧ IsIdentifier s

theorem means_cons {X : GrammarSymbol Terminal Nonterminal}
    {Xs : List (GrammarSymbol Terminal Nonterminal)} {vs : List Val} :
    List.Forall₂ (Means N) (X :: Xs) vs ↔
      ∃ w ws, vs = w :: ws ∧ Means N X w ∧ List.Forall₂ (Means N) Xs ws := by
  rw [List.forall₂_cons_left_iff]
  exact exists_congr fun w => exists_congr fun ws => by rw [← and_assoc, and_comm]

/-- What the values of a rule mean, its action keeps. -/
theorem rules_mean : ∀ R ∈ rules, ∀ vs, List.Forall₂ (Means N) R.rhs vs →
    Means N (.nonterminal R.lhs) (R.act vs) := by
  simp only [rules, List.forall_mem_cons, List.not_mem_nil, IsEmpty.forall_iff, implies_true,
    and_true]
  and_intros
  all_goals
    intro vs hmeans
    simp [means_cons, Means] at hmeans
    grind [Means, first, TreeNode.Writable, Value.Writable, Expr.Writable, Col.Writable.mk,
      BinaryExpr.Writable.mk, SetClause.Writable.mk, ColDef.Writable.mk, WritableType,
      List.append_eq_nil_iff]

theorem tokenVal_means {t : Token} (ht : t.Plain ∨ t = .tEof) :
    Means N (.terminal t.terminal) (tokenVal N t) := by
  cases t with
  | identifier text =>
      have hname : IsName text := ht.resolve_right nofun
      exact ⟨_, rfl, by rwa [IsIdentifier, String.toList_ofList]⟩
  | valueString text =>
      have hstr : '\'' ∉ text ∧ ∀ c ∈ text, IsByte c := ht.resolve_right nofun
      exact ⟨_, rfl, by rwa [Value.Writable, String.toList_ofList]⟩
  | valueInt text => exact ⟨_, rfl, text, ht.resolve_right nofun, rfl⟩
  | valueFloat text => exact ⟨_, rfl, text, ht.resolve_right nofun, rfl⟩
  | op c => unfold Token.terminal; split <;> first | rfl | contradiction
  | _ => rfl

theorem means_of_derives {Xs : List (GrammarSymbol Terminal Nonterminal)} {ts : List Token}
    {vs : List Val} (h : (grammar N).Derives Xs ts vs) (hts : ∀ t ∈ ts, t.Plain ∨ t = .tEof) :
    List.Forall₂ (Means N) Xs vs := by
  induction h with
  | nil => exact .nil
  | token t _ ih =>
      obtain ⟨ht, hts⟩ := List.forall_mem_cons.mp hts
      exact .cons (tokenVal_means ht) (ih hts)
  | rule hr _ _ ih ih' =>
      obtain ⟨hts, hts'⟩ := List.forall_mem_append.mp hts
      exact .cons (rules_mean _ (List.fst_mem_of_mem_zipIdx (rule_mem hr)) _ (ih hts)) (ih' hts')

/-! ## What can be written is parsed -/

/-- A symbol stands for tokens that have texts. -/
def Written (N : Numerals) (X : GrammarSymbol Terminal Nonterminal) (v : Val) : Prop :=
  ∃ ts : List Token, (∀ t ∈ ts, t.Plain) ∧ (grammar N).Derives [X] ts [v]

theorem exists_tokens {Xs : List (GrammarSymbol Terminal Nonterminal)} {vs : List Val}
    (h : List.Forall₂ (Written N) Xs vs) :
    ∃ ts : List Token, (∀ t ∈ ts, t.Plain) ∧ (grammar N).Derives Xs ts vs := by
  induction h with
  | nil => exact ⟨[], by simp, .nil⟩
  | cons h _ ih =>
      obtain ⟨ts, hts, hderives⟩ := h
      obtain ⟨ts', hts', hderives'⟩ := ih
      exact ⟨ts ++ ts', List.forall_mem_append.mpr ⟨hts, hts'⟩, hderives.append hderives'⟩

/-- A rule. -/
theorem Written.rule (r : Nat) {vs : List Val} (hr : r ∈ List.range' 2 60)
    (h : List.Forall₂ (Written N) (Grammar.rule r).rhs vs) :
    Written N (.nonterminal (Grammar.rule r).lhs) ((Grammar.rule r).act vs) := by
  obtain ⟨ts, hts, hderives⟩ := exists_tokens h
  have := Lib.Grammar.Derives.rule (G := grammar N) hr hderives .nil
  rw [List.append_nil] at this
  exact ⟨ts, hts, this⟩

theorem written_token {t : Token} (ht : t.Plain) : Written N (.terminal t.terminal) (tokenVal N t) :=
  ⟨[t], List.forall_mem_singleton.mpr ht, .token t .nil⟩

theorem written_kw (k : Keyword) : Written N (kw k) .none := written_token (t := .keyword k) trivial

theorem written_op {c : Char} (hc : c ∈ singleOps) :
    Written N (.terminal (Token.op c).terminal) .none := written_token (t := .op c) hc

theorem written_identifier {s : String} (hs : IsIdentifier s) :
    Written N (tk .identifier) (.str s) := by
  have htoken := written_token (N := N) (t := .identifier s.toList) hs
  rwa [tokenVal, String.ofList_toList] at htoken

theorem written_tbName {s : String} (hs : IsIdentifier s) : Written N (nt .tbName) (.str s) :=
  .rule 60 (by decide) (.cons (written_identifier hs) .nil)

theorem written_colName {s : String} (hs : IsIdentifier s) : Written N (nt .colName) (.str s) :=
  .rule 61 (by decide) (.cons (written_identifier hs) .nil)

theorem written_col {c : Col} (hc : c.Writable) : Written N (nt .col) (.col c) := by
  obtain ⟨t, s⟩ := c
  obtain ⟨rfl | ht, hs⟩ := hc
  · exact .rule 41 (by decide) (.cons (written_colName hs) .nil)
  · exact .rule 40 (by decide) (.cons (written_tbName ht)
      (.cons (written_op (c := '.') (by decide)) (.cons (written_colName hs) .nil)))

theorem written_value {v : Ast.Value} (hv : v.Writable N) : Written N (nt .value) (.val v) := by
  cases v with
  | intLit i =>
      obtain ⟨text, htext, rfl⟩ := hv
      exact .rule 32 (by decide) (.cons (written_token (t := .valueInt text) htext) .nil)
  | floatLit p =>
      obtain ⟨text, htext, rfl⟩ := hv
      exact .rule 33 (by decide) (.cons (written_token (t := .valueFloat text) htext) .nil)
  | stringLit s =>
      have htoken := written_token (N := N) (t := .valueString s.toList) hv
      rw [tokenVal, String.ofList_toList] at htoken
      exact .rule 34 (by decide) (.cons htoken .nil)

theorem written_expr {e : Expr} (he : e.Writable N) : Written N (nt .expr) (.expr e) := by
  cases e with
  | value v => exact .rule 50 (by decide) (.cons (written_value he) .nil)
  | col c => exact .rule 51 (by decide) (.cons (written_col he) .nil)

theorem written_compOp (o : SvCompOp) : Written N (nt .op) (.compOp o) := by
  cases o with
  | eq => exact .rule 44 (by decide) (.cons (written_op (c := '=') (by decide)) .nil)
  | lt => exact .rule 45 (by decide) (.cons (written_op (c := '<') (by decide)) .nil)
  | gt => exact .rule 46 (by decide) (.cons (written_op (c := '>') (by decide)) .nil)
  | ne => exact .rule 47 (by decide) (.cons (written_token (t := .neq) trivial) .nil)
  | le => exact .rule 48 (by decide) (.cons (written_token (t := .leq) trivial) .nil)
  | ge => exact .rule 49 (by decide) (.cons (written_token (t := .geq) trivial) .nil)

theorem written_condition {c : BinaryExpr} (hc : c.Writable N) :
    Written N (nt .condition) (.cond c) :=
  .rule 35 (by decide) (.cons (written_col hc.lhs)
    (.cons (written_compOp c.op) (.cons (written_expr hc.rhs) .nil)))

theorem written_setClause {s : Ast.SetClause} (hs : s.Writable N) :
    Written N (nt .setClause) (.setClause s) :=
  .rule 54 (by decide) (.cons (written_colName hs.colName)
    (.cons (written_op (c := '=') (by decide)) (.cons (written_value hs.val) .nil)))

theorem written_type {t : TypeLen} (ht : WritableType N t) : Written N (nt .type) (.typeLen t) := by
  cases ht with
  | int => exact .rule 27 (by decide) (.cons (written_kw .INT) .nil)
  | char hn =>
      obtain ⟨text, htext, rfl⟩ := hn
      exact .rule 28 (by decide) (.cons (written_kw .CHAR)
        (.cons (written_op (c := '(') (by decide)) (.cons (written_token (t := .valueInt text) htext)
          (.cons (written_op (c := ')') (by decide)) .nil))))
  | float => exact .rule 29 (by decide) (.cons (written_kw .FLOAT) .nil)

theorem written_field {f : Ast.ColDef} (hf : f.Writable N) : Written N (nt .field) (.field f) :=
  .rule 26 (by decide) (.cons (written_colName hf.colName) (.cons (written_type hf.typeLen) .nil))

/-- Lists grow at the end. -/
theorem written_list {α : Type} {X : GrammarSymbol Terminal Nonterminal} (val : List α → Val)
    {P : α → Prop} (hone : ∀ a, P a → Written N X (val [a]))
    (hmore : ∀ as a, Written N X (val as) → P a → Written N X (val (as ++ [a]))) {as : List α}
    (hne : as ≠ []) (has : ∀ a ∈ as, P a) : Written N X (val as) := by
  induction as using List.reverseRecOn with
  | nil => exact absurd rfl hne
  | append_singleton as a ih =>
      obtain ⟨has, ha⟩ := List.forall_mem_append.mp has
      have ha := List.forall_mem_singleton.mp ha
      cases as with
      | nil => exact hone a ha
      | cons b as => exact hmore _ a (ih (by simp) has) ha

theorem written_comma : Written N (tk .comma) .none := written_op (c := ',') (by decide)

theorem written_fieldList {fs : List Ast.ColDef} (hne : fs ≠ []) (hfs : ∀ f ∈ fs, f.Writable N) :
    Written N (nt .fieldList) (.fields fs) :=
  written_list .fields (fun _ hf => .rule 24 (by decide) (.cons (written_field hf) .nil))
    (fun _ _ hfs hf => .rule 25 (by decide)
      (.cons hfs (.cons written_comma (.cons (written_field hf) .nil)))) hne hfs

theorem written_valueList {vs : List Ast.Value} (hne : vs ≠ []) (hvs : ∀ v ∈ vs, v.Writable N) :
    Written N (nt .valueList) (.vals vs) :=
  written_list .vals (fun _ hv => .rule 30 (by decide) (.cons (written_value hv) .nil))
    (fun _ _ hvs hv => .rule 31 (by decide)
      (.cons hvs (.cons written_comma (.cons (written_value hv) .nil)))) hne hvs

theorem written_colList {cs : List Col} (hne : cs ≠ []) (hcs : ∀ c ∈ cs, c.Writable) :
    Written N (nt .colList) (.cols cs) :=
  written_list .cols (fun _ hc => .rule 42 (by decide) (.cons (written_col hc) .nil))
    (fun _ _ hcs hc => .rule 43 (by decide)
      (.cons hcs (.cons written_comma (.cons (written_col hc) .nil)))) hne hcs

theorem written_setClauses {ss : List Ast.SetClause} (hne : ss ≠ [])
    (hss : ∀ s ∈ ss, s.Writable N) : Written N (nt .setClauses) (.setClauses ss) :=
  written_list .setClauses (fun _ hs => .rule 52 (by decide) (.cons (written_setClause hs) .nil))
    (fun _ _ hss hs => .rule 53 (by decide)
      (.cons hss (.cons written_comma (.cons (written_setClause hs) .nil)))) hne hss

theorem written_tableList {ts : List String} (hne : ts ≠ []) (hts : ∀ t ∈ ts, IsIdentifier t) :
    Written N (nt .tableList) (.strs ts) :=
  written_list .strs (fun _ ht => .rule 57 (by decide) (.cons (written_tbName ht) .nil))
    (fun _ _ hts ht => .rule 58 (by decide)
      (.cons hts (.cons written_comma (.cons (written_tbName ht) .nil)))) hne hts

theorem written_whereClause {cs : List BinaryExpr} (hne : cs ≠ []) (hcs : ∀ c ∈ cs, c.Writable N) :
    Written N (nt .whereClause) (.conds cs) :=
  written_list .conds (fun _ hc => .rule 38 (by decide) (.cons (written_condition hc) .nil))
    (fun _ _ hcs hc => .rule 39 (by decide)
      (.cons hcs (.cons (written_kw .AND) (.cons (written_condition hc) .nil)))) hne hcs

theorem written_optWhereClause {cs : List BinaryExpr} (hcs : ∀ c ∈ cs, c.Writable N) :
    Written N (nt .optWhereClause) (.conds cs) := by
  cases cs with
  | nil => exact .rule 36 (by decide) .nil
  | cons c cs =>
      exact .rule 37 (by decide) (.cons (written_kw .WHERE)
        (.cons (written_whereClause (by simp) hcs) .nil))

theorem written_selector {cs : List Col} (hcs : ∀ c ∈ cs, c.Writable) :
    Written N (nt .selector) (.cols cs) := by
  cases cs with
  | nil => exact .rule 55 (by decide) (.cons (written_op (c := '*') (by decide)) .nil)
  | cons c cs => exact .rule 56 (by decide) (.cons (written_colList (by simp) hcs) .nil)

/-! ## Statements -/

theorem written_lparen : Written N (tk .lparen) .none := written_op (c := '(') (by decide)

theorem written_rparen : Written N (tk .rparen) .none := written_op (c := ')') (by decide)

theorem written_txnStmt {n : TreeNode} (h : Written N (nt .txnStmt) (.node n)) :
    Written N (nt .stmt) (.node n) :=
  .rule 9 (by decide) (.cons h .nil)

theorem written_ddl {n : TreeNode} (h : Written N (nt .ddl) (.node n)) :
    Written N (nt .stmt) (.node n) :=
  .rule 7 (by decide) (.cons h .nil)

theorem written_dml {n : TreeNode} (h : Written N (nt .dml) (.node n)) :
    Written N (nt .stmt) (.node n) :=
  .rule 8 (by decide) (.cons h .nil)

/-- Every statement but `HELP` is a `stmt`. -/
theorem written_stmt {n : TreeNode} (hn : n.Writable N) (hhelp : n ≠ .help) :
    Written N (nt .stmt) (.node n) := by
  cases n with
  | help => exact absurd rfl hhelp
  | showTables =>
      have h : Written N (nt .dbStmt) (.node .showTables) :=
        .rule 14 (by decide) (.cons (written_kw .SHOW) (.cons (written_kw .TABLES) .nil))
      exact .rule 6 (by decide) (.cons h .nil)
  | txnBegin => exact written_txnStmt (.rule 10 (by decide) (.cons (written_kw .TXN_BEGIN) .nil))
  | txnCommit => exact written_txnStmt (.rule 11 (by decide) (.cons (written_kw .TXN_COMMIT) .nil))
  | txnAbort => exact written_txnStmt (.rule 12 (by decide) (.cons (written_kw .TXN_ABORT) .nil))
  | txnRollback =>
      exact written_txnStmt (.rule 13 (by decide) (.cons (written_kw .TXN_ROLLBACK) .nil))
  | createTable t fields =>
      obtain ⟨ht, hne, hfields⟩ := hn
      exact written_ddl (.rule 15 (by decide) (.cons (written_kw .CREATE)
        (.cons (written_kw .TABLE) (.cons (written_tbName ht) (.cons written_lparen
          (.cons (written_fieldList hne hfields) (.cons written_rparen .nil)))))))
  | dropTable t =>
      exact written_ddl (.rule 16 (by decide) (.cons (written_kw .DROP)
        (.cons (written_kw .TABLE) (.cons (written_tbName hn) .nil))))
  | descTable t =>
      exact written_ddl (.rule 17 (by decide) (.cons (written_kw .DESC)
        (.cons (written_tbName hn) .nil)))
  | createIndex t c =>
      exact written_ddl (.rule 18 (by decide) (.cons (written_kw .CREATE)
        (.cons (written_kw .INDEX) (.cons (written_tbName hn.1) (.cons written_lparen
          (.cons (written_colName hn.2) (.cons written_rparen .nil)))))))
  | dropIndex t c =>
      exact written_ddl (.rule 19 (by decide) (.cons (written_kw .DROP)
        (.cons (written_kw .INDEX) (.cons (written_tbName hn.1) (.cons written_lparen
          (.cons (written_colName hn.2) (.cons written_rparen .nil)))))))
  | insertStmt t vals =>
      obtain ⟨ht, hne, hvals⟩ := hn
      exact written_dml (.rule 20 (by decide) (.cons (written_kw .INSERT)
        (.cons (written_kw .INTO) (.cons (written_tbName ht) (.cons (written_kw .VALUES)
          (.cons written_lparen (.cons (written_valueList hne hvals)
            (.cons written_rparen .nil))))))))
  | deleteStmt t conds =>
      exact written_dml (.rule 21 (by decide) (.cons (written_kw .DELETE)
        (.cons (written_kw .FROM) (.cons (written_tbName hn.1)
          (.cons (written_optWhereClause hn.2) .nil)))))
  | updateStmt t sets conds =>
      obtain ⟨ht, ⟨hne, hsets⟩, hconds⟩ := hn
      exact written_dml (.rule 22 (by decide) (.cons (written_kw .UPDATE)
        (.cons (written_tbName ht) (.cons (written_kw .SET) (.cons (written_setClauses hne hsets)
          (.cons (written_optWhereClause hconds) .nil))))))
  | selectStmt cols tabs conds =>
      obtain ⟨hcols, ⟨hne, htabs⟩, hconds⟩ := hn
      exact written_dml (.rule 23 (by decide) (.cons (written_kw .SELECT)
        (.cons (written_selector hcols) (.cons (written_kw .FROM)
          (.cons (written_tableList hne htabs) (.cons (written_optWhereClause hconds) .nil))))))

/-- The tokens of a tree. -/
theorem exists_sentence {n : TreeNode} (hn : n.Writable N) : ∃ ts : List Token,
    (∀ t ∈ ts, t.Plain) ∧ (grammar N).Sentence ts (.tree (some n)) := by
  by_cases hhelp : n = .help
  · obtain ⟨ts, hts, hderives⟩ := exists_tokens (.cons (written_kw (N := N) .HELP) .nil)
    exact ⟨ts, hts, 3, (by decide : 3 ∈ List.range' 2 60), rfl, _, hderives, by rw [hhelp]; rfl⟩
  · obtain ⟨ts, hts, hderives⟩ := exists_tokens (.cons (written_stmt hn hhelp)
      (.cons (written_op (c := ';') (by decide)) .nil))
    exact ⟨ts, hts, 2, (by decide : 2 ∈ List.range' 2 60), rfl, _, hderives, rfl⟩

end Grammar

/-! ## Requests -/

/-- The stream of a list of tokens begins with them. -/
theorem tokens_stream (ts rest : List Token) :
    Parser.tokens (Yyparse.stream (ts ++ rest)) ts.length = ts := by
  unfold Parser.tokens
  refine List.ext_getElem (by simp) fun i hi hi' => ?_
  rw [List.getElem_map, List.getElem_range, Yyparse.stream, List.getD_eq_getElem?_getD,
    List.getElem?_append_left hi', List.getElem?_eq_getElem hi', Option.getD_some]

/-- **The trees of requests are those that can be written**: no other comes of any text, and each of
them comes of some. -/
theorem exists_request_iff (N : Numerals) (parseTree : Option TreeNode) (tree : TreeNode) :
    (∃ (text : List Char) (n : Nat), (∀ c ∈ text, IsByte c) ∧
      yyparse N parseTree (scan .initial text) = some (.accepted (some tree) n)) ↔ tree.Writable N := by
  constructor
  · rintro ⟨text, n, htext, h⟩
    obtain ⟨r, hr, hstart, vs, hderives, hv⟩ :=
      (yyparse_sim.accepted_iff.trans run_accepts_iff).mp h
    have htokens : ∀ t ∈ Parser.tokens (Yyparse.stream (scan .initial text)) n,
        t.Plain ∨ t = .tEof := by
      intro t ht
      obtain ⟨i, _, rfl⟩ := List.mem_map.mp ht
      unfold Yyparse.stream
      rw [List.getD_eq_getElem?_getD]
      cases hi : (scan .initial text)[i]? with
      | none => exact .inr rfl
      | some t => exact scan_plain .initial text htext t (List.mem_of_getElem? hi)
    have hmeans := rules_mean (N := N) _ (List.fst_mem_of_mem_zipIdx (rule_mem hr)) _
      (means_of_derives hderives htokens)
    have hlhs : (rule r).lhs = .start := hstart
    rw [hlhs] at hmeans
    obtain ⟨t, ht, hwritable⟩ := hmeans
    have hsome : some tree = t := Val.tree.inj (hv.trans ht)
    exact hwritable tree hsome.symm
  · intro htree
    obtain ⟨ts, hts, hsentence⟩ := exists_sentence htree
    refine ⟨spell ts, ts.length, spell_bytes hts, (yyparse_sim.accepted_iff.trans run_accepts_iff).mpr ?_⟩
    rw [scan_spell hts, tokens_stream]
    exact hsentence

end Rucbase
