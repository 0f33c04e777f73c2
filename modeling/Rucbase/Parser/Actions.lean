import Rucbase.Parser.Yyparse

/-!
# The actions

An action of the grammar works on values, the one of the generated parser on slots with a field for
each kind of value. Rule by rule they do the same, and leave the list of conditions alone unless it
is theirs.
-/

namespace Rucbase

open Lib Ast

namespace Grammar

/-! ## Values and slots -/

/-- The conditions in a value. -/
def Val.condsOf : Val → List BinaryExpr
  | .conds cs => cs
  | _ => []

/-- What the values of a symbol are: what its field in the `%type` and `%token` lines holds. -/
def Fits : GrammarSymbol Terminal Nonterminal → Val → Prop
  | .terminal .identifier, v | .terminal .valueString, v => ∃ s, v = .str s
  | .terminal .valueInt, v => ∃ i, v = .int i
  | .terminal .valueFloat, v => ∃ p, v = .float p
  | .terminal _, v => v = .none
  | .nonterminal .start, v => ∃ t, v = .tree t
  | .nonterminal .stmt, v | .nonterminal .txnStmt, v | .nonterminal .dbStmt, v
  | .nonterminal .ddl, v | .nonterminal .dml, v => ∃ n, v = .node n
  | .nonterminal .fieldList, v => ∃ fs, v = .fields fs
  | .nonterminal .field, v => ∃ f, v = .field f
  | .nonterminal .type, v => ∃ t, v = .typeLen t
  | .nonterminal .valueList, v => ∃ vs, v = .vals vs
  | .nonterminal .value, v => ∃ w, v = .val w
  | .nonterminal .condition, v => ∃ c, v = .cond c
  | .nonterminal .optWhereClause, v | .nonterminal .whereClause, v => ∃ cs, v = .conds cs
  | .nonterminal .col, v => ∃ c, v = .col c
  | .nonterminal .colList, v | .nonterminal .selector, v => ∃ cs, v = .cols cs
  | .nonterminal .op, v => ∃ o, v = .compOp o
  | .nonterminal .expr, v => ∃ e, v = .expr e
  | .nonterminal .setClauses, v => ∃ ss, v = .setClauses ss
  | .nonterminal .setClause, v => ∃ s, v = .setClause s
  | .nonterminal .tableList, v => ∃ ts, v = .strs ts
  | .nonterminal .tbName, v | .nonterminal .colName, v => ∃ s, v = .str s

theorem fits_cons {X : GrammarSymbol Terminal Nonterminal}
    {Xs : List (GrammarSymbol Terminal Nonterminal)} {vs : List Val} : List.Forall₂ Fits (X :: Xs) vs ↔
      ∃ w ws, vs = w :: ws ∧ Fits X w ∧ List.Forall₂ Fits Xs ws := by
  rw [List.forall₂_cons_left_iff]
  exact exists_congr fun w => exists_congr fun ws => by rw [← and_assoc, and_comm]

/-- The field of the value has it. -/
def Carries : Val → SemValue → Prop
  | .none, _ | .tree _, _ => True
  | .str s, x => x.svStr = s
  | .int i, x => x.svInt = i
  | .float p, x => x.svFloat = p
  | .strs ss, x => x.svStrs = ss
  | .node n, x => x.svNode = n
  | .compOp op, x => x.svCompOp = op
  | .typeLen t, x => x.svTypeLen = t
  | .field f, x => x.svField = f
  | .fields fs, x => x.svFields = fs
  | .expr e, x => x.svExpr = e
  | .val v, x => x.svVal = v
  | .vals vs, x => x.svVals = vs
  | .col c, x => x.svCol = c
  | .cols cs, x => x.svCols = cs
  | .setClause s, x => x.svSetClause = s
  | .setClauses ss, x => x.svSetClauses = ss
  | .cond c, x => x.svCond = c
  | .conds cs, x => x.svConds = cs

/-- A slot has a value, and no conditions but those of the value. -/
def Holds (v : Val) (x : SemValue) : Prop := Carries v x ∧ x.svConds = v.condsOf

/-- Some values are in the slots from `i` on. -/
def Slots (v : Nat → SemValue) : Nat → List Val → Prop
  | _, [] => True
  | i, w :: ws => Holds w (v i) ∧ Slots v (i + 1) ws

theorem tokenVal_fits (N : Numerals) (t : Token) : Fits (.terminal t.terminal) (tokenVal N t) := by
  cases t with
  | identifier text => exact ⟨_, rfl⟩
  | valueString text => exact ⟨_, rfl⟩
  | valueInt text => exact ⟨_, rfl⟩
  | valueFloat text => exact ⟨_, rfl⟩
  | op c => unfold Token.terminal; split <;> first | rfl | contradiction
  | _ => rfl

theorem tokenVal_holds (N : Numerals) (t : Token) {x : SemValue} (hx : x.svConds = []) :
    Holds (tokenVal N t) (Yyparse.yylex N x t) := by
  cases t <;> exact ⟨by trivial, hx⟩

/-- The value of a rule is one of its left side. -/
def Rule.Typed (R : Rule) : Prop :=
  ∀ vs, List.Forall₂ Fits R.rhs vs → Fits (.nonterminal R.lhs) (R.act vs)

/-- The action of rule `r` does to the slots what the grammar says of the values. -/
def Rule.Works (R : Rule) (r : Nat) : Prop :=
  ∀ (vs : List Val) (v : Nat → SemValue), List.Forall₂ Fits R.rhs vs → Slots v 1 vs →
    (r = 36 → (v 1).svConds = []) →
      match Yyparse.parseTree r v with
      | some t => R.act vs = .tree t
      | none => Holds (R.act vs) (Yyparse.action r (v 1) v)

theorem rules_typed : ∀ R ∈ rules, R.Typed := by
  simp only [rules, List.forall_mem_cons, List.not_mem_nil, IsEmpty.forall_iff, implies_true,
    and_true]
  and_intros
  -- one goal for each rule
  all_goals
    intro vs hfits
    simp [fits_cons, Fits] at hfits
    grind [Fits, first]

theorem rules_work : ∀ p ∈ rules.zipIdx 2, p.1.Works p.2 := by
  simp only [rules, List.zipIdx_cons, List.zipIdx_nil, List.forall_mem_cons, List.not_mem_nil,
    Nat.reduceAdd, IsEmpty.forall_iff, implies_true, and_true]
  and_intros
  all_goals
    intro vs v hfits hslots hstale
    simp [fits_cons, Fits] at hfits
    grind [Slots, Holds, Carries, Val.condsOf, first, Yyparse.parseTree, Yyparse.action]

theorem typed {r : Nat} (hr : r ∈ List.range' 2 60) : (rule r).Typed :=
  rules_typed _ (List.fst_mem_of_mem_zipIdx (rule_mem hr))

theorem works {r : Nat} (hr : r ∈ List.range' 2 60) : (rule r).Works r :=
  rules_work _ (rule_mem hr)

/-- The values that the grammar gives are those of the fields. -/
theorem fits_of_derives {N : Numerals} {Xs : List (GrammarSymbol Terminal Nonterminal)}
    {ts : List Token} {vs : List Val} (h : (grammar N).Derives Xs ts vs) : List.Forall₂ Fits Xs vs := by
  induction h with
  | nil => exact .nil
  | token t _ ih => exact .cons (tokenVal_fits N t) ih
  | rule hr _ _ ih ih' => exact .cons (typed hr _ ih) ih'

end Grammar

end Rucbase
