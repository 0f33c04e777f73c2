import Rucbase.Execution.ConditionMeaning
import Rucbase.Execution.PredicatePushDown
import Rucbase.Execution.WhereClauseProof

/-!
# The conditions of a query

`select_from` hands the conditions that were checked to the scans of its tables, and a join feeds
each scan the rows of the tables before. What the check says of a condition is kept by every step
from there on: by the constructor of the scan, which may turn it round, and by `feed`, which may put
a value in a column's place; and of such a condition `eval_cond` returns. What the check does not say
is that the tables of a condition are in the `FROM` list.
-/

namespace Rucbase

open Lib SmManager

/-! ## `feed_right` -/

/-- The side of a condition has bytes, of that type. -/
def Operand.HasType (db : DbMeta) (type : ColType) : Operand → Prop
  | .val v => v.datum.type = type ∧ v.raw.isSome
  | .col c => ∃ r, db.HasCol r ∧ r.tabCol = c ∧ r.type = type

/-- Both sides have bytes, of one type. -/
def Condition.Typed (db : DbMeta) (cond : Condition) : Prop :=
  ∃ l, db.HasCol l ∧ l.tabCol = cond.lhsCol ∧ cond.rhs.HasType db l.type

/-- The dictionary has values for columns, each of its column's type. -/
def DictTyped (db : DbMeta) (dict : Std.TreeMap TabCol Value) : Prop :=
  ∀ k v, dict[k]? = some v → ∃ col, db.HasCol col ∧ col.tabCol = k ∧ v.datum.type = col.type
    ∧ v.raw.isSome

variable {db : DbMeta} {tabNames : List String} {heap : Nat → UInt8} {c c' cond : Condition}
  {t : String} {tab : TabMeta} {dict dict' feedDict : Std.TreeMap TabCol Value} {conds : List Condition}

/-! ## What was checked has a type -/

theorem Checked.typed (hdb : db.Sound) (h : Checked db tabNames heap c c') : c'.Typed db := by
  cases h with
  | val hl hv htype =>
      obtain ⟨hdatum, hraw⟩ := initRaw_datum hv
      exact ⟨_, hl.hasCol hdb, rfl, by rw [hdatum, htype], hraw⟩
  | col hl hr htype => exact ⟨_, hl.hasCol hdb, rfl, _, hr.hasCol hdb, rfl, htype.symm⟩

theorem Condition.Typed.swapSides (h : cond.Typed db)
    (hswap : SeqScanExecutor.swapSides t cond = .ok c) : c.Typed db := by
  unfold SeqScanExecutor.swapSides at hswap
  split at hswap
  · exact Except.ok.inj hswap ▸ h
  · split at hswap
    · cases hswap
    · rename_i b hb
      split at hswap
      · obtain ⟨l, hl, hkey, hrhs⟩ := h
        rw [hb] at hrhs
        obtain ⟨r, hr, hrkey, htype⟩ := hrhs
        rw [← Except.ok.inj hswap]
        exact ⟨r, hr, hrkey, l, hl, hkey, htype.symm⟩
      · cases hswap

theorem Condition.Typed.feedCond (hdb : db.Sound) (h : cond.Typed db) (hdict : DictTyped db feedDict)
    (hfeed : SeqScanExecutor.feedCond t feedDict cond = .ok c) : c.Typed db := by
  unfold SeqScanExecutor.feedCond at hfeed
  split at hfeed
  · exact Except.ok.inj hfeed ▸ h
  · rename_i b hb
    split at hfeed
    · exact Except.ok.inj hfeed ▸ h
    · cases hv : feedDict[b]? with
      | none => simp [hv] at hfeed
      | some v =>
          rw [hv] at hfeed
          obtain ⟨l, hl, hkey, hrhs⟩ := h
          rw [hb] at hrhs
          obtain ⟨r, hr, hrkey, htype⟩ := hrhs
          obtain ⟨col, hcol, hck, hvtype, hraw⟩ := hdict b v hv
          obtain rfl := hcol.unique hdb hr (hck.trans hrkey.symm)
          rw [← Except.ok.inj hfeed]
          exact ⟨l, hl, hkey, hvtype.trans htype, hraw⟩

theorem DbMeta.Sound.keys (hdb : db.Sound) (htab : db.tabs[t]? = some tab) :
    (tab.cols.map ColMeta.tabCol).Nodup := by
  refine List.Nodup.of_map TabCol.colName ?_
  rw [List.map_map]
  exact hdb.names t tab htab

/-- A column of a table is found among the columns of the table. -/
theorem getCol_hasCol (hdb : db.Sound) (htab : db.tabs[t]? = some tab) {col : ColMeta}
    (hcol : db.HasCol col) (ht : col.tabName = t) : getCol tab.cols col.tabCol = .ok col := by
  obtain ⟨tab', htab', hmem⟩ := hcol
  rw [ht, htab, Option.some.injEq] at htab'
  subst htab'
  exact getCol_of_mem (hdb.keys htab) hmem

/-- **A typed condition on the scanned table is evaluated.** -/
theorem Condition.Typed.evalCond (hdb : db.Sound) (htab : db.tabs[t]? = some tab)
    (h : cond.Typed db) (hhere : SeqScanExecutor.runtimeCond t cond = true) (rec : RmRecord) :
    ∃ b, SeqScanExecutor.evalCond tab.cols cond rec = .ok b := by
  obtain ⟨a, op, rhs⟩ := cond
  obtain ⟨l, hl, rfl, hrhs⟩ := h
  unfold SeqScanExecutor.runtimeCond at hhere
  rw [Bool.and_eq_true, decide_eq_true_iff] at hhere
  obtain ⟨hlt, hrt⟩ := hhere
  have hrhs' : ∃ q, SeqScanExecutor.rhsOf tab.cols rec rhs = .ok (l.type, q) := by
    cases rhs with
    | val v =>
        obtain ⟨htype, hraw⟩ := hrhs
        obtain ⟨r, hr⟩ := Option.isSome_iff_exists.mp hraw
        refine ⟨r.data, ?_⟩
        rw [SeqScanExecutor.rhsOf, hr, ← htype]
    | col b =>
        obtain ⟨r, hr, rfl, htype⟩ := hrhs
        refine ⟨r.field rec, ?_⟩
        rw [SeqScanExecutor.rhsOf, getCol_hasCol hdb htab hr (of_decide_eq_true hrt), ← htype]
  obtain ⟨q, hq⟩ := hrhs'
  unfold SeqScanExecutor.evalCond
  dsimp only
  rw [getCol_hasCol hdb htab hl hlt]
  dsimp only
  rw [hq]
  exact ⟨_, if_pos rfl⟩

variable {isCol : IsCol} {getCol : GetCol} {heaps : Nat → Nat → UInt8} {svConds : List Ast.BinaryExpr}
  {checked : List Condition}

/-- The names in a typed condition are those of columns. -/
theorem Condition.Typed.hasCol (h : cond.Typed db) :
    ∀ k ∈ cond.cols, ∃ col, db.HasCol col ∧ col.tabCol = k := by
  obtain ⟨a, op, rhs⟩ := cond
  obtain ⟨l, hl, rfl, hrhs⟩ := h
  cases rhs with
  | val v => exact List.forall_mem_singleton.mpr ⟨l, hl, rfl⟩
  | col b =>
      obtain ⟨r, hr, rfl, _⟩ := hrhs
      exact List.forall_mem_cons.mpr ⟨⟨l, hl, rfl⟩, List.forall_mem_singleton.mpr ⟨r, hr, rfl⟩⟩

end Rucbase
