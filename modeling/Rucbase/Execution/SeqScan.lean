import Rucbase.Execution.ExecutionManager

/-!
# `SeqScanExecutor`

The conditions of a table scan, `execution/executor_seq_scan.h`. The constructor brings the column
of the scanned table to the left, `feed` replaces a column of another table by its current value,
and `eval_cond` compares bytes. The scan itself is left open in the source.
-/

namespace Rucbase

open Lib

/-- `swap_op`. -/
def CompOp.swap : CompOp → CompOp
  | .eq => .eq
  | .ne => .ne
  | .lt => .gt
  | .gt => .lt
  | .le => .ge
  | .ge => .le

/-- `get_col`. -/
def getCol (recCols : List ColMeta) (target : TabCol) : Except RedBaseError ColMeta :=
  match recCols.find? fun col => col.tabCol = target with
  | none => .error (.columnNotFoundError (target.tabName ++ "." ++ target.colName))
  | some col => .ok col

structure SeqScanExecutor where
  tabName : String
  conds : List Condition
  cols : List ColMeta
  len : Int
  fedConds : List Condition

namespace SeqScanExecutor

/-- The loop of the constructor, on one condition. -/
def swapSides (tabName : String) (cond : Condition) : Except RedBaseError Condition :=
  if cond.lhsCol.tabName = tabName then .ok cond
  else
    match cond.rhs with
    | .val _ => .error .assertionFailure
    | .col c =>
        if c.tabName = tabName then .ok ⟨c, cond.op.swap, .col cond.lhsCol⟩
        else .error .assertionFailure

/-- The constructor. -/
def new (sm : SmManager) (tabName : String) (conds : List Condition) :
    Except RedBaseError SeqScanExecutor :=
  match sm.db.getTable tabName with
  | .error e => .error e
  | .ok tab =>
      match sm.fhs tabName, tab.cols.getLast? with
      | none, _ => .error .outOfRange
      | some _, none => .error .undefinedBehaviour
      | some _, some last =>
          match conds.mapM (swapSides tabName) with
          | .error e => .error e
          | .ok conds =>
              .ok
                { tabName := tabName
                  conds := conds
                  cols := tab.cols
                  len := last.offset + last.len
                  fedConds := conds }

/-- The loop of `feed`, on one condition. -/
def feedCond (tabName : String) (feedDict : Std.TreeMap TabCol Value) (cond : Condition) :
    Except RedBaseError Condition :=
  match cond.rhs with
  | .val _ => .ok cond
  | .col c =>
      if c.tabName = tabName then .ok cond
      else
        match feedDict[c]? with
        | none => .error .outOfRange
        | some v => .ok { cond with rhs := .val v }

/-- The assertions of `check_runtime_conds`, on one condition. -/
def runtimeCond (tabName : String) (cond : Condition) : Bool :=
  cond.lhsCol.tabName = tabName
    && match cond.rhs with
      | .val _ => true
      | .col c => c.tabName = tabName

/-- `feed`, with `check_runtime_conds` behind it. -/
def feed (e : SeqScanExecutor) (feedDict : Std.TreeMap TabCol Value) :
    Except RedBaseError SeqScanExecutor :=
  match e.conds.mapM (feedCond e.tabName feedDict) with
  | .error err => .error err
  | .ok fedConds =>
      if fedConds.all (runtimeCond e.tabName) then .ok { e with fedConds := fedConds }
      else .error .assertionFailure

/-- The bytes on the right-hand side of a condition, and their type. -/
def rhsOf (recCols : List ColMeta) (rec : RmRecord) :
    Operand → Except RedBaseError (ColType × (Nat → UInt8))
  | .val v =>
      match v.raw with
      | none => .error .undefinedBehaviour
      | some r => .ok (v.datum.type, r.data)
  | .col c =>
      match getCol recCols c with
      | .error e => .error e
      | .ok col => .ok (col.type, col.field rec)

/-- `eval_cond`. -/
def evalCond (recCols : List ColMeta) (cond : Condition) (rec : RmRecord) :
    Except RedBaseError Bool :=
  match getCol recCols cond.lhsCol with
  | .error e => .error e
  | .ok lhsCol =>
      match rhsOf recCols rec cond.rhs with
      | .error e => .error e
      | .ok (rhsType, rhs) =>
          if rhsType = lhsCol.type then
            .ok (cond.op.test (ixCompare (lhsCol.field rec) rhs rhsType lhsCol.len))
          else .error .assertionFailure

variable {sm : SmManager} {tabName : String} {tab : TabMeta} {conds swapped fed : List Condition}
  {e : SeqScanExecutor} {feedDict : Std.TreeMap TabCol Value}

/-- The constructor, on an open table that has columns. -/
theorem new_ok (htab : sm.db.tabs[tabName]? = some tab) (hcols : tab.cols ≠ [])
    (hopen : (sm.fhs tabName).isSome) (hswap : conds.mapM (swapSides tabName) = .ok swapped) :
    ∃ e, new sm tabName conds = .ok e ∧ e.tabName = tabName ∧ e.conds = swapped
      ∧ e.cols = tab.cols := by
  obtain ⟨fh, hfh⟩ := Option.isSome_iff_exists.mp hopen
  unfold new DbMeta.getTable
  rw [htab]
  dsimp only
  rw [hfh, List.getLast?_eq_some_getLast hcols, hswap]
  exact ⟨_, rfl, rfl, rfl, rfl⟩

theorem feed_ok (hfed : e.conds.mapM (feedCond e.tabName feedDict) = .ok fed)
    (hall : ∀ c ∈ fed, runtimeCond e.tabName c = true) :
    e.feed feedDict = .ok { e with fedConds := fed } := by
  unfold feed
  rw [hfed]
  exact if_pos (List.all_eq_true.mpr hall)

end SeqScanExecutor

/-- A loop that never stops early. -/
theorem mapM_returns {α β ε : Type} {f : α → Except ε β} {P : α → β → Prop} {l : List α}
    (h : ∀ x ∈ l, ∃ y, f x = .ok y ∧ P x y) :
    ∃ ys, l.mapM f = .ok ys ∧ ∀ y ∈ ys, ∃ x ∈ l, P x y := by
  induction l with
  | nil => exact ⟨[], rfl, by simp⟩
  | cons x l ih =>
      obtain ⟨y, hy, hP⟩ := h x (by simp)
      obtain ⟨ys, hys, hall⟩ := ih fun z hz => h z (List.mem_cons_of_mem _ hz)
      refine ⟨y :: ys, ?_, fun z hz => ?_⟩
      · rw [List.mapM_cons, hy, hys]
        rfl
      · rcases List.mem_cons.mp hz with rfl | hz
        · exact ⟨x, by simp, hP⟩
        · obtain ⟨x', hx', hP'⟩ := hall z hz
          exact ⟨x', List.mem_cons_of_mem _ hx', hP'⟩

end Rucbase
