import Rucbase.Execution.WhereClause
import Rucbase.System.FailedCalls

/-!
# What `check_where_clause` accepts

The check accepts a clause exactly if every name in it stands for one column and the two sides of
each condition have one type. It turns the others down with an error, unless the first of them
compares a number with a string column: the constant gets its bytes before the types are compared,
and `init_raw` asserts that a number is put where a number is.
-/

namespace Rucbase.Lib

variable {α β ε : Type} {f : α → Except ε β}

/-- A loop that returns: every round did. -/
theorem mapM_eq_ok : ∀ {l : List α} {ys : List β},
    l.mapM f = .ok ys ↔ List.Forall₂ (fun x y => f x = .ok y) l ys
  | [], ys => by
      rw [List.forall₂_nil_left_iff, List.mapM_nil]
      exact ⟨fun h => (Except.ok.inj h).symm, fun h => congrArg _ h.symm⟩
  | x :: l, ys => by
      rw [List.forall₂_cons_left_iff, List.mapM_cons]
      cases hx : f x with
      | error e => exact ⟨nofun, by rintro ⟨y, ys', hy, _⟩; cases hy⟩
      | ok y =>
          cases hl : l.mapM f with
          | error e =>
              refine ⟨nofun, ?_⟩
              rintro ⟨_, ys', _, hys, _⟩
              rw [mapM_eq_ok.mpr hys] at hl
              cases hl
          | ok zs =>
              constructor
              · intro h
                exact ⟨y, zs, rfl, mapM_eq_ok.mp hl, (Except.ok.inj h).symm⟩
              · rintro ⟨y', ys', hy, hys, rfl⟩
                rw [mapM_eq_ok.mpr hys, Except.ok.injEq] at hl
                rw [Except.ok.injEq] at hy
                rw [← hl, ← hy]
                rfl

/-- A loop that throws: the rounds before returned, and one threw. -/
theorem mapM_eq_error {e : ε} : ∀ {l : List α}, l.mapM f = .error e
    ↔ ∃ pre x post, l = pre ++ x :: post ∧ (∀ y ∈ pre, ∃ z, f y = .ok z) ∧ f x = .error e
  | [] => by
      refine ⟨nofun, ?_⟩
      rintro ⟨pre, x, post, h, _⟩
      exact absurd h (by simp)
  | a :: l => by
      rw [List.mapM_cons]
      cases ha : f a with
      | error e' =>
          constructor
          · intro h
            exact ⟨[], a, l, rfl, by simp, ha.trans (congrArg _ (Except.error.inj h))⟩
          · rintro ⟨pre, x, post, hl, hpre, hx⟩
            cases pre with
            | nil =>
                rw [List.nil_append, List.cons.injEq] at hl
                rw [← hl.1, ha, Except.error.injEq] at hx
                rw [hx]
                rfl
            | cons b pre =>
                rw [List.cons_append, List.cons.injEq] at hl
                obtain ⟨z, hz⟩ := hpre b (by simp)
                rw [← hl.1, ha] at hz
                cases hz
      | ok b =>
          have hrest : (do
              let b ← Except.ok b
              let bs ← l.mapM f
              return b :: bs : Except ε (List β)) = .error e ↔ l.mapM f = .error e := by
            cases hl : l.mapM f with
            | error e' => exact Iff.rfl
            | ok bs => exact ⟨nofun, nofun⟩
          rw [hrest, mapM_eq_error]
          constructor
          · rintro ⟨pre, x, post, rfl, hpre, hx⟩
            exact ⟨a :: pre, x, post, rfl, List.forall_mem_cons.mpr ⟨⟨b, ha⟩, hpre⟩, hx⟩
          · rintro ⟨pre, x, post, hl, hpre, hx⟩
            cases pre with
            | nil =>
                rw [List.nil_append, List.cons.injEq] at hl
                rw [← hl.1, ha] at hx
                cases hx
            | cons c pre =>
                rw [List.cons_append, List.cons.injEq] at hl
                exact ⟨pre, x, post, hl.2, fun y hy => hpre y (List.mem_cons_of_mem _ hy), hx⟩

theorem mapM_returns_iff {l : List α} :
    (∃ ys, l.mapM f = .ok ys) ↔ ∀ x ∈ l, ∃ y, f x = .ok y := by
  constructor
  · rintro ⟨ys, h⟩
    have hall := mapM_eq_ok.mp h
    clear h
    induction hall with
    | nil => simp
    | cons hx _ ih => exact List.forall_mem_cons.mpr ⟨⟨_, hx⟩, ih⟩
  · intro h
    cases hl : l.mapM f with
    | ok ys => exact ⟨ys, rfl⟩
    | error e =>
        obtain ⟨pre, x, post, rfl, _, hx⟩ := mapM_eq_error.mp hl
        obtain ⟨y, hy⟩ := h x (by simp)
        rw [hx] at hy
        cases hy

end Rucbase.Lib

namespace Rucbase

open Lib SmManager

variable {isCol : IsCol} {getCol : GetCol} {db : DbMeta} {tabNames : List String}
  {heap : Nat → UInt8} {target r : TabCol} {col l : ColMeta} {cond : Condition} {v v' : Value}

/-! ## Names -/

theorem getTable_of_some {t : String} {tab : TabMeta} (h : db.tabs[t]? = some tab) :
    db.getTable t = .ok tab := by
  unfold DbMeta.getTable
  rw [h]

theorem mem_colsOf (hdb : db.Sound) :
    col ∈ db.colsOf tabNames ↔ db.HasCol col ∧ col.tabName ∈ tabNames := by
  unfold DbMeta.colsOf
  rw [List.mem_flatMap]
  constructor
  · rintro ⟨t, ht, hcol⟩
    cases htab : db.tabs[t]? with
    | none => simp [htab] at hcol
    | some tab =>
        rw [htab] at hcol
        have hown : col.tabName = t := hdb.owned t tab htab col hcol
        exact ⟨⟨tab, hown ▸ htab, hcol⟩, hown ▸ ht⟩
  · rintro ⟨⟨tab, htab, hcol⟩, ht⟩
    refine ⟨col.tabName, ht, ?_⟩
    rw [htab]
    exact hcol

/-- Columns of one name and one table are one column. -/
theorem DbMeta.HasCol.unique {c c' : ColMeta} (hdb : db.Sound) (hc : db.HasCol c)
    (hc' : db.HasCol c') (h : c.tabCol = c'.tabCol) : c = c' := by
  obtain ⟨htabName, hname⟩ := TabCol.mk.inj h
  obtain ⟨tab, htab, hmem⟩ := hc
  obtain ⟨tab', htab', hmem'⟩ := hc'
  rw [← htabName, htab, Option.some.injEq] at htab'
  subst htab'
  exact List.inj_on_of_nodup_map (hdb.names _ _ htab) hmem hmem' hname

theorem Resolves.hasCol (hdb : db.Sound) (h : Resolves db tabNames target col) : db.HasCol col := by
  cases h with
  | qualified _ hcol _ => exact hcol
  | inferred hone =>
      have hmem := List.mem_of_mem_filter (hone ▸ List.mem_singleton_self col)
      exact ((mem_colsOf hdb).mp hmem).1

/-- A name stands for one column. -/
theorem Resolves.unique {col' : ColMeta} (hdb : db.Sound) (h : Resolves db tabNames target col)
    (h' : Resolves db tabNames target col') : col = col' := by
  cases h with
  | qualified hne hcol hkey =>
      cases h' with
      | qualified _ hcol' hkey' => exact hcol.unique hdb hcol' (hkey.trans hkey'.symm)
      | inferred _ => exact absurd rfl hne
  | inferred hone =>
      cases h' with
      | qualified hne _ _ => exact absurd rfl hne
      | inferred hone' => exact List.singleton_inj.mp (hone.symm.trans hone')

/-- A name that has a table already gets no other. -/
theorem resolves_qualified_iff (hne : target.tabName ≠ "") :
    Resolves db tabNames target col ↔ db.HasCol col ∧ col.tabCol = target := by
  constructor
  · intro h
    cases h with
    | qualified _ hcol hkey => exact ⟨hcol, hkey⟩
    | inferred _ => exact absurd rfl hne
  · rintro ⟨hcol, hkey⟩
    exact .qualified hne hcol hkey

theorem resolves_inferred_iff {colName : String} : Resolves db tabNames ⟨"", colName⟩ col
    ↔ ((db.colsOf tabNames).filter fun c => c.name = colName) = [col] := by
  constructor
  · intro h
    cases h with
    | qualified hne _ _ => exact absurd rfl hne
    | inferred hone => exact hone
  · exact .inferred

namespace QlManager

theorem inferTable_found {colName t : String} (ht : t ≠ "") : ∀ {cols : List ColMeta},
    inferTable colName t cols = if cols.filter (fun c => c.name = colName) = [] then .ok t
      else .error (.ambiguousColumnError colName)
  | [] => rfl
  | c :: cols => by
      unfold inferTable
      by_cases hc : c.name = colName
      · rw [if_pos hc, if_pos ht, List.filter_cons_of_pos (by simpa using hc), if_neg (by simp)]
      · rw [if_neg hc, List.filter_cons_of_neg (by simpa using hc), inferTable_found ht]

/-- **The loop of `check_column`**: none, one, or more than one. -/
theorem inferTable_eq {colName : String} : ∀ {cols : List ColMeta}, (∀ c ∈ cols, c.tabName ≠ "") →
    inferTable colName "" cols = match cols.filter fun c => c.name = colName with
      | [] => .ok ""
      | [c] => .ok c.tabName
      | _ => .error (.ambiguousColumnError colName)
  | [], _ => rfl
  | c :: cols, hne => by
      obtain ⟨hc, hcols⟩ := List.forall_mem_cons.mp hne
      unfold inferTable
      by_cases hname : c.name = colName
      · rw [if_pos hname, if_neg (by simp), inferTable_found hc,
          List.filter_cons_of_pos (by simpa using hname)]
        cases cols.filter fun c => c.name = colName with
        | nil => rfl
        | cons d ds => rfl
      · rw [if_neg hname, List.filter_cons_of_neg (by simpa using hname), inferTable_eq hcols]

/-- A name without a table. -/
theorem checkColumn_inferred_iff (hdb : db.Sound) {colName : String} :
    checkColumn isCol db (db.colsOf tabNames) ⟨"", colName⟩ = .ok r
      ↔ ∃ col, Resolves db tabNames ⟨"", colName⟩ col ∧ col.tabCol = r := by
  have hne : ∀ c ∈ db.colsOf tabNames, c.tabName ≠ "" := by
    intro c hc
    obtain ⟨tab, htab, _⟩ := ((mem_colsOf hdb).mp hc).1
    exact hdb.named _ _ htab
  simp only [resolves_inferred_iff]
  unfold checkColumn
  rw [if_pos rfl, inferTable_eq hne]
  cases hcols : (db.colsOf tabNames).filter fun c => c.name = colName with
  | nil =>
      refine ⟨nofun, ?_⟩
      rintro ⟨c, hc, _⟩
      cases hc
  | cons c rest =>
      cases rest with
      | nil =>
          have hmem : c ∈ (db.colsOf tabNames).filter fun c => c.name = colName := hcols ▸ by simp
          have hname : c.name = colName := by simpa using (List.mem_filter.mp hmem).2
          dsimp only
          rw [if_neg (hne c (List.mem_of_mem_filter hmem)), Except.ok.injEq, ← hname]
          constructor
          · intro h
            exact ⟨c, rfl, h⟩
          · rintro ⟨c', hc', rfl⟩
            obtain rfl := List.singleton_inj.mp hc'
            rfl
      | cons d ds =>
          refine ⟨nofun, ?_⟩
          rintro ⟨c', hc', _⟩
          exact absurd hc' (by simp)

/-- A name with one. -/
theorem checkColumn_qualified_iff (hdb : db.Sound) (hlook : ColumnLookup isCol getCol)
    (hne : target.tabName ≠ "") :
    checkColumn isCol db (db.colsOf tabNames) target = .ok r
      ↔ ∃ col, Resolves db tabNames target col ∧ col.tabCol = r := by
  simp only [resolves_qualified_iff hne]
  unfold checkColumn
  rw [if_neg hne]
  cases htab : db.tabs[target.tabName]? with
  | none =>
      have hget : db.getTable target.tabName = .error (.tableNotFoundError target.tabName) := by
        unfold DbMeta.getTable
        rw [htab]
      rw [hget]
      refine ⟨nofun, ?_⟩
      rintro ⟨c, ⟨⟨tab, htab', _⟩, rfl⟩, _⟩
      exact absurd (htab.symm.trans htab') (by simp)
  | some tab =>
      rw [getTable_of_some htab]
      dsimp only
      by_cases hcol : isCol tab target.colName = true
      · rw [if_pos hcol, Except.ok.injEq]
        obtain ⟨c, hc, hname⟩ := (hlook.isCol_iff tab target.colName).mp hcol
        have hown := hdb.owned target.tabName tab htab c hc
        constructor
        · intro h
          have hcr : c.tabCol = target := by rw [ColMeta.tabCol, hown, hname]
          exact ⟨c, ⟨⟨tab, hown ▸ htab, hc⟩, hcr⟩, hcr.trans h⟩
        · rintro ⟨c', ⟨_, hc'⟩, rfl⟩
          exact hc'.symm
      · rw [if_neg hcol]
        refine ⟨nofun, ?_⟩
        rintro ⟨c, ⟨⟨tab', htab', hmem⟩, rfl⟩, _⟩
        obtain rfl := Option.some.inj (htab.symm.trans htab')
        exact absurd ((hlook.isCol_iff tab c.name).mpr ⟨c, hmem, rfl⟩) hcol

/-- **`check_column` gives a name the table of its column**, or throws. -/
theorem checkColumn_ok_iff (hdb : db.Sound) (hlook : ColumnLookup isCol getCol) :
    checkColumn isCol db (db.colsOf tabNames) target = .ok r
      ↔ ∃ col, Resolves db tabNames target col ∧ col.tabCol = r := by
  obtain ⟨tabName, colName⟩ := target
  by_cases hempty : tabName = ""
  · rw [hempty]
    exact checkColumn_inferred_iff hdb
  · exact checkColumn_qualified_iff hdb hlook hempty

/-- It does not fail otherwise. -/
theorem checkColumn_throws {allCols : List ColMeta} :
    checkColumn isCol db allCols target ≠ .error (.redBase .assertionFailure) := by
  have hinfer : ∀ {t cols},
      inferTable target.colName t cols ≠ .error (.redBase .assertionFailure) := by
    intro t cols
    induction cols generalizing t with
    | nil => exact nofun
    | cons c cols ih =>
        unfold inferTable
        split
        · split
          · exact nofun
          · exact ih
        · exact ih
  unfold checkColumn
  split
  · split
    · rename_i e he
      exact fun h => hinfer (he.trans (congrArg _ (Except.error.inj h)))
    · split <;> exact nofun
  · split
    · split <;> exact nofun
    · exact nofun

/-- A column that was found is found again by its name. -/
theorem findCol_tabCol (hdb : db.Sound) (hlook : ColumnLookup isCol getCol) (hcol : db.HasCol col) :
    findCol getCol db col.tabCol = .ok col := by
  obtain ⟨tab, htab, hmem⟩ := hcol
  obtain ⟨i, hi⟩ := hlook.finds tab col.name ⟨col, hmem, rfl⟩
  have hname := hlook.found tab col.name i hi
  have heq : tab.cols.get i = col :=
    List.inj_on_of_nodup_map (hdb.names _ _ htab) (List.get_mem _ _) hmem hname
  unfold findCol
  rw [show db.getTable col.tabCol.tabName = .ok tab from getTable_of_some htab]
  show (getCol tab col.name >>= fun i => pure (tab.cols.get i)) = _
  rw [hi]
  exact congrArg _ heq

end QlManager

/-! ## `init_raw` -/

theorem initRaw_datum {len : Int} (h : v.initRaw heap len = .ok v') :
    v'.datum = v.datum ∧ v'.raw.isSome := by
  unfold Value.initRaw at h
  split at h
  · cases h
  · split at h
    · cases h
    · split at h <;> split at h <;> cases h <;> exact ⟨rfl, rfl⟩

/-- **`init_raw` of a fresh constant** returns if a number is put where a number is, or a string where
it has room. -/
theorem initRaw_fresh (heap : Nat → UInt8) (hcol : col.Sized) (hfresh : v.raw = none) :
    ((∃ v', v.initRaw heap col.len = .ok v') ↔ (v.datum.type ≠ .typeString → col.len = 4)
        ∧ ∀ s, v.datum = .str s → toInt s.length ≤ col.len)
      ∧ (v.initRaw heap col.len = .error .assertionFailure
        ↔ v.datum.type ≠ .typeString ∧ col.len ≠ 4) := by
  have hneg : ¬ col.len < 0 := Int.not_lt.mpr hcol.nonneg
  obtain ⟨d, raw⟩ := v
  subst hfresh
  unfold Value.initRaw
  rw [if_neg (by simp), if_neg hneg]
  cases d with
  | int n => by_cases hlen : col.len = 4 <;> simp [hlen, Datum.type]
  | float n => by_cases hlen : col.len = 4 <;> simp [hlen, Datum.type]
  | str s => by_cases hlong : col.len < toInt s.length <;> simp [hlong, Datum.type, Int.not_lt.mp]

/-- With the types compared as well, the constant suits the column. -/
theorem suits_iff (heap : Nat → UInt8) (hcol : col.Sized) (hfresh : v.raw = none) :
    v.datum.Suits col ↔ col.type = v.datum.type ∧ ∃ v', v.initRaw heap col.len = .ok v' := by
  rw [(initRaw_fresh heap hcol hfresh).1]
  unfold Datum.Suits
  constructor
  · rintro ⟨htype, hroom⟩
    refine ⟨htype.symm, fun h => hcol.number (htype ▸ h), fun s hs => ?_⟩
    rw [hs] at hroom
    exact hroom
  · rintro ⟨htype, _, hroom⟩
    refine ⟨htype.symm, ?_⟩
    cases hd : v.datum with
    | int n => trivial
    | float n => trivial
    | str s => exact hroom s hd

/-! ## One condition -/

/-- What the check makes of a condition: the columns have their tables, and the constant its
bytes. -/
inductive Checked (db : DbMeta) (tabNames : List String) (heap : Nat → UInt8) :
    Condition → Condition → Prop
  | val {a : TabCol} {l : ColMeta} {op : CompOp} {v v' : Value} : Resolves db tabNames a l →
      v.initRaw heap l.len = .ok v' → l.type = v.datum.type →
      Checked db tabNames heap ⟨a, op, .val v⟩ ⟨l.tabCol, op, .val v'⟩
  | col {a b : TabCol} {l r : ColMeta} {op : CompOp} : Resolves db tabNames a l →
      Resolves db tabNames b r → l.type = r.type →
      Checked db tabNames heap ⟨a, op, .col b⟩ ⟨l.tabCol, op, .col r.tabCol⟩

/-- A constant has no bytes yet. -/
def Condition.Fresh (cond : Condition) : Prop := ∀ v, cond.rhs = .val v → v.raw = none

theorem fresh_interpCond (expr : Ast.BinaryExpr) : (Interp.interpCond expr).Fresh := by
  intro v hv
  unfold Interp.interpCond at hv
  cases hrhs : expr.rhs with
  | col c => simp [hrhs] at hv
  | value w =>
      simp only [hrhs, Operand.val.injEq] at hv
      rw [← hv]
      cases w <;> rfl

/-- A clause is well typed if the check can make something of its conditions. -/
theorem wellTyped_iff (hdb : db.Sound) (hfresh : cond.Fresh) :
    WellTyped db tabNames cond ↔ ∃ c, Checked db tabNames heap cond c := by
  constructor
  · rintro (⟨hl, hsuits⟩ | ⟨hl, hr, htype⟩)
    · obtain ⟨tab, htab, hmem⟩ := hl.hasCol hdb
      obtain ⟨htype, v', hv'⟩ := (suits_iff heap (hdb.sized _ _ htab _ hmem)
        (hfresh _ rfl)).mp hsuits
      exact ⟨_, .val hl hv' htype⟩
    · exact ⟨_, .col hl hr htype⟩
  · rintro ⟨c, hl, hv', htype⟩
    · obtain ⟨tab, htab, hmem⟩ := hl.hasCol hdb
      exact .val hl ((suits_iff heap (hdb.sized _ _ htab _ hmem) (hfresh _ rfl)).mpr ⟨htype, _, hv'⟩)
    · exact .col ‹_› ‹_› ‹_›

namespace QlManager

theorem lift_eq_ok {α : Type} {x : Except RedBaseError α} {a : α} :
    QlError.lift x = .ok a ↔ x = .ok a := by
  cases x <;> simp [QlError.lift]

theorem lift_eq_error {α : Type} {x : Except RedBaseError α} {e : RedBaseError} :
    (QlError.lift x : Except QlError α) = .error (.redBase e) ↔ x = .error e := by
  cases x <;> simp [QlError.lift]

/-- With the column on the left found, the constant gets its bytes, and then the types are
compared. -/
theorem checkCond_val_spec {getCol : TabCol → Except RedBaseError ColMeta} {a : TabCol}
    (heap : Nat → UInt8) (op : CompOp) (ha : getCol a = .ok l) (hsized : l.Sized)
    (hfresh : v.raw = none) :
    (∀ c, checkCond getCol heap ⟨a, op, .val v⟩ = .ok c ↔ ∃ v', v.initRaw heap l.len = .ok v'
        ∧ l.type = v.datum.type ∧ c = ⟨a, op, .val v'⟩)
      ∧ (checkCond getCol heap ⟨a, op, .val v⟩ = .error .assertionFailure
        ↔ v.datum.type ≠ .typeString ∧ l.len ≠ 4) := by
  have hrun : checkCond getCol heap ⟨a, op, .val v⟩
      = (v.initRaw heap l.len).bind fun v' => if l.type = v'.datum.type then .ok ⟨a, op, .val v'⟩
          else .error (.incompatibleTypeError (coltype2str l.type) (coltype2str v'.datum.type)) := by
    unfold checkCond
    rw [ha]
    rfl
  rw [hrun, ← (initRaw_fresh heap hsized hfresh).2]
  cases hv : v.initRaw heap l.len with
  | error e => simp [Except.bind]
  | ok v' =>
      dsimp only [Except.bind]
      rw [(initRaw_datum hv).1]
      by_cases htype : l.type = v.datum.type <;> simp [htype, eq_comm]

theorem checkCond_col_spec {getCol : TabCol → Except RedBaseError ColMeta} {a b : TabCol}
    {r : ColMeta} (heap : Nat → UInt8) (op : CompOp) (ha : getCol a = .ok l) (hb : getCol b = .ok r) :
    (∀ c, checkCond getCol heap ⟨a, op, .col b⟩ = .ok c ↔ l.type = r.type ∧ c = ⟨a, op, .col b⟩)
      ∧ checkCond getCol heap ⟨a, op, .col b⟩ ≠ .error .assertionFailure := by
  have hrun : checkCond getCol heap ⟨a, op, .col b⟩ = if l.type = r.type then .ok ⟨a, op, .col b⟩
      else .error (.incompatibleTypeError (coltype2str l.type) (coltype2str r.type)) := by
    unfold checkCond
    rw [ha]
    show (getCol b >>= fun r => _) = _
    rw [hb]
    rfl
  rw [hrun]
  by_cases htype : l.type = r.type <;> simp [htype, eq_comm]

/-- A name that stands for no column. -/
theorem checkColumn_error (hdb : db.Sound) (hlook : ColumnLookup isCol getCol) {e : QlError}
    (h : checkColumn isCol db (db.colsOf tabNames) target = .error e) :
    (∀ c, ¬ Resolves db tabNames target c) ∧ e ≠ .redBase .assertionFailure := by
  refine ⟨fun c hc => ?_, ?_⟩
  · have := (checkColumn_ok_iff hdb hlook).mpr ⟨c, hc, rfl⟩
    rw [h] at this
    cases this
  · rintro rfl
    exact checkColumn_throws h

/-- The column on the left stands for `l`, and a constant is on the right. -/
theorem checkOne_val_spec (hdb : db.Sound) (hlook : ColumnLookup isCol getCol) {a : TabCol}
    (op : CompOp) (hl : Resolves db tabNames a l) (hfresh : v.raw = none) :
    (∀ c, checkOne isCol getCol db heap (db.colsOf tabNames) ⟨a, op, .val v⟩ = .ok c
        ↔ Checked db tabNames heap ⟨a, op, .val v⟩ c)
      ∧ (checkOne isCol getCol db heap (db.colsOf tabNames) ⟨a, op, .val v⟩
          = .error (.redBase .assertionFailure) ↔ NumberMeetsLength db tabNames ⟨a, op, .val v⟩) := by
  have ha := (checkColumn_ok_iff hdb hlook).mpr ⟨l, hl, rfl⟩
  have hrun : checkOne isCol getCol db heap (db.colsOf tabNames) ⟨a, op, .val v⟩
      = QlError.lift (checkCond (findCol getCol db) heap ⟨l.tabCol, op, .val v⟩) := by
    unfold checkOne
    rw [ha]
    rfl
  obtain ⟨tab, htab, hmem⟩ := hl.hasCol hdb
  obtain ⟨hok, hassert⟩ := checkCond_val_spec heap op (findCol_tabCol hdb hlook (hl.hasCol hdb))
    (hdb.sized _ _ htab _ hmem) hfresh
  rw [hrun, lift_eq_error, hassert]
  refine ⟨fun c => ?_, fun h => ⟨l, v, hl, rfl, h⟩, ?_⟩
  · rw [lift_eq_ok, hok]
    constructor
    · rintro ⟨v', hv', htype, rfl⟩
      exact .val hl hv' htype
    · rintro ⟨hl', hv', htype⟩
      obtain rfl := hl.unique hdb hl'
      exact ⟨_, hv', htype, rfl⟩
  · rintro ⟨l', v', hl', hv', hnum⟩
    obtain rfl := hl.unique hdb hl'
    obtain rfl := Operand.val.inj hv'
    exact hnum

/-- A column is on the right: no constant, and so no assertion. -/
theorem checkOne_col_spec (hdb : db.Sound) (hlook : ColumnLookup isCol getCol) {a b : TabCol}
    (op : CompOp) (hl : Resolves db tabNames a l) :
    (∀ c, checkOne isCol getCol db heap (db.colsOf tabNames) ⟨a, op, .col b⟩ = .ok c
        ↔ Checked db tabNames heap ⟨a, op, .col b⟩ c)
      ∧ checkOne isCol getCol db heap (db.colsOf tabNames) ⟨a, op, .col b⟩
          ≠ .error (.redBase .assertionFailure) := by
  have ha := (checkColumn_ok_iff hdb hlook).mpr ⟨l, hl, rfl⟩
  cases hb : checkColumn isCol db (db.colsOf tabNames) b with
  | error e =>
      obtain ⟨hno, he⟩ := checkColumn_error hdb hlook hb
      have hrun : checkOne isCol getCol db heap (db.colsOf tabNames) ⟨a, op, .col b⟩
          = .error e := by
        unfold checkOne
        rw [ha]
        show (checkColumn isCol db (db.colsOf tabNames) b >>= fun r => _) = _
        rw [hb]
        rfl
      rw [hrun]
      refine ⟨fun c => ⟨nofun, fun h => ?_⟩, fun h => he (Except.error.inj h)⟩
      cases h with
      | col _ hr _ => exact absurd hr (hno _)
  | ok b' =>
      obtain ⟨r, hr, rfl⟩ := (checkColumn_ok_iff hdb hlook).mp hb
      have hrun : checkOne isCol getCol db heap (db.colsOf tabNames) ⟨a, op, .col b⟩
          = QlError.lift (checkCond (findCol getCol db) heap ⟨l.tabCol, op, .col r.tabCol⟩) := by
        unfold checkOne
        rw [ha]
        show (checkColumn isCol db (db.colsOf tabNames) b >>= fun r => _) = _
        rw [hb]
        rfl
      obtain ⟨hok, hno⟩ := checkCond_col_spec heap op
        (findCol_tabCol hdb hlook (hl.hasCol hdb)) (findCol_tabCol hdb hlook (hr.hasCol hdb))
      rw [hrun, ne_eq, lift_eq_error]
      refine ⟨fun c => ?_, hno⟩
      rw [lift_eq_ok, hok]
      constructor
      · rintro ⟨htype, rfl⟩
        exact .col hl hr htype
      · intro h
        cases h with
        | col hl' hr' htype =>
            obtain rfl := hl.unique hdb hl'
            obtain rfl := hr.unique hdb hr'
            exact ⟨htype, rfl⟩

/-- **One round of the check**: what it returns, and when an assertion fails. -/
theorem checkOne_spec (hdb : db.Sound) (hlook : ColumnLookup isCol getCol) (hfresh : cond.Fresh) :
    (∀ c, checkOne isCol getCol db heap (db.colsOf tabNames) cond = .ok c
        ↔ Checked db tabNames heap cond c)
      ∧ (checkOne isCol getCol db heap (db.colsOf tabNames) cond
          = .error (.redBase .assertionFailure) ↔ NumberMeetsLength db tabNames cond) := by
  obtain ⟨a, op, rhs⟩ := cond
  cases ha : checkColumn isCol db (db.colsOf tabNames) a with
  | error e =>
      obtain ⟨hno, he⟩ := checkColumn_error hdb hlook ha
      unfold checkOne
      rw [ha]
      refine ⟨fun c => ⟨nofun, fun h => ?_⟩, fun h => absurd (Except.error.inj h) he, ?_⟩
      · cases h with
        | val hl _ _ => exact absurd hl (hno _)
        | col hl _ _ => exact absurd hl (hno _)
      · rintro ⟨l, v, hl, _⟩
        exact absurd hl (hno l)
  | ok a' =>
      obtain ⟨l, hl, rfl⟩ := (checkColumn_ok_iff hdb hlook).mp ha
      cases rhs with
      | val v => exact checkOne_val_spec hdb hlook op hl (hfresh v rfl)
      | col b =>
          obtain ⟨hok, hno⟩ := checkOne_col_spec hdb hlook op hl
          refine ⟨hok, fun h => absurd h hno, ?_⟩
          rintro ⟨_, _, _, hv, _⟩
          cases hv

/-! ## The clause -/

variable {svConds : List Ast.BinaryExpr} {checked : List Condition}

theorem getAllCols_ok : ∀ {tabNames : List String}, (∀ t ∈ tabNames, db.isTable t = true) →
    getAllCols db tabNames = .ok (db.colsOf tabNames)
  | [], _ => rfl
  | t :: tabNames, h => by
      obtain ⟨ht, hrest⟩ := List.forall_mem_cons.mp h
      rw [isTable_eq] at ht
      obtain ⟨tab, htab⟩ := Option.isSome_iff_exists.mp ht
      unfold getAllCols
      rw [getTable_of_some htab, getAllCols_ok hrest]
      unfold DbMeta.colsOf
      rw [List.flatMap_cons, htab]
      rfl

theorem getAllCols_error : ∀ {tabNames : List String}, (∃ t ∈ tabNames, db.isTable t = false) →
    ∃ t, getAllCols db tabNames = .error (.redBase (.tableNotFoundError t))
  | [], h => by simp at h
  | t :: tabNames, h => by
      unfold getAllCols
      cases htab : db.tabs[t]? with
      | none =>
          unfold DbMeta.getTable
          rw [htab]
          exact ⟨t, rfl⟩
      | some tab =>
          have hrest : ∃ t ∈ tabNames, db.isTable t = false := by
            obtain ⟨t', ht', hno⟩ := h
            rcases List.mem_cons.mp ht' with rfl | ht'
            · rw [isTable_eq, htab] at hno
              cases hno
            · exact ⟨t', ht', hno⟩
          obtain ⟨t', ht'⟩ := getAllCols_error hrest
          rw [getTable_of_some htab, ht']
          exact ⟨t', rfl⟩

theorem checkWhereClause_noTable (isCol : IsCol) (getCol : GetCol) (heap : Nat → Nat → UInt8)
    (conds : List Condition) (h : ¬ ∀ t ∈ tabNames, db.isTable t = true) :
    ∃ t, checkWhereClause isCol getCol db heap tabNames conds
      = .error (.redBase (.tableNotFoundError t)) := by
  push Not at h
  obtain ⟨t, ht, hno⟩ := h
  obtain ⟨t', ht'⟩ := getAllCols_error ⟨t, ht, by simpa using hno⟩
  unfold checkWhereClause
  rw [ht']
  exact ⟨t', rfl⟩

theorem checkWhereClause_tables {heap : Nat → Nat → UInt8} {conds : List Condition}
    (h : ∀ t ∈ tabNames, db.isTable t = true) :
    checkWhereClause isCol getCol db heap tabNames conds = conds.zipIdx.mapM fun entry =>
      checkOne isCol getCol db (heap entry.2) (db.colsOf tabNames) entry.1 := by
  unfold checkWhereClause
  rw [getAllCols_ok h]
  rfl

theorem fresh_interpWhereClause (svConds : List Ast.BinaryExpr) :
    ∀ c ∈ Interp.interpWhereClause svConds, c.Fresh := by
  intro c hc
  obtain ⟨expr, _, rfl⟩ := List.mem_map.mp hc
  exact fresh_interpCond expr

theorem checkOne_returns_iff (hdb : db.Sound) (hlook : ColumnLookup isCol getCol)
    (hfresh : cond.Fresh) :
    (∃ c, checkOne isCol getCol db heap (db.colsOf tabNames) cond = .ok c)
      ↔ WellTyped db tabNames cond := by
  rw [wellTyped_iff hdb hfresh]
  exact exists_congr (checkOne_spec hdb hlook hfresh).1

/-- The check returns for well-typed clauses. -/
theorem checkWhereClause_returns_iff (hdb : db.Sound) (hlook : ColumnLookup isCol getCol)
    (heap : Nat → Nat → UInt8) (tabNames : List String) (svConds : List Ast.BinaryExpr) :
    (∃ checked, checkWhereClause isCol getCol db heap tabNames (Interp.interpWhereClause svConds)
        = .ok checked)
      ↔ (∀ t ∈ tabNames, db.isTable t = true)
        ∧ ∀ c ∈ Interp.interpWhereClause svConds, WellTyped db tabNames c := by
  by_cases htabs : ∀ t ∈ tabNames, db.isTable t = true
  · rw [checkWhereClause_tables htabs, mapM_returns_iff, and_iff_right htabs]
    have hfresh := fresh_interpWhereClause svConds
    generalize Interp.interpWhereClause svConds = conds at hfresh
    constructor
    · intro h c hc
      obtain ⟨i, hi⟩ := List.getElem?_of_mem hc
      exact (checkOne_returns_iff hdb hlook (hfresh c hc)).mp
        (h (c, i) (List.mem_zipIdx_iff_getElem?.mpr hi))
    · intro h entry hentry
      have hc := List.fst_mem_of_mem_zipIdx hentry
      exact (checkOne_returns_iff hdb hlook (hfresh _ hc)).mpr (h _ hc)
  · obtain ⟨t, ht⟩ := checkWhereClause_noTable isCol getCol heap
      (Interp.interpWhereClause svConds) htabs
    rw [ht]
    exact ⟨nofun, fun h => absurd h.1 htabs⟩

/-- Its assertion fails at a number, where everything before is well typed. -/
theorem checkWhereClause_asserts_iff (hdb : db.Sound) (hlook : ColumnLookup isCol getCol)
    (heap : Nat → Nat → UInt8) (tabNames : List String) (svConds : List Ast.BinaryExpr) :
    checkWhereClause isCol getCol db heap tabNames (Interp.interpWhereClause svConds)
        = .error (.redBase .assertionFailure)
      ↔ (∀ t ∈ tabNames, db.isTable t = true) ∧ ∃ pre c post,
          Interp.interpWhereClause svConds = pre ++ c :: post
          ∧ (∀ c' ∈ pre, WellTyped db tabNames c') ∧ NumberMeetsLength db tabNames c := by
  by_cases htabs : ∀ t ∈ tabNames, db.isTable t = true
  · rw [checkWhereClause_tables htabs, mapM_eq_error, and_iff_right htabs]
    have hfresh := fresh_interpWhereClause svConds
    generalize Interp.interpWhereClause svConds = conds at hfresh
    constructor
    · rintro ⟨pre, entry, post, hsplit, hpre, hentry⟩
      have hconds : conds = pre.map Prod.fst ++ entry.1 :: post.map Prod.fst := by
        rw [← List.map_cons, ← List.map_append, ← hsplit]
        simp
      have hmem : ∀ e ∈ pre ++ entry :: post, e.1.Fresh := fun e he =>
        hfresh _ (List.fst_mem_of_mem_zipIdx (hsplit ▸ he))
      refine ⟨_, entry.1, _, hconds, fun c hc => ?_, ?_⟩
      · obtain ⟨e, he, rfl⟩ := List.mem_map.mp hc
        exact (checkOne_returns_iff hdb hlook (hmem e (List.mem_append_left _ he))).mp (hpre e he)
      · exact (checkOne_spec hdb hlook (hmem entry (by simp))).2.mp hentry
    · rintro ⟨pre, c, post, hsplit, hpre, hc⟩
      have hmem : ∀ c' ∈ pre ++ c :: post, c'.Fresh := hsplit ▸ hfresh
      refine ⟨pre.zipIdx, (c, pre.length), post.zipIdx (pre.length + 1), ?_, fun e he => ?_, ?_⟩
      · rw [hsplit, List.zipIdx_append, List.zipIdx_cons, Nat.zero_add]
      · have he := List.fst_mem_of_mem_zipIdx he
        exact (checkOne_returns_iff hdb hlook (hmem _ (List.mem_append_left _ he))).mpr (hpre _ he)
      · exact (checkOne_spec hdb hlook (hmem c (by simp))).2.mpr hc
  · obtain ⟨t, ht⟩ := checkWhereClause_noTable isCol getCol heap
      (Interp.interpWhereClause svConds) htabs
    rw [ht]
    exact ⟨fun h => (by cases h), fun h => absurd h.1 htabs⟩

/-- **What `check_where_clause` accepts.** It returns if and only if the tables exist and every
condition is well typed. It fails an assertion if and only if the tables exist and the first condition
that is not well typed compares a number with a column that is not as long as a number. -/
theorem checkWhereClause_spec (hdb : db.Sound) (hlook : ColumnLookup isCol getCol)
    (heap : Nat → Nat → UInt8) (tabNames : List String) (svConds : List Ast.BinaryExpr) :
    let conds := Interp.interpWhereClause svConds
    ((∃ checked, checkWhereClause isCol getCol db heap tabNames conds = .ok checked)
        ↔ (∀ t ∈ tabNames, db.isTable t = true) ∧ ∀ c ∈ conds, WellTyped db tabNames c)
      ∧ (checkWhereClause isCol getCol db heap tabNames conds = .error (.redBase .assertionFailure)
        ↔ (∀ t ∈ tabNames, db.isTable t = true) ∧ ∃ pre c post, conds = pre ++ c :: post
          ∧ (∀ c' ∈ pre, WellTyped db tabNames c') ∧ NumberMeetsLength db tabNames c) :=
  ⟨checkWhereClause_returns_iff hdb hlook heap tabNames svConds,
    checkWhereClause_asserts_iff hdb hlook heap tabNames svConds⟩

end QlManager

/-! ## Two tables -/

/-- `is_col` and `get_col`, as a search for the first column of that name. -/
def anyCol : IsCol := fun tab colName => tab.cols.any (·.name == colName)

theorem firstCol_lookup : ColumnLookup anyCol firstCol where
  isCol_iff tab colName := by simp [anyCol]
  found _ _ _ := firstCol_found
  finds _ _ := firstCol_finds

/-- Table `a` has a number and a string, table `b` a number. -/
def tabA : TabMeta :=
  ⟨"a", [⟨"a", "x", .typeInt, 4, 0, false⟩, ⟨"a", "y", .typeString, 8, 4, false⟩]⟩

def tabB : TabMeta := ⟨"b", [⟨"b", "z", .typeInt, 4, 0, false⟩]⟩

def twoTables : DbMeta := ⟨"db", Std.TreeMap.insert (Std.TreeMap.insert ∅ "a" tabA) "b" tabB⟩

theorem twoTables_cases {t : String} {tab : TabMeta} (h : twoTables.tabs[t]? = some tab) :
    t = "a" ∧ tab = tabA ∨ t = "b" ∧ tab = tabB := by
  unfold twoTables at h
  rw [Std.TreeMap.getElem?_insert] at h
  split at h
  · rename_i hb
    exact .inr ⟨(Std.LawfulEqOrd.eq_of_compare hb).symm, (Option.some.inj h).symm⟩
  · rw [Std.TreeMap.getElem?_insert] at h
    split at h
    · rename_i ha
      exact .inl ⟨(Std.LawfulEqOrd.eq_of_compare ha).symm, (Option.some.inj h).symm⟩
    · simp at h

theorem twoTables_sound : twoTables.Sound := by
  have hsized : ∀ col ∈ tabA.cols ++ tabB.cols, 0 ≤ col.len ∧ IsInt32 col.len
      ∧ (col.type ≠ .typeString → col.len = 4) := by decide
  constructor
  all_goals
    intro t tab h
    obtain ⟨rfl, rfl⟩ | ⟨rfl, rfl⟩ := twoTables_cases h
  case columns.inl | columns.inr | named.inl | named.inr => decide
  case owned.inl | owned.inr | names.inl | names.inr => decide
  case sized.inl =>
    intro col hcol
    obtain ⟨h0, hint, hnum⟩ := hsized col (List.mem_append_left _ hcol)
    exact ⟨h0, hint, hnum⟩
  case sized.inr =>
    intro col hcol
    obtain ⟨h0, hint, hnum⟩ := hsized col (List.mem_append_right _ hcol)
    exact ⟨h0, hint, hnum⟩

theorem twoTables_a : twoTables.tabs["a"]? = some tabA := by decide +kernel

open QlManager in
/-- `FROM a WHERE y = 5`: `init_raw` fails, where the types should be found different. -/
theorem checkWhereClause_spec_number :
    checkWhereClause anyCol firstCol twoTables (fun _ _ => 0) ["a"]
        (Interp.interpWhereClause [⟨⟨"", "y"⟩, .eq, .value (.intLit 5)⟩])
      = .error (.redBase .assertionFailure) := by
  refine (checkWhereClause_spec twoTables_sound firstCol_lookup _ _ _).2.mpr
    ⟨?_, [], _, [], rfl, by simp, ?_⟩
  · exact List.forall_mem_singleton.mpr (by rw [isTable_eq, twoTables_a]; rfl)
  · refine ⟨⟨"a", "y", .typeString, 8, 4, false⟩, .setInt 5, .inferred ?_, rfl, by decide, by decide⟩
    simp only [DbMeta.colsOf, List.flatMap_cons, List.flatMap_nil, twoTables_a]
    decide

end Rucbase
