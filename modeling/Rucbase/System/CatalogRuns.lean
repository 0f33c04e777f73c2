import Mathlib.Logic.Equiv.List
import Rucbase.System.IndexRecords
import Rucbase.System.OpenDbProof

/-!
# Runs of catalog calls

The handles of `SmManager` mirror the catalog in every state of a session: after `open_db`, and after
every call that creates a table, or creates or drops an index, whether it returns or raises, unless a
system call fails. So `fhs_.at` and `ihs_.at` find what they look for, and what a call can raise is
what it says.
-/

namespace Rucbase

open Lib BufferPoolManager

namespace SmManager

variable {u : Unspecified} {getCol : GetCol} {fuel : Nat} {s s' : SmManager} {t c n : String}
  {tab : TabMeta} {e : RedBaseError} {colDefs : List ColDef} {fd fd' : Int} {pool : BufferPoolManager}

/-- `get_col` as its comment asks: it finds the column of that name. -/
structure FindsCol (getCol : GetCol) : Prop where
  found : ∀ tab c i, getCol tab c = .ok i → (tab.cols.get i).name = c
  finds : ∀ tab c, (∃ col ∈ tab.cols, col.name = c) → ∃ i, getCol tab c = .ok i
  raises : RaisesForAbsent getCol

/-- `e` says that the table has no column of that name, or it is an error about the one there is. -/
def LookupError (getCol : GetCol) (tab : TabMeta) (c : String) (e : RedBaseError)
    (P : Fin tab.cols.length → Prop) : Prop :=
  e = .columnNotFoundError c ∧ (∀ col ∈ tab.cols, col.name ≠ c)
    ∨ ∃ i, getCol tab c = .ok i ∧ (tab.cols.get i).name = c ∧ P i

theorem FindsCol.lookupError (hget : FindsCol getCol) (h : getCol tab c = .error e)
    (P : Fin tab.cols.length → Prop) : LookupError getCol tab c e P := by
  have habsent : ∀ col ∈ tab.cols, col.name ≠ c := by
    intro col hcol hname
    obtain ⟨i, hi⟩ := hget.finds tab c ⟨col, hcol, hname⟩
    rw [h] at hi
    cases hi
  rw [hget.raises tab c habsent, Except.error.injEq] at h
  exact .inl ⟨h.symm, habsent⟩

/-! ## The catalog -/

/-- The tables after `tabs_[t] = tab`. -/
theorem getElem?_insertTab (tabs : Std.TreeMap String TabMeta) (t : String) (tab : TabMeta) :
    (fun k => (tabs.insert t tab)[k]?) = Function.update (fun k => tabs[k]?) t (some tab) := by
  funext k
  rw [Std.TreeMap.getElem?_insert, Function.update_apply]
  by_cases hk : k = t
  · rw [hk, if_pos Std.ReflCmp.compare_self, if_pos rfl]
  · rw [if_neg fun h => hk (Std.LawfulEqOrd.eq_of_compare h).symm, if_neg hk]

/-- What holds of the new table and of the tables there are. -/
theorem forall_insertTab {tabs : Std.TreeMap String TabMeta} {R : String → TabMeta → Prop}
    (hnew : R t tab) (h : ∀ (k : String) tab', tabs[k]? = some tab' → R k tab') (k : String)
    (tab' : TabMeta) (hk : (tabs.insert t tab)[k]? = some tab') : R k tab' := by
  have hget := congrFun (getElem?_insertTab tabs t tab) k
  rw [hget, Function.update_apply] at hk
  split at hk
  · rename_i hkt
    rw [hkt, ← Option.some.inj hk]
    exact hnew
  · exact h k tab' hk

theorem isSome_insertTab {tabs : Std.TreeMap String TabMeta} {k : String}
    (h : k ≠ t → (tabs[k]?).isSome) : ((tabs.insert t tab)[k]?).isSome := by
  have hget := congrFun (getElem?_insertTab tabs t tab) k
  rw [hget, Function.update_apply]
  split
  · rfl
  · rename_i hkt
    exact h hkt

/-- A new table has no indexes. -/
theorem indexOf_newTable {tabs : String → Option TabMeta} (hnew : tabs t = none)
    (hcols : ∀ col ∈ tab.cols, col.index = false) :
    IndexOf (Function.update tabs t (some tab)) n ↔ IndexOf tabs n := by
  constructor
  · rintro ⟨t', tab', i, col, htab, hcol, hindex, hname⟩
    by_cases ht : t' = t
    · rw [ht, Function.update_self, Option.some.injEq] at htab
      subst htab
      rw [hcols col (List.mem_of_getElem? hcol)] at hindex
      cases hindex
    · rw [Function.update_of_ne ht] at htab
      exact ⟨t', tab', i, col, htab, hcol, hindex, hname⟩
  · rintro ⟨t', tab', i, col, htab, hcol, hindex, hname⟩
    have ht : t' ≠ t := by
      rintro rfl
      rw [hnew] at htab
      cases htab
    exact ⟨t', tab', i, col, by rw [Function.update_of_ne ht, htab], hcol, hindex, hname⟩

/-- The table with the mark of a column set or removed. -/
def marked (tab : TabMeta) (i : Fin tab.cols.length) (b : Bool) : TabMeta :=
  { tab with cols := tab.cols.set i { tab.cols.get i with index := b } }

theorem indexOf_marked {tabs : String → Option TabMeta} (htab : tabs t = some tab)
    (i : Fin tab.cols.length) (b : Bool) :
    IndexOf (Function.update tabs t (some (marked tab i b))) n
      ↔ if n = IxManager.getIndexName t i then b = true else IndexOf tabs n := by
  split
  · rename_i hn
    rw [hn, indexOf_getIndexName]
    simp only [Function.update_self, Option.some.injEq]
    constructor
    · rintro ⟨_, col, rfl, hcol, hindex⟩
      rw [marked, List.getElem?_set_self i.isLt, Option.some.injEq] at hcol
      rw [← hcol] at hindex
      exact hindex
    · rintro rfl
      exact ⟨_, _, rfl, List.getElem?_set_self i.isLt, rfl⟩
  · rename_i hn
    constructor
    · rintro ⟨t', tab', i', col, htab', hcol, hindex, hname⟩
      by_cases ht : t' = t
      · rw [ht, Function.update_self, Option.some.injEq] at htab'
        subst htab' ht
        have hne : i.val ≠ i' := by
          rintro rfl
          exact hn hname
        rw [marked, List.getElem?_set_ne hne] at hcol
        exact ⟨t', tab, i', col, htab, hcol, hindex, hname⟩
      · rw [Function.update_of_ne ht] at htab'
        exact ⟨t', tab', i', col, htab', hcol, hindex, hname⟩
    · rintro ⟨t', tab', i', col, htab', hcol, hindex, hname⟩
      by_cases ht : t' = t
      · subst ht
        obtain rfl := Option.some.inj (htab.symm.trans htab')
        have hne : i.val ≠ i' := by
          rintro rfl
          exact hn hname
        exact ⟨t', _, i', col, Function.update_self ..,
          by rw [marked, List.getElem?_set_ne hne, hcol], hindex, hname⟩
      · exact ⟨t', tab', i', col, by rw [Function.update_of_ne ht, htab'], hcol, hindex, hname⟩

/-! ## `create_table` -/

theorem layout_cols (u : Unspecified) (t : String) : ∀ (colDefs : List ColDef) (curr : Int),
    ∀ col ∈ (layout u t curr colDefs).1,
      col.index = false ∧ ∃ colDef ∈ colDefs, col.len = colDef.len
  | [], _, _, hcol => by simp [layout] at hcol
  | colDef :: colDefs, curr, col, hcol => by
      rw [layout, List.mem_cons] at hcol
      rcases hcol with rfl | hcol
      · exact ⟨rfl, colDef, by simp, rfl⟩
      · obtain ⟨hindex, d, hd, hlen⟩ := layout_cols u t colDefs _ col hcol
        exact ⟨hindex, d, List.mem_cons_of_mem _ hd, hlen⟩

/-- The catalog and the handles after `create_table`. -/
theorem Mirrors.newTable (h : Mirrors s) (hnew : s.db.tabs[t]? = none) {fh : RmFile}
    (hname : tab.name = t) (hlens : ∀ col ∈ tab.cols, IsInt32 col.len)
    (hcols : ∀ col ∈ tab.cols, col.index = false) (hih : s.ihs t = none)
    (hr : pool.diskManager.Tables) (hopen : pool.diskManager.openFds fh.fd = some t)
    (hmore : StaysOpen s.pool.diskManager pool.diskManager) :
    Mirrors { s with
      db := { s.db with tabs := s.db.tabs.insert t tab }
      fhs := Function.update s.fhs t (some fh)
      pool := pool } := by
  have htabs := getElem?_insertTab s.db.tabs t tab
  have hhandles := (h.handles.more hr hmore).withFh hopen hih
  have hfhs : ∀ k, k ≠ t → Function.update s.fhs t (some fh) k = s.fhs k :=
    fun k hkt => Function.update_of_ne hkt ..
  refine ⟨forall_insertTab hlens h.lens, fun k hk => isSome_insertTab fun hkt => ?_,
    forall_insertTab (fun _ => ⟨hname, ?_⟩) fun k tab' hk hcols' => ?_, fun n => ?_,
    ⟨hr, hhandles.fhOpen, hhandles.ihOpen, hhandles.apart⟩⟩
  · dsimp only at hk
    rw [hfhs k hkt] at hk
    exact h.fhs k hk
  · dsimp only
    rw [Function.update_self]
    rfl
  · obtain ⟨hname', hfh⟩ := h.tables k tab' hk hcols'
    refine ⟨hname', ?_⟩
    dsimp only
    rw [Function.update_apply]
    split
    · rfl
    · exact hfh
  · show (s.ihs n).isSome ↔ IndexOf (fun k => (s.db.tabs.insert t tab)[k]?) n
    rw [htabs, indexOf_newTable hnew hcols]
    exact h.ihs n

/-- What `create_table` complains of. -/
def CreateTableError (u : Unspecified) (s : SmManager) (t : String) (colDefs : List ColDef)
    (e : RedBaseError) : Prop :=
  let recordSize := (layout u t 0 colDefs).2
  e = .tableExistsError t ∧ s.db.isTable t = true
    ∨ e = .fileExistsError t ∧ (s.pool.diskManager.files t).isSome
    ∨ e = .invalidRecordSizeError recordSize ∧ ¬ (1 ≤ recordSize ∧ recordSize ≤ rmMaxRecordSize)

/-- **`create_table`** enters a table and its handle, or changes nothing. -/
theorem createTable_outcome (h : Mirrors s) (hlens : ∀ d ∈ colDefs, IsInt32 d.len)
    (hfree : s.pool.diskManager.openFds fd = none) (hfd : fd ≠ -1)
    (hfree' : s.pool.diskManager.openFds fd' = none) :
    Ends s (createTable u t colDefs fd fd') (fun _ => Mirrors)
      fun e s' => e = .unixError ∨ Mirrors s' ∧ CreateTableError u s t colDefs e := by
  unfold createTable
  refine .of_run (run_get_bind ..) ?_
  by_cases htab : s.db.isTable t = true
  · rw [if_pos htab]
    exact .of_error rfl (.inr ⟨h, .inl ⟨rfl, htab⟩⟩)
  · rw [if_neg htab]
    dsimp only
    rw [isTable_eq, Bool.not_eq_true, Option.isSome_eq_false_iff, Option.isNone_iff_eq_none] at htab
    have hfh : s.fhs t = none := by
      cases hfh : s.fhs t with
      | none => rfl
      | some fh =>
          have := h.fhs t (by rw [hfh]; rfl)
          rw [htab] at this
          cases this
    refine (ends_onPool (createFile_outcome t (layout u t 0 colDefs).2 h.handles.disk hfree hfd)).bind
      ?_ ?_
    · rintro _ _ ⟨pool₁, rfl, hc⟩
      refine .of_run (run_modify_bind ..) ?_
      have hopened : OpenOutcome pool₁ t fd' (RmManager.openFile t fd') :=
        openFile_outcome hc.disk fun _ => by rw [hc.openFds, hfree']
      refine (ends_onPool (hc.opens hfree' hopened)).bind ?_ fun _ _ ⟨_, _, he⟩ => .inl he
      rintro hdr _ ⟨pool₂, rfl, ho, hstays⟩
      have hih := ((h.handles.more hc.disk hc.staysOpen).absent hc.closed).2
      refine .of_ok rfl ?_
      dsimp only
      rw [hfh, Option.getD_none]
      refine h.newTable htab rfl (fun col hcol => ?_) (fun col hcol => ?_) hih ho.disk ?_ hstays
      · obtain ⟨_, d, hd, hlen⟩ := layout_cols u t colDefs 0 col hcol
        exact hlen ▸ hlens d hd
      · exact (layout_cols u t colDefs 0 col hcol).1
      · rw [ho.openFds, Function.update_self]
    · rintro e _ ⟨pool₁, rfl, hunix | ⟨rfl, he⟩⟩
      · exact .inl hunix
      · exact .inr ⟨h, .inr he⟩

/-! ## `create_index` -/

/-- The catalog after a mark was set or removed, with the handles it takes. -/
theorem Mirrors.mark (h : Mirrors s) (htab : s.db.tabs[t]? = some tab) (i : Fin tab.cols.length)
    (b : Bool) {ihs : String → Option IxFile}
    (hihs : ∀ n, (ihs n).isSome
      ↔ if n = IxManager.getIndexName t i then b = true else (s.ihs n).isSome)
    (hopen : HandlesOpen { s with ihs := ihs, pool := pool }) :
    Mirrors { s with
      db := { s.db with tabs := s.db.tabs.insert t (marked tab i b) }
      ihs := ihs
      pool := pool } := by
  have htabs := getElem?_insertTab s.db.tabs t (marked tab i b)
  have hlens : ∀ col ∈ (marked tab i b).cols, IsInt32 col.len := by
    intro col hcol
    rcases List.mem_or_eq_of_mem_set hcol with hcol | rfl
    · exact h.lens t tab htab col hcol
    · exact h.lens t tab htab (tab.cols.get i) (List.get_mem _ _)
  have htable : (marked tab i b).name = t ∧ (s.fhs t).isSome :=
    h.tables t tab htab (List.ne_nil_of_mem (List.get_mem _ i))
  refine ⟨forall_insertTab hlens h.lens, fun k hk => isSome_insertTab fun _ => h.fhs k hk,
    forall_insertTab (fun _ => htable) h.tables, fun n => ?_,
    ⟨hopen.disk, hopen.fhOpen, hopen.ihOpen, hopen.apart⟩⟩
  show (ihs n).isSome ↔ IndexOf (fun k => (s.db.tabs.insert t _)[k]?) n
  rw [htabs, indexOf_marked htab, hihs]
  split
  · exact Iff.rfl
  · exact h.ihs n

/-- A column that is not marked has no handle. -/
theorem Mirrors.ihs_name (h : Mirrors s) (htab : s.db.tabs[t]? = some tab)
    (i : Fin tab.cols.length) :
    (s.ihs (IxManager.getIndexName t i)).isSome ↔ (tab.cols.get i).index = true := by
  rw [h.ihs, indexOf_getIndexName]
  constructor
  · rintro ⟨tab', col, htab', hcol, hindex⟩
    obtain rfl := Option.some.inj (htab.symm.trans htab')
    rw [List.getElem?_eq_getElem i.isLt, Option.some.injEq] at hcol
    rw [List.get_eq_getElem, hcol]
    exact hindex
  · exact fun hindex => ⟨tab, _, htab, List.getElem?_eq_getElem i.isLt, hindex⟩

/-- What `create_index` does once it has found the column. -/
def createIndexOn (fuel : Nat) (s : SmManager) (t : String) (tab : TabMeta)
    (i : Fin tab.cols.length) (buf : Nat → UInt8) (fd fd' : Int) : SmM Unit := do
  onPool (IxManager.createIndex t i (tab.cols.get i).type (tab.cols.get i).len buf fd)
  let hdr ← onPool (IxManager.openIndex t i fd')
  match s.fhs t with
  | none => throw .outOfRange
  | some fileHandle =>
      let ih ← onPool (indexRecords fuel fileHandle (tab.cols.get i) ⟨fd', hdr⟩)
      if (s.ihs (IxManager.getIndexName t i)).isSome then
        throw .assertionFailure
      else
        emplaceIh (IxManager.getIndexName t i) ih
        setIndex t tab i true

/-- What `create_index` complains of once it has found column `i`. -/
def ColumnError (s : SmManager) (t c : String) (tab : TabMeta) (i : Fin tab.cols.length)
    (e : RedBaseError) : Prop :=
  if (tab.cols.get i).index = true then e = .indexExistsError t c
  else e = .fileExistsError (IxManager.getIndexName t i)
      ∧ (s.pool.diskManager.files (IxManager.getIndexName t i)).isSome
    ∨ Creation.LengthError (tab.cols.get i).len e ∨ RecordsFail e

theorem createIndexOn_outcome (h : Mirrors s) (c : String) (buf : Nat → UInt8)
    (hfree : s.pool.diskManager.openFds fd = none) (hfd : fd ≠ -1)
    (hfree' : s.pool.diskManager.openFds fd' = none) (htab : s.db.tabs[t]? = some tab)
    (i : Fin tab.cols.length) (hindex : (tab.cols.get i).index = false) :
    Ends s (createIndexOn fuel s t tab i buf fd fd') (fun _ => Mirrors)
      fun e s' => e = .unixError ∨ Mirrors s' ∧ ColumnError s t c tab i e := by
  have hlen := h.lens t tab htab _ (List.get_mem _ i)
  have hih : s.ihs (IxManager.getIndexName t i) = none := by
    have := h.ihs_name htab i
    rw [hindex] at this
    simpa using this
  obtain ⟨fh, hfh⟩ := Option.isSome_iff_exists.mp
    (h.tables t tab htab (List.ne_nil_of_mem (List.get_mem _ i))).2
  have hcolumn : ∀ {e}, (e = .fileExistsError (IxManager.getIndexName t i)
      ∧ (s.pool.diskManager.files (IxManager.getIndexName t i)).isSome
      ∨ Creation.LengthError (tab.cols.get i).len e ∨ RecordsFail e) → ColumnError s t c tab i e := by
    intro e he
    unfold ColumnError
    rw [hindex, if_neg (by simp)]
    exact he
  unfold createIndexOn
  refine (ends_onPool (createIndex_outcome t i (tab.cols.get i).type hlen buf h.handles.disk hfree
    hfd)).bind ?_ ?_
  · rintro _ _ ⟨pool₁, rfl, hc⟩
    have hopened : OpenOutcome pool₁ (IxManager.getIndexName t i) fd' (IxManager.openIndex t i fd') :=
      openIndex_outcome hc.disk fun _ => by rw [hc.openFds, hfree']
    refine (ends_onPool (hc.opens hfree' hopened)).bind ?_ fun _ _ ⟨_, _, he⟩ => .inl he
    rintro hdr _ ⟨pool₂, rfl, ho, hstays⟩
    rw [hfh]
    have hstays₃ : ∀ {pool₃ : BufferPoolManager},
        pool₃.diskManager.openFds = pool₂.diskManager.openFds →
        StaysOpen s.pool.diskManager pool₃.diskManager := by
      intro pool₃ ho₃
      unfold StaysOpen
      rw [ho₃]
      exact hstays
    refine (ends_onPool (indexRecords_outcome _ _ _ _ ⟨ho.disk, rfl⟩)).bind ?_ ?_
    · rintro ih _ ⟨pool₃, rfl, hfdih, hr₃, ho₃⟩
      dsimp only at hfdih ho₃
      rw [hih, if_neg (by simp)]
      refine .of_run (run_modify_bind ..) (.of_ok rfl ?_)
      dsimp only
      rw [hih, Option.getD_none]
      have hapart := ((h.handles.more hc.disk hc.staysOpen).absent hc.closed).1
      refine h.mark htab i true (fun n => ?_) ((h.handles.more hr₃ (hstays₃ ho₃)).withIh ?_ hapart)
      · rw [Function.update_apply]
        split
        · exact ⟨fun _ => rfl, fun _ => rfl⟩
        · exact Iff.rfl
      · dsimp only
        rw [hfdih, ho₃, ho.openFds, Function.update_self]
    · rintro e _ ⟨pool₃, rfl, ⟨hr₃, ho₃⟩, hfail⟩
      exact .inr ⟨h.more hr₃ (hstays₃ ho₃), hcolumn (.inr (.inr hfail))⟩
  · rintro e _ ⟨pool₁, rfl, hunix | ⟨rfl, he⟩ | ⟨he, hr₁, ho₁⟩⟩
    · exact .inl hunix
    · exact .inr ⟨h, hcolumn (.inl he)⟩
    · exact .inr ⟨h.more hr₁ (staysOpen_update hfree ho₁), hcolumn (.inr (.inl he))⟩

/-- What `create_index` complains of. -/
def CreateIndexError (getCol : GetCol) (s : SmManager) (t c : String) (e : RedBaseError) : Prop :=
  match s.db.tabs[t]? with
  | none => e = .tableNotFoundError t
  | some tab => LookupError getCol tab c e fun i => ColumnError s t c tab i e

theorem ends_ofExcept {α : Type} {r : Except RedBaseError α} {P : α → SmManager → Prop}
    {E : RedBaseError → SmManager → Prop} (hok : ∀ a, r = .ok a → P a s)
    (herror : ∀ e, r = .error e → E e s) : Ends s (MonadExcept.ofExcept r : SmM α) P E := by
  cases r with
  | ok a => exact .of_ok rfl (hok a rfl)
  | error e => exact .of_error rfl (herror e rfl)

/-- **`create_index`** marks a column and enters its handle, or leaves catalog and handles alone. -/
theorem smCreateIndex_outcome (h : Mirrors s) (buf : Nat → UInt8)
    (hfree : s.pool.diskManager.openFds fd = none) (hfd : fd ≠ -1)
    (hfree' : s.pool.diskManager.openFds fd' = none) :
    Ends s (createIndex getCol (indexRecords fuel) t c buf fd fd') (fun _ => Mirrors) fun e s' =>
      e = .unixError ∨ Mirrors s' ∧ (FindsCol getCol → CreateIndexError getCol s t c e) := by
  unfold createIndex CreateIndexError
  refine .of_run (run_get_bind ..) ?_
  cases htab : s.db.tabs[t]? with
  | none =>
      have hget : s.db.getTable t = .error (.tableNotFoundError t) := by
        unfold DbMeta.getTable
        rw [htab]
      rw [hget]
      exact .of_error rfl (.inr ⟨h, fun _ => rfl⟩)
  | some tab =>
      have hget : s.db.getTable t = .ok tab := by
        unfold DbMeta.getTable
        rw [htab]
      rw [hget]
      refine .of_run (run_ofExcept_bind ..) ?_
      dsimp only
      refine (ends_ofExcept (P := fun i s' => getCol tab c = .ok i ∧ s = s') (fun i hcol => ⟨hcol, rfl⟩)
        fun e hcol => .inr ⟨h, fun hget => hget.lookupError hcol _⟩).bind ?_ fun _ _ he => he
      rintro i _ ⟨hcol, rfl⟩
      have herr : ∀ {e}, ColumnError s t c tab i e → FindsCol getCol →
          LookupError getCol tab c e fun i => ColumnError s t c tab i e :=
        fun he hget => .inr ⟨i, hcol, hget.found tab c i hcol, he⟩
      by_cases hindex : (tab.cols.get i).index = true
      · rw [if_pos hindex]
        refine .of_error rfl (.inr ⟨h, herr ?_⟩)
        unfold ColumnError
        rw [if_pos hindex]
      · rw [if_neg hindex]
        exact (createIndexOn_outcome h c buf hfree hfd hfree' htab i (by simpa using hindex)).imp
          (fun _ _ hm => hm) fun _ _ he => he.imp_right (And.imp_right herr)

/-! ## `drop_index` -/

/-- The catalog after `tabs_[t]` has entered a table without columns. -/
theorem Mirrors.emptyTable (h : Mirrors s) (hnew : s.db.tabs[t]? = none) :
    Mirrors { s with db := { s.db with tabs := s.db.tabs.insert t ⟨"", []⟩ } } := by
  have htabs := getElem?_insertTab s.db.tabs t ⟨"", []⟩
  refine ⟨forall_insertTab (by simp) h.lens, fun k hk => isSome_insertTab fun _ => h.fhs k hk,
    forall_insertTab (fun hcols => absurd rfl hcols) h.tables, fun n => ?_,
    ⟨h.handles.disk, h.handles.fhOpen, h.handles.ihOpen, h.handles.apart⟩⟩
  show (s.ihs n).isSome ↔ IndexOf (fun k => (s.db.tabs.insert t _)[k]?) n
  rw [htabs, indexOf_newTable hnew (by simp)]
  exact h.ihs n

/-- What `drop_index` complains of, on table `tab`. -/
def DropIndexError (getCol : GetCol) (tab : TabMeta) (t c : String) (e : RedBaseError) : Prop :=
  LookupError getCol tab c e fun i => (tab.cols.get i).index = false ∧ e = .indexNotFoundError t c

/-- `drop_index` once it has found the table. -/
theorem dropIndexOn_outcome (h : Mirrors s) (htab : s.db.tabs[t]? = some tab) :
    Ends s (dropIndex getCol t c) (fun _ => Mirrors) fun e s' =>
      e = .unixError ∨ Mirrors s' ∧ (FindsCol getCol → DropIndexError getCol tab t c e) := by
  have hat : s.db.tabAt t = (tab, s.db) := by
    unfold DbMeta.tabAt
    rw [htab]
  unfold dropIndex
  refine .of_run (run_get_bind ..) ?_
  dsimp only
  rw [hat]
  refine .of_run (run_set_bind ..) ?_
  refine (ends_ofExcept (P := fun i s' => getCol tab c = .ok i ∧ s = s') (fun i hcol => ⟨hcol, rfl⟩)
    fun e hcol => .inr ⟨h, fun hget => hget.lookupError hcol _⟩).bind ?_ fun _ _ he => he
  rintro i _ ⟨hcol, rfl⟩
  by_cases hindex : (tab.cols.get i).index = true
  · obtain ⟨ih, hih⟩ := Option.isSome_iff_exists.mp ((h.ihs_name htab i).mpr hindex)
    rw [hindex, hih, if_neg (by simp)]
    dsimp only
    refine (ends_onPool (closeHandle_outcome ih.fileHdr.toBuf IxFileHdr.size h.handles.disk
      (h.handles.ihOpen _ ih hih))).bind ?_ fun _ _ ⟨_, _, he⟩ => .inl he
    rintro _ _ ⟨pool₁, rfl, hr₁, ho₁, hfile, hclosed⟩
    have hdestroy := destroyFile_closed hfile hclosed
    refine (ends_onPool ends_disk).bind ?_ fun e _ ⟨_, _, he⟩ => ?_
    · rintro _ _ ⟨pool₂, rfl, d, hd, rfl⟩
      have hr₂ := hr₁.step (.destroyFile _ hd)
      rw [hdestroy] at hd
      obtain rfl := Except.ok.inj hd
      refine .of_run (run_modify_bind ..) (.of_ok rfl ?_)
      refine h.mark htab i false (fun n => ?_) (h.handles.withoutIh hih hr₂ ho₁)
      dsimp only
      rw [Function.update_apply]
      split
      · exact ⟨nofun, nofun⟩
      · exact Iff.rfl
    · rw [hdestroy] at he
      cases he
  · rw [if_pos (by simpa using hindex)]
    exact .of_error rfl (.inr ⟨h, fun hget =>
      .inr ⟨i, hcol, hget.found tab c i hcol, by simpa using hindex, rfl⟩⟩)

/-- **`drop_index`** removes a mark and closes the handle, or leaves the tables with columns as they
are. -/
theorem dropIndex_outcome (h : Mirrors s) :
    Ends s (dropIndex getCol t c) (fun _ => Mirrors) fun e s' => e = .unixError
      ∨ Mirrors s' ∧ (FindsCol getCol → DropIndexError getCol (s.db.tabAt t).1 t c e) := by
  cases htab : s.db.tabs[t]? with
  | none =>
      have hat : s.db.tabAt t
          = (⟨"", []⟩, { s.db with tabs := s.db.tabs.insert t ⟨"", []⟩ }) := by
        unfold DbMeta.tabAt
        rw [htab]
      unfold dropIndex
      refine .of_run (run_get_bind ..) ?_
      dsimp only
      rw [hat]
      refine .of_run (run_set_bind ..) ?_
      exact (ends_ofExcept (P := fun _ _ => False) (fun i _ => i.elim0) fun e hcol =>
        .inr ⟨h.emptyTable htab, fun hget => hget.lookupError hcol _⟩).bind
        (fun _ _ hno => hno.elim) fun _ _ he => he
  | some tab =>
      have hat : (s.db.tabAt t).1 = tab := by
        unfold DbMeta.tabAt
        rw [htab]
      rw [hat]
      exact dropIndexOn_outcome h htab

/-! ## Sessions -/

/-- The descriptors that the calls on one file get, for its creation and for later. -/
structure Fresh (d : DiskManager) (fd fd' : Int) : Prop where
  creation : d.openFds fd = none
  valid : fd ≠ -1
  later : d.openFds fd' = none

/-- What comes from outside: `open` returns descriptors that are free, and the lengths that were
parsed are `int`s. -/
def CatalogCall.Allowed (s : SmManager) : CatalogCall → Prop
  | .createTable _ colDefs fd fd' =>
      (∀ colDef ∈ colDefs, IsInt32 colDef.len) ∧ Fresh s.pool.diskManager fd fd'
  | .createIndex _ _ _ fd fd' => Fresh s.pool.diskManager fd fd'
  | .dropIndex _ _ => True

/-- The errors that a call reports, and when. -/
def CatalogCall.Says (u : Unspecified) (getCol : GetCol) (s : SmManager) :
    CatalogCall → RedBaseError → Prop
  | .createTable t colDefs _ _, e => CreateTableError u s t colDefs e
  | .createIndex t c _ _ _, e => CreateIndexError getCol s t c e
  | .dropIndex t c, e => DropIndexError getCol (s.db.tabAt t).1 t c e

/-- One call of a session. -/
theorem catalogCall_outcome {call : CatalogCall} (h : Mirrors s) (hcall : call.Allowed s) :
    Ends s (call.run u getCol (indexRecords fuel)) (fun _ => Mirrors) fun e s' =>
      e = .unixError ∨ Mirrors s' ∧ (FindsCol getCol → call.Says u getCol s e) := by
  cases call with
  | createTable t colDefs fd fd' =>
      obtain ⟨hlens, hfree, hfd, hfree'⟩ := hcall
      exact (createTable_outcome h hlens hfree hfd hfree').imp (fun _ _ hm => hm)
        fun _ _ he => he.imp_right (And.imp_right fun hsays _ => hsays)
  | createIndex t c buf fd fd' =>
      obtain ⟨hfree, hfd, hfree'⟩ := hcall
      exact smCreateIndex_outcome h buf hfree hfd hfree'
  | dropIndex t c => exact dropIndex_outcome h

/-- The states between the calls of a session. The server reports an error and goes on; a session in
which a system call fails is not followed any further. -/
inductive Session (u : Unspecified) (v : Indeterminate) (getCol : GetCol) (fuel : Nat) :
    SmManager → Prop
  | opened {s s' : SmManager} (metaText : List Char) {fdOf : String → Int} : Started s →
      Function.Injective fdOf → (openDb v metaText fdOf).run s = .ok ⟨⟩ s' →
      Session u v getCol fuel s'
  | returned {s s' : SmManager} (call : CatalogCall) : Session u v getCol fuel s →
      call.Allowed s → (call.run u getCol (indexRecords fuel)).run s = .ok ⟨⟩ s' →
      Session u v getCol fuel s'
  | raised {s s' : SmManager} (call : CatalogCall) {e : RedBaseError} :
      Session u v getCol fuel s → call.Allowed s →
      (call.run u getCol (indexRecords fuel)).run s = .error e s' → e ≠ .unixError →
      Session u v getCol fuel s'

variable {v : Indeterminate}

theorem Session.mirrors (hint : IsInt32 v.int) (h : Session u v getCol fuel s) : Mirrors s := by
  induction h with
  | opened metaText hs hinj hrun => exact (openDb_outcome hint hs hinj metaText).returns _ _ hrun
  | returned call _ hcall hrun ih => exact (catalogCall_outcome ih hcall).returns _ _ hrun
  | raised call _ hcall hrun he ih =>
      exact (((catalogCall_outcome ih hcall).throws _ _ hrun).resolve_left he).1

/-- **In a session, every table has a handle on its record file, and a column is marked as indexed
if and only if there is a handle on its index file**; there are no other handles on indexes, and all
of them are open. -/
theorem session_handles (hint : IsInt32 v.int) (h : Session u v getCol fuel s) :
    (∀ (t : String) (tab : TabMeta), s.db.tabs[t]? = some tab → tab.cols ≠ [] →
        ∃ fh, s.fhs t = some fh ∧ s.pool.diskManager.openFds fh.fd = some t)
      ∧ (∀ (t : String) (tab : TabMeta) (i : Nat) (col : ColMeta), s.db.tabs[t]? = some tab →
        tab.cols[i]? = some col → (col.index = true ↔ ∃ ih,
          s.ihs (IxManager.getIndexName t i) = some ih
            ∧ s.pool.diskManager.openFds ih.fd = some (IxManager.getIndexName t i)))
      ∧ ∀ n, (s.ihs n).isSome → IndexOf (s.db.tabs[·]?) n := by
  have hm := h.mirrors hint
  refine ⟨fun t tab htab hcols => ?_, fun t tab i col htab hcol => ⟨fun hindex => ?_, ?_⟩,
    fun n => (hm.ihs n).mp⟩
  · obtain ⟨fh, hfh⟩ := Option.isSome_iff_exists.mp (hm.tables t tab htab hcols).2
    exact ⟨fh, hfh, hm.handles.fhOpen t fh hfh⟩
  · have hname : IndexOf (s.db.tabs[·]?) (IxManager.getIndexName t i) :=
      ⟨t, tab, i, col, htab, hcol, hindex, rfl⟩
    obtain ⟨ih, hih⟩ := Option.isSome_iff_exists.mp ((hm.ihs _).mpr hname)
    exact ⟨ih, hih, hm.handles.ihOpen _ ih hih⟩
  · rintro ⟨ih, hih, _⟩
    obtain ⟨tab', col', htab', hcol', hindex⟩ :=
      indexOf_getIndexName.mp ((hm.ihs _).mp (by rw [hih]; rfl))
    obtain rfl := Option.some.inj (htab.symm.trans htab')
    obtain rfl := Option.some.inj (hcol.symm.trans hcol')
    exact hindex

/-- A number for every path. -/
def fdOfPath (path : String) : Int := Encodable.encode (path.toList.map Char.toNat)

theorem fdOfPath_injective : Function.Injective fdOfPath := by
  have hchar : Function.Injective Char.toNat := fun _ _ h => Char.toNat_inj.mp h
  exact Nat.cast_injective.comp (Encodable.encode_injective.comp
    ((List.map_injective_iff.mpr hchar).comp fun _ _ h => String.toList_injective h))

/-- What was never set is zero. -/
def unset : Indeterminate := ⟨0, 0, false, fun _ => .typeInt⟩

/-- A record file with the numbers 7 and 9. -/
def twoNumbers : OsFile :=
  let hdr := { RmFileHdr.initial 4 with numPages := 2, firstFreePageNo := 1 }
  let number (v : Int) : Nat → UInt8 := putInt32 (fun _ => 0) 0 v
  let page := RmFileHandle.insertedPage hdr
    (RmFileHandle.insertedPage hdr (RmFileHandle.blankPage hdr) 0 (number 7)) 1 (number 9)
  (OsFile.empty.write 0 hdr.toBuf RmFileHdr.size).write pageSize page.toBuf pageSize

/-- They are on disk, in the file of table `t`. -/
def numbersDb : SmManager where
  db := ⟨"", ∅⟩
  fhs := fun _ => none
  pool := .new 2 (.new fun path => if path = "t" then some twoNumbers else none) 0

theorem numbersDb_started : Started numbersDb :=
  ⟨fun _ => rfl, fun _ => rfl, fun _ => rfl, ⟨rfl, rfl, rfl⟩⟩

/-- Whether `x` returns, in a state with `p`. -/
def returns (x : SmM Unit) (s : SmManager) (p : SmManager → Bool) : Bool :=
  match x.run s with
  | .ok _ s' => p s'
  | .error _ _ => false

theorem exists_of_returns {x : SmM Unit} {p : SmManager → Bool} (h : returns x s p = true) :
    ∃ s', x.run s = .ok ⟨⟩ s' ∧ p s' = true := by
  unfold returns at h
  cases hrun : x.run s with
  | error e s' =>
      rw [hrun] at h
      cases h
  | ok a s' =>
      rw [hrun] at h
      exact ⟨s', rfl, h⟩

/-- The index of table `t` is there, with two entries in its root, and cannot be made again. -/
def indexThere (s : SmManager) : Bool :=
  (s.db.tabs["t"]?.bind fun tab => tab.cols[0]?).any (·.index)
    && (s.pool.pageTable ⟨4, ixInitRootPage⟩).any (fun f => int32At (s.pool.pages f).data.toBuf 8 = 2)
    && (s.pool.diskManager.openFds 5).isNone
    && match (createIndex firstCol (indexRecords 3) "t" "a" (fun _ => 0) 5 5).run s with
      | .ok _ _ => false
      | .error e _ => e = .indexExistsError "t" "a"

/-- The catalog of table `t`. -/
def numbersMeta : List Char := "db 1 t 1 t a 0 4 0 0".toList

/-- A session that makes the index. -/
theorem exists_session :
    ∃ s, Session noOverflow unset firstCol 3 s ∧ indexThere s = true := by
  have hsession : returns (openDb unset numbersMeta fdOfPath) numbersDb (fun s₁ =>
      (s₁.pool.diskManager.openFds 4).isNone
        && returns (createIndex firstCol (indexRecords 3) "t" "a" (fun _ => 0) 4 4) s₁
          indexThere) = true := by decide +kernel
  obtain ⟨s₁, h₁, hsession⟩ := exists_of_returns hsession
  obtain ⟨hfree₁, hsession⟩ := Bool.and_eq_true_iff.mp hsession
  obtain ⟨s₂, h₂, hthere⟩ := exists_of_returns hsession
  rw [Option.isNone_iff_eq_none] at hfree₁
  refine ⟨s₂, ?_, hthere⟩
  refine .returned (.createIndex "t" "a" (fun _ => 0) 4 4) ?_ ⟨hfree₁, by decide, hfree₁⟩ h₂
  exact .opened numbersMeta numbersDb_started fdOfPath_injective h₁

theorem session_handles_indexed : ∃ s, Session noOverflow unset firstCol 3 s
    ∧ ∃ fh ih, s.fhs "t" = some fh ∧ s.pool.diskManager.openFds fh.fd = some "t"
      ∧ s.ihs (IxManager.getIndexName "t" 0) = some ih
      ∧ s.pool.diskManager.openFds ih.fd = some (IxManager.getIndexName "t" 0) := by
  obtain ⟨s, hs, hthere⟩ := exists_session
  have hindex := (Bool.and_eq_true_iff.mp (Bool.and_eq_true_iff.mp
    (Bool.and_eq_true_iff.mp hthere).1).1).1
  obtain ⟨col, hat, hmark⟩ := (Option.any_eq_true _ _).mp hindex
  obtain ⟨tab, htab, hcol⟩ := Option.bind_eq_some_iff.mp hat
  obtain ⟨htables, hindexes, _⟩ := session_handles (by decide) hs
  have hcols : tab.cols ≠ [] := List.ne_nil_of_mem (List.mem_of_getElem? hcol)
  obtain ⟨fh, hfh, hfd⟩ := htables "t" tab htab hcols
  obtain ⟨ih, hih, hfd'⟩ := (hindexes "t" tab 0 col htab hcol).mp hmark
  exact ⟨s, hs, fh, ih, hfh, hfd, hih, hfd'⟩

end SmManager

end Rucbase
