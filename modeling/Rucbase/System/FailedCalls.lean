import Rucbase.Lib.EState
import Rucbase.Storage.SharedPoolProof
import Rucbase.System.RecordLayout

/-!
# Calls on the catalog that fail

What is left of `create_table`, `create_index` and `drop_index` when they raise. `drop_index` looks
its table up with `tabs_[tab_name]`, which enters a table where there is none.
-/

namespace Rucbase

open Lib BufferPoolManager

namespace SmManager

/-- `db_.tabs_`, `fhs_` and `ihs_`. -/
def catalog (s : SmManager) :
    Std.TreeMap String TabMeta × (String → Option RmFile) × (String → Option IxFile) :=
  (s.db.tabs, s.fhs, s.ihs)

variable {s s' : SmManager} {tabName colName : String} {e : RedBaseError}

theorem onPool_error {α : Type} {x : PoolM α} (h : (onPool x).run s = .error e s') :
    ∃ pool, x.run s.pool = .error e pool ∧ s' = { s with pool := pool } := by
  unfold onPool at h
  rw [run_get_bind] at h
  cases hx : x.run s.pool with
  | ok b pool =>
      simp only [hx, run_set_bind, EStateM.run_pure] at h
      exact absurd h (by simp)
  | error e' pool =>
      simp only [hx, run_set_bind, run_throw_any, EStateM.Result.error.injEq] at h
      exact ⟨pool, by rw [h.1], h.2.symm⟩

theorem leaves_onPool {α : Type} (x : PoolM α) : Leaves catalog (onPool x) := by
  intro s a t h
  obtain ⟨pool, _, rfl⟩ := onPool_ok h
  rfl

theorem spares_onPool {α : Type} {E : RedBaseError → Prop} (x : PoolM α) :
    Spares E catalog (onPool x) := by
  intro s e t h _
  obtain ⟨pool, _, rfl⟩ := onPool_error h
  rfl

/-! ## `create_table` -/

/-- A record file that was just created exists and is not open. -/
theorem createFile_closed {recordSize fd : Int} {pool pool' : BufferPoolManager}
    (h : (RmManager.createFile tabName recordSize fd).run pool = .ok ⟨⟩ pool') :
    (pool'.diskManager.files tabName).isSome ∧ pool'.diskManager.path2fd tabName = none := by
  unfold RmManager.createFile at h
  split at h
  · exact absurd h (by simp)
  · obtain ⟨_, _, h1, h⟩ := bind_eq_ok.mp h
    obtain ⟨d₁, hd₁, rfl⟩ := disk_ok h1
    obtain ⟨_, _, h1, h⟩ := bind_eq_ok.mp h
    obtain ⟨d₂, hd₂, rfl⟩ := disk_ok h1
    obtain ⟨_, _, h1, h⟩ := bind_eq_ok.mp h
    obtain ⟨d₃, hd₃, rfl⟩ := writeDisk_ok h1
    obtain ⟨d₄, hd₄, rfl⟩ := disk_ok h
    obtain ⟨_, _, rfl⟩ := DiskManager.openFile_ok hd₂
    obtain ⟨path, f, hopen, _, _, rfl⟩ := DiskManager.writePage_some hd₃
    obtain ⟨path', hpath, rfl⟩ := DiskManager.closeFile_ok hd₄
    obtain rfl : tabName = path := by simpa [DiskManager.openedAs] using hopen
    obtain rfl : tabName = path' := by simpa [DiskManager.openedAs] using hpath
    exact ⟨by simp, by simp⟩

/-- To open such a file takes system calls only, which may fail. -/
theorem openFile_error {fd : Int} {pool pool' : BufferPoolManager}
    (hfile : (pool.diskManager.files tabName).isSome) (hclosed : pool.diskManager.path2fd tabName = none)
    (h : (RmManager.openFile tabName fd).run pool = .error e pool') : e = .unixError := by
  have hopen : ∀ e, pool.diskManager.openFile tabName fd = .error e → e = .unixError := by
    intro e he
    unfold DiskManager.openFile DiskManager.isFile at he
    rw [hfile, if_neg (by simp), hclosed, if_neg (by simp)] at he
    split at he
    · exact (Except.error.inj he).symm
    · exact absurd he (by simp)
  rcases bind_eq_error.mp h with hhandle | ⟨buf, pool₁, _, hrest⟩
  · rcases bind_eq_error.mp hhandle with hdisk | ⟨_, pool₁, _, hread⟩
    · unfold disk at hdisk
      rw [run_get_bind] at hdisk
      dsimp only at hdisk
      cases hd : pool.diskManager.openFile tabName fd with
      | error e' =>
          rw [hd, run_throw_any, EStateM.Result.error.injEq] at hdisk
          exact hdisk.1 ▸ hopen e' hd
      | ok d =>
          rw [hd] at hdisk
          exact absurd hdisk (by simp)
    · unfold readDisk at hread
      rw [run_get_bind] at hread
      dsimp only at hread
      split at hread
      · exact absurd hread (by simp)
      · rw [run_throw_any, EStateM.Result.error.injEq] at hread
        exact hread.1.symm
  · rw [run_modify_bind] at hrest
    exact absurd hrest (by simp)

/-- The table is entered once its file has been created, and then nothing but a system call can fail. -/
theorem spares_createTable (u : Unspecified) (colDefs : List ColDef) (fd fd' : Int) :
    Spares (· ≠ .unixError) catalog (createTable u tabName colDefs fd fd') := by
  intro s e t h he
  unfold createTable at h
  rw [run_get_bind] at h
  split at h
  · rw [run_throw_any, EStateM.Result.error.injEq] at h
    rw [h.2]
  · dsimp only at h
    rcases bind_eq_error.mp h with hcreate | ⟨_, s₁, hcreate, h⟩
    · exact spares_onPool (E := fun _ => True) _ s e t hcreate trivial
    · obtain ⟨pool₁, hpool₁, rfl⟩ := onPool_ok hcreate
      obtain ⟨hfile, hclosed⟩ := createFile_closed hpool₁
      rw [setTab, run_modify_bind] at h
      rcases bind_eq_error.mp h with hopen | ⟨hdr, s₂, _, h⟩
      · obtain ⟨pool₂, hpool₂, _⟩ := onPool_error hopen
        exact absurd (openFile_error hfile hclosed hpool₂) he
      · exact absurd h (by simp [emplaceFh])

/-! ## `create_index` and `drop_index` -/

variable {getCol : GetCol} {indexAll : RmFile → ColMeta → IxFile → PoolM IxFile}

/-- The maps are touched last. -/
theorem raises_setIndex {tab : TabMeta} {i : Fin tab.cols.length} {index : Bool} :
    Raises (fun _ => False) (setIndex tabName tab i index) := .modify

theorem spares_never {E : RedBaseError → Prop} {x : SmM Unit} (h : Raises (fun _ => False) x) :
    Spares E catalog x := .of_raises h fun _ hno => hno.elim

theorem spares_createIndex {E : RedBaseError → Prop} (pageBuf : Nat → UInt8) (fd fd' : Int) :
    Spares E catalog (createIndex getCol indexAll tabName colName pageBuf fd fd') := by
  unfold createIndex
  refine .get_bind fun s => .ofExcept_bind fun tab => .ofExcept_bind fun i => ?_
  dsimp only
  split
  · exact .throw _
  · refine .bind (spares_onPool _) (leaves_onPool _) fun _ =>
      .bind (spares_onPool _) (leaves_onPool _) fun hdr => ?_
    split
    · exact .throw _
    · refine .bind (spares_onPool _) (leaves_onPool _) fun ih => ?_
      split
      · exact .throw _
      · exact spares_never (Raises.modify.bind fun _ => raises_setIndex)

/-- The part of `drop_index` after the table was looked up. -/
theorem spares_dropIndex {tab : TabMeta} (htab : s.db.tabs[tabName]? = some tab)
    (h : (dropIndex getCol tabName colName).run s = .error e s') : s'.catalog = s.catalog := by
  have hat : s.db.tabAt tabName = (tab, s.db) := by
    unfold DbMeta.tabAt
    rw [htab]
  unfold dropIndex at h
  rw [run_get_bind] at h
  dsimp only at h
  rw [hat, run_set_bind] at h
  refine (?_ : Spares (fun _ => True) catalog _) s e s' h trivial
  refine .ofExcept_bind fun i => ?_
  dsimp only
  split
  · exact .throw _
  · split
    · exact .throw _
    · exact .bind (spares_onPool _) (leaves_onPool _) fun _ =>
        .bind (spares_onPool _) (leaves_onPool _) fun _ =>
          spares_never (Raises.modify.bind fun _ => raises_setIndex)

/-! ## The claim -/

/-- `get_col` raises where there is no such column. -/
def RaisesForAbsent (getCol : GetCol) : Prop :=
  ∀ (tab : TabMeta) (colName : String), (∀ col ∈ tab.cols, col.name ≠ colName) →
    getCol tab colName = .error (.columnNotFoundError colName)

/-- A call that changes the catalog. The numbers are what `open` returns. -/
inductive CatalogCall where
  | createTable (tabName : String) (colDefs : List ColDef) (fd fd' : Int)
  | createIndex (tabName colName : String) (pageBuf : Nat → UInt8) (fd fd' : Int)
  | dropIndex (tabName colName : String)

namespace CatalogCall

def run (u : Unspecified) (getCol : GetCol) (indexAll : RmFile → ColMeta → IxFile → PoolM IxFile) :
    CatalogCall → SmM Unit
  | .createTable tabName colDefs fd fd' => SmManager.createTable u tabName colDefs fd fd'
  | .createIndex tabName colName pageBuf fd fd' =>
      SmManager.createIndex getCol indexAll tabName colName pageBuf fd fd'
  | .dropIndex tabName colName => SmManager.dropIndex getCol tabName colName

/-- The call is `drop_index` on a table that does not exist. -/
def DropsFromAbsent (c : CatalogCall) (s : SmManager) : Prop :=
  ∃ tabName colName, c = .dropIndex tabName colName ∧ s.db.isTable tabName = false

/-- When `x` raises, the catalog is as it was, failing system calls apart; and `drop_index` on a
table that does not exist says so, and does not make it exist. -/
def FailsCleanly (c : CatalogCall) (s : SmManager) (x : SmM Unit) : Prop :=
  ∀ e s', x.run s = .error e s' →
    (e ≠ .unixError → s'.catalog = s.catalog)
      ∧ ∀ tabName colName, c = .dropIndex tabName colName → s.db.isTable tabName = false →
        e = .tableNotFoundError tabName ∧ s'.db.isTable tabName = false

end CatalogCall

theorem isTable_eq (db : DbMeta) (tabName : String) :
    db.isTable tabName = db.tabs[tabName]?.isSome := Std.TreeMap.contains_eq_isSome_getElem?

/-- `drop_index` on a table that does not exist enters it, and misses the column. -/
theorem dropIndex_absent (colName : String) (hcol : RaisesForAbsent getCol) (habsent : s.db.isTable tabName = false) :
    ∃ s', (dropIndex getCol tabName colName).run s = .error (.columnNotFoundError colName) s'
      ∧ s'.db.isTable tabName = true := by
  have hnone : s.db.tabs[tabName]? = none := by
    rw [isTable_eq] at habsent
    exact Option.isNone_iff_eq_none.mp (by rw [← Option.not_isSome, habsent]; rfl)
  have hat : s.db.tabAt tabName
      = (⟨"", []⟩, { s.db with tabs := s.db.tabs.insert tabName ⟨"", []⟩ }) := by
    unfold DbMeta.tabAt
    rw [hnone]
  refine ⟨{ s with db := { s.db with tabs := s.db.tabs.insert tabName ⟨"", []⟩ } }, ?_, ?_⟩
  · unfold dropIndex
    rw [run_get_bind]
    dsimp only
    rw [hat, run_set_bind, run_ofExcept_bind, hcol ⟨"", []⟩ colName (by simp)]
  · exact Std.TreeMap.contains_insert_self

/-- **Failing calls leave the catalog alone**, if and only if they are not `drop_index` on a table
that does not exist. -/
theorem failsCleanly_iff (u : Unspecified) (indexAll : RmFile → ColMeta → IxFile → PoolM IxFile)
    (hcol : RaisesForAbsent getCol) (s : SmManager) (c : CatalogCall) :
    c.FailsCleanly s (c.run u getCol indexAll) ↔ ¬ c.DropsFromAbsent s := by
  constructor
  · rintro hclean ⟨tabName, colName, rfl, habsent⟩
    obtain ⟨s', hrun, htable⟩ := dropIndex_absent colName hcol habsent
    have := ((hclean _ s' hrun).2 tabName colName rfl habsent).2
    rw [htable] at this
    exact absurd this (by simp)
  · intro hno e s' hrun
    refine ⟨fun he => ?_, fun tabName colName hc habsent => absurd ⟨tabName, colName, hc, habsent⟩ hno⟩
    cases c with
    | createTable tabName colDefs fd fd' => exact spares_createTable u colDefs fd fd' s e s' hrun he
    | createIndex tabName colName pageBuf fd fd' =>
        exact spares_createIndex (E := fun _ => True) pageBuf fd fd' s e s' hrun trivial
    | dropIndex tabName colName =>
        cases htab : s.db.tabs[tabName]? with
        | some tab => exact spares_dropIndex htab hrun
        | none =>
            exact absurd ⟨tabName, colName, rfl, by rw [isTable_eq, htab]; rfl⟩ hno

/-- A `get_col` that looks for the first column of that name. -/
def firstCol : GetCol := fun tab colName =>
  match tab.cols.findFinIdx? (·.name == colName) with
  | none => .error (.columnNotFoundError colName)
  | some i => .ok i

theorem firstCol_raises : RaisesForAbsent firstCol := by
  intro tab colName habsent
  have hnone : tab.cols.findFinIdx? (·.name == colName) = none := by
    rw [List.findFinIdx?_eq_none_iff]
    intro col hcol
    simpa using habsent col hcol
  unfold firstCol
  rw [hnone]

theorem firstCol_found {tab : TabMeta} {colName : String} {i : Fin tab.cols.length}
    (h : firstCol tab colName = .ok i) : (tab.cols.get i).name = colName := by
  unfold firstCol at h
  split at h
  · cases h
  · rename_i j hj
    obtain rfl := Except.ok.inj h
    simpa using (List.findFinIdx?_eq_some_iff.mp hj).1

theorem firstCol_finds {tab : TabMeta} {colName : String}
    (h : ∃ col ∈ tab.cols, col.name = colName) : ∃ i, firstCol tab colName = .ok i := by
  unfold firstCol
  cases hfind : tab.cols.findFinIdx? (·.name == colName) with
  | none =>
      obtain ⟨col, hcol, hname⟩ := h
      exact absurd (List.findFinIdx?_eq_none_iff.mp hfind col hcol) (by simp [hname])
  | some i => exact ⟨i, rfl⟩

theorem failsCleanly_iff_emptyDb :
    let c : CatalogCall := .createIndex "t" "a" (fun _ => 0) 3 4
    c.FailsCleanly emptyDb (c.run noOverflow firstCol fun _ _ ih => pure ih)
      ↔ ¬ c.DropsFromAbsent emptyDb :=
  failsCleanly_iff noOverflow (fun _ _ ih => pure ih) firstCol_raises emptyDb
    (.createIndex "t" "a" (fun _ => 0) 3 4)

/-- `drop_index` on table `t` of a database that has none: it complains about the column, and
afterwards there is a table `t`. -/
theorem dropIndex_enters_table :
    let c : CatalogCall := .dropIndex "t" "a"
    let x := c.run noOverflow firstCol fun _ _ ih => pure ih
    ¬ c.FailsCleanly emptyDb x
      ∧ ∃ s', x.run emptyDb = .error (.columnNotFoundError "a") s' ∧ s'.db.isTable "t" = true := by
  intro c x
  have habsent : emptyDb.db.isTable "t" = false := Std.TreeMap.contains_emptyc
  obtain ⟨s', hrun, htable⟩ := dropIndex_absent "a" firstCol_raises habsent
  refine ⟨fun hclean => ?_, s', hrun, htable⟩
  have herror := ((hclean _ s' hrun).2 "t" "a" rfl habsent).1
  exact absurd herror (by simp)

end SmManager

end Rucbase
