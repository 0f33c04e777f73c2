import Rucbase.Parser.CreateTable
import Rucbase.Record.RmManager

/-!
# `SmManager`

`system/sm_meta.h` and the parts of `system/sm_manager.cpp` that create tables, create indexes and
drop them: the catalog, and the record and index files that are open. `tabs_` is a sorted map;
`fhs_` and `ihs_` are only looked up.
-/

namespace Rucbase

open Lib BufferPoolManager

/-- `ColMeta`. -/
structure ColMeta where
  tabName : String
  name : String
  type : ColType
  len : Int
  offset : Int
  index : Bool
deriving DecidableEq, Repr

/-- `TabMeta`. -/
structure TabMeta where
  name : String
  cols : List ColMeta
deriving DecidableEq, Repr

/-- `DbMeta`. -/
structure DbMeta where
  name : String
  tabs : Std.TreeMap String TabMeta

/-- `is_table`. -/
def DbMeta.isTable (db : DbMeta) (tabName : String) : Bool := db.tabs.contains tabName

/-- `get_table`. -/
def DbMeta.getTable (db : DbMeta) (tabName : String) : Except RedBaseError TabMeta :=
  match db.tabs[tabName]? with
  | none => .error (.tableNotFoundError tabName)
  | some tab => .ok tab

/-- `tabs_[tab_name]`: where there is no such table, an empty one is entered. -/
def DbMeta.tabAt (db : DbMeta) (tabName : String) : TabMeta × DbMeta :=
  match db.tabs[tabName]? with
  | none => (⟨"", []⟩, { db with tabs := db.tabs.insert tabName ⟨"", []⟩ })
  | some tab => (tab, db)

/-- An open record file: `RmFileHandle` without its pages. -/
structure RmFile where
  fd : Int
  fileHdr : RmFileHdr

/-- An open index file: `IxIndexHandle` without its pages. -/
structure IxFile where
  fd : Int
  fileHdr : IxFileHdr

/-- `SmManager`, with the pool and the disk below it. -/
structure SmManager where
  db : DbMeta
  fhs : String → Option RmFile
  pool : BufferPoolManager
  ihs : String → Option IxFile := fun _ => none

abbrev SmM := EStateM RedBaseError SmManager

namespace SmManager

/-- A call on the pool or the disk. -/
def onPool {α : Type} (x : PoolM α) : SmM α := do
  let s ← get
  match x.run s.pool with
  | .ok a pool =>
      set { s with pool := pool }
      return a
  | .error e pool =>
      set { s with pool := pool }
      throw e

/-- `tabs_[tab.name] = tab`. -/
def setTab (tab : TabMeta) : SmM Unit :=
  modify fun s => { s with db := { s.db with tabs := s.db.tabs.insert tab.name tab } }

/-- `fhs_.emplace`: what is there stays. -/
def emplaceFh (tabName : String) (file : RmFile) : SmM Unit :=
  modify fun s => { s with
    fhs := Function.update s.fhs tabName (some ((s.fhs tabName).getD file)) }

/-- The loop of `create_table`: the columns, from `curr_offset` on, and the offset behind them. -/
def layout (u : Unspecified) (tabName : String) : Int → List ColDef → List ColMeta × Int
  | currOffset, [] => ([], currOffset)
  | currOffset, colDef :: colDefs =>
      let col : ColMeta :=
        { tabName := tabName
          name := colDef.name
          type := colDef.type
          len := colDef.len
          offset := currOffset
          index := false }
      let rest := layout u tabName (u.addInt currOffset colDef.len) colDefs
      (col :: rest.1, rest.2)

/-- `create_table`. `fd` and `fd'` are the descriptors the file is open under while it is created,
and afterwards. -/
def createTable (u : Unspecified) (tabName : String) (colDefs : List ColDef) (fd fd' : Int) :
    SmM Unit := do
  let s ← get
  if s.db.isTable tabName then
    throw (.tableExistsError tabName)
  else
    let cols := (layout u tabName 0 colDefs).1
    let recordSize := (layout u tabName 0 colDefs).2
    onPool (RmManager.createFile tabName recordSize fd)
    setTab ⟨tabName, cols⟩
    let hdr ← onPool (RmManager.openFile tabName fd')
    emplaceFh tabName ⟨fd', hdr⟩

/-- The branch of `interp.h` for a `CREATE TABLE` statement. -/
def execCreateTable (u : Unspecified) (stmt : CreateTable) (fd fd' : Int) : SmM Unit :=
  createTable u stmt.tabName (stmt.colDefs u) fd fd'

/-- `ihs_.emplace`. -/
def emplaceIh (indexName : String) (ih : IxFile) : SmM Unit :=
  modify fun s => { s with
    ihs := Function.update s.ihs indexName (some ((s.ihs indexName).getD ih)) }

/-- `ihs_.erase`. -/
def eraseIh (indexName : String) : SmM Unit :=
  modify fun s => { s with ihs := Function.update s.ihs indexName none }

/-- `col->index = index`, for column `i` of a table of the catalog. -/
def setIndex (tabName : String) (tab : TabMeta) (i : Fin tab.cols.length) (index : Bool) : SmM Unit :=
  let cols := tab.cols.set i { tab.cols.get i with index := index }
  modify fun s => { s with
    db := { s.db with tabs := s.db.tabs.insert tabName { tab with cols := cols } } }

/-- `TabMeta::get_col`, which is left to be written: where the column of that name is. -/
abbrev GetCol := (tab : TabMeta) → String → Except RedBaseError (Fin tab.cols.length)

/-- `create_index`. The file is open under `fd` while it is created, and under `fd'` afterwards;
`indexAll` is the loop that enters the records of the table. -/
def createIndex (getCol : GetCol) (indexAll : RmFile → ColMeta → IxFile → PoolM IxFile)
    (tabName colName : String) (pageBuf : Nat → UInt8) (fd fd' : Int) : SmM Unit := do
  let s ← get
  let tab ← MonadExcept.ofExcept (s.db.getTable tabName)
  let i ← MonadExcept.ofExcept (getCol tab colName)
  let col := tab.cols.get i
  if col.index then
    throw (.indexExistsError tabName colName)
  else
    onPool (IxManager.createIndex tabName i col.type col.len pageBuf fd)
    let hdr ← onPool (IxManager.openIndex tabName i fd')
    match s.fhs tabName with
    | none => throw .outOfRange
    | some fileHandle =>
        let ih ← onPool (indexAll fileHandle col ⟨fd', hdr⟩)
        let indexName := IxManager.getIndexName tabName i
        if (s.ihs indexName).isSome then
          throw .assertionFailure
        else
          emplaceIh indexName ih
          setIndex tabName tab i true

/-- `drop_index`. -/
def dropIndex (getCol : GetCol) (tabName colName : String) : SmM Unit := do
  let s ← get
  let tab := (s.db.tabAt tabName).1
  set { s with db := (s.db.tabAt tabName).2 }
  let i ← MonadExcept.ofExcept (getCol tab colName)
  if !(tab.cols.get i).index then
    throw (.indexNotFoundError tabName colName)
  else
    let indexName := IxManager.getIndexName tabName i
    match s.ihs indexName with
    | none => throw .outOfRange
    | some ih =>
        onPool (IxManager.closeIndex ih.fd ih.fileHdr)
        onPool (IxManager.destroyIndex tabName i)
        eraseIh indexName
        setIndex tabName tab i false

/-! ## What `create_table` does -/

variable {u : Unspecified} {tabName : String} {colDefs : List ColDef} {fd fd' : Int}
  {s s' : SmManager}

theorem onPool_ok {α : Type} {x : PoolM α} {a : α} (h : (onPool x).run s = .ok a s') :
    ∃ pool, x.run s.pool = .ok a pool ∧ s' = { s with pool := pool } := by
  unfold onPool at h
  rw [run_get_bind] at h
  cases hx : x.run s.pool with
  | error e pool => simp [hx] at h
  | ok b pool =>
      simp only [hx, run_set_bind, EStateM.run_pure, EStateM.Result.ok.injEq] at h
      exact ⟨pool, by rw [h.1], h.2.symm⟩

/-- `create_file` returns for the record sizes it accepts only. -/
theorem createFile_size {filename : String} {recordSize : Int} {pool pool' : BufferPoolManager}
    (h : (RmManager.createFile filename recordSize fd).run pool = .ok ⟨⟩ pool') :
    1 ≤ recordSize ∧ recordSize ≤ rmMaxRecordSize := by
  by_contra hno
  unfold RmManager.createFile at h
  rw [if_pos (by omega)] at h
  exact absurd h (by simp)

/-- A call that returns has entered the table, with a record size that `create_file` accepts. -/
theorem createTable_ok (h : (createTable u tabName colDefs fd fd').run s = .ok ⟨⟩ s') :
    1 ≤ (layout u tabName 0 colDefs).2 ∧ (layout u tabName 0 colDefs).2 ≤ rmMaxRecordSize
      ∧ s'.db.tabs[tabName]? = some ⟨tabName, (layout u tabName 0 colDefs).1⟩ := by
  unfold createTable at h
  rw [run_get_bind] at h
  by_cases htab : s.db.isTable tabName = true
  · rw [if_pos htab] at h
    exact absurd h (by simp)
  · rw [if_neg htab] at h
    dsimp only at h
    obtain ⟨_, s₁, h₁, h⟩ := bind_eq_ok.mp h
    obtain ⟨pool₁, hcreate, rfl⟩ := onPool_ok h₁
    obtain ⟨h1, h2⟩ := createFile_size hcreate
    refine ⟨h1, h2, ?_⟩
    rw [setTab, run_modify_bind] at h
    obtain ⟨hdr, s₂, h₂, h⟩ := bind_eq_ok.mp h
    obtain ⟨pool₂, _, rfl⟩ := onPool_ok h₂
    rw [emplaceFh, EStateM.run_modify, EStateM.Result.ok.injEq] at h
    rw [← h.2]
    exact Std.TreeMap.getElem?_insert_self

end SmManager

end Rucbase
