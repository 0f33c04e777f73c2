import Rucbase.Storage.PoolFile
import Rucbase.Record.RmRuns

/-!
# `RmFileHandle` on the buffer pool

The functions of `record/rm_file_handle.cpp` once more, now over the pool itself: a page handle is
the frame that `FetchPage` or `NewPage` returned, and its page is written through that pointer and
given back with `UnpinPage`. Each is shown to follow its counterpart over the page store, so that
everything proved there holds of the pool with its evictions and write-backs.
-/

namespace Rucbase

open Lib BufferPoolManager RmPageHandle

/-- An open record file: `fd_`, `file_hdr_` and the pool with the disk behind it. -/
structure PooledFile where
  fd : Int
  fileHdr : RmFileHdr
  pool : BufferPoolManager

abbrev PooledM := EStateM RedBaseError PooledFile

namespace PooledFile

/-- A call to `buffer_pool_manager_`. -/
def pooled {α : Type} (x : PoolM α) : PooledM α := fun s =>
  match x.run s.pool with
  | .ok a pool => .ok a { s with pool := pool }
  | .error e pool => .error e { s with pool := pool }

/-- `page->GetData()`. -/
def data (s : PooledFile) (f : Nat) : PageData := (s.pool.pages f).data

/-- `page->GetPageId()`. -/
def pageId (s : PooledFile) (f : Nat) : PageId := (s.pool.pages f).id

/-- Change the bytes behind a page pointer. -/
def modifyPage (f : Nat) (g : PageData → PageData) : PooledM Unit :=
  modify fun s => { s with pool := s.pool.overwrite f (g (s.data f)) }

/-- `buffer_pool_manager_->UnpinPage(page->GetPageId(), is_dirty)`. -/
def unpinPage (f : Nat) (isDirty : Bool) : PooledM Unit := do
  let s ← get
  let _ ← pooled (BufferPoolManager.unpinPage (s.pageId f) isDirty)

/-- `fetch_page_handle`. -/
def fetchPageHandle (pageNo : Int) : PooledM Nat := do
  let s ← get
  match ← pooled (BufferPoolManager.fetchPage ⟨s.fd, pageNo⟩) with
  | none => throw (.pageNotExistError "table" pageNo)
  | some f => return f

/-- `create_new_page_handle`. -/
def createNewPageHandle : PooledM Nat := do
  let s ← get
  match ← pooled (BufferPoolManager.newPage s.fd) with
  | none => throw .undefinedBehaviour
  | some (f, newPageId) =>
      modifyPage f fun d =>
        initBitmap s.fileHdr (setNumRecords (setNextFreePageNo d rmNoPage) 0)
      if s.fileHdr.numPages = 2147483647 then
        throw .undefinedBehaviour
      else
        modify fun s => { s with fileHdr := { s.fileHdr with
          numPages := s.fileHdr.numPages + 1, firstFreePageNo := newPageId.pageNo } }
        return f

/-- `create_page_handle`. -/
def createPageHandle : PooledM Nat := do
  let s ← get
  if s.fileHdr.firstFreePageNo = rmNoPage then
    createNewPageHandle
  else
    fetchPageHandle s.fileHdr.firstFreePageNo

/-- `release_page_handle`. -/
def releasePageHandle (f : Nat) : PooledM Unit := do
  let s ← get
  modifyPage f fun d => setNextFreePageNo d s.fileHdr.firstFreePageNo
  modify fun t => { t with fileHdr := { t.fileHdr with firstFreePageNo := (s.pageId f).pageNo } }

/-- `get_record`. -/
def getRecord (rid : Rid) : PooledM (List UInt8) := do
  let f ← fetchPageHandle rid.pageNo
  let s ← get
  let rec_ := record s.fileHdr (s.data f) rid.slotNo.toNat
  unpinPage f false
  return rec_

/-- The rest of `insert_record`, once it has a page with a free slot. -/
def insertInto (f : Nat) (buf : Nat → UInt8) : PooledM Rid := do
  let s ← get
  let slotNo := Bitmap.firstBit false (s.data f).toBuf bitmap s.fileHdr.slotsPerPage
  modifyPage f fun d => setBit (putRecord s.fileHdr d slotNo buf) slotNo
  modifyPage f fun d => setNumRecords d (numRecords d + 1)
  let s ← get
  onlyIf (numRecords (s.data f) = s.fileHdr.numRecordsPerPage)
    (modify fun s => { s with fileHdr := { s.fileHdr with
      firstFreePageNo := nextFreePageNo (s.data f) } })
  unpinPage f true
  return ⟨(s.pageId f).pageNo, slotNo⟩

/-- `insert_record(buf)`. -/
def insertRecord (buf : Nat → UInt8) : PooledM Rid := do
  let f ← createPageHandle
  insertInto f buf

/-- `delete_record`. -/
def deleteRecord (rid : Rid) : PooledM Unit := do
  let f ← fetchPageHandle rid.pageNo
  modifyPage f fun d => resetBit d rid.slotNo.toNat
  modifyPage f fun d => setNumRecords d (numRecords d - 1)
  let s ← get
  onlyIf (numRecords (s.data f) = s.fileHdr.numRecordsPerPage - 1) (releasePageHandle f)
  unpinPage f true

/-- `update_record`. -/
def updateRecord (rid : Rid) (buf : Nat → UInt8) : PooledM Unit := do
  let f ← fetchPageHandle rid.pageNo
  let s ← get
  modifyPage f fun d => putRecord s.fileHdr d rid.slotNo.toNat buf
  unpinPage f true

/-- The file over the page store that the pool stands for. -/
def view (s : PooledFile) (pins : List Int) : RmFileHandle where
  fileHdr := s.fileHdr
  store := s.pool.pageStore s.fd pins

/-! ## Between two calls, and inside one -/

/-- The pool backs the file, and none of its pages is pinned. -/
def Rests (filename : String) (s : PooledFile) : Prop :=
  ∃ m pins owes, Elsewhere s.fd pins ∧ Backs filename s.fd m ⟨s.pool, pins, owes⟩

/-- Page `no` is pinned in frame `f`, and no other page of the file is; when it is not `touched` there
is nothing to report. -/
structure Holding (filename : String) (no : Int) (f : Nat) (touched : Bool) (s : PooledFile)
    (t : RmFileHandle) : Prop where
  backs : ∃ m pins owes, Elsewhere s.fd pins
    ∧ Backs filename s.fd m ⟨s.pool, ⟨0, ⟨s.fd, no⟩, f⟩ :: pins, owes⟩
    ∧ (owes 0 ⟨s.fd, no⟩ = true → touched = true)
  view : t = s.view [no]

/-- Both calls returned the same, and what the pool backs is what the page store has. -/
def Agree (filename : String) {α : Type} (v w : α) (s : PooledFile) (t : RmFileHandle) : Prop :=
  v = w ∧ s.Rests filename ∧ t = s.view []

section

variable {filename : String} {s : PooledFile} {t : RmFileHandle} {no : Int} {f : Nat}
  {touched : Bool} {x : PageData} {rid : Rid} {buf : Nat → UInt8}

theorem run_pooled {α : Type} {y : PoolM α} {a : α} {pool : BufferPoolManager}
    (h : y.run s.pool = .ok a pool) : (pooled y).run s = .ok a { s with pool := pool } := by
  show (match y.run s.pool with | .ok a pool => _ | .error e pool => _) = _
  rw [h]

theorem pooled_ok {α : Type} {y : PoolM α} {a : α} {s' : PooledFile}
    (h : (pooled y).run s = .ok a s') : ∃ pool, y.run s.pool = .ok a pool := by
  change (match y.run s.pool with | .ok a pool => _ | .error e pool => _) = _ at h
  split at h
  · rename_i a' pool hy
    rw [EStateM.Result.ok.injEq] at h
    exact ⟨pool, h.1 ▸ hy⟩
  · exact absurd h (by simp)

namespace Holding

/-- The two page pointers. -/
theorem pointer (h : Holding filename no f touched s t) :
    s.pageId f = ⟨s.fd, no⟩ ∧ t.store.pages no = some (s.data f) := by
  obtain ⟨⟨m, pins, owes, _, hback, _⟩, rfl⟩ := h
  exact hback.pointer rfl List.mem_cons_self [no]

theorem page (h : Holding filename no f touched s t) : t.page no = s.data f :=
  RmFileHandle.page_of_some h.pointer.2

theorem fileHdr (h : Holding filename no f touched s t) : t.fileHdr = s.fileHdr := by
  rw [h.view]
  rfl

theorem mapHdr (h : Holding filename no f touched s t) (g : RmFileHdr → RmFileHdr) :
    Holding filename no f touched { s with fileHdr := g s.fileHdr }
      { t with fileHdr := g t.fileHdr } := by
  obtain ⟨hback, rfl⟩ := h
  exact ⟨hback, rfl⟩

/-- The page overwritten through the pointer. -/
theorem overwrite (h : Holding filename no f touched s t) (x : PageData) :
    Holding filename no f true { s with pool := s.pool.overwrite f x } (t.setPage no x) := by
  obtain ⟨⟨m, pins, owes, hpins, hback, _⟩, rfl⟩ := h
  refine ⟨⟨_, _, _, hpins, hback.write rfl List.mem_cons_self x, fun _ => rfl⟩, ?_⟩
  show (⟨_, _⟩ : RmFileHandle) = ⟨_, _⟩
  rw [hback.write_pageStore rfl List.mem_cons_self]
  rfl

/-- Changing the page, in both programs. -/
theorem modifyPage_bind {α β : Type} {g : PageData → PageData} {k : PUnit → PooledM α}
    {k' : PUnit → RmM β} {R : α → β → PooledFile → RmFileHandle → Prop}
    (h : Holding filename no f touched s t)
    (hk : Holding filename no f true { s with pool := s.pool.overwrite f (g (s.data f)) }
        (t.setPage no (g (s.data f))) →
      Follows R ((k ⟨⟩).run { s with pool := s.pool.overwrite f (g (s.data f)) })
        ((k' ⟨⟩).run (t.setPage no (g (s.data f))))) :
    Follows R ((modifyPage f g >>= k).run s) ((RmFileHandle.modifyPage no g >>= k').run t) := by
  rw [RmFileHandle.run_modifyPage_bind h.pointer.2]
  exact hk (h.overwrite _)

/-- Giving the page back, in both programs. -/
theorem unpinPage (h : Holding filename no f touched s t) {b : Bool} (hb : touched = true → b = true) :
    Follows (Agree filename) ((PooledFile.unpinPage f b).run s)
      ((RmFileHandle.unpinPage no).run t) := by
  have hid := h.pointer.1
  obtain ⟨⟨m, pins, owes, hpins, hback, howes⟩, rfl⟩ := h
  obtain ⟨pool, hrun, hback', hstore⟩ := hback.unpin rfl rfl fun ho => hb (howes ho)
  have hpool : (PooledFile.unpinPage f b).run s = .ok ⟨⟩ { s with pool := pool } := by
    unfold PooledFile.unpinPage
    rw [run_get_bind, hid, bind_ok (run_pooled hrun)]
    rfl
  refine .of_ok hpool (RmFileHandle.run_unpinPage rfl) ⟨rfl, ⟨_, _, _, hpins, hback'⟩, ?_⟩
  show (⟨_, _⟩ : RmFileHandle) = ⟨_, _⟩
  dsimp only
  rw [hstore []]
  rfl

end Holding

/-- `fetch_page_handle` of a page the file has. -/
theorem follows_fetchPageHandle (h : s.Rests filename) (hp : (s.view []).store.pages no = some x) :
    Follows (fun f no' s' t => no' = no ∧ Holding filename no f false s' t)
      ((fetchPageHandle no).run s) ((RmFileHandle.fetchPageHandle no).run (s.view [])) := by
  obtain ⟨m, pins, owes, hpins, hback⟩ := h
  obtain ⟨f, pool, hrun, hback', hstore⟩ := hback.fetch hpins hp
  have hpool : (fetchPageHandle no).run s = .ok f { s with pool := pool } := by
    unfold fetchPageHandle
    rw [run_get_bind, bind_ok (run_pooled hrun)]
    rfl
  refine .of_ok hpool (RmFileHandle.run_fetchPageHandle rfl hp)
    ⟨rfl, ⟨m, pins, owes, hpins, hback', fun ho => ?_⟩, ?_⟩
  · have hnone : owes 0 ⟨s.fd, no⟩ = false := hback.owes_nothing hpins rfl 0
    exact absurd ho (by simp [hnone])
  · show (⟨_, _⟩ : RmFileHandle) = ⟨_, _⟩
    dsimp only
    rw [hstore [no]]
    rfl

/-- `create_new_page_handle`. -/
theorem follows_createNewPageHandle (h : s.Rests filename) :
    Follows (fun f no s' t => Holding filename no f true s' t)
      (createNewPageHandle.run s) (RmFileHandle.createNewPageHandle.run (s.view [])) := by
  obtain ⟨m, pins, owes, hpins, hback⟩ := h
  obtain ⟨f, pool, m', hrun, hback', hstore⟩ := hback.create hpins
  have hnew : (s.view []).store.newPage zeroPage = some (_, _) := PageStore.newPage_enough rfl _
  have hhold : Holding filename (s.pool.diskManager.fd2pageno s.fd) f true { s with pool := pool }
      { s.view [] with store := { (s.view []).store with
        pages := Function.update (s.view []).store.pages (s.view []).store.nextPageNo (some zeroPage)
        pins := [((s.view []).store.nextPageNo : Int)]
        nextPageNo := (s.view []).store.nextPageNo + 1 } } := by
    refine ⟨⟨m', pins, _, hpins, hback', fun _ => rfl⟩, ?_⟩
    show (⟨_, _⟩ : RmFileHandle) = ⟨_, _⟩
    dsimp only
    rw [hstore]
    rfl
  unfold createNewPageHandle RmFileHandle.createNewPageHandle
  rw [run_get_bind, bind_ok (run_pooled hrun), run_get_bind, hnew]
  dsimp only
  rw [run_set_bind]
  refine hhold.modifyPage_bind fun hhold => ?_
  show Follows _ (EStateM.run (if s.fileHdr.numPages = 2147483647 then _ else _) _)
    (EStateM.run (if s.fileHdr.numPages = 2147483647 then _ else _) _)
  by_cases hmax : s.fileHdr.numPages = 2147483647
  · rw [if_pos hmax, if_pos hmax]
    exact rfl
  · rw [if_neg hmax, if_neg hmax, run_modify_bind, run_modify_bind]
    refine .of_ok rfl rfl ?_
    exact hhold.mapHdr fun hdr => { hdr with
      numPages := hdr.numPages + 1, firstFreePageNo := s.pool.diskManager.fd2pageno s.fd }

/-! ## The calls -/

/-- **`get_record`.** -/
theorem follows_getRecord (h : s.Rests filename)
    (hp : (s.view []).store.pages rid.pageNo = some x) :
    Follows (Agree filename) ((getRecord rid).run s)
      ((RmFileHandle.getRecord rid).run (s.view [])) := by
  unfold getRecord RmFileHandle.getRecord
  refine (follows_fetchPageHandle h hp).bind ?_
  rintro f no s t ⟨rfl, hhold⟩
  rw [run_get_bind, run_get_bind, hhold.page, hhold.fileHdr]
  refine (hhold.unpinPage fun hb => hb).bind ?_
  rintro - - s' t' ⟨_, hrest, rfl⟩
  exact ⟨rfl, hrest, rfl⟩

/-- **`update_record`.** -/
theorem follows_updateRecord (h : s.Rests filename)
    (hp : (s.view []).store.pages rid.pageNo = some x) :
    Follows (Agree filename) ((updateRecord rid buf).run s)
      ((RmFileHandle.updateRecord rid buf).run (s.view [])) := by
  unfold updateRecord RmFileHandle.updateRecord
  refine (follows_fetchPageHandle h hp).bind ?_
  rintro f no s t ⟨rfl, hhold⟩
  rw [run_get_bind, run_get_bind, hhold.fileHdr]
  exact hhold.modifyPage_bind fun hhold => hhold.unpinPage fun _ => rfl

/-- `release_page_handle`. -/
theorem follows_releasePageHandle {t : RmFileHandle} (h : Holding filename no f touched s t) :
    Follows (fun _ _ => Holding filename no f true) ((releasePageHandle f).run s)
      ((RmFileHandle.releasePageHandle no).run t) := by
  unfold releasePageHandle RmFileHandle.releasePageHandle
  rw [run_get_bind, run_get_bind, h.fileHdr, h.pointer.1]
  exact h.modifyPage_bind fun h => .of_ok rfl rfl (h.mapHdr fun hdr => { hdr with firstFreePageNo := no })

/-- **`delete_record`.** -/
theorem follows_deleteRecord (h : s.Rests filename)
    (hp : (s.view []).store.pages rid.pageNo = some x) :
    Follows (Agree filename) ((deleteRecord rid).run s)
      ((RmFileHandle.deleteRecord rid).run (s.view [])) := by
  unfold deleteRecord RmFileHandle.deleteRecord
  refine (follows_fetchPageHandle h hp).bind ?_
  rintro f no s t ⟨rfl, hhold⟩
  refine hhold.modifyPage_bind fun hhold => hhold.modifyPage_bind fun hhold => ?_
  rw [run_get_bind, run_get_bind, hhold.page, hhold.fileHdr]
  exact .onlyIf_bind hhold (fun _ => follows_releasePageHandle hhold)
    fun _ _ hhold => hhold.unpinPage fun _ => rfl

/-- The tail of `insert_record` on the page it pinned. -/
theorem follows_insertInto {t : RmFileHandle} (h : Holding filename no f touched s t) :
    Follows (Agree filename) ((insertInto f buf).run s)
      ((RmFileHandle.insertInto no buf).run t) := by
  unfold insertInto RmFileHandle.insertInto
  rw [run_get_bind, run_get_bind, h.page, h.fileHdr]
  dsimp only
  refine h.modifyPage_bind fun h => h.modifyPage_bind fun h => ?_
  rw [run_get_bind, run_get_bind, h.page, h.fileHdr, h.pointer.1]
  refine .onlyIf_bind (I := Holding filename no f true) h (fun _ => .of_ok rfl rfl ?_)
    fun s' t' h => ?_
  · dsimp only
    rw [h.page]
    exact h.mapHdr fun hdr => { hdr with firstFreePageNo := nextFreePageNo (PooledFile.data _ f) }
  · refine (h.unpinPage fun _ => rfl).bind ?_
    rintro - - s' t' ⟨_, hrest, rfl⟩
    exact ⟨rfl, hrest, rfl⟩

/-- **`insert_record`.** -/
theorem follows_insertRecord (h : s.Rests filename)
    (hp : s.fileHdr.firstFreePageNo ≠ rmNoPage →
      ∃ x, (s.view []).store.pages s.fileHdr.firstFreePageNo = some x) :
    Follows (Agree filename) ((insertRecord buf).run s)
      ((RmFileHandle.insertRecord buf).run (s.view [])) := by
  have hcreate : Follows (fun f no s' t => ∃ touched, Holding filename no f touched s' t)
      (createPageHandle.run s) (RmFileHandle.createPageHandle.run (s.view [])) := by
    unfold createPageHandle RmFileHandle.createPageHandle
    rw [run_get_bind, run_get_bind]
    by_cases hno : s.fileHdr.firstFreePageNo = rmNoPage
    · rw [if_pos hno, if_pos (show (s.view []).fileHdr.firstFreePageNo = _ from hno)]
      exact (follows_createNewPageHandle h).imp fun _ _ _ _ hhold => ⟨true, hhold⟩
    · rw [if_neg hno, if_neg (show (s.view []).fileHdr.firstFreePageNo ≠ _ from hno)]
      obtain ⟨x, hx⟩ := hp hno
      refine (follows_fetchPageHandle h hx).imp ?_
      rintro f no s' t ⟨rfl, hhold⟩
      exact ⟨false, hhold⟩
  unfold insertRecord RmFileHandle.insertRecord
  refine hcreate.bind ?_
  rintro f no s' t ⟨touched, hhold⟩
  exact follows_insertInto hhold

end

end PooledFile

end Rucbase
