import Rucbase.Lib.EState
import Rucbase.Storage.PageStore
import Rucbase.Record.RmPage

/-!
# `RmFileHandle`

`record/rm_file_handle.cpp`, function by function, over a page store. A page handle is the
number of the page it points to. `file_hdr_.num_pages` is a 32-bit integer: increasing it past
the largest one, like using the null page of a pool that has run out of frames, is where the
C++ program loses its meaning.
-/

namespace Rucbase

open Lib RmPageHandle

/-- An open record file: its header in memory and its pages. -/
structure RmFileHandle where
  fileHdr : RmFileHdr
  store : PageStore PageData

abbrev RmM := EStateM RedBaseError RmFileHandle

namespace RmFileHandle

/-- The bytes behind a page pointer. -/
def page (s : RmFileHandle) (no : Int) : PageData := (s.store.pages no).getD zeroPage

/-- Change the bytes behind a page pointer. -/
def modifyPage (no : Int) (f : PageData → PageData) : RmM Unit :=
  modify fun s => { s with store := s.store.setPage no (f (s.page no)) }

/-- `buffer_pool_manager_->UnpinPage`. -/
def unpinPage (no : Int) : RmM Unit :=
  modify fun s => { s with store := s.store.unpinPage no }

/-- `fetch_page_handle`. -/
def fetchPageHandle (pageNo : Int) : RmM Int := do
  let s ← get
  match s.store.fetchPage pageNo with
  | .error e => throw e
  | .ok none => throw (.pageNotExistError "table" pageNo)
  | .ok (some t) =>
      set { s with store := t }
      return pageNo

/-- `create_new_page_handle`. -/
def createNewPageHandle : RmM Int := do
  let s ← get
  match s.store.newPage zeroPage with
  | none => throw .undefinedBehaviour
  | some (no, t) =>
      set { s with store := t }
      modifyPage no fun d =>
        initBitmap s.fileHdr (setNumRecords (setNextFreePageNo d rmNoPage) 0)
      if s.fileHdr.numPages = 2147483647 then
        throw .undefinedBehaviour
      else
        modify fun s => { s with fileHdr := { s.fileHdr with
          numPages := s.fileHdr.numPages + 1, firstFreePageNo := no } }
        return no

/-- `create_page_handle`. -/
def createPageHandle : RmM Int := do
  let s ← get
  if s.fileHdr.firstFreePageNo = rmNoPage then
    createNewPageHandle
  else
    fetchPageHandle s.fileHdr.firstFreePageNo

/-- `release_page_handle`. -/
def releasePageHandle (no : Int) : RmM Unit := do
  let s ← get
  modifyPage no fun d => setNextFreePageNo d s.fileHdr.firstFreePageNo
  modify fun s => { s with fileHdr := { s.fileHdr with firstFreePageNo := no } }

/-- `is_record`. It keeps the page pinned. -/
def isRecord (rid : Rid) : RmM Bool := do
  let no ← fetchPageHandle rid.pageNo
  let s ← get
  return isSet (s.page no) rid.slotNo.toNat

/-- `get_record`. -/
def getRecord (rid : Rid) : RmM (List UInt8) := do
  let no ← fetchPageHandle rid.pageNo
  let s ← get
  let rec_ := record s.fileHdr (s.page no) rid.slotNo.toNat
  unpinPage no
  return rec_

/-- The rest of `insert_record`, once it has a page with a free slot. -/
def insertInto (no : Int) (buf : Nat → UInt8) : RmM Rid := do
  let s ← get
  let slotNo := Bitmap.firstBit false (s.page no).toBuf bitmap s.fileHdr.slotsPerPage
  modifyPage no fun d => setBit (putRecord s.fileHdr d slotNo buf) slotNo
  modifyPage no fun d => setNumRecords d (numRecords d + 1)
  let s ← get
  onlyIf (numRecords (s.page no) = s.fileHdr.numRecordsPerPage)
    (modify fun s => { s with fileHdr := { s.fileHdr with
      firstFreePageNo := nextFreePageNo (s.page no) } })
  unpinPage no
  return ⟨no, slotNo⟩

/-- `insert_record(buf)`. -/
def insertRecord (buf : Nat → UInt8) : RmM Rid := do
  let no ← createPageHandle
  insertInto no buf

/-- `delete_record`. -/
def deleteRecord (rid : Rid) : RmM Unit := do
  let no ← fetchPageHandle rid.pageNo
  modifyPage no fun d => resetBit d rid.slotNo.toNat
  modifyPage no fun d => setNumRecords d (numRecords d - 1)
  let s ← get
  onlyIf (numRecords (s.page no) = s.fileHdr.numRecordsPerPage - 1) (releasePageHandle no)
  unpinPage no

/-- `update_record`. -/
def updateRecord (rid : Rid) (buf : Nat → UInt8) : RmM Unit := do
  let no ← fetchPageHandle rid.pageNo
  let s ← get
  modifyPage no fun d => putRecord s.fileHdr d rid.slotNo.toNat buf
  unpinPage no

/-- The handle of a file that was created with `record_size` and opened: the header comes back
from page 0, and `set_fd2pageno` starts the counter at `num_pages`. -/
def opened (recordSize : Int) : RmFileHandle :=
  let hdr := RmFileHdr.ofBuf (RmFileHdr.initial recordSize).toBuf
  { fileHdr := hdr
    store := { pages := fun _ => none, pins := [], nextPageNo := hdr.numPages.toNat, frames := none } }

/-! ## What the calls do -/

variable {s : RmFileHandle} {no : Int} {d : PageData} {buf : Nat → UInt8} {rid : Rid}

/-- A page replaced. -/
def setPage (s : RmFileHandle) (no : Int) (d : PageData) : RmFileHandle :=
  { s with store := s.store.setPage no d }

/-- The head of the free chain replaced. -/
def setFirst (s : RmFileHandle) (first : Int) : RmFileHandle :=
  { s with fileHdr := { s.fileHdr with firstFreePageNo := first } }

/-- The pins replaced. -/
def setPins (s : RmFileHandle) (pins : List Int) : RmFileHandle :=
  { s with store := { s.store with pins := pins } }

theorem page_of_some (h : s.store.pages no = some d) : s.page no = d := by
  rw [page, h]
  rfl

theorem pages_setPage : (s.setPage no d).store.pages no = some d := Function.update_self ..

theorem page_setPage : (s.setPage no d).page no = d := page_of_some pages_setPage

theorem setPage_setPage {d' : PageData} : (s.setPage no d).setPage no d' = s.setPage no d' := by
  unfold setPage PageStore.setPage
  rw [Function.update_idem]

theorem run_modifyPage_bind {β : Type} {f : PageData → PageData} {g : PUnit → RmM β}
    (hp : s.store.pages no = some d) :
    (modifyPage no f >>= g).run s = (g ⟨⟩).run (s.setPage no (f d)) := by
  unfold modifyPage
  rw [run_modify_bind, page_of_some hp]
  rfl

theorem run_unpinPage {rest : List Int} (hpins : s.store.pins = no :: rest) :
    (unpinPage no).run s = .ok ⟨⟩ (s.setPins rest) := by
  unfold unpinPage
  rw [EStateM.run_modify, PageStore.unpinPage, hpins, List.erase_cons_head]
  rfl

theorem run_unpinPage_bind {β : Type} {g : PUnit → RmM β} {rest : List Int}
    (hpins : s.store.pins = no :: rest) :
    (unpinPage no >>= g).run s = (g ⟨⟩).run (s.setPins rest) :=
  bind_ok (run_unpinPage hpins)

/-- `fetch_page_handle` with no frame left. -/
theorem run_fetchPageHandle_refused (hr : s.store.Refuses no) :
    (fetchPageHandle no).run s = .error (.pageNotExistError "table" no) s := by
  rw [fetchPageHandle, run_get_bind, PageStore.fetchPage_refuses hr]
  rfl

theorem run_fetchPageHandle_missing (hr : ¬ s.store.Refuses no) (hp : s.store.pages no = none) :
    (fetchPageHandle no).run s = .error .unixError s := by
  rw [fetchPageHandle, run_get_bind, PageStore.fetchPage_missing hr hp]
  rfl

theorem run_fetchPageHandle_some (hr : ¬ s.store.Refuses no) (hp : s.store.pages no = some d) :
    (fetchPageHandle no).run s = .ok no (s.setPins (no :: s.store.pins)) := by
  rw [fetchPageHandle, run_get_bind, PageStore.fetchPage_some hr hp]
  rfl

theorem run_fetchPageHandle (he : s.store.frames = none) (hp : s.store.pages no = some d) :
    (fetchPageHandle no).run s = .ok no (s.setPins (no :: s.store.pins)) :=
  run_fetchPageHandle_some (PageStore.not_refuses he) hp

/-- The page after a record was put into slot `k`. -/
def insertedPage (h : RmFileHdr) (d : PageData) (k : Nat) (buf : Nat → UInt8) : PageData :=
  setNumRecords (setBit (putRecord h d k buf) k) (numRecords (setBit (putRecord h d k buf) k) + 1)

/-- The page after slot `k` was cleared. -/
def deletedPage (d : PageData) (k : Nat) : PageData :=
  setNumRecords (resetBit d k) (numRecords (resetBit d k) - 1)

/-- A page as `create_new_page_handle` leaves it. -/
def blankPage (h : RmFileHdr) : PageData :=
  initBitmap h (setNumRecords (setNextFreePageNo zeroPage rmNoPage) 0)

/-- Where `insert_record` puts a record. -/
def freeSlot (h : RmFileHdr) (d : PageData) : Nat :=
  Bitmap.firstBit false d.toBuf bitmap h.slotsPerPage

/-- The head of the free chain after a page has become `d`. -/
def firstAfterInsert (h : RmFileHdr) (d : PageData) : Int :=
  if numRecords d = h.numRecordsPerPage then nextFreePageNo d else h.firstFreePageNo

/-- The tail of `insert_record` on the page it pinned. -/
theorem run_insertInto (hp : s.store.pages no = some d) {rest : List Int}
    (hpins : s.store.pins = no :: rest) :
    (insertInto no buf).run s = .ok ⟨no, freeSlot s.fileHdr d⟩
      (((s.setPage no (insertedPage s.fileHdr d (freeSlot s.fileHdr d) buf)).setFirst
        (firstAfterInsert s.fileHdr (insertedPage s.fileHdr d (freeSlot s.fileHdr d) buf))).setPins
          rest) := by
  unfold insertInto
  rw [run_get_bind]
  dsimp only
  rw [page_of_some hp, run_modifyPage_bind hp, run_modifyPage_bind pages_setPage, setPage_setPage,
    run_get_bind, page_setPage]
  show EStateM.run (onlyIf (numRecords (insertedPage s.fileHdr d (freeSlot s.fileHdr d) buf)
    = s.fileHdr.numRecordsPerPage) _ >>= _) _ = _
  by_cases hfull : numRecords (insertedPage s.fileHdr d (freeSlot s.fileHdr d) buf)
      = s.fileHdr.numRecordsPerPage
  · rw [onlyIf_pos hfull, run_modify_bind, page_setPage, firstAfterInsert, if_pos hfull]
    exact run_unpinPage_bind hpins
  · rw [onlyIf_neg hfull, run_pure_bind, firstAfterInsert, if_neg hfull]
    exact run_unpinPage_bind hpins

/-- `insert_record` when there is a page with room. -/
theorem run_insertRecord_free (hr : ¬ s.store.Refuses no) (hno : s.fileHdr.firstFreePageNo = no)
    (hne : no ≠ rmNoPage) (hp : s.store.pages no = some d) :
    (insertRecord buf).run s = .ok ⟨no, freeSlot s.fileHdr d⟩
      ((s.setPage no (insertedPage s.fileHdr d (freeSlot s.fileHdr d) buf)).setFirst
        (firstAfterInsert s.fileHdr (insertedPage s.fileHdr d (freeSlot s.fileHdr d) buf))) := by
  have hcreate : createPageHandle.run s = .ok no (s.setPins (no :: s.store.pins)) := by
    unfold createPageHandle
    rw [run_get_bind, hno, if_neg hne]
    exact run_fetchPageHandle_some hr hp
  unfold insertRecord
  rw [bind_ok hcreate, run_insertInto (s := s.setPins (no :: s.store.pins)) hp rfl]
  rfl

/-- The file with one more page, which heads the free chain. -/
def grown (s : RmFileHandle) : RmFileHandle :=
  { fileHdr := { s.fileHdr with
      numPages := s.fileHdr.numPages + 1, firstFreePageNo := s.store.nextPageNo }
    store := { s.store with
      pages := Function.update s.store.pages s.store.nextPageNo (some (blankPage s.fileHdr))
      nextPageNo := s.store.nextPageNo + 1 } }

theorem run_createNewPageHandle (hx : s.store.exhausted = false)
    (hmax : s.fileHdr.numPages ≠ 2147483647) :
    createNewPageHandle.run s = .ok (s.store.nextPageNo : Int)
      (s.grown.setPins ((s.store.nextPageNo : Int) :: s.store.pins)) := by
  unfold createNewPageHandle
  rw [run_get_bind, PageStore.newPage_some hx]
  dsimp only
  rw [run_set_bind, run_modifyPage_bind (d := zeroPage) (Function.update_self ..), if_neg hmax,
    run_modify_bind, EStateM.run_pure]
  simp only [RmFileHandle.setPage, PageStore.setPage, Function.update_idem]
  rfl

/-- `insert_record` when every page is full. -/
theorem run_insertRecord_new (hx : s.store.exhausted = false)
    (hno : s.fileHdr.firstFreePageNo = rmNoPage) (hmax : s.fileHdr.numPages ≠ 2147483647) :
    (insertRecord buf).run s = .ok ⟨s.store.nextPageNo, freeSlot s.fileHdr (blankPage s.fileHdr)⟩
      ((s.grown.setPage s.store.nextPageNo (insertedPage s.fileHdr (blankPage s.fileHdr)
          (freeSlot s.fileHdr (blankPage s.fileHdr)) buf)).setFirst
        (firstAfterInsert s.grown.fileHdr (insertedPage s.fileHdr (blankPage s.fileHdr)
          (freeSlot s.fileHdr (blankPage s.fileHdr)) buf))) := by
  have hcreate : createPageHandle.run s = .ok (s.store.nextPageNo : Int)
      (s.grown.setPins ((s.store.nextPageNo : Int) :: s.store.pins)) := by
    unfold createPageHandle
    rw [run_get_bind, if_pos hno]
    exact run_createNewPageHandle hx hmax
  unfold insertRecord
  rw [bind_ok hcreate, run_insertInto (d := blankPage s.fileHdr) (Function.update_self ..) rfl]
  rfl

theorem run_updateRecord (he : s.store.frames = none) (hp : s.store.pages rid.pageNo = some d) :
    (updateRecord rid buf).run s = .ok ⟨⟩
      (s.setPage rid.pageNo (putRecord s.fileHdr d rid.slotNo.toNat buf)) := by
  have hp' : (s.setPins (rid.pageNo :: s.store.pins)).store.pages rid.pageNo = some d := hp
  unfold updateRecord
  rw [bind_ok (run_fetchPageHandle he hp), run_get_bind, run_modifyPage_bind hp']
  exact run_unpinPage (s := (s.setPins _).setPage _ _) rfl

theorem run_getRecord (he : s.store.frames = none) (hp : s.store.pages rid.pageNo = some d) :
    (getRecord rid).run s = .ok (record s.fileHdr d rid.slotNo.toNat) s := by
  have hp' : (s.setPins (rid.pageNo :: s.store.pins)).store.pages rid.pageNo = some d := hp
  unfold getRecord
  rw [bind_ok (run_fetchPageHandle he hp), run_get_bind]
  dsimp only
  rw [page_of_some hp']
  exact run_unpinPage_bind rfl

/-- `delete_record`: a page that was full goes back to the head of the free chain. -/
theorem run_deleteRecord (he : s.store.frames = none) (hp : s.store.pages rid.pageNo = some d) :
    (deleteRecord rid).run s = .ok ⟨⟩
      (if numRecords (deletedPage d rid.slotNo.toNat) = s.fileHdr.numRecordsPerPage - 1 then
        (s.setPage rid.pageNo (setNextFreePageNo (deletedPage d rid.slotNo.toNat)
          s.fileHdr.firstFreePageNo)).setFirst rid.pageNo
      else s.setPage rid.pageNo (deletedPage d rid.slotNo.toNat)) := by
  have hp' : (s.setPins (rid.pageNo :: s.store.pins)).store.pages rid.pageNo = some d := hp
  unfold deleteRecord
  rw [bind_ok (run_fetchPageHandle he hp), run_modifyPage_bind hp',
    run_modifyPage_bind pages_setPage, setPage_setPage, run_get_bind, page_setPage]
  show EStateM.run (onlyIf (numRecords (deletedPage d rid.slotNo.toNat)
    = s.fileHdr.numRecordsPerPage - 1) _ >>= _) _ = _
  by_cases hfull : numRecords (deletedPage d rid.slotNo.toNat) = s.fileHdr.numRecordsPerPage - 1
  · rw [onlyIf_pos hfull, if_pos hfull]
    unfold releasePageHandle
    rw [bind_assoc, run_get_bind, bind_assoc, run_modifyPage_bind pages_setPage, setPage_setPage,
      run_modify_bind]
    exact run_unpinPage rfl
  · rw [onlyIf_neg hfull, run_pure_bind, if_neg hfull]
    exact run_unpinPage rfl

end RmFileHandle

end Rucbase
