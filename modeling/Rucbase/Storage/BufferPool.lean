import Rucbase.Lib.EState
import Rucbase.Storage.DiskManager
import Rucbase.Replacer.LruReplacer

/-!
# `BufferPoolManager`

`storage/buffer_pool_manager.cpp`, function by function. The pool is an explicit state;
an operation is an `EStateM` computation, so that when `write_page` or `read_page`
raises, the exception leaves with the half-changed state the C++ code leaves behind.
Every public call holds `latch_` from start to end, so one call is one step.

`Page *` is the frame number; `nullptr` is `none`.
-/

namespace Rucbase

/-- `Page`: one frame of the pool. -/
structure Page where
  id : PageId
  data : PageData
  isDirty : Bool
  pinCount : Int

structure BufferPoolManager where
  poolSize : Nat
  pages : Nat → Page
  pageTable : PageId → Option Nat
  freeList : List Nat
  diskManager : DiskManager
  replacer : LRUReplacer

/-- A pool operation: may raise, and keeps the state it had reached when it does. -/
abbrev PoolM := EStateM RedBaseError BufferPoolManager

namespace BufferPoolManager

open Lib

/-- The constructor. `PageId::fd` has no initialiser, so its first value is arbitrary. -/
def new (poolSize : Nat) (disk : DiskManager) (fd : Int) : BufferPoolManager where
  poolSize := poolSize
  pages := fun _ => ⟨⟨fd, invalidPageId⟩, zeroPage, false, 0⟩
  pageTable := fun _ => none
  freeList := List.range poolSize
  diskManager := disk
  replacer := .new poolSize

/-- Overwrite one frame. -/
def setPage (s : BufferPoolManager) (f : Nat) (pg : Page) : BufferPoolManager :=
  { s with pages := Function.update s.pages f pg }

/-- `disk_manager_->write_page` of one whole page. -/
def writeBack (id : PageId) (data : PageData) : PoolM Unit := do
  let s ← get
  match s.diskManager.writePage id.fd id.pageNo data.toBuf pageSize with
  | none => throw .unixError
  | some d => set { s with diskManager := d }

/-- `disk_manager_->read_page` of one whole page into a frame. -/
def readInto (frameId : Nat) (id : PageId) : PoolM Unit := do
  let s ← get
  let pg := s.pages frameId
  let r := s.diskManager.readPage id.fd id.pageNo pg.data.toBuf pageSize
  set (s.setPage frameId { pg with data := .ofBuf r.1 })
  if r.2 then pure () else throw .unixError

/-- `FindVictimPage`: a free frame if there is one, else the replacer's choice. -/
def findVictimPage : PoolM (Option Nat) := do
  let s ← get
  match s.freeList with
  | f :: rest =>
      set { s with freeList := rest }
      return some f
  | [] =>
      set { s with replacer := s.replacer.victim.2 }
      return s.replacer.victim.1

/-- `UpdatePage`: write the old page back, drop its mapping, map the new one, reset. -/
def updatePage (page : Nat) (newPageId : PageId) (newFrameId : Nat) : PoolM Unit := do
  let pg := (← get).pages page
  onlyIf (pg.id.pageNo ≠ invalidPageId ∧ pg.isDirty) (writeBack pg.id pg.data)
  onlyIf (pg.id.pageNo ≠ invalidPageId)
    (modify fun s => { s with pageTable := Function.update s.pageTable pg.id none })
  modify fun s => { s with pageTable := Function.update s.pageTable newPageId (some newFrameId) }
  modify fun s => s.setPage page ⟨newPageId, zeroPage, false, 0⟩

/-- `FetchPage`. -/
def fetchPage (pageId : PageId) : PoolM (Option Nat) := do
  let s ← get
  match s.pageTable pageId with
  | some f =>
      let pg := s.pages f
      set { s.setPage f { pg with pinCount := pg.pinCount + 1 } with replacer := s.replacer.pin f }
      return some f
  | none =>
      match ← findVictimPage with
      | none => return none
      | some f =>
          updatePage f pageId f
          readInto f pageId
          modify fun s => { s.setPage f { s.pages f with pinCount := 1 } with
            replacer := s.replacer.pin f }
          return some f

/-- `UnpinPage`. -/
def unpinPage (pageId : PageId) (isDirty : Bool) : PoolM Bool := do
  let s ← get
  match s.pageTable pageId with
  | none => return false
  | some f =>
      let pg := s.pages f
      if pg.pinCount ≤ 0 then
        return false
      else
        let pg' := { pg with pinCount := pg.pinCount - 1, isDirty := pg.isDirty || isDirty }
        set { s.setPage f pg' with
          replacer := if pg'.pinCount = 0 then s.replacer.unpin f else s.replacer }
        return true

/-- `FlushPage`. -/
def flushPage (pageId : PageId) : PoolM Bool := do
  let s ← get
  match s.pageTable pageId with
  | none => return false
  | some f =>
      let pg := s.pages f
      writeBack pg.id pg.data
      modify fun s => s.setPage f { s.pages f with isDirty := false }
      return true

/-- `NewPage` on the file `fd`: the frame and the page number handed out. -/
def newPage (fd : Int) : PoolM (Option (Nat × PageId)) := do
  match ← findVictimPage with
  | none => return none
  | some f =>
      let s ← get
      let no := (s.diskManager.allocatePage fd).1
      set { s with diskManager := (s.diskManager.allocatePage fd).2 }
      updatePage f ⟨fd, no⟩ f
      modify fun s => { s.setPage f { s.pages f with pinCount := 1 } with
        replacer := s.replacer.pin f }
      return some (f, ⟨fd, no⟩)

/-- `DeletePage`. -/
def deletePage (pageId : PageId) : PoolM Bool := do
  let s ← get
  match s.pageTable pageId with
  | none =>
      set { s with diskManager := s.diskManager.deallocatePage pageId.pageNo }
      return true
  | some f =>
      let pg := s.pages f
      if pg.pinCount > 0 then
        return false
      else
        set { s with pageTable := Function.update s.pageTable pageId none }
        onlyIf pg.isDirty (writeBack pg.id pg.data)
        modify fun s => s.setPage f ⟨⟨pg.id.fd, invalidPageId⟩, zeroPage, false, 0⟩
        modify fun s => { s with
          freeList := s.freeList ++ [f]
          replacer := s.replacer.pin f
          diskManager := s.diskManager.deallocatePage pageId.pageNo }
        return true

/-- One round of the loop of `FlushAllPages`. -/
def flushFrame (fd : Int) (i : Nat) : PoolM Unit := do
  let pg := (← get).pages i
  onlyIf (pg.id.fd = fd ∧ pg.id.pageNo ≠ invalidPageId) do
    writeBack pg.id pg.data
    modify fun s => s.setPage i { s.pages i with isDirty := false }

/-- `FlushAllPages`: every frame in turn. -/
def flushAllPages (fd : Int) : PoolM Unit := do
  forM (List.range (← get).poolSize) (flushFrame fd)

end BufferPoolManager

end Rucbase
