import Rucbase.Lib.Bytes
import Rucbase.Storage.BufferPool

/-!
# Files on a shared pool

What `RmManager` and `IxManager` have in common. Both write a file header straight to
page 0 with `DiskManager::write_page`, bypassing the pool, when they create or close a
file, and read it back the same way when they open one. Closing flushes the pages of the
descriptor and closes it; the frames keep their labels.

The descriptor number `open` returns is an argument: the operating system may choose any
number that is not in use.
-/

namespace Rucbase

open Lib BufferPoolManager

/-- `RM_FILE_HDR_PAGE` and `IX_FILE_HDR_PAGE`. -/
def fileHdrPage : Int := 0

/-- A `DiskManager` function that only touches its own tables. -/
def disk (f : DiskManager → Except RedBaseError DiskManager) : PoolM Unit := do
  let s ← get
  match f s.diskManager with
  | .error e => throw e
  | .ok d => set { s with diskManager := d }

/-- `disk_manager_->write_page`, past the pool. -/
def writeDisk (fd pageNo : Int) (buf : Nat → UInt8) (numBytes : Nat) : PoolM Unit := do
  let s ← get
  match s.diskManager.writePage fd pageNo buf numBytes with
  | none => throw .unixError
  | some d => set { s with diskManager := d }

/-- `disk_manager_->read_page`, past the pool, into a fresh buffer. -/
def readDisk (fd pageNo : Int) (numBytes : Nat) : PoolM (Nat → UInt8) := do
  let s ← get
  let r := s.diskManager.readPage fd pageNo (fun _ => 0) numBytes
  if r.2 then return r.1 else throw .unixError

/-- Open a file and read its header. -/
def openHandle (filename : String) (fd : Int) (hdrSize : Nat) : PoolM (Nat → UInt8) := do
  disk (·.openFile filename fd)
  readDisk fd fileHdrPage hdrSize

/-- Write a file's header, flush its pages, close it. -/
def closeHandle (fd : Int) (hdr : Nat → UInt8) (hdrSize : Nat) : PoolM Unit := do
  writeDisk fd fileHdrPage hdr hdrSize
  flushAllPages fd
  disk (·.closeFile fd)

end Rucbase
