import Rucbase.Storage.FileHandles

/-!
# `RmManager`

`record/rm_manager.h` and the header part of `record/rm_defs.h`: creating, opening, closing
and destroying record files.
-/

namespace Rucbase

open Lib BufferPoolManager

/-- `RM_NO_PAGE`. -/
def rmNoPage : Int := -1

/-- `RM_MAX_RECORD_SIZE`. -/
def rmMaxRecordSize : Int := 512

/-- `BITMAP_WIDTH`. -/
def bitmapWidth : Nat := 8

/-- `RmFileHdr`: five 32-bit integers, stored in page 0. -/
structure RmFileHdr where
  recordSize : Int
  numPages : Int
  numRecordsPerPage : Int
  firstFreePageNo : Int
  bitmapSize : Int
deriving DecidableEq, Repr

namespace RmFileHdr

/-- `sizeof(RmFileHdr)`. -/
def size : Nat := 20

/-- `(char *)&file_hdr`. -/
def toBuf (h : RmFileHdr) : Nat → UInt8 :=
  putInt32 (putInt32 (putInt32 (putInt32 (putInt32 (fun _ => 0) 0 h.recordSize) 4 h.numPages)
    8 h.numRecordsPerPage) 12 h.firstFreePageNo) 16 h.bitmapSize

/-- The header read from the first bytes of page 0. -/
def ofBuf (b : Nat → UInt8) : RmFileHdr where
  recordSize := int32At b 0
  numPages := int32At b 4
  numRecordsPerPage := int32At b 8
  firstFreePageNo := int32At b 12
  bitmapSize := int32At b 16

/-- `num_records_per_page`: the most slots that fit a page beside their bitmap. -/
def recordsPerPage (recordSize : Nat) : Nat :=
  (bitmapWidth * (pageSize - 1 - size) + 1) / (1 + recordSize * bitmapWidth)

/-- The header `create_file` writes. -/
def initial (recordSize : Int) : RmFileHdr where
  recordSize := recordSize
  numPages := 1
  numRecordsPerPage := recordsPerPage recordSize.toNat
  firstFreePageNo := rmNoPage
  bitmapSize := ((recordsPerPage recordSize.toNat + bitmapWidth - 1) / bitmapWidth : Nat)

end RmFileHdr

namespace RmManager

/-- `create_file`; `fd` is the descriptor the file is open under meanwhile. -/
def createFile (filename : String) (recordSize : Int) (fd : Int) : PoolM Unit := do
  if recordSize < 1 ∨ recordSize > rmMaxRecordSize then
    throw (.invalidRecordSizeError recordSize)
  else
    disk (·.createFile filename)
    disk (·.openFile filename fd)
    writeDisk fd fileHdrPage (RmFileHdr.initial recordSize).toBuf RmFileHdr.size
    disk (·.closeFile fd)

/-- `destroy_file`. -/
def destroyFile (filename : String) : PoolM Unit := disk (·.destroyFile filename)

/-- `open_file` with the constructor of `RmFileHandle`: allocation goes on at `num_pages`, a
count that is never negative. -/
def openFile (filename : String) (fd : Int) : PoolM RmFileHdr := do
  let hdr := RmFileHdr.ofBuf (← openHandle filename fd RmFileHdr.size)
  modify fun s => { s with diskManager := s.diskManager.setFd2pageno fd hdr.numPages.toNat }
  return hdr

/-- `close_file` of a handle whose header is `hdr`. -/
def closeFile (fd : Int) (hdr : RmFileHdr) : PoolM Unit := closeHandle fd hdr.toBuf RmFileHdr.size

end RmManager

end Rucbase
