import Rucbase.Storage.FileHandles

/-!
# `IxManager`

`index/ix_manager.h` with the headers of `index/ix_defs.h`: creating, opening, closing and
destroying index files. A new index has three pages: the file header, the header of the leaf
list, and an empty leaf as root. They are written straight to disk.
-/

namespace Rucbase

open Lib BufferPoolManager

/-- `IX_NO_PAGE`. -/
def ixNoPage : Int := -1

/-- `IX_LEAF_HEADER_PAGE`. -/
def ixLeafHeaderPage : Int := 1

/-- `IX_INIT_ROOT_PAGE`. -/
def ixInitRootPage : Int := 2

/-- `IX_INIT_NUM_PAGES`. -/
def ixInitNumPages : Nat := 3

/-- `IX_MAX_COL_LEN`. -/
def ixMaxColLen : Int := 512

/-- `ColType`. -/
inductive ColType where
  | typeInt
  | typeFloat
  | typeString
deriving DecidableEq, Repr

/-- The value of the enumerator. -/
def ColType.toInt : ColType → Int
  | .typeInt => 0
  | .typeFloat => 1
  | .typeString => 2

/-- `IxFileHdr`: nine 32-bit integers, stored in page 0. -/
structure IxFileHdr where
  firstFreePageNo : Int
  numPages : Int
  rootPage : Int
  colType : Int
  colLen : Int
  btreeOrder : Int
  keysSize : Int
  firstLeaf : Int
  lastLeaf : Int
deriving DecidableEq, Repr

namespace IxFileHdr

/-- `sizeof(IxFileHdr)`. -/
def size : Nat := 36

/-- `(const char *)&fhdr`. -/
def toBuf (h : IxFileHdr) : Nat → UInt8 :=
  putInt32 (putInt32 (putInt32 (putInt32 (putInt32 (putInt32 (putInt32 (putInt32 (putInt32
    (fun _ => 0) 0 h.firstFreePageNo) 4 h.numPages) 8 h.rootPage) 12 h.colType) 16 h.colLen)
    20 h.btreeOrder) 24 h.keysSize) 28 h.firstLeaf) 32 h.lastLeaf

/-- The header read from the first bytes of page 0. -/
def ofBuf (b : Nat → UInt8) : IxFileHdr where
  firstFreePageNo := int32At b 0
  numPages := int32At b 4
  rootPage := int32At b 8
  colType := int32At b 12
  colLen := int32At b 16
  btreeOrder := int32At b 20
  keysSize := int32At b 24
  firstLeaf := int32At b 28
  lastLeaf := int32At b 32

/-- `col_len + sizeof(Rid)`, which is a `size_t`. -/
def entrySize (colLen : Int) : Int := (colLen + 8) % 18446744073709551616

/-- `btree_order` for a column of `colLen` bytes. The cast to `int` makes a `-1` of what wraps
around. -/
def orderOf (colLen : Int) : Int := ((pageSize - 24 : Nat) : Int) / entrySize colLen - 1

/-- The header `create_index` writes. -/
def initial (colType : ColType) (colLen : Int) : IxFileHdr where
  firstFreePageNo := ixNoPage
  numPages := ixInitNumPages
  rootPage := ixInitRootPage
  colType := colType.toInt
  colLen := colLen
  btreeOrder := orderOf colLen
  keysSize := (orderOf colLen + 1) * colLen
  firstLeaf := ixInitRootPage
  lastLeaf := ixInitRootPage

end IxFileHdr

/-- `IxPageHdr`, the first 24 bytes of a node page. -/
structure IxPageHdr where
  nextFreePageNo : Int
  parent : Int
  numKey : Int
  isLeaf : Bool
  prevLeaf : Int
  nextLeaf : Int
deriving DecidableEq, Repr

/-- `*reinterpret_cast<IxPageHdr *>(buf) = hdr`; `is_leaf` is one byte. -/
def IxPageHdr.put (h : IxPageHdr) (buf : Nat → UInt8) : Nat → UInt8 :=
  putInt32 (putInt32 (memcpy (putInt32 (putInt32 (putInt32 buf 0 h.nextFreePageNo) 4 h.parent)
    8 h.numKey) 12 (fun _ => if h.isLeaf then 1 else 0) 1) 16 h.prevLeaf) 20 h.nextLeaf

namespace IxManager

/-- `get_index_name`. -/
def getIndexName (filename : String) (indexNo : Nat) : String :=
  filename ++ "." ++ toString indexNo ++ ".idx"

/-- An empty leaf whose neighbours are both `page`. -/
def emptyLeafHdr (page : Int) : IxPageHdr := ⟨ixNoPage, ixNoPage, 0, true, page, page⟩

/-- `create_index`. `fd` is the descriptor the file is open under meanwhile, and `pageBuf` is
what the uninitialised `page_buf` happens to hold. -/
def createIndex (filename : String) (indexNo : Nat) (colType : ColType) (colLen : Int)
    (pageBuf : Nat → UInt8) (fd : Int) : PoolM Unit := do
  let ixName := getIndexName filename indexNo
  disk (·.createFile ixName)
  disk (·.openFile ixName fd)
  if colLen > ixMaxColLen then
    throw (.invalidColLengthError colLen)
  else if IxFileHdr.entrySize colLen = 0 then
    throw .undefinedBehaviour
  else if IxFileHdr.orderOf colLen ≤ 2 then
    throw .assertionFailure
  else
    writeDisk fd fileHdrPage (IxFileHdr.initial colType colLen).toBuf IxFileHdr.size
    let buf₁ := (emptyLeafHdr ixInitRootPage).put pageBuf
    writeDisk fd ixLeafHeaderPage buf₁ pageSize
    let buf₂ := (emptyLeafHdr ixLeafHeaderPage).put buf₁
    writeDisk fd ixInitRootPage buf₂ pageSize
    modify fun s => { s with diskManager := s.diskManager.setFd2pageno fd (ixInitNumPages - 1) }
    disk (·.closeFile fd)

/-- `destroy_index`. -/
def destroyIndex (filename : String) (indexNo : Nat) : PoolM Unit :=
  disk (·.destroyFile (getIndexName filename indexNo))

/-- `open_index` with the constructor of `IxIndexHandle`: allocation goes on one past wherever
the counter of this descriptor number stood. -/
def openIndex (filename : String) (indexNo : Nat) (fd : Int) : PoolM IxFileHdr := do
  let hdr := IxFileHdr.ofBuf (← openHandle (getIndexName filename indexNo) fd IxFileHdr.size)
  modify fun s =>
    { s with diskManager := s.diskManager.setFd2pageno fd (s.diskManager.fd2pageno fd + 1) }
  return hdr

/-- `close_index` of a handle whose header is `hdr`. -/
def closeIndex (fd : Int) (hdr : IxFileHdr) : PoolM Unit := closeHandle fd hdr.toBuf IxFileHdr.size

end IxManager

end Rucbase
