import Rucbase.Storage.FileTables
import Rucbase.Record.RmManager
import Rucbase.Index.IxManager

/-!
# Several files on one pool

Record files and index files are created, opened, closed and destroyed over one
`BufferPoolManager`, and clients work on the pages of the open ones. The page table is keyed
by descriptor number. `close` flushes the pages of its descriptor but leaves them cached, so
when the operating system hands the number out again, the next file finds them.

`FileMap` is what the files are for: every path has pages, and a descriptor stands for the
path it is open on. `Clean` says when a step stays clear of leftover pages, and the main
result is that in runs of such steps `FetchPage` shows the page of the file that is open.
-/

namespace Rucbase

open Lib BufferPoolManager

/-! ## The files as their users see them -/

/-- The pages of every file, and the file each descriptor is open on. -/
structure FileMap where
  opened : Int → Option String
  bytes : String → Int → PageData

namespace FileMap

/-- The contents of page `p`, by the file its descriptor is open on. -/
def page (m : FileMap) (p : PageId) : PageData :=
  match m.opened p.fd with
  | none => zeroPage
  | some path => m.bytes path p.pageNo

/-- The file at `path` replaced. -/
def setFile (m : FileMap) (path : String) (x : Int → PageData) : FileMap :=
  { m with bytes := Function.update m.bytes path x }

/-- Page `p` of the file open under its descriptor replaced. -/
def setPage (m : FileMap) (p : PageId) (x : PageData) : FileMap :=
  match m.opened p.fd with
  | none => m
  | some path => m.setFile path (Function.update (m.bytes path) p.pageNo x)

end FileMap

/-- A call on the system: a manager call or a client's operation on a page. Calls that open a
file carry the descriptor number the operating system chose. -/
inductive FileOp where
  | rmCreate (filename : String) (recordSize : Int) (fd : Int)
  | rmOpen (filename : String) (fd : Int)
  | rmClose (fd : Int) (hdr : RmFileHdr)
  | rmDestroy (filename : String)
  | ixCreate (filename : String) (indexNo : Nat) (colType : ColType) (colLen : Int)
      (pageBuf : Nat → UInt8) (fd : Int)
  | ixOpen (filename : String) (indexNo : Nat) (fd : Int)
  | ixClose (fd : Int) (hdr : IxFileHdr)
  | ixDestroy (filename : String) (indexNo : Nat)
  | page (client : Nat) (op : Op)

/-- The descriptor an operation on a page names. -/
def Op.fd : Op → Int
  | .call (.fetchPage p) => p.fd
  | .call (.newPage fd) => fd
  | .call (.unpinPage p _) => p.fd
  | .call (.flushPage p) => p.fd
  | .call (.deletePage p) => p.fd
  | .call (.flushAllPages fd) => fd
  | .write p _ _ => p.fd

namespace FileOp

/-- The manager call. -/
def run : FileOp → PoolM Unit
  | .rmCreate filename recordSize fd => RmManager.createFile filename recordSize fd
  | .rmOpen filename fd => do
      let _ ← RmManager.openFile filename fd
  | .rmClose fd hdr => RmManager.closeFile fd hdr
  | .rmDestroy filename => RmManager.destroyFile filename
  | .ixCreate filename indexNo colType colLen pageBuf fd =>
      IxManager.createIndex filename indexNo colType colLen pageBuf fd
  | .ixOpen filename indexNo fd => do
      let _ ← IxManager.openIndex filename indexNo fd
  | .ixClose fd hdr => IxManager.closeIndex fd hdr
  | .ixDestroy filename indexNo => IxManager.destroyIndex filename indexNo
  | .page _ _ => pure ()

/-- `open` returns a number that is not in use, and pages are those of open files. -/
def Enabled (w : World) : FileOp → Prop
  | .rmCreate _ _ fd => w.pool.diskManager.openFds fd = none
  | .rmOpen _ fd => w.pool.diskManager.openFds fd = none
  | .ixCreate _ _ _ _ _ fd => w.pool.diskManager.openFds fd = none
  | .ixOpen _ _ fd => w.pool.diskManager.openFds fd = none
  | .page _ op => (w.pool.diskManager.openFds op.fd).isSome
  | _ => True

instance (w : World) : (o : FileOp) → Decidable (o.Enabled w)
  | .rmCreate _ _ fd => inferInstanceAs (Decidable (w.pool.diskManager.openFds fd = none))
  | .rmOpen _ fd => inferInstanceAs (Decidable (w.pool.diskManager.openFds fd = none))
  | .ixCreate _ _ _ _ _ fd => inferInstanceAs (Decidable (w.pool.diskManager.openFds fd = none))
  | .ixOpen _ _ fd => inferInstanceAs (Decidable (w.pool.diskManager.openFds fd = none))
  | .page _ op => inferInstanceAs (Decidable ((w.pool.diskManager.openFds op.fd).isSome = true))
  | .rmClose _ _ => isTrue trivial
  | .rmDestroy _ => isTrue trivial
  | .ixClose _ _ => isTrue trivial
  | .ixDestroy _ _ => isTrue trivial

/-- One call that returns. -/
def step (w : World) (o : FileOp) : Option (Ret × World) :=
  if o.Enabled w then
    match o with
    | .page c op => w.exec c op
    | o =>
        match o.run.run w.pool with
        | .ok _ s => some (.unit, { w with pool := s })
        | .error _ _ => none
  else none

/-- The pages of a record file when it has just been created. -/
def rmContents (recordSize : Int) : Int → PageData :=
  Function.update (fun _ => zeroPage) fileHdrPage
    (zeroPage.overlay (RmFileHdr.initial recordSize).toBuf RmFileHdr.size)

/-- The pages of an index file when it has just been created. -/
def ixContents (colType : ColType) (colLen : Int) (pageBuf : Nat → UInt8) : Int → PageData :=
  let buf₁ := (IxManager.emptyLeafHdr ixInitRootPage).put pageBuf
  let buf₂ := (IxManager.emptyLeafHdr ixLeafHeaderPage).put buf₁
  Function.update (Function.update (Function.update (fun _ => zeroPage) fileHdrPage
    (zeroPage.overlay (IxFileHdr.initial colType colLen).toBuf IxFileHdr.size))
    ixLeafHeaderPage (zeroPage.overlay buf₁ pageSize)) ixInitRootPage (zeroPage.overlay buf₂ pageSize)

/-- What a call does to the files as their users see them. -/
def written (m : FileMap) : FileOp → Ret → FileMap
  | .rmCreate filename recordSize _, _ => m.setFile filename (rmContents recordSize)
  | .rmOpen filename fd, _ => { m with opened := Function.update m.opened fd (some filename) }
  | .rmClose fd hdr, _ =>
      { m.setPage ⟨fd, fileHdrPage⟩ ((m.page ⟨fd, fileHdrPage⟩).overlay hdr.toBuf RmFileHdr.size) with
        opened := Function.update m.opened fd none }
  | .rmDestroy filename, _ => m.setFile filename (fun _ => zeroPage)
  | .ixCreate filename indexNo colType colLen pageBuf _, _ =>
      m.setFile (IxManager.getIndexName filename indexNo) (ixContents colType colLen pageBuf)
  | .ixOpen filename indexNo fd, _ =>
      { m with opened := Function.update m.opened fd (some (IxManager.getIndexName filename indexNo)) }
  | .ixClose fd hdr, _ =>
      { m.setPage ⟨fd, fileHdrPage⟩ ((m.page ⟨fd, fileHdrPage⟩).overlay hdr.toBuf IxFileHdr.size) with
        opened := Function.update m.opened fd none }
  | .ixDestroy filename indexNo, _ =>
      m.setFile (IxManager.getIndexName filename indexNo) (fun _ => zeroPage)
  | .page _ (.write p _ x), _ => m.setPage p x
  | .page _ (.call (.newPage _)), .created (some (_, p)) => m.setPage p zeroPage
  | .page _ _, _ => m

end FileOp

/-- The files after a history of calls, starting from what is on disk. -/
def filesAfter (files : String → Option OsFile) : List (FileOp × Ret) → FileMap
  | [] => ⟨fun _ => none, (DiskManager.new files).fileBytes⟩
  | l :: h => l.1.written (filesAfter files h) l.2

/-! ## Steps that meet no leftover page -/

/-- Where allocation goes on after `path` is opened under `fd`, for each kind of file. -/
def FileOp.startNo (d : DiskManager) : FileOp → Nat
  | .rmOpen filename _ => (RmFileHdr.ofBuf (d.fileBytes filename fileHdrPage).toBuf).numPages.toNat
  | .ixOpen _ _ fd => d.fd2pageno fd + 1
  | _ => 0

/-- Nothing is cached under `fd` that the file at `path` does not have, and page numbers from
`start` on are unused both in the pool and in the file. -/
def NoLeftover (s : BufferPoolManager) (path : String) (fd : Int) (start : Nat) : Prop :=
  (∀ n f, s.pageTable ⟨fd, n⟩ = some f →
      (s.pages f).data = s.diskManager.fileBytes path n ∧ n < start)
    ∧ ∀ file, s.diskManager.files path = some file → file.size ≤ start * pageSize

/-- The header page of `fd` is not cached with bytes other than those of `hdr`. -/
def HeaderAgrees (s : BufferPoolManager) (fd : Int) (hdr : Nat → UInt8) (n : Nat) : Prop :=
  ∀ f, s.pageTable ⟨fd, fileHdrPage⟩ = some f → (s.pages f).data.overlay hdr n = (s.pages f).data

/-- The step is clear of leftover pages. -/
def Clean (w : World) : FileOp → Prop
  | .rmOpen filename fd =>
      NoLeftover w.pool filename fd ((FileOp.rmOpen filename fd).startNo w.pool.diskManager)
  | .ixOpen filename indexNo fd => NoLeftover w.pool (IxManager.getIndexName filename indexNo) fd
      ((FileOp.ixOpen filename indexNo fd).startNo w.pool.diskManager)
  | .rmClose fd hdr => HeaderAgrees w.pool fd hdr.toBuf RmFileHdr.size
  | .ixClose fd hdr => HeaderAgrees w.pool fd hdr.toBuf IxFileHdr.size
  | _ => True

/-- A step of the system. -/
def FileStep (w : World) (l : FileOp × Ret) (w' : World) : Prop := Run.Asks FileOp.step w l w'

/-- A step of the system that is clear of leftover pages. -/
def CleanStep (w : World) (l : FileOp × Ret) (w' : World) : Prop := Clean w l.1 ∧ FileStep w l w'

end Rucbase
