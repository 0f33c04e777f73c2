import Rucbase.Index.Traversals
import Rucbase.System.SmManager

/-!
# The records of a table, entered into an index

The loop of `create_index`: a scan of the record file, and `insert_entry` for every record. Both work
on the pages of their files, in one buffer pool. Whatever these hold, the loop leaves the files that
are open as they are.
-/

namespace Rucbase

open Lib BufferPoolManager

namespace SmManager

/-- A call on the record file. Its pages are in the same pool. -/
def onFile {α : Type} (fileHandle : RmFile) (x : PooledM α) : PooledIxM α := fun s =>
  match x.run ⟨fileHandle.fd, fileHandle.fileHdr, s.pool⟩ with
  | .ok a t => .ok a { s with pool := t.pool }
  | .error e t => .error e { s with pool := t.pool }

/-- One round. The key is where the column is in the record. -/
def indexRecord (fuel : Nat) (fileHandle : RmFile) (col : ColMeta) (rid : Rid) : PooledIxM Unit := do
  let rec_ ← onFile fileHandle (PooledFile.getRecord rid)
  if 0 ≤ col.offset ∧ col.offset + col.len ≤ rec_.length then
    let _ ← PooledIndex.insertEntry fuel (fun j => rec_.getD (col.offset.toNat + j) 0) rid
  else
    throw .undefinedBehaviour

/-- The rounds from `rm_scan` on. -/
def indexFrom (fuel : Nat) (fileHandle : RmFile) (col : ColMeta) : Nat → RmScan → PooledIxM Unit
  | 0, _ => throw .outOfFuel
  | n + 1, rmScan =>
      if rmScan.isEnd then
        return
      else do
        indexRecord fuel fileHandle col rmScan.rid
        let rmScan ← onFile fileHandle (PooledFile.next rmScan)
        indexFrom fuel fileHandle col n rmScan

/-- The loop, in at most `fuel` rounds. The type in the header is that of the column, since
`create_index` has written it there. -/
def indexRecords (fuel : Nat) (fileHandle : RmFile) (col : ColMeta) (ih : IxFile) : PoolM IxFile :=
  fun s =>
    if h : ih.fileHdr.colType = col.type.toInt then
      let loop : PooledIxM Unit := do
        let rmScan ← onFile fileHandle PooledFile.scan
        indexFrom fuel fileHandle col fuel rmScan
      match loop.run ⟨ih.fd, ih.fileHdr, col.type, h, s⟩ with
      | .ok _ t => .ok ⟨t.fd, t.fileHdr⟩ t.pool
      | .error e t => .error e t.pool
    else
      .error .undefinedBehaviour s

/-! ## The files that are open -/

/-- How the loop fails: `insert_entry` does, or there is no frame for a page of records. -/
def RecordsFail (e : RedBaseError) : Prop :=
  PooledIndex.Fails e ∨ ∃ pageNo, e = .pageNotExistError "table" pageNo

variable {α : Type} {fd : Int} {files : Int → Option String}

/-- The pool behind a record file. -/
def Reads (files : Int → Option String) (s : PooledFile) : Prop := s.pool.Open files

theorem upholds_pooled {x : PoolM α} (hx : Upholds (BufferPoolManager.Open files) (· = .unixError) x) :
    Upholds (Reads files) RecordsFail (PooledFile.pooled x) :=
  ⟨fun s hs => .lift PooledFile.run_pooled PooledFile.run_pooled_error <| (hx.ends s.pool hs).imp
    (fun _ _ hopen => hopen) fun _ _ ⟨hopen, he⟩ => ⟨hopen, he ▸ .inl trivial⟩⟩

theorem upholds_fetchPageHandle (pageNo : Int) :
    Upholds (Reads files) RecordsFail (PooledFile.fetchPageHandle pageNo) := by
  refine .get_bind fun s _ => (upholds_pooled (upholds_fetchPage _)).bind fun f => ?_
  cases f with
  | none => exact .throw (.inr ⟨pageNo, rfl⟩)
  | some f => exact .pure f

theorem upholds_unpin (f : Nat) (isDirty : Bool) :
    Upholds (Reads files) RecordsFail (PooledFile.unpinPage f isDirty) :=
  .get_bind fun _ _ => (upholds_pooled (upholds_unpinPage ..)).bind fun _ => .pure _

theorem upholds_getRecord (rid : Rid) :
    Upholds (Reads files) RecordsFail (PooledFile.getRecord rid) :=
  (upholds_fetchPageHandle _).bind fun _ => .get_bind fun _ _ => (upholds_unpin ..).bind fun _ =>
    .pure _

theorem upholds_nextLoop (fileHdr : RmFileHdr) :
    ∀ n rid, Upholds (Reads files) RecordsFail (PooledFile.nextLoop fileHdr n rid)
  | 0, _ => .pure _
  | n + 1, _ => .ite ((upholds_fetchPageHandle _).bind fun _ => .get_bind fun _ _ =>
      (upholds_unpin ..).bind fun _ => .ite (.pure _) (upholds_nextLoop fileHdr n _)) (.pure _)

theorem upholds_next (scan : RmScan) :
    Upholds (Reads files) RecordsFail (PooledFile.next scan) :=
  .get_bind fun _ _ => upholds_nextLoop ..

theorem upholds_scan : Upholds (Reads files) RecordsFail PooledFile.scan :=
  .get_bind fun _ _ => .ite (.pure _) (upholds_next _)

theorem run_onFile {fileHandle : RmFile} {x : PooledM α} {a : α} {s : PooledIndex} {t : PooledFile}
    (h : x.run ⟨fileHandle.fd, fileHandle.fileHdr, s.pool⟩ = .ok a t) :
    (onFile fileHandle x).run s = .ok a { s with pool := t.pool } := by
  show onFile fileHandle x s = _
  unfold onFile
  rw [h]

theorem run_onFile_error {fileHandle : RmFile} {x : PooledM α} {e : RedBaseError} {s : PooledIndex}
    {t : PooledFile} (h : x.run ⟨fileHandle.fd, fileHandle.fileHdr, s.pool⟩ = .error e t) :
    (onFile fileHandle x).run s = .error e { s with pool := t.pool } := by
  show onFile fileHandle x s = _
  unfold onFile
  rw [h]

theorem upholds_onFile (fileHandle : RmFile) {x : PooledM α}
    (hx : Upholds (Reads files) RecordsFail x) :
    Upholds (PooledIndex.Open fd files) RecordsFail (onFile fileHandle x) :=
  ⟨fun s ⟨hfd, hs⟩ => .lift run_onFile run_onFile_error <| (hx.ends ⟨_, _, s.pool⟩ hs).imp
    (fun _ _ hopen => ⟨hfd, hopen⟩) fun _ _ ⟨hopen, he⟩ => ⟨⟨hfd, hopen⟩, he⟩⟩

theorem upholds_indexRecord (fuel : Nat) (fileHandle : RmFile) (col : ColMeta) (rid : Rid) :
    Upholds (PooledIndex.Open fd files) RecordsFail (indexRecord fuel fileHandle col rid) :=
  (upholds_onFile fileHandle (upholds_getRecord rid)).bind fun _ =>
    .ite (((PooledIndex.upholds_insertEntry ..).imp fun _ => .inl).bind fun _ => .pure _)
      (.throw (.inl trivial))

theorem upholds_indexFrom (fuel : Nat) (fileHandle : RmFile) (col : ColMeta) :
    ∀ n rmScan, Upholds (PooledIndex.Open fd files) RecordsFail (indexFrom fuel fileHandle col n rmScan)
  | 0, _ => .throw (.inl trivial)
  | n + 1, rmScan => .ite (.pure _) ((upholds_indexRecord fuel fileHandle col rmScan.rid).bind fun _ =>
      (upholds_onFile fileHandle (upholds_next rmScan)).bind fun next =>
        upholds_indexFrom fuel fileHandle col n next)

/-- **The loop opens and closes no file**, and the index stays open as it is. -/
theorem indexRecords_outcome (fuel : Nat) (fileHandle : RmFile) (col : ColMeta) (ih : IxFile)
    {s : BufferPoolManager} (hs : s.Open files) :
    Ends s (indexRecords fuel fileHandle col ih) (fun ih' s' => ih'.fd = ih.fd ∧ s'.Open files)
      fun e s' => s'.Open files ∧ RecordsFail e := by
  have hloop : Upholds (PooledIndex.Open ih.fd files) RecordsFail (do
      let rmScan ← onFile fileHandle PooledFile.scan
      indexFrom fuel fileHandle col fuel rmScan) :=
    (upholds_onFile fileHandle upholds_scan).bind fun _ => upholds_indexFrom ..
  by_cases htype : ih.fileHdr.colType = col.type.toInt
  · cases hrun : (onFile fileHandle PooledFile.scan >>= indexFrom fuel fileHandle col fuel).run
        ⟨ih.fd, ih.fileHdr, col.type, htype, s⟩ with
    | ok a t =>
        refine .of_ok (a := ⟨t.fd, t.fileHdr⟩) (t := t.pool) ?_ ((hloop.ends _ ⟨rfl, hs⟩).returns a t hrun)
        show indexRecords fuel fileHandle col ih s = _
        unfold indexRecords
        rw [dif_pos htype]
        dsimp only
        rw [hrun]
    | error e t =>
        obtain ⟨hopen, hfail⟩ := (hloop.ends _ ⟨rfl, hs⟩).throws e t hrun
        refine .of_error (e := e) (t := t.pool) ?_ ⟨hopen.2, hfail⟩
        show indexRecords fuel fileHandle col ih s = _
        unfold indexRecords
        rw [dif_pos htype]
        dsimp only
        rw [hrun]
  · refine .of_error (e := .undefinedBehaviour) (t := s) ?_ ⟨hs, .inl trivial⟩
    show indexRecords fuel fileHandle col ih s = _
    unfold indexRecords
    rw [dif_neg htype]

end SmManager

end Rucbase
