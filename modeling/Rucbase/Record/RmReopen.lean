import Rucbase.Storage.PoolReopen
import Rucbase.Record.RmOnPool

/-!
# Closing and reopening a record file

A run here is made of the calls on a record file over the pool, with the file closed and opened
again at any point: in the same process, where the pool still has its pages, or in a new one. The
header goes to disk beside the pool, dirty pages are in frames or were evicted before, and the
allocation counter is set anew from the header; none of it shows. Both the run and the one that
leaves the closing out follow the same run over the page store.

The pool has been in use before the file is created. If it still has pages under the descriptor
number that the file gets, left over from a file closed earlier, `close_file` writes them over the
pages of the file, and a record can be lost.
-/

namespace Rucbase

open Lib BufferPoolManager

namespace PooledFile

/-- `RmManager::close_file`, and `RmManager::open_file` under the same descriptor number. -/
def reopen (filename : String) : PooledM Unit := do
  let s ← get
  pooled (RmManager.closeFile s.fd s.fileHdr)
  let hdr ← pooled (RmManager.openFile filename s.fd)
  modify fun s => { s with fileHdr := hdr }

/-- `RmManager::close_file`; then a new process, with a new `DiskManager` over the files as they
are on disk and a new pool, and `RmManager::open_file` there. -/
def restart (filename : String) (poolSize : Nat) (label fd : Int) : PooledM Unit := do
  let s ← get
  pooled (RmManager.closeFile s.fd s.fileHdr)
  modify fun s =>
    { s with fd := fd, pool := .new poolSize (.new s.pool.diskManager.files) label }
  let hdr ← pooled (RmManager.openFile filename fd)
  modify fun s => { s with fileHdr := hdr }

/-- The records, read off the frames and the disk. -/
def liveRecord (s : PooledFile) : Rid → Option (List UInt8) := (s.view []).liveRecord

/-- The number the next page gets. -/
def nextPageNo (s : PooledFile) : Nat := s.pool.diskManager.fd2pageno s.fd

end PooledFile

/-- A call on the file, or the file closed and opened again. -/
inductive PooledOp where
  | call (op : RmOp)
  | reopen
  | restart (poolSize : Nat) (label fd : Int)

/-- The file stays open. -/
def PooledOp.isCall : PooledOp → Bool
  | .call _ => true
  | _ => false

/-- The file can be opened again: there are frames, and `open` returns a descriptor. -/
def PooledOp.Reopens : PooledOp → Prop
  | .call _ => False
  | .reopen => True
  | .restart poolSize _ fd => 0 < poolSize ∧ fd ≠ -1

/-- A record file on the pool, and the map from rids to records that the calls amount to. -/
structure PooledWorld where
  file : PooledFile
  records : Rid → Option (List UInt8)

namespace PooledWorld

/-- The file over the page store, with the same map. -/
def view (w : PooledWorld) : RmWorld := ⟨w.file.view [], w.records⟩

/-- A call, with its answer. -/
def exec : RmOp → PooledM RmRet
  | .insert buf => do return .rid (← PooledFile.insertRecord buf)
  | .update rid buf => do
      PooledFile.updateRecord rid buf
      return .unit
  | .delete rid => do
      PooledFile.deleteRecord rid
      return .unit
  | .get rid => do return .bytes (← PooledFile.getRecord rid)

/-- One step: a call on a live rid, or a reopening in a pool that has frames. -/
def step (filename : String) (rs : Int) (w : PooledWorld) : PooledOp → Option (RmRet × PooledWorld)
  | .call op =>
      if w.view.allowed op then
        match (exec op).run w.file with
        | .ok ret file => some (ret, ⟨file, RmWorld.after rs w.records op ret⟩)
        | .error _ _ => none
      else none
  | .reopen =>
      match (PooledFile.reopen filename).run w.file with
      | .ok _ file => some (.unit, { w with file := file })
      | .error _ _ => none
  | .restart poolSize label fd =>
      if 0 < poolSize then
        match (PooledFile.restart filename poolSize label fd).run w.file with
        | .ok _ file => some (.unit, { w with file := file })
        | .error _ _ => none
      else none

/-- `create_file` and `open_file` over a pool in use, under descriptor numbers that are not in use. -/
def created (w : World) (filename : String) (rs fd₀ fd : Int) : Option PooledWorld :=
  if w.pool.diskManager.openFds fd₀ = none ∧ w.pool.diskManager.openFds fd = none then
    match (RmManager.createFile filename rs fd₀ >>= fun _ => RmManager.openFile filename fd).run
        w.pool with
    | .ok hdr pool => some ⟨⟨fd, hdr, pool⟩, fun _ => none⟩
    | .error _ _ => none
  else none

end PooledWorld

/-! ## What is on disk while the file is closed -/

theorem RmFileHdr.ofBuf_congr {b b' : Nat → UInt8} (h : ∀ i, i < RmFileHdr.size → b i = b' i) :
    RmFileHdr.ofBuf b = RmFileHdr.ofBuf b' := by
  have hfield : ∀ off, off + 4 ≤ RmFileHdr.size → int32At b off = int32At b' off :=
    fun off hoff => int32At_congr fun k hk => h _ (by omega)
  unfold RmFileHdr.ofBuf
  rw [hfield 0 (by decide), hfield 4 (by decide), hfield 8 (by decide), hfield 12 (by decide),
    hfield 16 (by decide)]

/-- **The file is closed, and `t` is on disk**: it can be opened under `fd`. -/
structure Shut (filename : String) (t : RmFileHandle) (fd : Int) (w : World) : Prop where
  ready : ∃ m, Ready filename fd t.store.nextPageNo m w
  size : ∀ file, w.pool.diskManager.files filename = some file → RmFileHdr.size ≤ file.size
  header : ∀ i, i < RmFileHdr.size →
    (w.pool.diskManager.fileBytes filename fileHdrPage).toBuf i = t.fileHdr.toBuf i
  pages : ∀ no : Int, 1 ≤ no → no < t.store.nextPageNo →
    t.store.pages no = some (w.pool.diskManager.fileBytes filename no)

section

variable {filename : String} {t : RmFileHandle} {fd : Int} {w : World} {free : List Int}
  {s : PooledFile}

/-- `open_file` that returned has a descriptor. -/
theorem openFile_valid {s s' : BufferPoolManager} {hdr : RmFileHdr}
    (h : (RmManager.openFile filename fd).run s = .ok hdr s') : fd ≠ -1 := by
  obtain ⟨_, _, hhandle, _⟩ := bind_eq_ok.mp h
  obtain ⟨_, _, hdisk, _⟩ := bind_eq_ok.mp hhandle
  obtain ⟨d, hd, _⟩ := disk_ok hdisk
  exact DiskManager.openFile_ne hd

/-- **`open_file`** brings it back: the header, the pages and the counter. -/
theorem Shut.opens (h : Shut filename t fd w) (hi : RmFileHandle.RmInv t free)
    (hpins : t.store.pins = []) (hfd : fd ≠ -1) :
    ∃ pool, (RmManager.openFile filename fd).run w.pool = .ok t.fileHdr pool
      ∧ (⟨fd, t.fileHdr, pool⟩ : PooledFile).Rests filename
      ∧ (⟨fd, t.fileHdr, pool⟩ : PooledFile).view [] = t := by
  obtain ⟨m, hready⟩ := h.ready
  obtain ⟨buf, hrun, hbuf, hback⟩ := hready.opens (by decide) (by decide) h.size hfd
  have hround : RmFileHdr.ofBuf t.fileHdr.toBuf = t.fileHdr := by
    refine RmWorld.ofBuf_toBuf_of_sound hi.layout ?_ hi.first_isInt32
    have hcounter := hi.counter
    have hbound := hi.bounded
    unfold IsInt32
    omega
  have hhdr : RmFileHdr.ofBuf buf = t.fileHdr :=
    (RmFileHdr.ofBuf_congr fun i hlt => (hbuf i hlt).trans (h.header i hlt)).trans hround
  have hstart : t.fileHdr.numPages.toNat = t.store.nextPageNo := by
    rw [hi.counter, Int.toNat_natCast]
  have hopen : (RmManager.openFile filename fd).run w.pool
      = .ok t.fileHdr (w.withDisk ((w.pool.diskManager.openedAs filename fd).setFd2pageno fd
        t.store.nextPageNo)).pool := by
    unfold RmManager.openFile
    rw [bind_ok hrun, hhdr, run_modify_bind, hstart]
    rfl
  refine ⟨_, hopen, ⟨_, w.pins, w.owes, hready.pins, hback⟩, ?_⟩
  obtain ⟨hdr, pages, pins, next, frames⟩ := t
  obtain rfl : pins = [] := hpins
  obtain rfl : frames = none := hi.enough
  refine congrArg (fun st => (⟨hdr, st⟩ : RmFileHandle)) (pageStore_eq ?_ rfl ?_ rfl)
  · refine (hback.pages_eq []).trans (funext fun no => ?_)
    show (if 1 ≤ no ∧ no < (Function.update w.pool.diskManager.fd2pageno fd next fd : Nat) then _
      else _) = pages no
    rw [Function.update_self]
    by_cases hno : 1 ≤ no ∧ no < next
    · rw [if_pos hno, hback.page_eq]
      exact ((h.pages no hno.1 hno.2).trans (congrArg (fun b => some (b no)) hready.fileBytes)).symm
    · rw [if_neg hno]
      exact (Option.not_isSome_iff_eq_none.mp fun hsome => hno ((hi.present no).mp hsome)).symm
  · exact Function.update_self ..

/-- A new process sees the same. -/
theorem Shut.restart (h : Shut filename t fd w) {poolSize : Nat} (hpool : 0 < poolSize)
    (label fd' : Int) :
    Shut filename t fd' (.new (.new poolSize (.new w.pool.diskManager.files) label)) := by
  obtain ⟨m, hready⟩ := h.ready
  exact ⟨⟨_, hready.restart hpool label fd'⟩, h.size, h.header, h.pages⟩

/-- **`close_file`** leaves all of it on disk. -/
theorem PooledFile.Rests.close (h : s.Rests filename) :
    ∃ pool pins owes, (RmManager.closeFile s.fd s.fileHdr).run s.pool = .ok ⟨⟩ pool
      ∧ Shut filename (s.view []) s.fd ⟨pool, pins, owes⟩ := by
  obtain ⟨m, pins, owes, hpins, hback⟩ := h
  obtain ⟨pool, hrun, hready, hsize⟩ :=
    hback.close hpins s.fileHdr.toBuf (n := RmFileHdr.size) (by decide)
  have hdisk := hready.fileBytes.trans (hback.bytes_setHeader _)
  refine ⟨pool, pins, owes, hrun, ⟨_, hready⟩, hsize, ?_, ?_⟩
  · intro i hi
    show (pool.diskManager.fileBytes filename fileHdrPage).toBuf i = s.fileHdr.toBuf i
    have hlt : i < pageSize := hi.trans (by decide)
    rw [hdisk, Function.update_self, PageData.toBuf, dif_pos hlt]
    exact if_pos hi
  · intro no h1 h2
    show _ = some (pool.diskManager.fileBytes filename no)
    have hne : no ≠ fileHdrPage := by
      unfold fileHdrPage
      omega
    rw [hdisk, Function.update_of_ne hne, ← hback.page_eq]
    exact hback.pages_some.mpr ⟨⟨h1, h2⟩, rfl⟩

/-- **Closed and reopened under its descriptor**, the file is as it was. -/
theorem PooledFile.Rests.reopen (h : s.Rests filename) (hi : RmFileHandle.RmInv (s.view []) free) :
    ∃ s', (PooledFile.reopen filename).run s = .ok ⟨⟩ s' ∧ s'.Rests filename
      ∧ s'.view [] = s.view [] := by
  obtain ⟨pool, _, _, hclose, hshut⟩ := h.close
  obtain ⟨_, _, _, _, hback⟩ := h
  obtain ⟨pool', hopen, hrests, hview⟩ := hshut.opens hi rfl hback.valid
  refine ⟨⟨s.fd, s.fileHdr, pool'⟩, ?_, hrests, hview⟩
  unfold PooledFile.reopen
  rw [run_get_bind, bind_ok (PooledFile.run_pooled hclose),
    bind_ok (PooledFile.run_pooled (s := { s with pool := pool }) hopen)]
  rfl

/-- **Closed, and opened in a new process**, the file is as it was. -/
theorem PooledFile.Rests.restart (h : s.Rests filename)
    (hi : RmFileHandle.RmInv (s.view []) free) {poolSize : Nat} (hpool : 0 < poolSize) (label : Int)
    {fd' : Int} (hfd : fd' ≠ -1) :
    ∃ s', (PooledFile.restart filename poolSize label fd').run s = .ok ⟨⟩ s' ∧ s'.Rests filename
      ∧ s'.view [] = s.view [] := by
  obtain ⟨pool, _, _, hclose, hshut⟩ := h.close
  obtain ⟨pool', hopen, hrests, hview⟩ := (hshut.restart hpool label fd').opens hi rfl hfd
  refine ⟨⟨fd', s.fileHdr, pool'⟩, ?_, hrests, hview⟩
  unfold PooledFile.restart
  rw [run_get_bind, bind_ok (PooledFile.run_pooled hclose), run_modify_bind]
  exact bind_ok (PooledFile.run_pooled
    (s := ⟨fd', s.fileHdr, .new poolSize (.new pool.diskManager.files) label⟩) hopen)

/-- A file just created is as long as its header. -/
theorem rmCreate_file {rs : Int} {s s' : BufferPoolManager}
    (h : (RmManager.createFile filename rs fd).run s = .ok ⟨⟩ s') :
    (1 ≤ rs ∧ rs ≤ rmMaxRecordSize)
      ∧ (∃ file, s'.diskManager.files filename = some file ∧ file.size = RmFileHdr.size)
      ∧ s'.diskManager.writeFails = s.diskManager.writeFails
      ∧ s'.diskManager.readFails = s.diskManager.readFails := by
  unfold RmManager.createFile at h
  split at h
  · exact absurd h (by simp)
  · rename_i hsize
    obtain ⟨_, _, h1, h⟩ := bind_eq_ok.mp h
    obtain ⟨d₁, hd₁, rfl⟩ := disk_ok h1
    obtain ⟨_, _, h1, h⟩ := bind_eq_ok.mp h
    obtain ⟨d₂, hd₂, rfl⟩ := disk_ok h1
    obtain ⟨_, _, h1, h⟩ := bind_eq_ok.mp h
    obtain ⟨d₃, hd₃, rfl⟩ := writeDisk_ok h1
    obtain ⟨d₄, hd₄, rfl⟩ := disk_ok h
    obtain ⟨_, rfl⟩ := DiskManager.createFile_ok hd₁
    obtain ⟨_, _, rfl⟩ := DiskManager.openFile_ok hd₂
    obtain ⟨path, f, hp, hf, _, rfl⟩ := DiskManager.writePage_some hd₃
    obtain ⟨_, _, rfl⟩ := DiskManager.closeFile_ok hd₄
    obtain rfl : filename = path :=
      Option.some.inj ((Function.update_self (f := s.diskManager.openFds) fd _).symm.trans hp)
    obtain rfl : OsFile.empty = f :=
      Option.some.inj ((Function.update_self (f := s.diskManager.files) filename _).symm.trans hf)
    exact ⟨by omega, ⟨_, Function.update_self .., rfl⟩, rfl, rfl⟩

/-- **The pool is clear for `fd`**: it has no page under that number, and a frame is not pinned. -/
structure Clear (s : BufferPoolManager) (fd : Int) : Prop where
  noLeftover : ∀ no, s.pageTable ⟨fd, no⟩ = none
  frame : ∃ f, f < s.poolSize ∧ (s.pages f).pinCount = 0

/-- **`create_file`** leaves an empty file to be opened. -/
theorem shut_created {m : FileMap} {rs fd₀ : Int} {s : BufferPoolManager} (hg : Good m w)
    (hu : InUse w.pool) (hclear : Clear w.pool fd) (hfree₀ : w.pool.diskManager.openFds fd₀ = none)
    (hfree : w.pool.diskManager.openFds fd = none)
    (h : (RmManager.createFile filename rs fd₀).run w.pool = .ok ⟨⟩ s) :
    Shut filename (RmFileHandle.opened rs) fd { w with pool := s } := by
  obtain ⟨⟨h1, h2⟩, ⟨file, hfile, hsize⟩, hwrites, hreads⟩ := rmCreate_file h
  obtain ⟨d, rfl, hno, hr⟩ := rmCreate_ok hg.tables hfree₀ h
  have hgood := hg.replaced hno hr
  have hhdr := RmWorld.opened_fileHdr h1 h2
  have hnext : (RmFileHandle.opened rs).store.nextPageNo = 1 := by
    show (RmFileHandle.opened rs).fileHdr.numPages.toNat = 1
    rw [hhdr]
    rfl
  have hfile' : ∀ file', d.files filename = some file' → file'.size = RmFileHdr.size := by
    intro file' hf
    obtain rfl : file = file' := Option.some.inj (hfile.symm.trans hf)
    exact hsize
  have hclosed : d.path2fd filename = none := by
    rw [hr.path2fd]
    cases hp : w.pool.diskManager.path2fd filename with
    | none => rfl
    | some fd' => exact absurd ⟨fd', (hg.tables.path2fd filename fd').mp hp⟩ hno
  refine ⟨⟨_, hgood, hu.withDisk ⟨hwrites, hreads⟩, ?_, ?_, ?_, hclosed, ⟨?_, ?_⟩, ?_, file, hfile,
    ?_⟩, ?_, ?_, ?_⟩
  · -- nobody has a pin on the frame
    obtain ⟨f, hlt, hz⟩ := hclear.frame
    refine ⟨f, hlt, fun k hk hkf => ?_⟩
    have hpos := hg.faithful.pinned hk
    rw [hkf, hz] at hpos
    exact absurd hpos (by decide)
  · rintro ⟨_, ⟨_, no⟩, f⟩ hk rfl
    exact absurd ((hclear.noLeftover no).symm.trans (hg.faithful.held _ hk)) (by simp)
  · exact (congrFun hr.openFds fd).trans hfree
  · exact fun no f hp => absurd ((hclear.noLeftover no).symm.trans hp) (by simp)
  · intro file' hf
    rw [hfile' file' hf, hnext]
    decide
  · exact fun no f hp => absurd ((hclear.noLeftover no).symm.trans hp) (by simp)
  · intro no hno hlt
    rw [hnext] at hlt
    omega
  · exact fun file' hf => (hfile' file' hf).ge
  · intro i hi
    show (d.fileBytes filename fileHdrPage).toBuf i = (RmFileHandle.opened rs).fileHdr.toBuf i
    have hlt : i < pageSize := hi.trans (by decide)
    rw [hr.bytes, hhdr, FileOp.rmContents, Function.update_self, PageData.toBuf, dif_pos hlt]
    exact if_pos hi
  · intro no hno hlt
    rw [hnext] at hlt
    omega

end

/-! ## Runs -/

namespace PooledWorld

variable {filename : String} {rs : Int} {w w' : PooledWorld} {v v' : RmWorld} {op : RmOp}
  {ret : RmRet} {history : List (PooledOp × RmRet)}

/-- **The file over the pool carries the file over the page store.** -/
structure Carries (filename : String) (rs : Int) (w : PooledWorld) (v : RmWorld) : Prop where
  rests : w.file.Rests filename
  view : w.view = v
  agrees : v.Agrees rs

theorem carries_created {m : FileMap} {w₀ : World} {fd₀ fd : Int} (hg : Good m w₀)
    (hu : InUse w₀.pool) (hclear : Clear w₀.pool fd)
    (h : created w₀ filename rs fd₀ fd = some w) : Carries filename rs w (.created rs) := by
  unfold created at h
  split at h
  · rename_i hfree
    split at h
    · rename_i hdr pool hrun
      obtain rfl : _ = w := Option.some.inj h
      obtain ⟨_, s, hcreate, hopen⟩ := bind_eq_ok.mp hrun
      obtain ⟨h1, h2⟩ := (rmCreate_file hcreate).1
      have hagrees := RmWorld.agrees_created h1 h2
      obtain ⟨free, hi⟩ := hagrees.inv
      have hshut : Shut filename (RmFileHandle.opened rs) fd { w₀ with pool := s } :=
        shut_created hg hu hclear hfree.1 hfree.2 hcreate
      obtain ⟨pool', hopen', hrests, hview⟩ := hshut.opens hi rfl (openFile_valid hopen)
      rw [hopen, EStateM.Result.ok.injEq] at hopen'
      obtain ⟨rfl, rfl⟩ := hopen'
      exact ⟨hrests, congrArg (fun file => (⟨file, fun _ => none⟩ : RmWorld)) hview, hagrees⟩
    · exact absurd h (by simp)
  · exact absurd h (by simp)

/-- A call over the pool follows the call over the page store. -/
theorem follows_exec (hc : Carries filename rs w v) (hop : v.allowed op) :
    Follows (PooledFile.Agree filename) ((exec op).run w.file) ((RmWorld.exec op).run v.file) := by
  obtain ⟨hrest, rfl, hagrees⟩ := hc
  -- a page for every live rid
  have hpage : ∀ rid, (w.view.records rid).isSome → ∃ d, (w.file.view []).store.pages rid.pageNo
      = some d := by
    intro rid hlive
    obtain ⟨bytes, hb⟩ := Option.isSome_iff_exists.mp hlive
    obtain ⟨d, hd, _⟩ := RmFileHandle.liveRecord_eq_some ((congrFun hagrees.records rid).trans hb)
    exact ⟨d, hd⟩
  cases op with
  | insert buf =>
      obtain ⟨free, hi⟩ := hagrees.inv
      refine (PooledFile.follows_insertRecord hrest fun hne => ?_).bind ?_
      · obtain ⟨b, l, rfl, _⟩ := hi.chain.of_ne hne
        obtain ⟨d, hd, _⟩ := (hi.mem _).mp List.mem_cons_self
        exact ⟨d, hd⟩
      · rintro rid - s t ⟨rfl, hrest, rfl⟩
        exact ⟨rfl, hrest, rfl⟩
  | update rid buf =>
      obtain ⟨d, hd⟩ := hpage rid hop
      refine (PooledFile.follows_updateRecord hrest hd).bind ?_
      rintro - - s t ⟨_, hrest, rfl⟩
      exact ⟨rfl, hrest, rfl⟩
  | delete rid =>
      obtain ⟨d, hd⟩ := hpage rid hop
      refine (PooledFile.follows_deleteRecord hrest hd).bind ?_
      rintro - - s t ⟨_, hrest, rfl⟩
      exact ⟨rfl, hrest, rfl⟩
  | get rid =>
      obtain ⟨d, hd⟩ := hpage rid hop
      refine (PooledFile.follows_getRecord hrest hd).bind ?_
      rintro bytes - s t ⟨rfl, hrest, rfl⟩
      exact ⟨rfl, hrest, rfl⟩

/-- **A call on either file** gets the same answer, or none. -/
theorem step_call (hc : Carries filename rs w v) (op : RmOp) :
    (∃ ret w' v', RmWorld.step rs v op = some (ret, v')
        ∧ step filename rs w (.call op) = some (ret, w') ∧ Carries filename rs w' v')
      ∨ (RmWorld.step rs v op = none ∧ step filename rs w (.call op) = none) := by
  have hview := hc.view
  have hrecords : w.records = v.records := congrArg RmWorld.records hview
  by_cases hop : v.allowed op
  · have hfollows := follows_exec hc hop
    unfold step
    dsimp only
    rw [hview, if_pos hop]
    cases hrun : (exec op).run w.file with
    | ok ret file =>
        obtain ⟨_, file', hrun', rfl, hrest, rfl⟩ := hfollows.ok hrun
        have hstep : RmWorld.step rs v op = some (ret, _) := RmWorld.step_ok hop hrun'
        refine .inl ⟨ret, _, _, hstep, rfl, hrest, ?_, (RmWorld.agrees_step hc.agrees hstep).1⟩
        rw [view, hrecords]
    | error e file =>
        obtain ⟨file', hrun'⟩ := hfollows.error hrun
        refine .inr ⟨?_, rfl⟩
        rw [RmWorld.step, if_pos hop, hrun']
  · refine .inr ⟨?_, ?_⟩
    · rw [RmWorld.step, if_neg hop]
    · unfold step
      dsimp only
      rw [hview, if_neg hop]

/-- **Reopening** changes nothing that shows. -/
theorem step_reopens (hc : Carries filename rs w v) {o : PooledOp} (ho : o.Reopens) :
    ∃ w', step filename rs w o = some (.unit, w') ∧ Carries filename rs w' v
      ∧ w'.records = w.records := by
  obtain ⟨hrest, rfl, hagrees⟩ := hc
  obtain ⟨free, hi⟩ := hagrees.inv
  cases o with
  | call op => exact ho.elim
  | reopen =>
      obtain ⟨file, hrun, hrest', hview⟩ := hrest.reopen hi
      refine ⟨{ w with file := file }, ?_, ⟨hrest', ?_, hagrees⟩, rfl⟩
      · unfold step
        dsimp only
        rw [hrun]
      · exact congrArg (fun t => (⟨t, w.records⟩ : RmWorld)) hview
  | restart poolSize label fd =>
      obtain ⟨file, hrun, hrest', hview⟩ := hrest.restart hi ho.1 label ho.2
      refine ⟨{ w with file := file }, ?_, ⟨hrest', ?_, hagrees⟩, rfl⟩
      · unfold step
        dsimp only
        rw [if_pos ho.1, hrun]
      · exact congrArg (fun t => (⟨t, w.records⟩ : RmWorld)) hview

/-- A reopening that returned could be done. -/
theorem reopens_of_step {o : PooledOp} (hcall : o.isCall = false)
    (h : step filename rs w o = some (ret, w')) : o.Reopens := by
  cases o with
  | call op => exact absurd hcall (by simp [PooledOp.isCall])
  | reopen => trivial
  | restart poolSize label fd =>
      unfold step at h
      dsimp only at h
      split at h
      · rename_i hpool
        refine ⟨hpool, ?_⟩
        split at h
        · rename_i file hrun
          unfold PooledFile.restart at hrun
          rw [run_get_bind] at hrun
          obtain ⟨_, _, _, hrun⟩ := bind_eq_ok.mp hrun
          rw [run_modify_bind] at hrun
          obtain ⟨hdr, t, hopen, _⟩ := bind_eq_ok.mp hrun
          obtain ⟨pool', hopen⟩ := PooledFile.pooled_ok hopen
          exact openFile_valid hopen
        · exact absurd h (by simp)
      · exact absurd h (by simp)

/-- No later call, and nothing on disk or in the pool, tells the two files apart. -/
structure Same (filename : String) (rs : Int) (w w₀ : PooledWorld) : Prop where
  fileHdr : w.file.fileHdr = w₀.file.fileHdr
  nextPageNo : w.file.nextPageNo = w₀.file.nextPageNo
  liveRecord : w.file.liveRecord = w₀.file.liveRecord
  answers : ∀ op, (step filename rs w (.call op)).map Prod.fst
    = (step filename rs w₀ (.call op)).map Prod.fst

theorem Carries.same {w₀ : PooledWorld} (h : Carries filename rs w v)
    (h₀ : Carries filename rs w₀ v) : Same filename rs w w₀ := by
  have hview := congrArg RmWorld.file (h.view.trans h₀.view.symm)
  refine ⟨congrArg RmFileHandle.fileHdr hview, congrArg (fun t => t.store.nextPageNo) hview,
    congrArg RmFileHandle.liveRecord hview, fun op => ?_⟩
  rcases step_call h op with ⟨ret, w', v', hv, hw, _⟩ | ⟨hv, hw⟩
  · rcases step_call h₀ op with ⟨ret₀, w₀', v₀', hv₀, hw₀, _⟩ | ⟨hv₀, _⟩
    · rw [hv, Option.some.injEq, Prod.mk.injEq] at hv₀
      rw [hw, hw₀, hv₀.1]
      rfl
    · rw [hv] at hv₀
      exact absurd hv₀ (by simp)
  · rcases step_call h₀ op with ⟨ret₀, w₀', v₀', hv₀, _⟩ | ⟨_, hw₀⟩
    · rw [hv] at hv₀
      exact absurd hv₀ (by simp)
    · rw [hw, hw₀]

/-- **The run lemma.** The run without the reopenings is a run, with the same answers, and both
files carry the same file over the page store. -/
theorem carries_run {start : PooledWorld} (hstart : Carries filename rs start v)
    (hrun : Run (Run.Asks (step filename rs)) start history w) :
    ∃ w₀ v', Run (Run.Asks (step filename rs)) start (history.filter fun l => l.1.isCall) w₀
      ∧ Carries filename rs w v' ∧ Carries filename rs w₀ v' := by
  refine hrun.invariant_history (I := fun w history => ∃ w₀ v',
    Run (Run.Asks (step filename rs)) start (history.filter fun l => l.1.isCall) w₀
      ∧ Carries filename rs w v' ∧ Carries filename rs w₀ v') ⟨start, v, .nil, hstart, hstart⟩ ?_
  rintro w history ⟨o, ret⟩ w' ⟨w₀, v', hrun₀, hw, hw₀⟩ hs
  change step filename rs w o = some (ret, w') at hs
  cases hcall : o.isCall with
  | true =>
      obtain ⟨op, rfl⟩ : ∃ op, o = .call op := by
        cases o with
        | call op => exact ⟨op, rfl⟩
        | reopen | restart => exact absurd hcall (by simp [PooledOp.isCall])
      -- both files answer as the page store does
      rcases step_call hw op with ⟨ret₁, w₁, v₁, hv, hstep, hc⟩ | ⟨_, hnone⟩
      · rw [hstep, Option.some.injEq, Prod.mk.injEq] at hs
        obtain ⟨rfl, rfl⟩ := hs
        rcases step_call hw₀ op with ⟨ret₂, w₂, v₂, hv₂, hstep₂, hc₂⟩ | ⟨hnone, _⟩
        · rw [hv, Option.some.injEq, Prod.mk.injEq] at hv₂
          obtain ⟨rfl, rfl⟩ := hv₂
          have hasks : Run.Asks (step filename rs) w₀ (.call op, ret₁) w₂ := hstep₂
          exact ⟨w₂, v₁, .step hrun₀ hasks, hc, hc₂⟩
        · rw [hv] at hnone
          exact absurd hnone (by simp)
      · rw [hnone] at hs
        exact absurd hs (by simp)
  | false =>
      obtain ⟨w₁, hstep, hc, _⟩ := step_reopens hw (reopens_of_step hcall hs)
      rw [hstep, Option.some.injEq, Prod.mk.injEq] at hs
      obtain ⟨_, rfl⟩ := hs
      rw [List.filter_cons_of_neg (by simp [hcall])]
      exact ⟨w₀, v', hrun₀, hc, hw₀⟩

end PooledWorld

/-! ## The result -/

/-! ## The result -/

section

variable {files : String → Option OsFile} {filename : String} {rs : Int} {poolSize : Nat}
  {label fd₀ fd : Int} {life : List (FileOp × Ret)} {w₀ : World} {start w : PooledWorld}
  {history : List (PooledOp × RmRet)}

/-- **Closing and reopening a record file loses nothing** if the pool, at the end of a life in which
files stayed apart, is clear for the file when it is first opened. Leave the reopenings out of a run:
what remains is a run, with the same answers to the same calls, and its file has the same header, the
same records and the same next page number, and answers every later call in the same way. And
wherever the run stands, the file can be closed and opened again, which changes nothing of this. -/
theorem reopen_loses_nothing
    (hlife : Run CleanStep (.new (.new poolSize (.new files) label)) life w₀)
    (hclear : Clear w₀.pool fd)
    (hcreated : PooledWorld.created w₀ filename rs fd₀ fd = some start)
    (hrun : Run (Run.Asks (PooledWorld.step filename rs)) start history w) :
    (∃ w₁, Run (Run.Asks (PooledWorld.step filename rs)) start
          (history.filter fun l => l.1.isCall) w₁
        ∧ PooledWorld.Same filename rs w w₁)
      ∧ w.file.liveRecord = w.records
      ∧ ∀ o : PooledOp, o.Reopens → ∃ w', PooledWorld.step filename rs w o = some (.unit, w')
        ∧ PooledWorld.Same filename rs w' w ∧ w'.records = w.records := by
  have hstart := PooledWorld.carries_created (good_of_run hlife) (inUse_of_run hlife) hclear hcreated
  obtain ⟨w₁, v, hrun₁, hw, hw₁⟩ := PooledWorld.carries_run hstart hrun
  refine ⟨⟨w₁, hrun₁, hw.same hw₁⟩, ?_, ?_⟩
  · have hrecords := hw.agrees.records
    rw [← hw.view] at hrecords
    exact hrecords
  · intro o ho
    obtain ⟨w', hstep, hw', hsame⟩ := PooledWorld.step_reopens hw ho
    exact ⟨w', hstep, hw'.same hw, hsame⟩

end

/-- Two files are open side by side: of two frames one has a dirty page of the first, the other is
pinned by a client of the second. -/
def besideTwo : List FileOp := sideBySide ++ [.page 0 (.call (.unpinPage ⟨3, 1⟩ true))]

/-- Eight records on two pages behind one frame, the file reopened, a record deleted and one read,
the file opened in a new process, and a record put into the free slot. -/
def closedTwice : List PooledOp :=
  (List.range 8).map (fun i => .call (.insert fun _ => .ofNat i))
    ++ [.reopen, .call (.delete ⟨1, 3⟩), .call (.get ⟨2, 0⟩), .restart 1 0 5,
      .call (.insert fun _ => 9), .call (.get ⟨1, 6⟩)]

theorem closedTwice_replay : ((PooledWorld.created (worldAfter besideTwo 8) "t" 512 5 5).bind
    fun start => Run.replay (PooledWorld.step "t" 512) [] start closedTwice).any
      (fun r => (r.1.map Prod.snd)[1]? = some (.rid ⟨1, 3⟩)) = true := by decide +kernel

/-- The file above over a pool with the pages of two others, closed twice, against the one that never
was. -/
theorem reopen_loses_nothing_beside_others : ∃ life start history w,
    Run CleanStep (.new (.new 2 (.new fun _ => none) 0)) life (worldAfter besideTwo 8)
      ∧ ((worldAfter besideTwo 8).pool.pages 0).isDirty = true
      ∧ (worldAfter besideTwo 8).pins = [⟨1, ⟨4, 1⟩, 1⟩]
      ∧ PooledWorld.created (worldAfter besideTwo 8) "t" 512 5 5 = some start
      ∧ Run (Run.Asks (PooledWorld.step "t" 512)) start history w
      ∧ (history.map Prod.snd)[1]? = some (.rid ⟨1, 3⟩)
      ∧ ∃ w₁, Run (Run.Asks (PooledWorld.step "t" 512)) start
          (history.filter fun l => l.1.isCall) w₁
        ∧ PooledWorld.Same "t" 512 w w₁ := by
  obtain ⟨r, hr, hlast⟩ := (Option.any_eq_true _ _).mp closedTwice_replay
  obtain ⟨start, hcreated, hreplay⟩ := Option.bind_eq_some_iff.mp hr
  have hrun := Run.of_replay _ closedTwice .nil hreplay
  obtain ⟨life, hlife, _⟩ := sideBySide_clean
  have s8 : CleanStep (worldAfter sideBySide 7) (.page 0 (.call (.unpinPage ⟨3, 1⟩ true)), .bool true)
      (worldAfter besideTwo 8) := ⟨trivial, rfl⟩
  have hlife' := hlife.step s8
  have hclear : Clear (worldAfter besideTwo 8).pool 5 :=
    ⟨fun _ => rfl, 0, by decide +kernel, by decide +kernel⟩
  exact ⟨_, start, r.1, r.2, hlife', by decide +kernel, by decide +kernel, hcreated, hrun,
    of_decide_eq_true hlast, (reopen_loses_nothing hlife' hclear hcreated hrun).1⟩

/-- Page 1 of a table under descriptor 3 is left over in the second of two frames. -/
def leftOver : List FileOp :=
  [.rmCreate "b" 8 3, .rmCreate "a" 8 3, .rmOpen "b" 4, .rmOpen "a" 3, .page 0 (.call (.newPage 4)),
    .page 0 (.call (.unpinPage ⟨4, 1⟩ true)), .page 0 (.call (.newPage 3)),
    .page 0 (.write ⟨3, 1⟩ 1 (fun _ => 7)), .page 0 (.call (.unpinPage ⟨3, 1⟩ true)),
    .rmClose 3 onePageHdr]

/-- A file is created and opened under that number, gets one record, and is opened again in a new
process. The record is not what it was: `close_file` wrote the page of the new file, and then the
one left over, which has the same number. -/
theorem reopen_loses_record : ∃ life w₀ start history w,
    Run FileStep (.new (.new 2 (.new fun _ => none) 0)) life w₀
      ∧ PooledWorld.created w₀ "t" 8 3 3 = some start
      ∧ Run (Run.Asks (PooledWorld.step "t" 8)) start history w
      ∧ history.map Prod.snd = [.bytes (List.replicate 8 7), .unit, .rid ⟨1, 0⟩]
      ∧ w.records ⟨1, 0⟩ = some (List.replicate 8 9)
      ∧ w.file.liveRecord ≠ w.records := by
  have hreplay : ((Run.replay FileOp.step [] (.new (.new 2 (.new fun _ => none) 0)) leftOver).bind
      fun life => (PooledWorld.created life.2 "t" 8 3 3).bind fun start =>
        (Run.replay (PooledWorld.step "t" 8) [] start
          [.call (.insert fun _ => 9), .restart 2 0 3, .call (.get ⟨1, 0⟩)])).any (fun r =>
            r.1.map Prod.snd = [.bytes (List.replicate 8 7), .unit, .rid ⟨1, 0⟩]
              ∧ r.2.records ⟨1, 0⟩ = some (List.replicate 8 9)
              ∧ r.2.file.liveRecord ⟨1, 0⟩ ≠ some (List.replicate 8 9)) = true := by decide +kernel
  obtain ⟨r, hr, hr'⟩ := (Option.any_eq_true _ _).mp hreplay
  obtain ⟨life, hlife, hr⟩ := Option.bind_eq_some_iff.mp hr
  obtain ⟨start, hcreated, hhistory⟩ := Option.bind_eq_some_iff.mp hr
  obtain ⟨hanswers, hrecord, hlost⟩ := of_decide_eq_true hr'
  refine ⟨life.1, life.2, start, r.1, r.2, Run.of_replay _ leftOver .nil hlife, hcreated,
    Run.of_replay _ _ .nil hhistory, hanswers, hrecord, fun heq => hlost ?_⟩
  rw [heq, hrecord]

end Rucbase
