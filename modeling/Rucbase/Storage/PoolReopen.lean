import Rucbase.Storage.PoolFile

/-!
# Closing a file and opening it again

`close_file` writes the header past the pool, flushes the pages of the descriptor and closes it;
the frames stay. `open_file` finds them again under the same descriptor number, or an empty pool
in a new process. `Ready` is what both have in common: whatever is cached under the number is clean
and is the file's own, and every page the file was given is on disk. From there `open` leads to a
pool that backs the file again, with the pages it had.
-/

namespace Rucbase

open Lib BufferPoolManager

/-- **The file is closed, and can be opened** under `fd` with its pages numbered below `start`. -/
structure Ready (filename : String) (fd : Int) (start : Nat) (m : FileMap) (w : World) : Prop where
  good : Good m w
  inUse : InUse w.pool
  room : HasRoom w fd
  pins : Elsewhere fd w.pins
  free : w.pool.diskManager.openFds fd = none
  closed : w.pool.diskManager.path2fd filename = none
  leftover : NoLeftover w.pool filename fd start
  cached : ∀ no f, w.pool.pageTable ⟨fd, no⟩ = some f → 1 ≤ no
  stored : ∃ file, w.pool.diskManager.files filename = some file
    ∧ ∀ no : Int, 1 ≤ no → no < start → (no.toNat + 1) * pageSize ≤ file.size

variable {filename : String} {fd fd' : Int} {start : Nat} {m : FileMap} {w : World} {n : Nat}

namespace DiskManager

variable {d : DiskManager}

theorem openFile_returns (hfile : (d.files filename).isSome) (hclosed : d.path2fd filename = none)
    (hfd : fd ≠ -1) : d.openFile filename fd = .ok (d.openedAs filename fd) := by
  unfold openFile isFile
  rw [hfile, hclosed, if_neg (by decide), if_neg (by decide), if_neg hfd]
  rfl

/-- `open` returned a descriptor. -/
theorem openFile_ne {d' : DiskManager} (h : d.openFile filename fd = .ok d') : fd ≠ -1 := by
  rintro rfl
  unfold openFile at h
  split at h
  · exact absurd h (by simp)
  · split at h
    · exact absurd h (by simp)
    · rw [if_pos rfl] at h
      exact absurd h (by simp)

theorem closeFile_returns (ht : d.Tables) (hopen : d.openFds fd = some filename) :
    ∃ d', d.closeFile fd = .ok d' := by
  unfold closeFile
  rw [ht.fd2path, hopen]
  exact ⟨_, rfl⟩

end DiskManager

theorem run_disk {g : DiskManager → Except RedBaseError DiskManager} {s : BufferPoolManager}
    {d : DiskManager} (h : g s.diskManager = .ok d) :
    (disk g).run s = .ok ⟨⟩ { s with diskManager := d } := by
  unfold disk
  rw [run_get_bind, h]
  rfl

theorem run_writeDisk {s : BufferPoolManager} {no : Int} {buf : Nat → UInt8} {d : DiskManager}
    (h : s.diskManager.writePage fd no buf n = some d) :
    (writeDisk fd no buf n).run s = .ok ⟨⟩ { s with diskManager := d } := by
  unfold writeDisk
  rw [run_get_bind, h]
  rfl

/-- Reading a header that the file has. -/
theorem readDisk_returns {s : BufferPoolManager} {file : OsFile}
    (hfile : s.diskManager.fileOf fd = some file) (hsize : n ≤ file.size)
    (hok : s.diskManager.readFails fd fileHdrPage = false) :
    ∃ buf, (readDisk fd fileHdrPage n).run s = .ok buf s := by
  have hread : (s.diskManager.readPage fd fileHdrPage (fun _ => 0) n).2 = true := by
    unfold DiskManager.readPage
    rw [hfile]
    dsimp only
    rw [if_neg (by decide), if_neg (by simp [hok])]
    simp only [OsFile.read, beq_iff_eq, fileHdrPage, Int.toNat_zero, Nat.zero_mul]
    omega
  unfold readDisk
  rw [run_get_bind]
  dsimp only
  rw [if_pos hread]
  exact ⟨_, rfl⟩

namespace Ready

/-- What the file holds is what is on disk. -/
theorem fileBytes (h : Ready filename fd start m w) :
    w.pool.diskManager.fileBytes filename = m.bytes filename :=
  (h.good.closed filename (h.good.tables.not_open_of_path2fd h.closed)).symm

/-- **Opening it** leads to a pool that backs the file, header and pages as they were on disk. -/
theorem opens (h : Ready filename fd start m w) (hpos : 0 < n) (hn : n ≤ pageSize)
    (hsize : ∀ file, w.pool.diskManager.files filename = some file → n ≤ file.size)
    (hfd : fd ≠ -1) :
    ∃ buf, (openHandle filename fd n).run w.pool
        = .ok buf { w.pool with diskManager := w.pool.diskManager.openedAs filename fd }
      ∧ (∀ i, i < n → buf i = (w.pool.diskManager.fileBytes filename fileHdrPage).toBuf i)
      ∧ Backs filename fd { m with opened := Function.update m.opened fd (some filename) }
        (w.withDisk ((w.pool.diskManager.openedAs filename fd).setFd2pageno fd start)) := by
  obtain ⟨file, hfile, hstored⟩ := h.stored
  have hopen := DiskManager.openFile_returns (by rw [hfile]; rfl) h.closed hfd
  have hnow : (w.pool.diskManager.openedAs filename fd).openFds fd = some filename :=
    Function.update_self ..
  have hof : (w.pool.diskManager.openedAs filename fd).fileOf fd = some file := by
    unfold DiskManager.fileOf
    rw [hnow]
    exact hfile
  have hrun₁ : (disk (·.openFile filename fd)).run w.pool
      = .ok ⟨⟩ { w.pool with diskManager := w.pool.diskManager.openedAs filename fd } :=
    run_disk hopen
  obtain ⟨buf, hrun₂⟩ := readDisk_returns (n := n)
    (s := { w.pool with diskManager := w.pool.diskManager.openedAs filename fd }) hof
    (hsize file hfile) (h.inUse.works fd _).2
  have hrun : (openHandle filename fd n).run w.pool = .ok buf _ := (bind_ok hrun₁).trans hrun₂
  obtain ⟨_, _, _, _, hbuf⟩ := Good.openHandle_ok hn hpos hrun
  have hgood := h.good.opened_file h.free hopen ⟨file, hof, lt_of_lt_of_le hpos (hsize file hfile)⟩
    h.leftover
  -- every page below the counter is in the file
  have hhas : ∀ no : Int, 1 ≤ no → no < start →
      ((w.pool.diskManager.openedAs filename fd).setFd2pageno fd start).HasPage ⟨fd, no⟩ :=
    fun no h1 h2 => ⟨by dsimp only; omega, file, hof, hstored no h1 h2⟩
  refine ⟨buf, hrun, hbuf, hgood, h.inUse.withDisk ⟨rfl, rfl⟩, hnow, hfd, h.room, ?_, ?_, ?_⟩
  · rintro ⟨_, no⟩ f hp rfl
    exact h.cached no f hp
  · rintro ⟨_, no⟩ f hp rfl
    exact .inr (.inl (hhas no (h.cached no f hp) (h.leftover.1 no f hp).2))
  · intro no h1 h2
    change no < (Function.update w.pool.diskManager.fd2pageno fd start fd : Nat) at h2
    rw [Function.update_self] at h2
    exact .inr (hhas no h1 h2)

/-- **A new process** finds the files as they are on disk, and an empty pool. -/
theorem restart (h : Ready filename fd start m w) {poolSize : Nat} (hpool : 0 < poolSize)
    (label fd' : Int) :
    Ready filename fd' start ⟨fun _ => none, w.pool.diskManager.fileBytes⟩
      (.new (.new poolSize (.new w.pool.diskManager.files) label)) where
  good := Good.init poolSize w.pool.diskManager.files label
  inUse := InUse.init poolSize w.pool.diskManager.files label
  room := ⟨0, hpool, fun _ hk => absurd hk List.not_mem_nil⟩
  pins := fun _ hk => absurd hk List.not_mem_nil
  free := rfl
  closed := rfl
  leftover := ⟨fun _ _ hp => absurd hp (by simp [World.new, BufferPoolManager.new]), h.leftover.2⟩
  cached := fun _ _ hp => absurd hp (by simp [World.new, BufferPoolManager.new])
  stored := h.stored

end Ready

/-! ## Closing -/

namespace Backs

theorem page_eq (h : Backs filename fd m w) (no : Int) : m.page ⟨fd, no⟩ = m.bytes filename no := by
  simp only [FileMap.page, h.good.opened, h.opened]

/-- The pages of the file once its header page has been replaced. -/
theorem bytes_setHeader (h : Backs filename fd m w) (x : PageData) :
    (m.setPage ⟨fd, fileHdrPage⟩ x).bytes filename
      = Function.update (m.bytes filename) fileHdrPage x := by
  simp only [FileMap.setPage, h.good.opened, h.opened]
  exact Function.update_self ..

end Backs

/-- What a flush and the header write before it keep on disk. -/
structure Grows (filename : String) (n : Nat) (d d' : DiskManager) : Prop where
  openFds : d'.openFds = d.openFds
  counter : d'.fd2pageno = d.fd2pageno
  hasPage : ∀ p, d.HasPage p → d'.HasPage p
  size : ∀ file, d'.files filename = some file → n ≤ file.size

theorem Grows.write {d d₁ d₂ : DiskManager} {no : Int} {buf : Nat → UInt8} {k : Nat}
    (h : Grows filename n d d₁) (hw : d₁.writePage fd no buf k = some d₂) :
    Grows filename n d d₂ := by
  have hhas : ∀ p, d.HasPage p → d₂.HasPage p := fun p hp => (h.hasPage p hp).write hw
  obtain ⟨path, f, _, hfile, _, rfl⟩ := DiskManager.writePage_some hw
  refine ⟨h.openFds, h.counter, hhas, fun file hf => ?_⟩
  by_cases hpath : filename = path
  · subst hpath
    change Function.update d₁.files filename _ filename = some file at hf
    rw [Function.update_self, Option.some.injEq] at hf
    exact hf ▸ (h.size f hfile).trans (Nat.le_max_left ..)
  · exact h.size file ((Function.update_of_ne hpath ..).symm.trans hf)

/-- **Closing it** leaves everything on disk. -/
theorem Backs.close (h : Backs filename fd m w) (hpins : Elsewhere fd w.pins) (hdr : Nat → UInt8)
    (hn : n ≤ pageSize) :
    ∃ s, (closeHandle fd hdr n).run w.pool = .ok ⟨⟩ s
      ∧ Ready filename fd (w.pool.diskManager.fd2pageno fd)
        { m.setPage ⟨fd, fileHdrPage⟩ ((m.page ⟨fd, fileHdrPage⟩).overlay hdr n) with
          opened := Function.update m.opened fd none } { w with pool := s }
      ∧ ∀ file, s.diskManager.files filename = some file → n ≤ file.size := by
  have hinv := h.good.faithful.inv
  have hworks := h.alloc.works
  have hnow : (w.pool.diskManager.openFds fd).isSome = true := by
    rw [h.opened]
    rfl
  -- the header
  obtain ⟨d₁, hd₁⟩ : ∃ d₁, w.pool.diskManager.writePage fd fileHdrPage hdr n = some d₁ :=
    DiskManager.writePage_returns (hworks.opened fd hnow) (by decide) (hworks.writes fd _ hnow)
  have hagree : HeaderAgrees w.pool fd hdr n := fun f hf =>
    absurd (h.data _ f hf rfl) (by decide : ¬ 1 ≤ fileHdrPage)
  have hg₁ := h.good.header hn hagree hd₁
  have hgrow₁ : Grows filename n w.pool.diskManager d₁ := by
    obtain ⟨path, f, hp, _, _, rfl⟩ := DiskManager.writePage_some hd₁
    obtain rfl : filename = path := Option.some.inj (h.opened.symm.trans hp)
    refine ⟨rfl, rfl, fun p hp => hp.write hd₁, fun file hf => ?_⟩
    change Function.update w.pool.diskManager.files filename _ filename = some file at hf
    rw [Function.update_self, Option.some.injEq] at hf
    rw [← hf]
    show n ≤ max f.size (0 * pageSize + n)
    omega
  -- the flush
  have htakes := h.alloc.takes (I := fun _ => True) fun _ _ _ _ _ _ _ => trivial
  obtain ⟨t, ht⟩ : ∃ t, (flushAllPages fd).run { w.pool with diskManager := d₁ } = .ok ⟨⟩ t :=
    (htakes.withDisk d₁).flushAllPages (hinv.withDisk d₁) hnow ⟨hworks.write hd₁, trivial⟩
  have hsame : SameCache _ t := flushAllPages_sameCache ht
  have hgrow : Grows filename n w.pool.diskManager t.diskManager :=
    flushAllPages_invariant (I := fun u => Grows filename n w.pool.diskManager u.diskManager)
      (fun _ _ _ hu _ _ _ hw => hu.write hw) hgrow₁ ht
  have hopen : t.diskManager.openFds fd = some filename := by
    rw [hgrow.openFds]
    exact h.opened
  have hexec : (BufferPoolManager.exec (.flushAllPages fd)).run (w.withDisk d₁).pool = .ok .unit t :=
    bind_ok ht
  have hg₂ := hg₁.call (c := 0) (k := .flushAllPages fd) (by
    show (d₁.openFds fd).isSome
    rw [hgrow₁.openFds, h.opened]
    rfl) trivial hexec
  -- the close
  obtain ⟨d₂, hd₂⟩ := DiskManager.closeFile_returns hg₂.tables hopen
  have hrun : (closeHandle fd hdr n).run w.pool = .ok ⟨⟩ { t with diskManager := d₂ } := by
    unfold closeHandle
    rw [bind_ok (run_writeDisk hd₁), bind_ok ht]
    exact run_disk hd₂
  have hgood := h.good.closeHandle hn hagree hrun
  obtain ⟨hcache, hfaults⟩ := (Quiet.closeHandle fd hdr n).keeps _ _ _ hrun
  obtain ⟨path, hpath, rfl⟩ := DiskManager.closeFile_ok hd₂
  obtain rfl : filename = path :=
    Option.some.inj (hopen.symm.trans ((hg₂.tables.fd2path fd).symm.trans hpath))
  have hcached : ∀ no f, t.pageTable ⟨fd, no⟩ = some f →
      1 ≤ no ∧ no < w.pool.diskManager.fd2pageno fd := by
    intro no f hp
    rw [hsame.pageTable] at hp
    exact ⟨h.data ⟨fd, no⟩ f hp rfl, (h.alloc.cached ⟨fd, no⟩ f hp hnow).2⟩
  -- every page is in the file: it was there before, or has just been flushed
  have hhas : ∀ no : Int, 1 ≤ no → no < w.pool.diskManager.fd2pageno fd →
      t.diskManager.HasPage ⟨fd, no⟩ := by
    intro no h1 h2
    rcases h.had no h1 h2 with hp | hp
    · obtain ⟨f, hf⟩ := Option.ne_none_iff_exists'.mp hp
      exact (hinv.withDisk d₁).flushAll_hasPage ht (hsame.pageTable ▸ hf) rfl
    · exact hgrow.hasPage _ hp
  obtain ⟨file, hfile⟩ := Option.isSome_iff_exists.mp (hg₂.tables.present fd filename hopen)
  have hof : t.diskManager.fileOf fd = some file := by
    unfold DiskManager.fileOf
    rw [hopen]
    exact hfile
  refine ⟨_, hrun, ⟨hgood, h.inUse.sameCache hcache hfaults, ?_, hpins, Function.update_self ..,
    Function.update_self .., ⟨?_, ?_⟩, fun no f hp => (hcached no f hp).1, file, hfile, ?_⟩,
    hgrow.size⟩
  · obtain ⟨f, hlt, hroom⟩ := h.room
    refine ⟨f, ?_, hroom⟩
    show f < t.poolSize
    rw [hsame.poolSize]
    exact hlt
  · intro no f hp
    refine ⟨?_, (hcached no f hp).2⟩
    have hbytes := ((hinv.withDisk d₁).flushAll_clean hg₁.faithful.inj ht hp rfl).2
    rw [DiskManager.pageBytes_eq hopen] at hbytes
    exact hbytes.symm
  · intro file' hfile'
    have hsized := hg₂.counted.sized fd file hof
    change file.size ≤ t.diskManager.fd2pageno fd * pageSize at hsized
    rw [hgrow.counter] at hsized
    obtain rfl : file = file' := Option.some.inj (hfile.symm.trans hfile')
    exact hsized
  · intro no h1 h2
    obtain ⟨_, f, hf, hle⟩ := hhas no h1 h2
    obtain rfl : file = f := Option.some.inj (hof.symm.trans hf)
    exact hle

end Rucbase
