import Rucbase.Storage.SharedPool

/-!
# Files stay apart while no page is left over

`Good m w` relates the files as their users see them (`m`) to the pool, the disk and the
clients (`w`). For the files that are open, the pool is a faithful page store; for the
others, the disk has the contents. Each kind of step is shown to keep it: operations on
pages through the store's own refinement, and the three table changes (replacing a file that
is not open, opening, closing) one by one.
-/

namespace Rucbase

open Lib BufferPoolManager

variable {m : FileMap} {w w' : World} {d d' : DiskManager} {path : String} {fd : Int}

/-! ## The manager calls, taken apart -/

theorem disk_ok {g : DiskManager → Except RedBaseError DiskManager} {s s' : BufferPoolManager}
    (h : (disk g).run s = .ok ⟨⟩ s') :
    ∃ d, g s.diskManager = .ok d ∧ s' = { s with diskManager := d } := by
  unfold disk at h
  rw [run_get_bind] at h
  split at h
  · exact absurd h (by simp)
  · rename_i d hd
    rw [EStateM.run_set, EStateM.Result.ok.injEq] at h
    exact ⟨d, hd, h.2.symm⟩

theorem writeDisk_ok {no : Int} {buf : Nat → UInt8} {n : Nat} {s s' : BufferPoolManager}
    (h : (writeDisk fd no buf n).run s = .ok ⟨⟩ s') :
    ∃ d, s.diskManager.writePage fd no buf n = some d ∧ s' = { s with diskManager := d } := by
  unfold writeDisk at h
  rw [run_get_bind] at h
  split at h
  · exact absurd h (by simp)
  · rename_i d hd
    rw [EStateM.run_set, EStateM.Result.ok.injEq] at h
    exact ⟨d, hd, h.2.symm⟩

/-- A header that was read is the start of page 0 of the file. -/
theorem readDisk_ok {no : Int} {n : Nat} {s s' : BufferPoolManager} {buf : Nat → UInt8}
    (hn : n ≤ pageSize) (hpos : 0 < n) (h : (readDisk fd no n).run s = .ok buf s') :
    s' = s ∧ (∃ f, s.diskManager.fileOf fd = some f ∧ 0 < f.size)
      ∧ ∀ i, i < n → buf i = (s.diskManager.pageBytes ⟨fd, no⟩).toBuf i := by
  unfold readDisk at h
  rw [run_get_bind] at h
  dsimp only at h
  split at h
  · rename_i hr
    rw [EStateM.run_pure, EStateM.Result.ok.injEq] at h
    obtain ⟨rfl, rfl⟩ := h
    refine ⟨rfl, ?_⟩
    unfold DiskManager.readPage at hr ⊢
    split at hr
    · exact absurd hr (by simp)
    · rename_i f hf
      split at hr
      · exact absurd hr (by simp)
      · rename_i hneg
        split at hr
        · exact absurd hr (by simp)
        · rename_i hfail
          simp only [OsFile.read, beq_iff_eq] at hr
          refine ⟨⟨f, hf, by omega⟩, ?_⟩
          intro i hi
          rw [if_neg hneg, if_neg hfail]
          simp only [OsFile.read, DiskManager.pageBytes, hf, if_neg hneg]
          rw [if_pos (by omega), PageData.toBuf, dif_pos (by omega)]
          rfl
  · exact absurd h (by simp)

/-- A step is an operation on a page or a manager call. -/
theorem FileOp.step_some {o : FileOp} {r : Ret} (hs : o.step w = some (r, w')) :
    o.Enabled w ∧ ((∃ c op, o = .page c op ∧ w.exec c op = some (r, w')) ∨
      ((∀ c op, o ≠ .page c op) ∧ ∃ s, o.run.run w.pool = .ok ⟨⟩ s ∧ r = .unit
        ∧ w' = { w with pool := s })) := by
  unfold FileOp.step at hs
  split at hs
  · rename_i hen
    refine ⟨hen, ?_⟩
    split at hs
    · rename_i c op
      exact .inl ⟨c, op, rfl, hs⟩
    · rename_i o' hnot
      refine .inr ⟨fun c op he => hnot c op he, ?_⟩
      split at hs
      · rename_i a s he
        rw [Option.some.injEq, Prod.mk.injEq] at hs
        exact ⟨s, he, hs.1.symm, hs.2.symm⟩
      · exact absurd hs (by simp)
  · exact absurd hs (by simp)

/-! ## Creating a file -/

/-- Between opening and closing the file at `path`, which was not there in `d`. -/
structure Creating (d : DiskManager) (path : String) (fd : Int) (x : Int → PageData)
    (d' : DiskManager) : Prop where
  absent : d.files path = none
  openFds : d'.openFds = Function.update d.openFds fd (some path)
  path2fd : d'.path2fd = Function.update d.path2fd path (some fd)
  fd2path : d'.fd2path = Function.update d.fd2path fd (some path)
  others : ∀ path', path' ≠ path → d'.files path' = d.files path'
  bytes : d'.fileBytes path = x
  counter : ∀ fd', fd' ≠ fd → d'.fd2pageno fd' = d.fd2pageno fd'

/-- The file at `path`, which is not open, has been replaced. -/
structure Replaced (d : DiskManager) (path : String) (x : Int → PageData) (d' : DiskManager) :
    Prop where
  openFds : d'.openFds = d.openFds
  path2fd : d'.path2fd = d.path2fd
  fd2path : d'.fd2path = d.fd2path
  others : ∀ path', path' ≠ path → d'.files path' = d.files path'
  bytes : d'.fileBytes path = x
  counter : ∀ fd, (d.openFds fd).isSome → d'.fd2pageno fd = d.fd2pageno fd

theorem Creating.start {d₁ : DiskManager} (hc : d.createFile path = .ok d₁)
    (ho : d₁.openFile path fd = .ok d') : Creating d path fd (fun _ => zeroPage) d' := by
  obtain ⟨habs, rfl⟩ := DiskManager.createFile_ok hc
  obtain ⟨_, _, rfl⟩ := DiskManager.openFile_ok ho
  refine ⟨habs, rfl, rfl, rfl, fun _ hne => Function.update_of_ne hne .., ?_, fun _ _ => rfl⟩
  funext n
  simp only [DiskManager.fileBytes, DiskManager.openedAs, Function.update_self]
  split <;> rfl

theorem Creating.write {d₁ : DiskManager} {x : Int → PageData} {no : Int} {buf : Nat → UInt8} {n : Nat}
    (h : Creating d path fd x d₁) (hn : n ≤ pageSize) (hw : d₁.writePage fd no buf n = some d') :
    Creating d path fd (Function.update x no ((x no).overlay buf n)) d' := by
  have hp : d₁.openFds fd = some path := by rw [h.openFds, Function.update_self]
  obtain ⟨hbytes, hothers⟩ := DiskManager.writePage_fileBytes hn hp hw
  obtain ⟨h1, h2, h3, h4⟩ := DiskManager.writePage_frame hw
  refine ⟨h.absent, h1.trans h.openFds, h3.trans h.path2fd, h4.trans h.fd2path, ?_, ?_, ?_⟩
  · intro path' hne
    rw [hothers path' hne, h.others path' hne]
  · rw [hbytes, h.bytes]
  · intro fd' hne
    rw [h2, h.counter fd' hne]

theorem Creating.setFd2pageno {d₁ : DiskManager} {x : Int → PageData} (n : Nat)
    (h : Creating d path fd x d₁) : Creating d path fd x (d₁.setFd2pageno fd n) := by
  refine ⟨h.absent, h.openFds, h.path2fd, h.fd2path, h.others, h.bytes, ?_⟩
  intro fd' hne
  exact (Function.update_of_ne hne ..).trans (h.counter fd' hne)

theorem Creating.close {d₁ : DiskManager} {x : Int → PageData} (ht : d.Tables)
    (hfree : d.openFds fd = none) (h : Creating d path fd x d₁) (hc : d₁.closeFile fd = .ok d') :
    Replaced d path x d' ∧ ¬ d.IsOpen path := by
  obtain ⟨path', hp, rfl⟩ := DiskManager.closeFile_ok hc
  rw [h.fd2path, Function.update_self, Option.some.injEq] at hp
  subst hp
  have hnot := ht.not_open_of_absent h.absent
  have hp2 : d.path2fd path = none := by
    cases hq : d.path2fd path with
    | none => rfl
    | some fd' => exact absurd ⟨fd', (ht.path2fd path fd').mp hq⟩ hnot
  refine ⟨⟨?_, ?_, ?_, h.others, h.bytes, ?_⟩, hnot⟩
  · show Function.update d₁.openFds fd none = d.openFds
    rw [h.openFds, Function.update_idem, ← hfree, Function.update_eq_self]
  · show Function.update d₁.path2fd path none = d.path2fd
    rw [h.path2fd, Function.update_idem, ← hp2, Function.update_eq_self]
  · show Function.update d₁.fd2path fd none = d.fd2path
    rw [h.fd2path, Function.update_idem, ← hfree, ← ht.fd2path, Function.update_eq_self]
  · intro fd' hopen
    refine h.counter fd' ?_
    rintro rfl
    rw [hfree] at hopen
    exact absurd hopen (by simp)

theorem rmCreate_ok {recordSize : Int} {s s' : BufferPoolManager} (ht : s.diskManager.Tables)
    (hfree : s.diskManager.openFds fd = none)
    (h : (RmManager.createFile path recordSize fd).run s = .ok ⟨⟩ s') :
    ∃ d', s' = { s with diskManager := d' } ∧ ¬ s.diskManager.IsOpen path
      ∧ Replaced s.diskManager path (FileOp.rmContents recordSize) d' := by
  unfold RmManager.createFile at h
  split at h
  · exact absurd h (by simp)
  · obtain ⟨_, _, h1, h⟩ := bind_eq_ok.mp h
    obtain ⟨d₁, hd₁, rfl⟩ := disk_ok h1
    obtain ⟨_, _, h1, h⟩ := bind_eq_ok.mp h
    obtain ⟨d₂, hd₂, rfl⟩ := disk_ok h1
    obtain ⟨_, _, h1, h⟩ := bind_eq_ok.mp h
    obtain ⟨d₃, hd₃, rfl⟩ := writeDisk_ok h1
    obtain ⟨d₄, hd₄, rfl⟩ := disk_ok h
    have hc := ((Creating.start hd₁ hd₂).write (by decide) hd₃).close ht hfree hd₄
    exact ⟨d₄, rfl, hc.2, hc.1⟩

theorem ixCreate_ok {filename : String} {indexNo : Nat} {colType : ColType} {colLen : Int}
    {pageBuf : Nat → UInt8} {s s' : BufferPoolManager} (ht : s.diskManager.Tables)
    (hfree : s.diskManager.openFds fd = none)
    (h : (IxManager.createIndex filename indexNo colType colLen pageBuf fd).run s = .ok ⟨⟩ s') :
    ∃ d', s' = { s with diskManager := d' }
      ∧ ¬ s.diskManager.IsOpen (IxManager.getIndexName filename indexNo)
      ∧ Replaced s.diskManager (IxManager.getIndexName filename indexNo)
          (FileOp.ixContents colType colLen pageBuf) d' := by
  unfold IxManager.createIndex at h
  obtain ⟨_, _, h1, h⟩ := bind_eq_ok.mp h
  obtain ⟨d₁, hd₁, rfl⟩ := disk_ok h1
  obtain ⟨_, _, h1, h⟩ := bind_eq_ok.mp h
  obtain ⟨d₂, hd₂, rfl⟩ := disk_ok h1
  split_ifs at h
  · exact absurd h (by simp)
  · exact absurd h (by simp)
  · exact absurd h (by simp)
  · obtain ⟨_, _, h1, h⟩ := bind_eq_ok.mp h
    obtain ⟨d₃, hd₃, rfl⟩ := writeDisk_ok h1
    obtain ⟨_, _, h1, h⟩ := bind_eq_ok.mp h
    obtain ⟨d₄, hd₄, rfl⟩ := writeDisk_ok h1
    obtain ⟨_, _, h1, h⟩ := bind_eq_ok.mp h
    obtain ⟨d₅, hd₅, rfl⟩ := writeDisk_ok h1
    rw [run_modify_bind] at h
    obtain ⟨d₆, hd₆, rfl⟩ := disk_ok h
    have hw := (((Creating.start hd₁ hd₂).write (by decide) hd₃).write le_rfl hd₄).write le_rfl hd₅
    have hc := (hw.setFd2pageno (ixInitNumPages - 1)).close ht hfree hd₆
    exact ⟨d₆, rfl, hc.2, hc.1⟩

theorem destroyFile_replaced (ht : d.Tables) (h : d.destroyFile path = .ok d') :
    ¬ d.IsOpen path ∧ Replaced d path (fun _ => zeroPage) d' := by
  obtain ⟨hp, rfl⟩ := DiskManager.destroyFile_ok h
  refine ⟨ht.not_open_of_path2fd hp, rfl, rfl, rfl, fun _ hne => Function.update_of_ne hne .., ?_,
    fun _ _ => rfl⟩
  funext n
  simp only [DiskManager.fileBytes, Function.update_self]

/-! ## The refinement -/

/-- Pages of files that are open. -/
def Live (d : DiskManager) (p : PageId) : Prop := (d.openFds p.fd).isSome = true

/-- **What relates the files to the pool and the disk.** -/
structure Good (m : FileMap) (w : World) : Prop where
  tables : w.pool.diskManager.Tables
  opened : m.opened = w.pool.diskManager.openFds
  faithful : Faithful (Live w.pool.diskManager) w m.page
  closed : ∀ path, ¬ w.pool.diskManager.IsOpen path →
    m.bytes path = w.pool.diskManager.fileBytes path
  counted : Counted w.pool
  /-- Page 0 is never allocated. -/
  started : ∀ fd, (w.pool.diskManager.openFds fd).isSome → 0 < w.pool.diskManager.fd2pageno fd

/-- The same pool over another disk. -/
def World.withDisk (w : World) (d : DiskManager) : World :=
  { w with pool := { w.pool with diskManager := d } }

theorem Faithful.withDisk {live live' : PageId → Prop} {val val' : PageId → PageData}
    (h : Faithful live w val) (hinj : d.FdsInjective)
    (hcoh : ({ w.pool with diskManager := d } : BufferPoolManager).Coherent live' w.Owed val') :
    Faithful live' (w.withDisk d) val' :=
  ⟨h.inv.withDisk d, hinj, hcoh, h.held, h.count, h.owing⟩

/-- Only what is on disk for pages of open files matters. -/
theorem BufferPoolManager.Coherent.withDisk {s : BufferPoolManager}
    {live live' owed : PageId → Prop} {val val' : PageId → PageData}
    (h : s.Coherent live owed val) (hlive : ∀ p, live' p ↔ live p)
    (hval : ∀ p, live p → val' p = val p)
    (hbytes : ∀ p, live p → d.pageBytes p = s.diskManager.pageBytes p) :
    ({ s with diskManager := d } : BufferPoolManager).Coherent live' owed val' := by
  refine ⟨?_, ?_, ?_, ?_, ?_⟩
  · intro p f hl hp
    rw [hval p ((hlive p).mp hl)]
    exact h.cached p f ((hlive p).mp hl) hp
  · intro p f hl hp hd ho
    show d.pageBytes p = val' p
    rw [hval p ((hlive p).mp hl), hbytes p ((hlive p).mp hl)]
    exact h.clean p f ((hlive p).mp hl) hp hd ho
  · intro p hl hp
    show d.pageBytes p = val' p
    rw [hval p ((hlive p).mp hl), hbytes p ((hlive p).mp hl)]
    exact h.absent p ((hlive p).mp hl) hp
  · intro p f hl hp
    exact h.orphan p f (fun hc => hl ((hlive p).mpr hc)) hp
  · intro p hl ho
    exact h.pinned p ((hlive p).mp hl) ho

theorem pageBytes_eq_of_files {p : PageId} (ho : d'.openFds = d.openFds)
    (hf : ∀ path, d.openFds p.fd = some path → d'.files path = d.files path) :
    d'.pageBytes p = d.pageBytes p := by
  unfold DiskManager.pageBytes DiskManager.fileOf
  rw [ho]
  cases hp : d.openFds p.fd with
  | none => rfl
  | some path => rw [Option.bind_some, Option.bind_some, hf path hp]

theorem fileBytes_congr (h : d'.files path = d.files path) : d'.fileBytes path = d.fileBytes path := by
  funext n
  rw [DiskManager.fileBytes, DiskManager.fileBytes, h]

namespace Good

/-- **Replacing a file that is not open.** -/
theorem replaced {x : Int → PageData} (h : Good m w) (hnot : ¬ w.pool.diskManager.IsOpen path)
    (hr : Replaced w.pool.diskManager path x d) : Good (m.setFile path x) (w.withDisk d) := by
  have hlive : ∀ p, Live d p ↔ Live w.pool.diskManager p := by
    intro p
    unfold Live
    rw [hr.openFds]
  -- the file is nobody's, so no open file changes
  have hfiles : ∀ p path', w.pool.diskManager.openFds p = some path' →
      d.files path' = w.pool.diskManager.files path' := by
    intro fd' path' hp
    refine hr.others path' ?_
    rintro rfl
    exact hnot ⟨fd', hp⟩
  have htables : d.Tables := by
    refine ⟨⟨?_, ?_⟩, ?_⟩
    · rw [hr.fd2path, hr.openFds]
      exact h.tables.fd2path
    · rw [hr.path2fd, hr.openFds]
      exact h.tables.path2fd
    · intro fd' path' hp
      rw [hr.openFds] at hp
      rw [hfiles fd' path' hp]
      exact h.tables.present fd' path' hp
  refine ⟨htables, h.opened.trans hr.openFds.symm, ?_, ?_, ?_, ?_⟩
  · refine h.faithful.withDisk htables.injective (h.faithful.coherent.withDisk hlive ?_ ?_)
    · intro p hp
      obtain ⟨path', hp'⟩ := Option.isSome_iff_exists.mp hp
      have hne : path' ≠ path := by
        rintro rfl
        exact hnot ⟨p.fd, hp'⟩
      simp only [FileMap.page, FileMap.setFile, h.opened, hp', Function.update_of_ne hne]
    · intro p _
      exact pageBytes_eq_of_files hr.openFds (hfiles p.fd)
  · intro path' hp
    change ¬ d.IsOpen path' at hp
    show Function.update m.bytes path x path' = d.fileBytes path'
    by_cases hpath : path' = path
    · rw [hpath, Function.update_self, hr.bytes]
    · rw [Function.update_of_ne hpath, fileBytes_congr (hr.others path' hpath)]
      refine h.closed path' ?_
      unfold DiskManager.IsOpen at hp ⊢
      rwa [hr.openFds] at hp
  · refine ⟨?_, ?_⟩
    · intro p f hopen hp
      change (d.openFds p.fd).isSome at hopen
      rw [hr.openFds] at hopen
      show p.pageNo < (d.fd2pageno p.fd : Int)
      rw [hr.counter p.fd hopen]
      exact h.counted.cached p f hopen hp
    · intro fd' file hfile
      change d.fileOf fd' = some file at hfile
      obtain ⟨path', hp, hf⟩ := Option.bind_eq_some_iff.mp hfile
      rw [hr.openFds] at hp
      rw [hfiles fd' path' hp] at hf
      show file.size ≤ d.fd2pageno fd' * pageSize
      rw [hr.counter fd' (by simp [hp])]
      exact h.counted.sized fd' file (Option.bind_eq_some_iff.mpr ⟨path', hp, hf⟩)
  · intro fd' hopen
    change (d.openFds fd').isSome at hopen
    rw [hr.openFds] at hopen
    show 0 < d.fd2pageno fd'
    rw [hr.counter fd' hopen]
    exact h.started fd' hopen

/-- **Opening a file** under a descriptor number whose leftover pages, if any, are its own. -/
theorem opened_file {d₁ : DiskManager} {start : Nat} (h : Good m w)
    (hfree : w.pool.diskManager.openFds fd = none)
    (ho : w.pool.diskManager.openFile path fd = .ok d₁)
    (hsize : ∃ f, d₁.fileOf fd = some f ∧ 0 < f.size) (hclean : NoLeftover w.pool path fd start) :
    Good { m with opened := Function.update m.opened fd (some path) }
      (w.withDisk (d₁.setFd2pageno fd start)) := by
  have htables := (h.tables.openFile hfree ho).setFd2pageno fd start
  obtain ⟨_, hp2, rfl⟩ := DiskManager.openFile_ok ho
  have hnot := h.tables.not_open_of_path2fd hp2
  obtain ⟨hleft, hcover⟩ := hclean
  -- contents of the newly opened file are what is on disk
  have hbytes := h.closed path hnot
  refine ⟨htables, ?_, ?_, ?_, ?_, ?_⟩
  · show Function.update m.opened fd (some path) = Function.update w.pool.diskManager.openFds fd (some path)
    rw [h.opened]
  · refine h.faithful.withDisk htables.injective ?_
    have hnew : ∀ p : PageId, p.fd = fd → FileMap.page
        { m with opened := Function.update m.opened fd (some path) } p
          = w.pool.diskManager.fileBytes path p.pageNo := by
      intro p hp
      simp only [FileMap.page, hp, Function.update_self]
      rw [hbytes]
    have hold : ∀ p : PageId, p.fd ≠ fd → FileMap.page
        { m with opened := Function.update m.opened fd (some path) } p = m.page p := by
      intro p hp
      simp only [FileMap.page, Function.update_of_ne hp]
    have hdisk : ∀ p : PageId, p.fd ≠ fd →
        ((w.pool.diskManager.openedAs path fd).setFd2pageno fd start).pageBytes p
          = w.pool.diskManager.pageBytes p := by
      intro p hp
      simp only [DiskManager.pageBytes, DiskManager.fileOf, DiskManager.setFd2pageno,
        DiskManager.openedAs, Function.update_of_ne hp]
    have hdisk' : ∀ p : PageId, p.fd = fd →
        ((w.pool.diskManager.openedAs path fd).setFd2pageno fd start).pageBytes p
          = w.pool.diskManager.fileBytes path p.pageNo := by
      intro p hp
      have hopen : ((w.pool.diskManager.openedAs path fd).setFd2pageno fd start).openFds p.fd
          = some path := by
        rw [hp]
        exact Function.update_self ..
      rw [DiskManager.pageBytes_eq hopen]
      rfl
    have hlive : ∀ p : PageId, p.fd ≠ fd →
        Live ((w.pool.diskManager.openedAs path fd).setFd2pageno fd start) p →
        Live w.pool.diskManager p := by
      intro p hp hl
      change (Function.update w.pool.diskManager.openFds fd (some path) p.fd).isSome = true at hl
      rwa [Function.update_of_ne hp] at hl
    have hcoh := h.faithful.coherent
    refine ⟨?_, ?_, ?_, ?_, ?_⟩
    · intro p f hl hp
      by_cases hpfd : p.fd = fd
      · rw [hnew p hpfd]
        exact (hleft p.pageNo f (by rw [← hpfd]; exact hp)).1
      · rw [hold p hpfd]
        exact hcoh.cached p f (hlive p hpfd hl) hp
    · intro p f hl hp hd hown
      by_cases hpfd : p.fd = fd
      · rw [hnew p hpfd]
        exact hdisk' p hpfd
      · rw [hold p hpfd]
        exact (hdisk p hpfd).trans (hcoh.clean p f (hlive p hpfd hl) hp hd hown)
    · intro p hl hp
      by_cases hpfd : p.fd = fd
      · rw [hnew p hpfd]
        exact hdisk' p hpfd
      · rw [hold p hpfd]
        exact (hdisk p hpfd).trans (hcoh.absent p (hlive p hpfd hl) hp)
    · intro p f hl hp
      refine hcoh.orphan p f ?_ hp
      intro hc
      refine hl ?_
      show (Function.update w.pool.diskManager.openFds fd (some path) p.fd).isSome = true
      by_cases hpfd : p.fd = fd
      · rw [hpfd, Function.update_self]
        rfl
      · rw [Function.update_of_ne hpfd]
        exact hc
    · rintro p _ ⟨c, hc⟩
      obtain ⟨k, hk, _, rfl⟩ := h.faithful.owing c p hc
      exact ⟨k.frame, h.faithful.held k hk, h.faithful.pinned hk⟩
  · intro path' hp
    refine h.closed path' ?_
    rintro ⟨fd', hfd'⟩
    refine hp ⟨fd', ?_⟩
    show Function.update w.pool.diskManager.openFds fd (some path) fd' = some path'
    rw [Function.update_of_ne, hfd']
    rintro rfl
    rw [hfree] at hfd'
    exact absurd hfd' (by simp)
  · refine ⟨?_, ?_⟩
    · intro p f hopen hp
      show p.pageNo < (Function.update w.pool.diskManager.fd2pageno fd start p.fd : Nat)
      by_cases hpfd : p.fd = fd
      · rw [hpfd, Function.update_self]
        exact (hleft p.pageNo f (by rw [← hpfd]; exact hp)).2
      · rw [Function.update_of_ne hpfd]
        change (Function.update w.pool.diskManager.openFds fd (some path) p.fd).isSome = true at hopen
        rw [Function.update_of_ne hpfd] at hopen
        exact h.counted.cached p f hopen hp
    · intro fd' file hfile
      obtain ⟨path', hp, hf⟩ := Option.bind_eq_some_iff.mp hfile
      change Function.update w.pool.diskManager.openFds fd (some path) fd' = some path' at hp
      show file.size ≤ Function.update w.pool.diskManager.fd2pageno fd start fd' * pageSize
      by_cases hfd : fd' = fd
      · rw [hfd, Function.update_self, Option.some.injEq] at hp
        subst hp
        rw [hfd, Function.update_self]
        exact hcover file hf
      · rw [Function.update_of_ne hfd] at hp ⊢
        exact h.counted.sized fd' file (Option.bind_eq_some_iff.mpr ⟨path', hp, hf⟩)
  · intro fd' hopen
    change (Function.update w.pool.diskManager.openFds fd (some path) fd').isSome = true at hopen
    show 0 < Function.update w.pool.diskManager.fd2pageno fd start fd'
    by_cases hfd : fd' = fd
    · rw [hfd, Function.update_self]
      obtain ⟨f, hf, hpos⟩ := hsize
      have hf' : w.pool.diskManager.files path = some f := by
        simpa [DiskManager.fileOf, DiskManager.openedAs, Function.update_self] using hf
      have := hcover f hf'
      rcases Nat.eq_zero_or_pos start with hz | hz
      · rw [hz, Nat.zero_mul] at this
        omega
      · exact hz
    · rw [Function.update_of_ne hfd] at hopen ⊢
      exact h.started fd' hopen

/-! ### Operations on pages -/

/-- A page of an open file has one place in the map of files. -/
theorem page_setPage (h : Good m w) {p : PageId} (hopen : Live w.pool.diskManager p) (x : PageData) :
    (m.setPage p x).page = Function.update m.page p x := by
  obtain ⟨path, hp⟩ := Option.isSome_iff_exists.mp hopen
  rw [← h.opened] at hp
  funext q
  simp only [FileMap.setPage, hp]
  by_cases hq : q = p
  · subst hq
    simp only [FileMap.page, FileMap.setFile, hp, Function.update_self]
  · rw [Function.update_of_ne hq]
    simp only [FileMap.page, FileMap.setFile]
    cases hq' : m.opened q.fd with
    | none => rfl
    | some path' =>
        by_cases hpath : path' = path
        · subst hpath
          rw [h.opened] at hp hq'
          have hfd := h.tables.injective _ _ _ hq' hp
          have hno : q.pageNo ≠ p.pageNo := by
            intro he
            exact hq (by cases p; cases q; simp_all)
          simp only [Function.update_self, Function.update_of_ne hno]
        · simp only [Function.update_of_ne hpath]

/-- Writing pages of open files leaves the files that are not open alone. -/
theorem closed_setPage (h : Good m w) {p : PageId} {x : PageData}
    (hs : DiskManager.SameTables w.pool.diskManager d) (hp : ¬ d.IsOpen path) :
    (m.setPage p x).bytes path = d.fileBytes path := by
  have hnot : ¬ w.pool.diskManager.IsOpen path := by
    unfold DiskManager.IsOpen at hp ⊢
    rwa [hs.openFds] at hp
  rw [fileBytes_congr (hs.closed path hnot), ← h.closed path hnot]
  unfold FileMap.setPage
  split
  · rfl
  · rename_i path' hp'
    refine Function.update_of_ne ?_ ..
    rintro rfl
    exact hnot ⟨p.fd, h.opened ▸ hp'⟩

theorem opened_setPage (m : FileMap) (p : PageId) (x : PageData) :
    (m.setPage p x).opened = m.opened := by
  unfold FileMap.setPage
  split <;> rfl

/-- Pages are allocated from a counter that is above everything cached. -/
theorem fresh (h : Good m w) (hopen : (w.pool.diskManager.openFds fd).isSome) :
    w.pool.pageTable ⟨fd, w.pool.diskManager.fd2pageno fd⟩ = none := by
  cases hp : w.pool.pageTable ⟨fd, w.pool.diskManager.fd2pageno fd⟩ with
  | none => rfl
  | some f =>
      have := h.counted.cached _ f hopen hp
      dsimp only at this
      omega

/-- A call on an open file that returns is a step of the pool. -/
theorem step_call (h : Good m w) {k : Call} {r : Ret} {s : BufferPoolManager}
    (hopen : (w.pool.diskManager.openFds (Op.call k).fd).isSome)
    (hs : (BufferPoolManager.exec k).run w.pool = .ok r s) : Step w.pool (k, r) s := by
  refine step_iff.mpr ⟨?_, hs⟩
  cases k with
  | newPage fd => exact h.fresh hopen
  | fetchPage | unpinPage | flushPage | deletePage | flushAllPages => trivial

/-- **A pool call on an open file.** -/
theorem call (h : Good m w) {c : Nat} {k : Call} {r : Ret} {s : BufferPoolManager}
    (hopen : (w.pool.diskManager.openFds (Op.call k).fd).isSome) (hk : w.Allowed c k)
    (hs : (BufferPoolManager.exec k).run w.pool = .ok r s) :
    Good ((FileOp.page c (.call k)).written m r) (w.after c k r s) := by
  have hstep := h.step_call hopen hs
  have heff := hstep.effect
  have hsame : DiskManager.SameTables w.pool.diskManager s.diskManager :=
    heff.disk_invariant (I := DiskManager.SameTables w.pool.diskManager)
      (fun d d' fd no x hd hw => hd.writePage hw) (fun d fd hd => ⟨hd.openFds, hd.path2fd, hd.fd2path, hd.closed, hd.present⟩)
      (DiskManager.SameTables.refl _)
  have hstarted : ∀ fd, (s.diskManager.openFds fd).isSome → 0 < s.diskManager.fd2pageno fd := by
    refine heff.disk_invariant (I := fun d => ∀ fd, (d.openFds fd).isSome → 0 < d.fd2pageno fd)
      ?_ ?_ h.started
    · intro d d' fd no x hd hw fd' hopen'
      obtain ⟨h1, h2, _⟩ := DiskManager.writePage_frame hw
      rw [h1] at hopen'
      rw [h2]
      exact hd fd' hopen'
    · intro d fd hd fd' hopen'
      exact Nat.lt_of_lt_of_le (hd fd' hopen') (DiskManager.le_allocatePage d fd fd')
  have hlive : Faithful.LiveCall (Live w.pool.diskManager) k := by
    cases k with
    | unpinPage p b => exact hopen
    | flushPage p => exact hopen
    | flushAllPages fd => exact fun n => hopen
    | newPage | fetchPage | deletePage => trivial
  have hpool : (w.after c k r s).pool = s := World.after_pool
  -- only a new page changes what the client is to find
  have hwritten : ((FileOp.page c (.call k)).written m r).page = written m.page (.call k) r
      ∧ ((FileOp.page c (.call k)).written m r).opened = m.opened
      ∧ ∀ path, ¬ s.diskManager.IsOpen path →
          ((FileOp.page c (.call k)).written m r).bytes path = s.diskManager.fileBytes path := by
    have hnone : ∀ path, ¬ s.diskManager.IsOpen path →
        m.bytes path = s.diskManager.fileBytes path := by
      intro path hp
      have hnot : ¬ w.pool.diskManager.IsOpen path := by
        unfold DiskManager.IsOpen at hp ⊢
        rwa [hsame.openFds] at hp
      rw [fileBytes_congr (hsame.closed path hnot), ← h.closed path hnot]
    cases heff with
    | @newPage fd _ _ _ _ _ =>
        exact ⟨h.page_setPage (p := ⟨fd, _⟩) hopen zeroPage, opened_setPage .., fun path hp =>
          h.closed_setPage hsame hp⟩
    | fetchHit | fetchNull | fetchMiss | newNull | unpin | unpinRefused | flush | flushMiss
    | deleteMiss | deletePinned | delete | flushAll => exact ⟨rfl, rfl, hnone⟩
  have hfaith := h.faithful.call hk hlive hstep
  refine ⟨?_, ?_, ?_, ?_, ?_, ?_⟩
  · rw [hpool]
    exact hsame.tables h.tables
  · rw [hpool, hwritten.2.1, h.opened, hsame.openFds]
  · have hl : Live (w.after c k r s).pool.diskManager = Live w.pool.diskManager := by
      rw [hpool]
      funext p
      rw [Live, Live, hsame.openFds]
    rw [hl, hwritten.1]
    exact hfaith
  · rw [hpool]
    exact hwritten.2.2
  · rw [hpool]
    exact h.counted.step h.faithful.inv h.faithful.inj hstep
  · rw [hpool]
    exact hstarted

/-- **A write through a pointer** into a page of an open file. -/
theorem write (h : Good m w) {c : Nat} {p : PageId} {f : Nat} (hopen : Live w.pool.diskManager p)
    (hk : (⟨c, p, f⟩ : Pin) ∈ w.pins) (x : PageData) :
    Good (m.setPage p x) { w with pool := w.pool.overwrite f x, owes := w.owe c p true } := by
  refine ⟨h.tables, (opened_setPage ..).trans h.opened, ?_, ?_, ⟨h.counted.cached, h.counted.sized⟩,
    h.started⟩
  · rw [h.page_setPage hopen]
    exact h.faithful.write hk x
  · intro path hp
    exact h.closed_setPage (DiskManager.SameTables.refl _) hp

/-! ### Closing a file -/

/-- **Writing a header past the pool**, when page 0 is not cached with other bytes. -/
theorem header (h : Good m w) {hdr : Nat → UInt8} {n : Nat} (hn : n ≤ pageSize)
    (hagree : HeaderAgrees w.pool fd hdr n)
    (hw : w.pool.diskManager.writePage fd fileHdrPage hdr n = some d) :
    Good (m.setPage ⟨fd, fileHdrPage⟩ ((m.page ⟨fd, fileHdrPage⟩).overlay hdr n)) (w.withDisk d) := by
  have hsame := (DiskManager.SameTables.refl _).writePage hw
  obtain ⟨path, _, hp, _⟩ := DiskManager.writePage_some hw
  obtain ⟨hbytes, hothers⟩ := DiskManager.writePage_fileBytes hn hp hw
  have hopen : Live w.pool.diskManager ⟨fd, fileHdrPage⟩ := by
    rw [Live, hp]
    rfl
  have hlive : Live d = Live w.pool.diskManager := by
    funext p
    rw [Live, Live, hsame.openFds]
  have hself : d.pageBytes ⟨fd, fileHdrPage⟩
      = (w.pool.diskManager.pageBytes ⟨fd, fileHdrPage⟩).overlay hdr n := by
    have h1 : d.pageBytes ⟨fd, fileHdrPage⟩ = d.fileBytes path fileHdrPage :=
      DiskManager.pageBytes_eq (hsame.openFds ▸ hp)
    have h2 : w.pool.diskManager.pageBytes ⟨fd, fileHdrPage⟩
        = w.pool.diskManager.fileBytes path fileHdrPage := DiskManager.pageBytes_eq hp
    rw [h1, h2, hbytes, Function.update_self]
  -- a page of another file, or another page of this one
  have hother : ∀ q, q ≠ ⟨fd, fileHdrPage⟩ → d.pageBytes q = w.pool.diskManager.pageBytes q := by
    intro q hq
    cases hq' : w.pool.diskManager.openFds q.fd with
    | none =>
        unfold DiskManager.pageBytes DiskManager.fileOf
        rw [hsame.openFds, hq']
        rfl
    | some path' =>
        rw [DiskManager.pageBytes_eq hq', DiskManager.pageBytes_eq (hsame.openFds ▸ hq')]
        by_cases hpath : path' = path
        · subst hpath
          have hfd := h.tables.injective _ _ _ hq' hp
          rw [hbytes, Function.update_of_ne]
          intro he
          exact hq (by cases q; simp_all)
        · rw [fileBytes_congr (hothers path' hpath)]
  have hcoh := h.faithful.coherent
  refine ⟨hsame.tables h.tables, ?_, ?_, ?_, ?_, ?_⟩
  · rw [opened_setPage, h.opened]
    exact hsame.openFds.symm
  · show Faithful (Live d) _ _
    rw [hlive, h.page_setPage hopen]
    refine h.faithful.withDisk (hsame.tables h.tables).injective ⟨?_, ?_, ?_, hcoh.orphan, hcoh.pinned⟩
    · intro p f hl hpf
      by_cases hpq : p = ⟨fd, fileHdrPage⟩
      · subst hpq
        rw [Function.update_self, ← hcoh.cached _ f hl hpf]
        exact (hagree f hpf).symm
      · rw [Function.update_of_ne hpq]
        exact hcoh.cached p f hl hpf
    · intro p f hl hpf hd ho
      show d.pageBytes p = _
      by_cases hpq : p = ⟨fd, fileHdrPage⟩
      · subst hpq
        rw [Function.update_self, hself, hcoh.clean _ f hl hpf hd ho]
      · rw [Function.update_of_ne hpq, hother p hpq]
        exact hcoh.clean p f hl hpf hd ho
    · intro p hl hpf
      show d.pageBytes p = _
      by_cases hpq : p = ⟨fd, fileHdrPage⟩
      · subst hpq
        rw [Function.update_self, hself, hcoh.absent _ hl hpf]
      · rw [Function.update_of_ne hpq, hother p hpq]
        exact hcoh.absent p hl hpf
  · intro path' hp'
    exact h.closed_setPage hsame hp'
  · obtain ⟨h1, h2, _⟩ := DiskManager.writePage_frame hw
    refine ⟨?_, ?_⟩
    · intro p f hl hpf
      change (d.openFds p.fd).isSome at hl
      show p.pageNo < (d.fd2pageno p.fd : Int)
      rw [h1] at hl
      rw [h2]
      exact h.counted.cached p f hl hpf
    · refine h.counted.sized.writePage h.tables.injective ?_ hn hw
      have := h.started fd hopen
      unfold fileHdrPage
      omega
  · obtain ⟨h1, h2, _⟩ := DiskManager.writePage_frame hw
    intro fd' hl
    change (d.openFds fd').isSome at hl
    show 0 < d.fd2pageno fd'
    rw [h1] at hl
    rw [h2]
    exact h.started fd' hl

/-- **Closing a descriptor** whose cached pages are clean and on disk. -/
theorem closed_file (h : Good m w) (hc : w.pool.diskManager.closeFile fd = .ok d)
    (hflushed : ∀ p f, w.pool.pageTable p = some f → p.fd = fd →
      (w.pool.pages f).isDirty = false ∧ w.pool.diskManager.pageBytes p = (w.pool.pages f).data) :
    Good { m with opened := Function.update m.opened fd none } (w.withDisk d) := by
  have htables := h.tables.closeFile hc
  obtain ⟨path, hp, rfl⟩ := DiskManager.closeFile_ok hc
  rw [h.tables.fd2path] at hp
  have hcoh := h.faithful.coherent
  -- what is open afterwards was open before
  have hlive : ∀ {p : PageId}, (Function.update w.pool.diskManager.openFds fd none p.fd).isSome = true →
      p.fd ≠ fd ∧ Live w.pool.diskManager p := by
    intro p hl
    have hne : p.fd ≠ fd := by
      intro he
      rw [he, Function.update_self] at hl
      exact absurd hl (by simp)
    rw [Function.update_of_ne hne] at hl
    exact ⟨hne, hl⟩
  have hpage : ∀ {p : PageId}, p.fd ≠ fd →
      FileMap.page { m with opened := Function.update m.opened fd none } p = m.page p := by
    intro p hne
    simp only [FileMap.page, Function.update_of_ne hne]
  refine ⟨htables, ?_, ?_, ?_, ?_, ?_⟩
  · show Function.update m.opened fd none = Function.update w.pool.diskManager.openFds fd none
    rw [h.opened]
  · refine h.faithful.withDisk htables.injective ⟨?_, ?_, ?_, ?_, ?_⟩
    · intro p f hl hpf
      obtain ⟨hne, hl⟩ := hlive hl
      rw [hpage hne]
      exact hcoh.cached p f hl hpf
    · intro p f hl hpf hd ho
      obtain ⟨hne, hl⟩ := hlive hl
      rw [hpage hne, ← hcoh.clean p f hl hpf hd ho]
      simp only [DiskManager.pageBytes, DiskManager.fileOf, Function.update_of_ne hne]
    · intro p hl hpf
      obtain ⟨hne, hl⟩ := hlive hl
      rw [hpage hne, ← hcoh.absent p hl hpf]
      simp only [DiskManager.pageBytes, DiskManager.fileOf, Function.update_of_ne hne]
    · intro p f hl hpf
      by_cases hfd : p.fd = fd
      · exact (hflushed p f hpf hfd).1
      · refine hcoh.orphan p f (fun hc => hl ?_) hpf
        show (Function.update w.pool.diskManager.openFds fd none p.fd).isSome = true
        rw [Function.update_of_ne hfd]
        exact hc
    · intro p hl ho
      exact hcoh.pinned p (hlive hl).2 ho
  · intro path' hp'
    show m.bytes path' = w.pool.diskManager.fileBytes path'
    by_cases hpath : path' = path
    · -- the file just closed: what was cached has been flushed
      subst hpath
      funext n
      have hl : Live w.pool.diskManager ⟨fd, n⟩ := by
        rw [Live, hp]
        rfl
      have hval : m.page ⟨fd, n⟩ = m.bytes path' n := by
        simp only [FileMap.page, h.opened, hp]
      have hdisk : w.pool.diskManager.pageBytes ⟨fd, n⟩ = w.pool.diskManager.fileBytes path' n :=
        DiskManager.pageBytes_eq hp
      rw [← hval, ← hdisk]
      cases hpf : w.pool.pageTable ⟨fd, n⟩ with
      | none => exact (hcoh.absent _ hl hpf).symm
      | some f => rw [(hflushed _ f hpf rfl).2, hcoh.cached _ f hl hpf]
    · refine h.closed path' ?_
      rintro ⟨fd', hfd'⟩
      refine hp' ⟨fd', ?_⟩
      show Function.update w.pool.diskManager.openFds fd none fd' = some path'
      rw [Function.update_of_ne, hfd']
      rintro rfl
      rw [hp, Option.some.injEq] at hfd'
      exact hpath hfd'.symm
  · refine ⟨?_, ?_⟩
    · intro p f hl hpf
      exact h.counted.cached p f (hlive hl).2 hpf
    · intro fd' file hfile
      refine h.counted.sized fd' file ?_
      obtain ⟨path', hp', hf⟩ := Option.bind_eq_some_iff.mp hfile
      have hne := (hlive (p := ⟨fd', 0⟩) (by
        change Function.update w.pool.diskManager.openFds fd none fd' = some path' at hp'
        rw [hp']
        rfl)).1
      change Function.update w.pool.diskManager.openFds fd none fd' = some path' at hp'
      rw [Function.update_of_ne hne] at hp'
      exact Option.bind_eq_some_iff.mpr ⟨path', hp', hf⟩
  · intro fd' hl
    exact h.started fd' (hlive (p := ⟨fd', 0⟩) hl).2

/-- The whole of `close_file` and `close_index`. -/
theorem closeHandle (h : Good m w) {hdr : Nat → UInt8} {n : Nat} {s : BufferPoolManager}
    (hn : n ≤ pageSize) (hagree : HeaderAgrees w.pool fd hdr n)
    (hrun : (Rucbase.closeHandle fd hdr n).run w.pool = .ok ⟨⟩ s) :
    Good { m.setPage ⟨fd, fileHdrPage⟩ ((m.page ⟨fd, fileHdrPage⟩).overlay hdr n) with
        opened := Function.update m.opened fd none } { w with pool := s } := by
  unfold Rucbase.closeHandle at hrun
  obtain ⟨_, _, h1, hrun⟩ := bind_eq_ok.mp hrun
  obtain ⟨d₁, hd₁, rfl⟩ := writeDisk_ok h1
  obtain ⟨_, t, hflush, hrun⟩ := bind_eq_ok.mp hrun
  obtain ⟨d₂, hd₂, rfl⟩ := disk_ok hrun
  have hg₁ := h.header hn hagree hd₁
  have hopen : ((w.withDisk d₁).pool.diskManager.openFds fd).isSome := by
    obtain ⟨path, _, hp, _⟩ := DiskManager.writePage_some hd₁
    show (d₁.openFds fd).isSome = true
    rw [(DiskManager.writePage_frame hd₁).1, hp]
    rfl
  have hexec : (BufferPoolManager.exec (.flushAllPages fd)).run (w.withDisk d₁).pool = .ok .unit t :=
    bind_eq_ok.mpr ⟨⟨⟩, t, hflush, rfl⟩
  have hg₂ := hg₁.call (c := 0) (k := .flushAllPages fd) hopen trivial hexec
  have hg₃ := Good.closed_file (w := { w with pool := t }) hg₂ hd₂ (fun p f hp hfd =>
    hg₁.faithful.inv.flushAll_clean hg₁.faithful.inj hflush hp hfd)
  have hm : (FileOp.written (m.setPage ⟨fd, fileHdrPage⟩
      ((m.page ⟨fd, fileHdrPage⟩).overlay hdr n)) (.page 0 (.call (.flushAllPages fd))) .unit).opened
        = m.opened := opened_setPage ..
  rw [hm] at hg₃
  exact hg₃

/-- What `open_file` and `open_index` do before they set the counter. -/
theorem openHandle_ok {n : Nat} {s s' : BufferPoolManager} {buf : Nat → UInt8} (hn : n ≤ pageSize)
    (hpos : 0 < n) (hrun : (openHandle path fd n).run s = .ok buf s') :
    ∃ d₁, s.diskManager.openFile path fd = .ok d₁ ∧ s' = { s with diskManager := d₁ }
      ∧ (∃ f, d₁.fileOf fd = some f ∧ 0 < f.size)
      ∧ ∀ i, i < n → buf i = (s.diskManager.fileBytes path fileHdrPage).toBuf i := by
  unfold openHandle at hrun
  obtain ⟨_, _, h1, hrun⟩ := bind_eq_ok.mp hrun
  obtain ⟨d₁, hd₁, rfl⟩ := disk_ok h1
  obtain ⟨rfl, hsize, hbuf⟩ := readDisk_ok hn hpos hrun
  refine ⟨d₁, hd₁, rfl, hsize, ?_⟩
  obtain ⟨_, _, rfl⟩ := DiskManager.openFile_ok hd₁
  intro i hi
  have hopen : (s.diskManager.openedAs path fd).openFds fd = some path := Function.update_self ..
  have hpage : (s.diskManager.openedAs path fd).pageBytes ⟨fd, fileHdrPage⟩
      = (s.diskManager.openedAs path fd).fileBytes path fileHdrPage := DiskManager.pageBytes_eq hopen
  rw [hbuf i hi, hpage]
  rfl

/-- **A manager call that returns.** -/
theorem manager {o : FileOp} {s : BufferPoolManager} (h : Good m w) (hen : o.Enabled w)
    (hclean : Clean w o) (hnot : ∀ c op, o ≠ .page c op) (he : o.run.run w.pool = .ok ⟨⟩ s) :
    Good (o.written m .unit) { w with pool := s } := by
  cases o with
  | page c op => exact absurd rfl (hnot c op)
  | rmCreate filename recordSize fd =>
      obtain ⟨d, rfl, hno, hr⟩ := rmCreate_ok h.tables hen he
      exact h.replaced hno hr
  | ixCreate filename indexNo colType colLen pageBuf fd =>
      obtain ⟨d, rfl, hno, hr⟩ := ixCreate_ok h.tables hen he
      exact h.replaced hno hr
  | rmDestroy filename =>
      obtain ⟨d, hd, rfl⟩ := disk_ok (g := (·.destroyFile filename)) he
      obtain ⟨hno, hr⟩ := destroyFile_replaced h.tables hd
      exact h.replaced hno hr
  | ixDestroy filename indexNo =>
      obtain ⟨d, hd, rfl⟩ :=
        disk_ok (g := (·.destroyFile (IxManager.getIndexName filename indexNo))) he
      obtain ⟨hno, hr⟩ := destroyFile_replaced h.tables hd
      exact h.replaced hno hr
  | rmClose fd hdr => exact h.closeHandle (by decide) hclean he
  | ixClose fd hdr => exact h.closeHandle (by decide) hclean he
  | rmOpen filename fd =>
      obtain ⟨_, _, h1, h2⟩ := bind_eq_ok.mp he
      rw [EStateM.run_pure, EStateM.Result.ok.injEq] at h2
      obtain ⟨buf, _, h3, h4⟩ := bind_eq_ok.mp h1
      obtain ⟨d₁, hd₁, rfl, hsize, hbuf⟩ := openHandle_ok (by decide) (by decide) h3
      rw [run_modify_bind, EStateM.run_pure, EStateM.Result.ok.injEq] at h4
      obtain ⟨_, rfl⟩ := h4
      have hno : (RmFileHdr.ofBuf buf).numPages = (RmFileHdr.ofBuf
          (w.pool.diskManager.fileBytes filename fileHdrPage).toBuf).numPages :=
        int32At_congr (fun k hk => hbuf _ (by unfold RmFileHdr.size; omega))
      rw [← h2.2]
      dsimp only
      rw [hno]
      exact h.opened_file hen hd₁ hsize hclean
  | ixOpen filename indexNo fd =>
      obtain ⟨_, _, h1, h2⟩ := bind_eq_ok.mp he
      rw [EStateM.run_pure, EStateM.Result.ok.injEq] at h2
      obtain ⟨buf, _, h3, h4⟩ := bind_eq_ok.mp h1
      obtain ⟨d₁, hd₁, rfl, hsize, _⟩ := openHandle_ok (by decide) (by decide) h3
      rw [run_modify_bind, EStateM.run_pure, EStateM.Result.ok.injEq] at h4
      obtain ⟨_, rfl⟩ := h4
      have hno : d₁.fd2pageno fd = w.pool.diskManager.fd2pageno fd := by
        obtain ⟨_, _, rfl⟩ := DiskManager.openFile_ok hd₁
        rfl
      rw [← h2.2]
      dsimp only
      rw [hno]
      exact h.opened_file hen hd₁ hsize hclean

/-- **A client's operation on a page of an open file.** -/
theorem page_op {c : Nat} {op : Op} {r : Ret} (h : Good m w)
    (hen : (FileOp.page c op).Enabled w) (hs : w.exec c op = some (r, w')) :
    Good ((FileOp.page c op).written m r) w' := by
  cases op with
  | call k =>
      simp only [World.exec] at hs
      split at hs
      · rename_i hk
        split at hs
        · rename_i r' s he
          rw [Option.some.injEq, Prod.mk.injEq] at hs
          obtain ⟨rfl, rfl⟩ := hs
          exact h.call hen hk he
        · exact absurd hs (by simp)
      · exact absurd hs (by simp)
  | write p f x =>
      simp only [World.exec] at hs
      split at hs
      · rename_i hk
        rw [Option.some.injEq, Prod.mk.injEq] at hs
        obtain ⟨rfl, rfl⟩ := hs
        exact h.write hen hk x
      · exact absurd hs (by simp)

/-- **Every clean step keeps the refinement.** -/
theorem step {o : FileOp} {r : Ret} (h : Good m w) (hs : CleanStep w (o, r) w') :
    Good (o.written m r) w' := by
  obtain ⟨hclean, hs⟩ := hs
  rcases FileOp.step_some hs with ⟨hen, ⟨c, op, rfl, he⟩ | ⟨hnot, s, he, rfl, rfl⟩⟩
  · exact h.page_op hen he
  · exact h.manager hen hclean hnot he

theorem init (poolSize : Nat) (files : String → Option OsFile) (fd : Int) :
    Good (filesAfter files []) (.new (.new poolSize (.new files) fd)) where
  tables := DiskManager.Tables.new files
  opened := rfl
  faithful := Faithful.init poolSize fd (DiskManager.Tables.new files).injective
  closed := fun _ _ => rfl
  counted := by
    refine ⟨?_, ?_⟩
    · intro p f hopen _
      exact absurd hopen (by simp [World.new, BufferPoolManager.new, DiskManager.new])
    · intro fd' file hfile
      exact absurd hfile (by
        simp [World.new, BufferPoolManager.new, DiskManager.new, DiskManager.fileOf])
  started := by
    intro fd' hopen
    exact absurd hopen (by simp [World.new, BufferPoolManager.new, DiskManager.new])

end Good

theorem good_of_run {poolSize : Nat} {files : String → Option OsFile} {fd : Int}
    {h : List (FileOp × Ret)} (hrun : Run CleanStep (.new (.new poolSize (.new files) fd)) h w) :
    Good (filesAfter files h) w := by
  refine hrun.invariant_history (I := fun w h => Good (filesAfter files h) w) ?_ ?_
  · exact Good.init poolSize files fd
  · intro w h l w' hg hs
    exact hg.step hs

/-- **Files stay apart**: in every run whose steps meet no leftover page, `FetchPage` shows the
page of the file that is open under the descriptor, and `NewPage` hands out a number that is
not in the page table. -/
theorem fetch_shows_open_file {poolSize : Nat} {files : String → Option OsFile} {fd : Int}
    {h : List (FileOp × Ret)} {w : World}
    (hrun : Run CleanStep (.new (.new poolSize (.new files) fd)) h w) :
    (∀ c p f w', FileStep w (.page c (.call (.fetchPage p)), .page (some f)) w' →
      (w'.pool.pages f).data = (filesAfter files h).page p)
    ∧ ∀ fd, (w.pool.diskManager.openFds fd).isSome →
        w.pool.pageTable ⟨fd, w.pool.diskManager.fd2pageno fd⟩ = none := by
  have hgood := good_of_run hrun
  refine ⟨?_, fun fd hopen => hgood.fresh hopen⟩
  intro c p f w' hs
  have hgood' : Good (filesAfter files h) w' :=
    hgood.step (o := .page c (.call (.fetchPage p))) ⟨trivial, hs⟩
  rcases FileOp.step_some hs with ⟨hen, ⟨c', op, ho, he⟩ | ⟨hnot, _⟩⟩
  · obtain ⟨rfl, rfl⟩ := FileOp.page.inj ho
    have hpin : (⟨c, p, f⟩ : Pin) ∈ w'.pins := World.step_fetch (w := w) (by
      unfold World.step
      rw [if_pos (show w.Fresh (.call (.fetchPage p)) from trivial)]
      exact he)
    have hlive : Live w'.pool.diskManager p := by
      have h1 : (filesAfter files h).opened = w.pool.diskManager.openFds := hgood.opened
      have h2 : (filesAfter files h).opened = w'.pool.diskManager.openFds := hgood'.opened
      rw [Live, ← h2, h1]
      exact hen
    exact hgood'.faithful.shows hpin hlive
  · exact absurd rfl (hnot _ _)

/-- The header a record file with one data page is closed with. -/
def onePageHdr : RmFileHdr := { RmFileHdr.initial 8 with numPages := 2, firstFreePageNo := 1 }

/-- Two files with one page each, open side by side. -/
def sideBySide : List FileOp :=
  [.rmCreate "a" 8 3, .rmCreate "b" 8 3, .rmOpen "a" 3, .rmOpen "b" 4, .page 0 (.call (.newPage 3)),
    .page 0 (.write ⟨3, 1⟩ 0 (fun _ => 7)), .page 1 (.call (.newPage 4))]

/-- The state after the first calls of a list. -/
def worldAfter (ops : List FileOp) (n : Nat) : World :=
  match Run.replay FileOp.step [] (.new (.new 2 (.new fun _ => none) 0)) (ops.take n) with
  | some (_, w) => w
  | none => .new (.new 2 (.new fun _ => none) 0)

/-- Nothing is left over when they are opened. -/
theorem sideBySide_clean :
    ∃ h, Run CleanStep (.new (.new 2 (.new fun _ => none) 0)) h (worldAfter sideBySide 7)
      ∧ (filesAfter (fun _ => none) h).page ⟨3, 1⟩ = fun _ => 7 := by
  -- nothing is cached yet when the two files are opened
  have hnone : ∀ n, (worldAfter sideBySide 2).pool.pageTable ⟨3, n⟩ = none := fun _ => rfl
  have hnone' : ∀ n, (worldAfter sideBySide 3).pool.pageTable ⟨4, n⟩ = none := fun _ => rfl
  have c2 : Clean (worldAfter sideBySide 2) (.rmOpen "a" 3) := by
    refine ⟨fun n f hn => absurd hn (by simp [hnone]), ?_⟩
    intro file hfile
    obtain rfl := Option.some.inj hfile
    decide +kernel
  have c3 : Clean (worldAfter sideBySide 3) (.rmOpen "b" 4) := by
    refine ⟨fun n f hn => absurd hn (by simp [hnone']), ?_⟩
    intro file hfile
    obtain rfl := Option.some.inj hfile
    decide +kernel
  have s1 : CleanStep (.new (.new 2 (.new fun _ => none) 0)) (.rmCreate "a" 8 3, .unit)
      (worldAfter sideBySide 1) := ⟨trivial, rfl⟩
  have s2 : CleanStep (worldAfter sideBySide 1) (.rmCreate "b" 8 3, .unit) (worldAfter sideBySide 2) := ⟨trivial, rfl⟩
  have s3 : CleanStep (worldAfter sideBySide 2) (.rmOpen "a" 3, .unit) (worldAfter sideBySide 3) := ⟨c2, rfl⟩
  have s4 : CleanStep (worldAfter sideBySide 3) (.rmOpen "b" 4, .unit) (worldAfter sideBySide 4) := ⟨c3, rfl⟩
  have s5 : CleanStep (worldAfter sideBySide 4) (.page 0 (.call (.newPage 3)), .created (some (0, ⟨3, 1⟩)))
      (worldAfter sideBySide 5) := ⟨trivial, rfl⟩
  have s6 : CleanStep (worldAfter sideBySide 5) (.page 0 (.write ⟨3, 1⟩ 0 (fun _ => 7)), .unit)
      (worldAfter sideBySide 6) := ⟨trivial, rfl⟩
  have s7 : CleanStep (worldAfter sideBySide 6) (.page 1 (.call (.newPage 4)), .created (some (1, ⟨4, 1⟩)))
      (worldAfter sideBySide 7) := ⟨trivial, rfl⟩
  exact ⟨_, ((((((Run.nil.step s1).step s2).step s3).step s4).step s5).step s6).step s7, rfl⟩

/-- Page 1 of each of two open files: the one that was written shows what was written. -/
theorem fetch_shows_open_file_side_by_side :
    ∃ h w', Run CleanStep (.new (.new 2 (.new fun _ => none) 0)) h (worldAfter sideBySide 7)
      ∧ FileStep (worldAfter sideBySide 7) (.page 0 (.call (.fetchPage ⟨3, 1⟩)), .page (some 0)) w'
      ∧ (w'.pool.pages 0).data = fun _ => 7 := by
  obtain ⟨h, hrun, hpage⟩ := sideBySide_clean
  refine ⟨_, _, hrun, rfl, ?_⟩
  exact ((fetch_shows_open_file hrun).1 0 ⟨3, 1⟩ 0 _ rfl).trans hpage

/-- Page 1 of one file is written, the file is closed, and another one is opened under its
descriptor number. -/
def reusedFd : List FileOp :=
  [.rmCreate "a" 8 3, .rmCreate "b" 8 3, .rmOpen "a" 3, .page 0 (.call (.newPage 3)),
    .page 0 (.write ⟨3, 1⟩ 0 (fun _ => 7)), .page 0 (.call (.unpinPage ⟨3, 1⟩ true)),
    .rmClose 3 onePageHdr, .rmOpen "b" 3]

/-- Run the calls, fetch page 1 of descriptor 3, and compare: what the call returned, the first
byte the pointer shows, the first byte the file has there, and where the number `NewPage` would
hand out is mapped. -/
def probe (ops : List FileOp) : Option (Ret × UInt8 × UInt8 × Option Nat) :=
  match Run.replay FileOp.step [] (.new (.new 2 (.new fun _ => none) 0)) ops with
  | none => none
  | some (h, w) =>
      match FileOp.step w (.page 0 (.call (.fetchPage ⟨3, 1⟩))) with
      | none => none
      | some (r, w') => some (r, (w'.pool.pages 0).data ⟨0, by decide⟩,
          (filesAfter (fun _ => none) h).page ⟨3, 1⟩ ⟨0, by decide⟩,
          w.pool.pageTable ⟨3, w.pool.diskManager.fd2pageno 3⟩)

/-- The page of a closed file shows up in the file opened next. -/
theorem fetch_shows_closed_file :
    ∃ h w w', Run FileStep (.new (.new 2 (.new fun _ => none) 0)) h w
      ∧ FileStep w (.page 0 (.call (.fetchPage ⟨3, 1⟩)), .page (some 0)) w'
      ∧ (w'.pool.pages 0).data ≠ (filesAfter (fun _ => none) h).page ⟨3, 1⟩
      ∧ w.pool.pageTable ⟨3, w.pool.diskManager.fd2pageno 3⟩ ≠ none := by
  have key : probe reusedFd = some (.page (some 0), 7, 0, some 0) := by decide +kernel
  unfold probe at key
  split at key
  · exact absurd key (by simp)
  · rename_i h w hrep
    split at key
    · exact absurd key (by simp)
    · rename_i r w' hs
      simp only [Option.some.injEq, Prod.mk.injEq] at key
      obtain ⟨rfl, hdata, hfile, htab⟩ := key
      refine ⟨h, w, w', Run.of_replay FileOp.step reusedFd .nil hrep, hs, ?_, ?_⟩
      · intro he
        rw [he, hfile] at hdata
        exact absurd hdata (by decide)
      · rw [htab]
        simp

end Rucbase
