import Rucbase.Lib.EState
import Rucbase.Storage.FileTables
import Rucbase.Storage.SharedPool

/-!
# Creating files

`RmManager::create_file` and `IxManager::create_index`: what is left of a call that fails, and that
the tables of `DiskManager` stay inverse to each other.
-/

namespace Rucbase

open Lib BufferPoolManager

/-! ## The states a `DiskManager` can be in -/

namespace DiskManager

/-- As constructed: no file is open. -/
structure Unused (d : DiskManager) : Prop where
  openFds : d.openFds = fun _ => none
  path2fd : d.path2fd = fun _ => none
  fd2path : d.fd2path = fun _ => none

/-- A call on the files and pages of `DiskManager` that returns; those that raise change nothing. -/
inductive FileStep (d : DiskManager) : DiskManager → Prop where
  | createFile {d' : DiskManager} (path : String) (h : d.createFile path = .ok d') : FileStep d d'
  | destroyFile {d' : DiskManager} (path : String) (h : d.destroyFile path = .ok d') : FileStep d d'
  | openFile {d' : DiskManager} (path : String) (fd : Int) (hfree : d.openFds fd = none)
      (h : d.openFile path fd = .ok d') : FileStep d d'
  | closeFile {d' : DiskManager} (fd : Int) (h : d.closeFile fd = .ok d') : FileStep d d'
  | writePage {d' : DiskManager} (fd no : Int) (buf : Nat → UInt8) (n : Nat)
      (h : d.writePage fd no buf n = some d') : FileStep d d'
  | allocatePage (fd : Int) : FileStep d (d.allocatePage fd).2
  | setFd2pageno (fd : Int) (n : Nat) : FileStep d (d.setFd2pageno fd n)

/-- What can happen to a `DiskManager`. The directory calls leave it to a shell command what becomes
of the files, whether they are open or not, and so do other programs and a device that changes its
mind. -/
inductive Step (d : DiskManager) : DiskManager → Prop where
  | file {d' : DiskManager} (h : FileStep d d') : Step d d'
  | outside (files : String → Option OsFile) (writeFails readFails : Int → Int → Bool) :
      Step d { d with files := files, writeFails := writeFails, readFails := readFails }

/-- What calls make of a `DiskManager` in use. -/
def Reachable (d : DiskManager) : Prop := ∃ d₀, Unused d₀ ∧ Relation.ReflTransGen Step d₀ d

variable {d d' : DiskManager}

theorem Tables.path2fd_of_absent {path : String} (h : Tables d) (habsent : d.files path = none) :
    d.path2fd path = none := by
  cases hp : d.path2fd path with
  | none => rfl
  | some fd => exact absurd ⟨fd, (h.path2fd path fd).mp hp⟩ (h.not_open_of_absent habsent)

/-- With a new file at `path`. -/
def withNew (d : DiskManager) (path : String) : DiskManager :=
  { d with files := Function.update d.files path (some .empty) }

/-- The tables once `path` is no longer open under `fd`. -/
def closedAs (d : DiskManager) (path : String) (fd : Int) : DiskManager :=
  { d with
    openFds := Function.update d.openFds fd none
    path2fd := Function.update d.path2fd path none
    fd2path := Function.update d.fd2path fd none }

theorem createFile_eq {path : String} (habsent : d.files path = none) :
    d.createFile path = .ok (d.withNew path) := by
  unfold createFile isFile
  rw [habsent, if_neg (by simp)]
  rfl

theorem closeFile_eq {path : String} {fd : Int} (hpath : d.fd2path fd = some path)
    (hopen : d.openFds fd = some path) : d.closeFile fd = .ok (d.closedAs path fd) := by
  unfold closeFile
  rw [hpath]
  dsimp only
  rw [hopen, if_neg (by simp)]
  rfl

theorem openFile_eq {path : String} {fd : Int} (hfile : (d.files path).isSome)
    (hclosed : d.path2fd path = none) (hfd : fd ≠ -1) :
    d.openFile path fd = .ok (d.openedAs path fd) := by
  unfold openFile isFile
  rw [hfile, if_neg (by simp), hclosed, if_neg (by simp), if_neg hfd]
  rfl

theorem Unused.agree (h : Unused d) : Agree d where
  fd2path fd := by rw [h.fd2path, h.openFds]
  path2fd path fd := by
    rw [h.path2fd, h.openFds]
    simp

theorem Unused.tables (h : Unused d) : Tables d :=
  ⟨h.agree, fun fd path hfd => by
    rw [h.openFds] at hfd
    exact absurd hfd (by simp)⟩

theorem Tables.step (h : Tables d) (hs : FileStep d d') : Tables d' := by
  cases hs with
  | createFile path hc =>
      obtain ⟨_, rfl⟩ := createFile_ok hc
      refine h.files fun path' hopen => ?_
      obtain ⟨fd, hfd⟩ := hopen
      rw [Function.update_apply]
      split
      · rfl
      · exact h.present fd path' hfd
  | destroyFile path hc =>
      obtain ⟨hp, rfl⟩ := destroyFile_ok hc
      refine h.files fun path' hopen => ?_
      have hne : path' ≠ path := by
        rintro rfl
        exact h.not_open_of_path2fd hp hopen
      obtain ⟨fd, hfd⟩ := hopen
      rw [Function.update_of_ne hne]
      exact h.present fd path' hfd
  | openFile path fd hfree ho => exact h.openFile hfree ho
  | closeFile fd hc => exact h.closeFile hc
  | writePage fd no buf n hw => exact ((SameTables.refl d).writePage hw).tables h
  | allocatePage fd => exact ⟨⟨h.fd2path, h.path2fd⟩, h.present⟩
  | setFd2pageno fd n => exact h.setFd2pageno fd n

/-- A file may be gone although it is open; the tables still agree. -/
theorem Agree.step (h : Agree d) (hs : Step d d') : Agree d' := by
  cases hs with
  | file hs =>
      cases hs with
      | createFile path hc =>
          obtain ⟨_, rfl⟩ := createFile_ok hc
          exact ⟨h.fd2path, h.path2fd⟩
      | destroyFile path hc =>
          obtain ⟨_, rfl⟩ := destroyFile_ok hc
          exact ⟨h.fd2path, h.path2fd⟩
      | openFile path fd hfree ho => exact h.openFile hfree ho
      | closeFile fd hc => exact h.closeFile hc
      | writePage fd no buf n hw =>
          obtain ⟨ho, _, hp, hf⟩ := writePage_frame hw
          refine ⟨?_, ?_⟩
          · rw [hf, ho]
            exact h.fd2path
          · rw [hp, ho]
            exact h.path2fd
      | allocatePage fd => exact ⟨h.fd2path, h.path2fd⟩
      | setFd2pageno fd n => exact ⟨h.fd2path, h.path2fd⟩
  | outside files writeFails readFails => exact ⟨h.fd2path, h.path2fd⟩

theorem Reachable.step (h : Reachable d) (hs : Step d d') : Reachable d' := by
  obtain ⟨d₀, hnew, hsteps⟩ := h
  exact ⟨d₀, hnew, hsteps.tail hs⟩

theorem Reachable.agree (h : Reachable d) : Agree d := by
  obtain ⟨d₀, hnew, hsteps⟩ := h
  induction hsteps with
  | refl => exact hnew.agree
  | tail _ hs ih => exact ih.step hs

end DiskManager

/-! ## The part between `open_file` and `close_file` -/

variable {d d' : DiskManager} {path : String} {fd no : Int} {f g : OsFile} {s : BufferPoolManager}

/-- The file at `path` is new, holds `f`, and is open under `fd`. -/
structure Making (d : DiskManager) (path : String) (fd : Int) (f : OsFile) (d' : DiskManager) :
    Prop where
  files : d'.files = Function.update d.files path (some f)
  openFds : d'.openFds = Function.update d.openFds fd (some path)
  path2fd : d'.path2fd = Function.update d.path2fd path (some fd)
  fd2path : d'.fd2path = Function.update d.fd2path fd (some path)
  writeFails : d'.writeFails = d.writeFails

/-- The file at `path` is new and holds `f`, and was open under `fd` meanwhile. -/
structure Made (d : DiskManager) (path : String) (fd : Int) (f : OsFile) (d' : DiskManager) :
    Prop where
  files : d'.files = Function.update d.files path (some f)
  openFds : d'.openFds = Function.update d.openFds fd none
  path2fd : d'.path2fd = d.path2fd
  fd2path : d'.fd2path = Function.update d.fd2path fd none

/-- `x`, which has the pages `nos` to write, ends with the file made; or the device refuses one of
them, and the file is there all the same. -/
def Finishes (d : DiskManager) (path : String) (fd : Int) (f : OsFile) (nos : List Int)
    (x : PoolM Unit) (s : BufferPoolManager) : Prop :=
  (∃ s', x.run s = .ok ⟨⟩ s' ∧ Made d path fd f s'.diskManager
      ∧ ∀ no ∈ nos, d.writeFails fd no = false)
    ∨ ∃ s', x.run s = .error .unixError s' ∧ (s'.diskManager.files path).isSome
      ∧ ∃ no ∈ nos, d.writeFails fd no = true

variable {nos : List Int}

theorem Finishes.of_run_eq {x y : PoolM Unit} {s' : BufferPoolManager} (h : x.run s = y.run s')
    (hy : Finishes d path fd f nos y s') : Finishes d path fd f nos x s := by
  unfold Finishes
  rw [h]
  exact hy

theorem run_disk_bind {α : Type} (h : DiskManager → Except RedBaseError DiskManager)
    (k : Unit → PoolM α) : (disk h >>= k).run s
      = match h s.diskManager with
        | .error e => .error e s
        | .ok d => (k ⟨⟩).run { s with diskManager := d } := by
  unfold disk
  rw [bind_assoc, run_get_bind]
  cases h s.diskManager with
  | error e => simp
  | ok d => simp

theorem run_writeDisk_bind {α : Type} {buf : Nat → UInt8} {n : Nat} (k : Unit → PoolM α) :
    (writeDisk fd no buf n >>= k).run s
      = match s.diskManager.writePage fd no buf n with
        | none => .error .unixError s
        | some d => (k ⟨⟩).run { s with diskManager := d } := by
  unfold writeDisk
  rw [bind_assoc, run_get_bind]
  cases s.diskManager.writePage fd no buf n with
  | none => simp
  | some d => simp

/-- A path that names no file, and is not open, is created and opened. -/
theorem Making.start (habsent : s.diskManager.files path = none)
    (hclosed : s.diskManager.path2fd path = none) (hfd : fd ≠ -1) :
    ∃ s', Making s.diskManager path fd .empty s'.diskManager
      ∧ ∀ k : PoolM Unit, (do disk (·.createFile path); disk (·.openFile path fd); k).run s = k.run s' := by
  have hopen : (s.diskManager.withNew path).openFile path fd
      = .ok ((s.diskManager.withNew path).openedAs path fd) := by
    refine DiskManager.openFile_eq ?_ hclosed hfd
    show (Function.update s.diskManager.files path (some .empty) path).isSome = true
    rw [Function.update_self]
    rfl
  refine ⟨{ s with diskManager := (s.diskManager.withNew path).openedAs path fd },
    ⟨rfl, rfl, rfl, rfl, rfl⟩, fun k => ?_⟩
  rw [run_disk_bind, DiskManager.createFile_eq habsent]
  dsimp only
  rw [run_disk_bind]
  dsimp only
  rw [hopen]

/-- A page of it is written, if the device takes it. -/
theorem Making.write {buf : Nat → UInt8} {n : Nat} {k : Unit → PoolM Unit}
    (h : Making d path fd f s.diskManager) (hno : 0 ≤ no)
    (hk : ∀ s', Making d path fd (f.write (no.toNat * pageSize) buf n) s'.diskManager →
      Finishes d path fd g nos (k ⟨⟩) s') :
    Finishes d path fd g (no :: nos) (writeDisk fd no buf n >>= k) s := by
  unfold Finishes
  rw [run_writeDisk_bind]
  have hopen : s.diskManager.openFds fd = some path := by rw [h.openFds, Function.update_self]
  have hfile : s.diskManager.files path = some f := by rw [h.files, Function.update_self]
  have hof : s.diskManager.fileOf fd = some f := by
    rw [DiskManager.fileOf, hopen, Option.bind_some, hfile]
  cases hfails : s.diskManager.writeFails fd no with
  | true =>
      have hnone : s.diskManager.writePage fd no buf n = none := by
        unfold DiskManager.writePage
        rw [hof]
        dsimp only
        rw [if_neg (by omega), if_pos hfails]
      rw [hnone]
      refine .inr ⟨s, rfl, by rw [hfile]; rfl, no, List.mem_cons_self, ?_⟩
      rw [← h.writeFails, hfails]
  | false =>
      have hreturns : ∃ d', s.diskManager.writePage fd no buf n = some d' :=
        DiskManager.writePage_returns (by rw [hof]; rfl) hno hfails
      obtain ⟨d₁, hw⟩ := hreturns
      have hwritten : Making d path fd (f.write (no.toNat * pageSize) buf n) d₁ := by
        obtain ⟨path', f', hp, hf, _, rfl⟩ := DiskManager.writePage_some hw
        obtain rfl := Option.some.inj (hp.symm.trans hopen)
        obtain rfl := Option.some.inj (hf.symm.trans hfile)
        refine ⟨?_, h.openFds, h.path2fd, h.fd2path, h.writeFails⟩
        show Function.update s.diskManager.files path' _ = _
        rw [h.files, Function.update_idem]
      rw [hw]
      refine (hk { s with diskManager := d₁ } hwritten).imp ?_ ?_
      · rintro ⟨s', hrun, hmade, hnos⟩
        exact ⟨s', hrun, hmade, List.forall_mem_cons.mpr ⟨by rw [← h.writeFails, hfails], hnos⟩⟩
      · rintro ⟨s', hrun, hthere, no', hmem, hno'⟩
        exact ⟨s', hrun, hthere, no', List.mem_cons_of_mem _ hmem, hno'⟩

/-- It is closed, and `path` is open no longer. -/
theorem Making.close (hclosed : d.path2fd path = none) (h : Making d path fd f s.diskManager) :
    Finishes d path fd f [] (disk (·.closeFile fd)) s := by
  have hpath : s.diskManager.fd2path fd = some path := by rw [h.fd2path, Function.update_self]
  have hopen : s.diskManager.openFds fd = some path := by rw [h.openFds, Function.update_self]
  refine .inl ⟨{ s with diskManager := s.diskManager.closedAs path fd }, ?_,
    ⟨h.files, ?_, ?_, ?_⟩, by simp⟩
  · unfold disk
    rw [run_get_bind]
    dsimp only
    rw [DiskManager.closeFile_eq hpath hopen]
    rfl
  · show Function.update s.diskManager.openFds fd none = _
    rw [h.openFds, Function.update_idem]
  · show Function.update s.diskManager.path2fd path none = d.path2fd
    rw [h.path2fd, Function.update_idem, ← hclosed, Function.update_eq_self]
  · show Function.update s.diskManager.fd2path fd none = _
    rw [h.fd2path, Function.update_idem]

/-! ## The calls -/

/-- A call that creates a file. Sizes and lengths are `int`s. -/
inductive Creation where
  | createFile (filename : String) (recordSize : Int)
  | createIndex (filename : String) (indexNo : Nat) (colType : ColType) (colLen : Int)
      (hint : IsInt32 colLen) (pageBuf : Nat → UInt8)

namespace Creation

/-- `fd` is what `open` returns. -/
def run (fd : Int) : Creation → PoolM Unit
  | .createFile filename recordSize => RmManager.createFile filename recordSize fd
  | .createIndex filename indexNo colType colLen _ pageBuf =>
      IxManager.createIndex filename indexNo colType colLen pageBuf fd

/-- The file it is to create. -/
def filePath : Creation → String
  | .createFile filename _ => filename
  | .createIndex filename indexNo _ _ _ _ => IxManager.getIndexName filename indexNo

/-- The header of that file, and its size. -/
def header : Creation → (Nat → UInt8) × Nat
  | .createFile _ recordSize => ((RmFileHdr.initial recordSize).toBuf, RmFileHdr.size)
  | .createIndex _ _ colType colLen _ _ => ((IxFileHdr.initial colType colLen).toBuf, IxFileHdr.size)

/-- The pages that are written to it. -/
def pages : Creation → List Int
  | .createFile _ _ => [fileHdrPage]
  | .createIndex .. => [fileHdrPage, ixLeafHeaderPage, ixInitRootPage]

/-- `create_file` looks at its arguments before it does anything, and `create_index` after it has
opened the file. -/
def checksFirst : Creation → Bool
  | .createFile _ _ => true
  | .createIndex .. => false

/-- The arguments are the ones that a file can be made for. -/
def Valid : Creation → Prop
  | .createFile _ recordSize => 1 ≤ recordSize ∧ recordSize ≤ rmMaxRecordSize
  | .createIndex _ _ _ colLen _ _ => -8 < colLen ∧ colLen ≤ ixMaxColLen

/-- The ways to turn a call down. -/
def Refuses (c : Creation) (e : RedBaseError) : Prop :=
  e = .fileExistsError c.filePath ∨ (∃ n, e = .invalidRecordSizeError n)
    ∨ ∃ n, e = .invalidColLengthError n

/-- `f` begins with the whole header. -/
def HeaderIn (c : Creation) (f : OsFile) : Prop :=
  c.header.2 ≤ f.size ∧ ∀ i, i < c.header.2 → f.bytes i = c.header.1 i

variable {c : Creation}

theorem HeaderIn.write {buf : Nat → UInt8} {n pos : Nat} (h : c.HeaderIn f) (hpos : c.header.2 ≤ pos) :
    c.HeaderIn (f.write pos buf n) := by
  refine ⟨Nat.le_trans h.1 (Nat.le_max_left _ _), fun i hi => ?_⟩
  show (if pos ≤ i ∧ i < pos + n then buf (i - pos) else f.bytes i) = _
  rw [if_neg (by omega)]
  exact h.2 i hi

theorem headerIn_first : c.HeaderIn (OsFile.empty.write 0 c.header.1 c.header.2) := by
  refine ⟨?_, fun i hi => ?_⟩
  · show c.header.2 ≤ max 0 (0 + c.header.2)
    omega
  · show (if 0 ≤ i ∧ i < 0 + c.header.2 then c.header.1 (i - 0) else 0) = _
    rw [if_pos (by omega), Nat.sub_zero]

/-- The order of a node is as the assertion has it, for the lengths from -7 to 512. -/
theorem orderOf_gt {colLen : Int} (hlo : -8 < colLen) (hhi : colLen ≤ ixMaxColLen) :
    IxFileHdr.entrySize colLen ≠ 0 ∧ 2 < IxFileHdr.orderOf colLen := by
  have hmax : colLen ≤ 512 := hhi
  have hentry : IxFileHdr.entrySize colLen = colLen + 8 :=
    Int.emod_eq_of_lt (by omega) (by omega)
  have hdiv : 7 ≤ (4072 : Int) / (colLen + 8) := by
    rw [Int.le_ediv_iff_mul_le (by omega)]
    omega
  unfold IxFileHdr.orderOf
  rw [hentry]
  refine ⟨by omega, ?_⟩
  show 2 < (4072 : Int) / (colLen + 8) - 1
  omega

/-- **With arguments that are valid**, the file is made, or the device has refused a write. -/
theorem run_valid (habsent : s.diskManager.files c.filePath = none)
    (hclosed : s.diskManager.path2fd c.filePath = none) (hfd : fd ≠ -1) (hvalid : c.Valid) :
    ∃ f, c.HeaderIn f ∧ Finishes s.diskManager c.filePath fd f c.pages (c.run fd) s := by
  cases c with
  | createFile filename recordSize =>
      obtain ⟨hlo, hhi⟩ := hvalid
      refine ⟨_, headerIn_first, ?_⟩
      show Finishes s.diskManager filename fd _ [fileHdrPage]
        (RmManager.createFile filename recordSize fd) s
      unfold RmManager.createFile
      rw [if_neg (by omega)]
      obtain ⟨s₁, hmaking, hrun⟩ := Making.start habsent hclosed hfd
      exact .of_run_eq (hrun _) (hmaking.write le_rfl fun s₂ h₂ => h₂.close hclosed)
  | createIndex filename indexNo colType colLen hint pageBuf =>
      obtain ⟨hlo, hhi⟩ := hvalid
      obtain ⟨hentry, horder⟩ := orderOf_gt hlo hhi
      let buf₁ := (IxManager.emptyLeafHdr ixInitRootPage).put pageBuf
      let buf₂ := (IxManager.emptyLeafHdr ixLeafHeaderPage).put buf₁
      have hbehind : ∀ no, 1 ≤ no → IxFileHdr.size ≤ no * pageSize := fun no hno =>
        Nat.le_trans (by decide) (Nat.mul_le_mul_right pageSize hno)
      -- the header page is the first of three, and the other two do not reach into it
      let f₁ := OsFile.empty.write 0 (IxFileHdr.initial colType colLen).toBuf IxFileHdr.size
      let f₂ := f₁.write (ixLeafHeaderPage.toNat * pageSize) buf₁ pageSize
      let f₃ := f₂.write (ixInitRootPage.toNat * pageSize) buf₂ pageSize
      refine ⟨f₃, (headerIn_first.write (hbehind _ (by decide))).write (hbehind _ (by decide)), ?_⟩
      show Finishes s.diskManager _ fd _ [fileHdrPage, ixLeafHeaderPage, ixInitRootPage]
        (IxManager.createIndex filename indexNo colType colLen pageBuf fd) s
      unfold IxManager.createIndex
      obtain ⟨s₁, hmaking, hrun⟩ := Making.start habsent hclosed hfd
      refine .of_run_eq (hrun _) ?_
      rw [if_neg (by omega), if_neg hentry, if_neg (by omega)]
      refine hmaking.write le_rfl fun s₂ h₂ => h₂.write (by decide) fun s₃ h₃ =>
        h₃.write (by decide) fun s₄ h₄ => .of_run_eq (run_modify_bind _ _ _) ?_
      exact Making.close hclosed ⟨h₄.files, h₄.openFds, h₄.path2fd, h₄.fd2path, h₄.writeFails⟩

/-- What `create_index` complains of when no index can have columns of `colLen` bytes. It divides by
the size of an entry, and an assertion is on the order of the tree. -/
def LengthError (colLen : Int) (e : RedBaseError) : Prop :=
  ixMaxColLen < colLen ∧ e = .invalidColLengthError colLen
    ∨ colLen = -8 ∧ e = .undefinedBehaviour ∨ colLen < -8 ∧ e = .assertionFailure

/-- **With a length that no index can have**, the file is there and open when the call raises. -/
theorem run_createIndex_invalid {filename : String} {indexNo : Nat} {colLen : Int}
    (colType : ColType) (pageBuf : Nat → UInt8) (hint : IsInt32 colLen)
    (habsent : s.diskManager.files (IxManager.getIndexName filename indexNo) = none)
    (hclosed : s.diskManager.path2fd (IxManager.getIndexName filename indexNo) = none)
    (hfd : fd ≠ -1) (hvalid : ¬ (-8 < colLen ∧ colLen ≤ ixMaxColLen)) :
    ∃ e s', (IxManager.createIndex filename indexNo colType colLen pageBuf fd).run s = .error e s'
      ∧ LengthError colLen e
      ∧ Making s.diskManager (IxManager.getIndexName filename indexNo) fd .empty s'.diskManager := by
  obtain ⟨hmin, hmax⟩ := hint
  unfold IxManager.createIndex
  dsimp only
  obtain ⟨s₁, hmaking, hrun⟩ := Making.start habsent hclosed hfd
  change ∀ k : PoolM Unit, (do
    disk (·.createFile (IxManager.getIndexName filename indexNo))
    disk (·.openFile (IxManager.getIndexName filename indexNo) fd)
    k).run s = k.run s₁ at hrun
  rw [hrun]
  by_cases hlong : colLen > ixMaxColLen
  · rw [if_pos hlong]
    exact ⟨_, s₁, rfl, .inl ⟨hlong, rfl⟩, hmaking⟩
  · rw [if_neg hlong]
    have hshort : colLen ≤ -8 := by omega
    by_cases hzero : IxFileHdr.entrySize colLen = 0
    · have hlen : colLen = -8 := by
        unfold IxFileHdr.entrySize at hzero
        omega
      rw [if_pos hzero]
      exact ⟨_, s₁, rfl, .inr (.inl ⟨hlen, rfl⟩), hmaking⟩
    · have hentry : IxFileHdr.entrySize colLen = colLen + 8 + 18446744073709551616 := by
        unfold IxFileHdr.entrySize at hzero ⊢
        omega
      have hlen : colLen < -8 := by
        unfold IxFileHdr.entrySize at hzero
        omega
      have horder : IxFileHdr.orderOf colLen ≤ 2 := by
        have hdiv : (4072 : Int) / (colLen + 8 + 18446744073709551616) = 0 :=
          Int.ediv_eq_zero_of_lt (by omega) (by omega)
        unfold IxFileHdr.orderOf
        rw [hentry]
        show (4072 : Int) / (colLen + 8 + 18446744073709551616) - 1 ≤ 2
        omega
      rw [if_neg hzero, if_pos horder]
      exact ⟨_, s₁, rfl, .inr (.inr ⟨hlen, rfl⟩), hmaking⟩

theorem run_createFile_exists {k : PoolM Unit} (hfile : (s.diskManager.files path).isSome) :
    (do disk (·.createFile path); k).run s = .error (.fileExistsError path) s := by
  rw [run_disk_bind]
  unfold DiskManager.createFile DiskManager.isFile
  rw [if_pos hfile]

/-- The system does its part: it opens the file, and takes the pages that are written. And no
descriptor is listed for the file already. -/
structure Obliged (c : Creation) (fd : Int) (d : DiskManager) : Prop where
  opens : fd ≠ -1
  writes : ∀ no ∈ c.pages, d.writeFails fd no = false
  unlisted : ∀ fd', fd' ≠ fd → d.fd2path fd' ≠ some c.filePath

/-- The calls that do as they should. The file exists already; or it is not listed as open, and the
call has valid arguments and the system does its part, or it has not and looks at them first. -/
def Sound (c : Creation) (fd : Int) (d : DiskManager) : Prop :=
  (d.files c.filePath).isSome ∨ d.path2fd c.filePath = none
    ∧ (c.Valid → c.Obliged fd d) ∧ (¬ c.Valid → c.checksFirst = true)

/-- However `x` ends, the disk is then as `I` says. -/
def Stays (I : DiskManager → Prop) (x : PoolM Unit) (s : BufferPoolManager) : Prop :=
  match x.run s with
  | .ok _ s' => I s'.diskManager
  | .error _ s' => I s'.diskManager

section

variable {I : DiskManager → Prop} (hI : ∀ {d d' : DiskManager}, I d → d.FileStep d' → I d')

theorem stays_disk {h : DiskManager → Except RedBaseError DiskManager} {k : Unit → PoolM Unit}
    (hs : I s.diskManager)
    (hk : ∀ d, h s.diskManager = .ok d → Stays I (k ⟨⟩) { s with diskManager := d }) :
    Stays I (disk h >>= k) s := by
  unfold Stays
  rw [run_disk_bind]
  cases hd : h s.diskManager with
  | error e => exact hs
  | ok d => exact hk d hd

include hI

theorem stays_writeDisk {buf : Nat → UInt8} {n : Nat} {k : Unit → PoolM Unit}
    (hs : I s.diskManager)
    (hk : ∀ d, s.diskManager.writePage fd no buf n = some d → I d →
      Stays I (k ⟨⟩) { s with diskManager := d }) :
    Stays I (writeDisk fd no buf n >>= k) s := by
  unfold Stays
  rw [run_writeDisk_bind]
  cases hd : s.diskManager.writePage fd no buf n with
  | none => exact hs
  | some d => exact hk d hd (hI hs (.writePage fd no buf n hd))

theorem stays_close (hs : I s.diskManager) : Stays I (disk (·.closeFile fd)) s := by
  rw [← bind_pure (disk (·.closeFile fd))]
  exact stays_disk hs fun d hd => hI hs (.closeFile fd hd)

/-- The file is created and opened; what follows starts from there. -/
theorem stays_start {k : PoolM Unit} (hs : I s.diskManager)
    (hfree : s.diskManager.openFds fd = none)
    (hk : ∀ s', I s'.diskManager → Stays I k s') :
    Stays I (do disk (·.createFile path); disk (·.openFile path fd); k) s := by
  refine stays_disk hs fun d₁ h₁ => ?_
  have hs₁ := hI hs (.createFile path h₁)
  obtain ⟨_, rfl⟩ := DiskManager.createFile_ok h₁
  exact stays_disk hs₁ fun d₂ h₂ => hk _ (hI hs₁ (.openFile path fd hfree h₂))

/-- Both calls are made of calls on `DiskManager`, also where they raise. -/
theorem run_stays (hs : I s.diskManager) (hfree : s.diskManager.openFds fd = none) :
    Stays I (c.run fd) s := by
  cases c with
  | createFile filename recordSize =>
      show Stays I (RmManager.createFile filename recordSize fd) s
      unfold RmManager.createFile
      split
      · exact hs
      · exact stays_start hI hs hfree fun s₁ h₁ =>
          stays_writeDisk hI h₁ fun d _ hd => stays_close hI hd
  | createIndex filename indexNo colType colLen hint pageBuf =>
      refine stays_start hI hs hfree fun s₁ h₁ => ?_
      split_ifs
      · exact h₁
      · exact h₁
      · exact h₁
      · refine stays_writeDisk hI h₁ fun d₂ _ h₂ => stays_writeDisk hI h₂ fun d₃ _ h₃ =>
          stays_writeDisk hI h₃ fun d₄ _ h₄ => ?_
        unfold Stays
        rw [run_modify_bind]
        exact stays_close hI (hI h₄ (.setFd2pageno fd (ixInitNumPages - 1)))

end

end Creation

end Rucbase
