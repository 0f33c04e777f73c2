import Rucbase.Storage.Page

/-!
# `DiskManager`

`storage/disk_manager.cpp` over a small model of the operating system: a file is a
size and its bytes, a path names at most one file, and the kernel's descriptor table
sends an open descriptor to the path it was opened on. Writing past the end of a file
extends it and the gap reads as zeros, as on every POSIX system.

`write_page` and `read_page` raise `UnixError` when `lseek` fails (closed descriptor,
negative page number), when the transfer is refused by the device (`writeFails` and
`readFails`, chosen by the environment), and, for a read, when the file ends before
the requested range does. A short read has already filled the front of the buffer
when the exception is thrown.
-/

namespace Rucbase

/-- A regular file. Bytes past the end read as zero once the file grows over them. -/
structure OsFile where
  size : Nat
  bytes : Nat → UInt8
  /-- Nothing is stored past the end. -/
  hole : ∀ i, size ≤ i → bytes i = 0

namespace OsFile

/-- What `open(O_CREAT)` creates. -/
def empty : OsFile := ⟨0, fun _ => 0, fun _ _ => rfl⟩

/-- `write` of `n` bytes of `buf` at `pos`. -/
def write (f : OsFile) (pos : Nat) (buf : Nat → UInt8) (n : Nat) : OsFile where
  size := max f.size (pos + n)
  bytes := fun i => if pos ≤ i ∧ i < pos + n then buf (i - pos) else f.bytes i
  hole := by
    intro i hi
    have h1 : ¬ (pos ≤ i ∧ i < pos + n) := by omega
    rw [if_neg h1]
    exact f.hole i (by omega)

/-- `read` of `n` bytes at `pos` into `buf`: the buffer afterwards and the count. -/
def read (f : OsFile) (pos n : Nat) (buf : Nat → UInt8) : (Nat → UInt8) × Nat :=
  let got := min n (f.size - pos)
  (fun i => if i < got then f.bytes (pos + i) else buf i, got)

/-- The bytes of page `n`, zeros where the file does not reach. -/
def page (f : OsFile) (n : Nat) : PageData := fun i => f.bytes (n * pageSize + i.val)

end OsFile

/-- A page as a byte buffer. -/
def PageData.toBuf (d : PageData) : Nat → UInt8 :=
  fun i => if h : i < pageSize then d ⟨i, h⟩ else 0

/-- The first `pageSize` bytes of a buffer. -/
def PageData.ofBuf (buf : Nat → UInt8) : PageData := fun i => buf i.val

@[simp] theorem PageData.toBuf_val (d : PageData) (i : Fin pageSize) : d.toBuf i.val = d i := by
  simp [PageData.toBuf, i.isLt]

@[simp] theorem PageData.ofBuf_toBuf (d : PageData) : PageData.ofBuf d.toBuf = d := by
  funext i
  exact PageData.toBuf_val d i

/-- `DiskManager`, with the operating system's tables it works on. -/
structure DiskManager where
  /-- The file system: the regular file a path names. -/
  files : String → Option OsFile
  /-- The kernel's descriptor table. -/
  openFds : Int → Option String
  /-- Transfers the device refuses. -/
  writeFails : Int → Int → Bool
  readFails : Int → Int → Bool
  path2fd : String → Option Int
  fd2path : Int → Option String
  /-- `fd2pageno_`: how many page numbers were handed out under each descriptor. -/
  fd2pageno : Int → Nat

namespace DiskManager

/-- A newly constructed `DiskManager` over a given file system. -/
def new (files : String → Option OsFile) : DiskManager where
  files := files
  openFds := fun _ => none
  writeFails := fun _ _ => false
  readFails := fun _ _ => false
  path2fd := fun _ => none
  fd2path := fun _ => none
  fd2pageno := fun _ => 0

/-- The file a descriptor is open on. -/
def fileOf (d : DiskManager) (fd : Int) : Option OsFile := (d.openFds fd).bind d.files

/-- Replace the contents of the file behind a descriptor. -/
def setFile (d : DiskManager) (fd : Int) (f : OsFile) : DiskManager :=
  match d.openFds fd with
  | none => d
  | some path => { d with files := Function.update d.files path (some f) }

/-- `write_page`: `none` when it raises `UnixError`. -/
def writePage (d : DiskManager) (fd pageNo : Int) (buf : Nat → UInt8) (numBytes : Nat) :
    Option DiskManager :=
  match d.fileOf fd with
  | none => none
  | some f =>
      if pageNo < 0 then none
      else if d.writeFails fd pageNo then none
      else some (d.setFile fd (f.write (pageNo.toNat * pageSize) buf numBytes))

/-- `read_page`: the buffer afterwards, and whether the call returned normally. -/
def readPage (d : DiskManager) (fd pageNo : Int) (buf : Nat → UInt8) (numBytes : Nat) :
    (Nat → UInt8) × Bool :=
  match d.fileOf fd with
  | none => (buf, false)
  | some f =>
      if pageNo < 0 then (buf, false)
      else if d.readFails fd pageNo then (buf, false)
      else
        let r := f.read (pageNo.toNat * pageSize) numBytes buf
        (r.1, r.2 == numBytes)

/-- `AllocatePage`: `fd2pageno_[fd].fetch_add(1)`. -/
def allocatePage (d : DiskManager) (fd : Int) : Int × DiskManager :=
  (d.fd2pageno fd, { d with fd2pageno := Function.update d.fd2pageno fd (d.fd2pageno fd + 1) })

/-- `DeallocatePage` does nothing. -/
def deallocatePage (d : DiskManager) (_pageId : Int) : DiskManager := d

/-- `set_fd2pageno`. -/
def setFd2pageno (d : DiskManager) (fd : Int) (startPageNo : Nat) : DiskManager :=
  { d with fd2pageno := Function.update d.fd2pageno fd startPageNo }

/-- `is_file`. -/
def isFile (d : DiskManager) (path : String) : Bool := (d.files path).isSome

/-- `create_file`. The descriptor it opens is closed again before it returns. -/
def createFile (d : DiskManager) (path : String) : Except RedBaseError DiskManager :=
  if d.isFile path then .error (.fileExistsError path)
  else .ok { d with files := Function.update d.files path (some .empty) }

/-- `destroy_file`. -/
def destroyFile (d : DiskManager) (path : String) : Except RedBaseError DiskManager :=
  if !d.isFile path then .error (.fileNotFoundError path)
  else if (d.path2fd path).isSome then .error (.fileNotClosedError path)
  else .ok { d with files := Function.update d.files path none }

/-- `open_file`; `fd` is the number the operating system returns from `open`. -/
def openFile (d : DiskManager) (path : String) (fd : Int) : Except RedBaseError DiskManager :=
  if !d.isFile path then .error (.fileNotFoundError path)
  else if (d.path2fd path).isSome then .error (.fileExistsError path)
  else if fd = -1 then .error .unixError
  else .ok { d with
    openFds := Function.update d.openFds fd (some path)
    path2fd := Function.update d.path2fd path (some fd)
    fd2path := Function.update d.fd2path fd (some path) }

/-- `close_file`. -/
def closeFile (d : DiskManager) (fd : Int) : Except RedBaseError DiskManager :=
  match d.fd2path fd with
  | none => .error (.fileNotOpenError fd)
  | some path =>
      if (d.openFds fd).isNone then .error .unixError
      else .ok { d with
        openFds := Function.update d.openFds fd none
        path2fd := Function.update d.path2fd path none
        fd2path := Function.update d.fd2path fd none }

/-! ## Reading back what was written -/

/-- The bytes page `p` has on disk, zeros where there are none. -/
def pageBytes (d : DiskManager) (p : PageId) : PageData :=
  match d.fileOf p.fd with
  | none => zeroPage
  | some f => if p.pageNo < 0 then zeroPage else f.page p.pageNo.toNat

/-- No file is open under two descriptors; `open_file` refuses to do that. -/
def FdsInjective (d : DiskManager) : Prop :=
  ∀ fd fd' path, d.openFds fd = some path → d.openFds fd' = some path → fd = fd'

theorem write_page_self {f : OsFile} {n : Nat} {d : PageData} :
    (f.write (n * pageSize) d.toBuf pageSize).page n = d := by
  funext i
  have hi := i.isLt
  simp only [OsFile.page, OsFile.write]
  rw [if_pos (by omega), Nat.add_sub_cancel_left, PageData.toBuf_val]

theorem write_page_other {f : OsFile} {n m : Nat} {d : PageData} (h : m ≠ n) :
    (f.write (n * pageSize) d.toBuf pageSize).page m = f.page m := by
  funext i
  have hi := i.isLt
  simp only [OsFile.page, OsFile.write]
  refine if_neg ?_
  rintro ⟨h1, h2⟩
  rcases Nat.lt_or_gt_of_ne h with hlt | hgt
  · have := Nat.mul_le_mul_right pageSize (Nat.succ_le_of_lt hlt)
    rw [Nat.succ_mul] at this
    omega
  · have := Nat.mul_le_mul_right pageSize (Nat.succ_le_of_lt hgt)
    rw [Nat.succ_mul] at this
    omega

/-- A write that returns wrote into the one file open under its descriptor. -/
theorem writePage_some {d d' : DiskManager} {fd no : Int} {buf : Nat → UInt8} {n : Nat}
    (h : d.writePage fd no buf n = some d') :
    ∃ path f, d.openFds fd = some path ∧ d.files path = some f ∧ 0 ≤ no
      ∧ d' = { d with files :=
          Function.update d.files path (some (f.write (no.toNat * pageSize) buf n)) } := by
  unfold writePage at h
  split at h
  · exact absurd h (by simp)
  · rename_i f hf
    obtain ⟨path, hp, hfile⟩ := Option.bind_eq_some_iff.mp hf
    split at h
    · exact absurd h (by simp)
    · rename_i hneg
      split at h
      · exact absurd h (by simp)
      · rw [Option.some.injEq, setFile, hp] at h
        exact ⟨path, f, hp, hfile, by omega, h.symm⟩

/-- Writing changes file contents only: descriptors, faults and counters stay. -/
theorem writePage_frame {d d' : DiskManager} {fd no : Int} {buf : Nat → UInt8} {n : Nat}
    (h : d.writePage fd no buf n = some d') :
    d'.openFds = d.openFds ∧ d'.fd2pageno = d.fd2pageno ∧ d'.path2fd = d.path2fd
      ∧ d'.fd2path = d.fd2path := by
  obtain ⟨path, f, _, _, _, rfl⟩ := writePage_some h
  exact ⟨rfl, rfl, rfl, rfl⟩

/-- The files open under the other descriptors are untouched. -/
theorem writePage_fileOf {d d' : DiskManager} {fd no : Int} {buf : Nat → UInt8} {n : Nat}
    (hinj : d.FdsInjective) (h : d.writePage fd no buf n = some d') :
    (∃ f, d.fileOf fd = some f ∧ d'.fileOf fd = some (f.write (no.toNat * pageSize) buf n))
      ∧ 0 ≤ no ∧ ∀ fd', fd' ≠ fd → d'.fileOf fd' = d.fileOf fd' := by
  obtain ⟨path, f, hp, hfile, hno, rfl⟩ := writePage_some h
  refine ⟨⟨f, ?_, ?_⟩, hno, ?_⟩
  · rw [fileOf, hp, Option.bind_some, hfile]
  · simp only [fileOf, hp, Option.bind_some, Function.update_self]
  · intro fd' hne
    unfold fileOf
    cases hq : d.openFds fd' with
    | none => rfl
    | some path' =>
        have hpath : path' ≠ path := fun he => hne (hinj _ _ path (he ▸ hq) hp)
        simp only [Option.bind_some, Function.update_of_ne hpath]

/-- A write that returns wrote the page it was asked to. -/
theorem writePage_self {d d' : DiskManager} {p : PageId} {x : PageData}
    (h : d.writePage p.fd p.pageNo x.toBuf pageSize = some d') : d'.pageBytes p = x := by
  obtain ⟨path, f, hp, _, hno, rfl⟩ := writePage_some h
  simp only [pageBytes, fileOf, hp, Option.bind_some, Function.update_self,
    if_neg (Int.not_lt.mpr hno)]
  exact write_page_self

/-- A write touches no other page, of its own file or of any other open file. -/
theorem writePage_other {d d' : DiskManager} {p q : PageId} {x : PageData}
    (hinj : d.FdsInjective) (hpq : q ≠ p)
    (h : d.writePage p.fd p.pageNo x.toBuf pageSize = some d') : d'.pageBytes q = d.pageBytes q := by
  obtain ⟨⟨f, hf, hf'⟩, hno, hother⟩ := writePage_fileOf hinj h
  unfold pageBytes
  by_cases hfd : q.fd = p.fd
  · -- same file, another page of it
    have hne : q.pageNo ≠ p.pageNo := by
      intro he
      exact hpq (by cases p; cases q; simp_all)
    rw [hfd, hf, hf']
    dsimp only
    split
    · rfl
    · exact write_page_other (by omega)
  · rw [hother q.fd hfd]

/-- Page `p` lies within its file. -/
def HasPage (d : DiskManager) (p : PageId) : Prop :=
  0 ≤ p.pageNo ∧ ∃ f, d.fileOf p.fd = some f ∧ (p.pageNo.toNat + 1) * pageSize ≤ f.size

/-- A page read that returns normally delivers the bytes on disk. -/
theorem readPage_ok {d : DiskManager} {p : PageId} {buf : Nat → UInt8}
    (h : (d.readPage p.fd p.pageNo buf pageSize).2 = true) :
    PageData.ofBuf (d.readPage p.fd p.pageNo buf pageSize).1 = d.pageBytes p ∧ d.HasPage p := by
  unfold readPage pageBytes HasPage at *
  split at h
  · exact absurd h (by simp)
  · rename_i f hf
    split at h
    · exact absurd h (by simp)
    · rename_i hneg
      split at h
      · exact absurd h (by simp)
      · rename_i hfail
        simp only [OsFile.read, beq_iff_eq] at h
        refine ⟨?_, by omega, f, hf, ?_⟩
        · rw [if_neg hneg, if_neg hfail, if_neg hneg]
          funext i
          have hi := i.isLt
          simp only [PageData.ofBuf, OsFile.read, OsFile.page]
          rw [if_pos (by omega)]
        · have hpos := pageSize_pos
          rw [Nat.succ_mul]
          omega

/-- Counters only go up. -/
theorem le_allocatePage (d : DiskManager) (fd fd' : Int) :
    d.fd2pageno fd' ≤ (d.allocatePage fd).2.fd2pageno fd' := by
  show _ ≤ Function.update d.fd2pageno fd _ fd'
  by_cases hfd : fd' = fd
  · rw [hfd, Function.update_self]
    omega
  · exact Nat.le_of_eq (Function.update_of_ne hfd ..).symm

/-! ## Transfers that succeed -/

theorem HasPage.page_of_write {d d' : DiskManager} {p : PageId} {x : PageData}
    (h : d.writePage p.fd p.pageNo x.toBuf pageSize = some d') : d'.HasPage p := by
  obtain ⟨path, f, hp, _, hno, rfl⟩ := writePage_some h
  refine ⟨hno, f.write (p.pageNo.toNat * pageSize) x.toBuf pageSize, ?_, ?_⟩
  · simp only [fileOf, hp, Option.bind_some, Function.update_self]
  · show _ ≤ max f.size (p.pageNo.toNat * pageSize + pageSize)
    rw [Nat.succ_mul]
    exact Nat.le_max_right ..

/-- Writing never makes a file shorter. -/
theorem HasPage.write {d d' : DiskManager} {p : PageId} {fd no : Int} {buf : Nat → UInt8} {n : Nat}
    (hp : d.HasPage p) (h : d.writePage fd no buf n = some d') : d'.HasPage p := by
  obtain ⟨path, f, _, hfile, _, rfl⟩ := writePage_some h
  obtain ⟨hno, g, hg, hsize⟩ := hp
  obtain ⟨path', hopen, hg'⟩ := Option.bind_eq_some_iff.mp hg
  by_cases hpath : path' = path
  · subst hpath
    obtain rfl : f = g := Option.some.inj (hfile.symm.trans hg')
    refine ⟨hno, f.write (no.toNat * pageSize) buf n, ?_, Nat.le_trans hsize (Nat.le_max_left ..)⟩
    simp only [fileOf, hopen, Option.bind_some, Function.update_self]
  · refine ⟨hno, g, ?_, hsize⟩
    simp only [fileOf, hopen, Option.bind_some, Function.update_of_ne hpath, hg']

/-- A page that is in the file after a write was there before, or is no later than the one
written. -/
theorem HasPage.of_write {d d' : DiskManager} {p q : PageId} {x : PageData} (hinj : d.FdsInjective)
    (h : d.writePage q.fd q.pageNo x.toBuf pageSize = some d') (hp : d'.HasPage p) :
    d.HasPage p ∨ (p.fd = q.fd ∧ p.pageNo ≤ q.pageNo) := by
  obtain ⟨⟨f, hf, hf'⟩, hno, hother⟩ := writePage_fileOf hinj h
  obtain ⟨hpno, g, hg, hsize⟩ := hp
  by_cases hfd : p.fd = q.fd
  · rw [hfd, hf', Option.some.injEq] at hg
    subst hg
    change _ ≤ max f.size (q.pageNo.toNat * pageSize + pageSize) at hsize
    rw [← Nat.succ_mul] at hsize
    by_cases hle : (p.pageNo.toNat + 1) * pageSize ≤ f.size
    · exact .inl ⟨hpno, f, hfd ▸ hf, hle⟩
    · refine .inr ⟨hfd, ?_⟩
      have hle : (p.pageNo.toNat + 1) * pageSize ≤ (q.pageNo.toNat).succ * pageSize := by omega
      have := Nat.le_of_mul_le_mul_right hle pageSize_pos
      omega
  · exact .inl ⟨hpno, g, hother p.fd hfd ▸ hg, hsize⟩

theorem writePage_returns {d : DiskManager} {fd no : Int} {buf : Nat → UInt8} {n : Nat}
    (hopen : (d.fileOf fd).isSome) (hno : 0 ≤ no) (hok : d.writeFails fd no = false) :
    ∃ d', d.writePage fd no buf n = some d' := by
  obtain ⟨f, hf⟩ := Option.isSome_iff_exists.mp hopen
  unfold writePage
  rw [hf]
  dsimp only
  rw [if_neg (Int.not_lt.mpr hno), if_neg (by simp [hok])]
  exact ⟨_, rfl⟩

/-- A page within its file is read in full. -/
theorem readPage_returns {d : DiskManager} {p : PageId} {buf : Nat → UInt8} (hp : d.HasPage p)
    (hok : d.readFails p.fd p.pageNo = false) :
    (d.readPage p.fd p.pageNo buf pageSize).2 = true := by
  obtain ⟨hno, f, hf, hsize⟩ := hp
  unfold readPage
  rw [hf]
  dsimp only
  rw [if_neg (Int.not_lt.mpr hno), if_neg (by simp [hok])]
  simp only [OsFile.read, beq_iff_eq]
  rw [Nat.succ_mul] at hsize
  omega

end DiskManager

end Rucbase
