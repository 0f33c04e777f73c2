import Rucbase.Storage.PoolClients
import Rucbase.Storage.FileHandles

/-!
# The tables behind descriptors

`DiskManager` keeps `path2fd_` and `fd2path_` beside the kernel's own descriptor table.
`Tables` says that the three agree, and what the table functions do while they do. On the
pool's side, `Counted` relates the allocation counter of an open descriptor to the pages
that are cached and to the length of the file: while it holds, `AllocatePage` hands out
numbers nobody has.
-/

namespace Rucbase

open Lib BufferPoolManager

/-- The first `n` bytes of a page replaced. -/
def PageData.overlay (x : PageData) (buf : Nat → UInt8) (n : Nat) : PageData :=
  fun i => if i.val < n then buf i.val else x i

/-- A short write at the start of a page touches that page only. -/
theorem OsFile.page_write {f : OsFile} {k m n : Nat} {buf : Nat → UInt8} (hn : n ≤ pageSize) :
    (f.write (k * pageSize) buf n).page m = if m = k then (f.page k).overlay buf n else f.page m := by
  funext i
  have hi := i.isLt
  simp only [OsFile.page, OsFile.write]
  by_cases hm : m = k
  · subst hm
    rw [if_pos rfl]
    simp only [PageData.overlay, Nat.add_sub_cancel_left, OsFile.page]
    by_cases hin : i.val < n
    · rw [if_pos (by omega), if_pos hin]
    · rw [if_neg (by omega), if_neg hin]
  · rw [if_neg hm]
    refine if_neg ?_
    rintro ⟨h1, h2⟩
    rcases Nat.lt_or_gt_of_ne hm with hlt | hgt
    · have := Nat.mul_le_mul_right pageSize (Nat.succ_le_of_lt hlt)
      rw [Nat.succ_mul] at this
      omega
    · have := Nat.mul_le_mul_right pageSize (Nat.succ_le_of_lt hgt)
      rw [Nat.succ_mul] at this
      omega

namespace DiskManager

variable {d d' : DiskManager} {path : String} {fd : Int}

/-- The bytes of page `n` of the file at `path`, open or not. -/
def fileBytes (d : DiskManager) (path : String) (n : Int) : PageData :=
  match d.files path with
  | none => zeroPage
  | some f => if n < 0 then zeroPage else f.page n.toNat

theorem pageBytes_eq {p : PageId} (h : d.openFds p.fd = some path) :
    d.pageBytes p = d.fileBytes path p.pageNo := by
  rw [pageBytes, fileOf, h]
  rfl

/-- What a short write at the start of a page does to every file. -/
theorem writePage_fileBytes {no : Int} {buf : Nat → UInt8} {n : Nat} (hn : n ≤ pageSize)
    (hp : d.openFds fd = some path) (hw : d.writePage fd no buf n = some d') :
    d'.fileBytes path = Function.update (d.fileBytes path) no ((d.fileBytes path no).overlay buf n)
      ∧ ∀ path', path' ≠ path → d'.files path' = d.files path' := by
  obtain ⟨path', f, hp', hfile, hno, rfl⟩ := writePage_some hw
  have he : path' = path := Option.some.inj (hp'.symm.trans hp)
  subst he
  have hold : ∀ k, d.fileBytes path' k = if k < 0 then zeroPage else f.page k.toNat := by
    intro k
    rw [fileBytes, hfile]
  refine ⟨?_, fun q hq => Function.update_of_ne hq ..⟩
  funext m
  rw [fileBytes]
  simp only [Function.update_self, hold]
  by_cases hm : m = no
  · subst hm
    rw [Function.update_self, if_neg (by omega), if_neg (by omega), OsFile.page_write hn, if_pos rfl]
  · rw [Function.update_of_ne hm, hold]
    split
    · rfl
    · rw [OsFile.page_write hn, if_neg (by omega)]

/-- The file is open under some descriptor. -/
def IsOpen (d : DiskManager) (path : String) : Prop := ∃ fd, d.openFds fd = some path

/-- **The three tables agree.** -/
structure Agree (d : DiskManager) : Prop where
  fd2path : ∀ fd, d.fd2path fd = d.openFds fd
  path2fd : ∀ path fd, d.path2fd path = some fd ↔ d.openFds fd = some path

/-- The three tables agree, and a file that is open exists. -/
structure Tables (d : DiskManager) : Prop extends Agree d where
  present : ∀ fd path, d.openFds fd = some path → (d.files path).isSome

theorem Agree.injective (h : Agree d) : d.FdsInjective := by
  intro fd fd' path h1 h2
  have h3 := (h.path2fd path fd).mpr h1
  have h4 := (h.path2fd path fd').mpr h2
  exact Option.some.inj (h3.symm.trans h4)

theorem Agree.not_open_of_path2fd (h : Agree d) (hp : d.path2fd path = none) :
    ¬ d.IsOpen path := by
  rintro ⟨fd, hfd⟩
  have := (h.path2fd path fd).mpr hfd
  rw [hp] at this
  exact absurd this (by simp)

namespace Tables

theorem new (files : String → Option OsFile) : Tables (.new files) where
  fd2path := fun _ => rfl
  path2fd := by simp [DiskManager.new]
  present := by simp [DiskManager.new]

theorem not_open_of_absent (h : Tables d) (hf : d.files path = none) : ¬ d.IsOpen path := by
  rintro ⟨fd, hfd⟩
  have := h.present fd path hfd
  rw [hf] at this
  exact absurd this (by simp)

end Tables

theorem createFile_ok (h : d.createFile path = .ok d') :
    d.files path = none ∧ d' = { d with files := Function.update d.files path (some .empty) } := by
  unfold createFile isFile at h
  split at h
  · exact absurd h (by simp)
  · rename_i hno
    injection h with h
    exact ⟨by simpa using hno, h.symm⟩

theorem destroyFile_ok (h : d.destroyFile path = .ok d') :
    d.path2fd path = none ∧ d' = { d with files := Function.update d.files path none } := by
  unfold destroyFile at h
  split at h
  · exact absurd h (by simp)
  · split at h
    · exact absurd h (by simp)
    · rename_i hno
      injection h with h
      exact ⟨by simpa using hno, h.symm⟩

/-- The tables once `path` is open under `fd`. -/
def openedAs (d : DiskManager) (path : String) (fd : Int) : DiskManager :=
  { d with
    openFds := Function.update d.openFds fd (some path)
    path2fd := Function.update d.path2fd path (some fd)
    fd2path := Function.update d.fd2path fd (some path) }

theorem openFile_ok (h : d.openFile path fd = .ok d') :
    (d.files path).isSome ∧ d.path2fd path = none ∧ d' = d.openedAs path fd := by
  unfold openFile isFile at h
  split at h
  · exact absurd h (by simp)
  · rename_i hfile
    split at h
    · exact absurd h (by simp)
    · rename_i hno
      split at h
      · exact absurd h (by simp)
      · injection h with h
        exact ⟨Option.isSome_iff_ne_none.mpr (by simpa using hfile), by simpa using hno, h.symm⟩

theorem closeFile_ok (h : d.closeFile fd = .ok d') :
    ∃ path, d.fd2path fd = some path
      ∧ d' = { d with
          openFds := Function.update d.openFds fd none
          path2fd := Function.update d.path2fd path none
          fd2path := Function.update d.fd2path fd none } := by
  unfold closeFile at h
  split at h
  · exact absurd h (by simp)
  · rename_i path hp
    split at h
    · exact absurd h (by simp)
    · injection h with h
      exact ⟨path, hp, h.symm⟩

theorem Agree.openFile (h : Agree d) (hfree : d.openFds fd = none)
    (ho : d.openFile path fd = .ok d') : Agree d' := by
  obtain ⟨_, hp, rfl⟩ := openFile_ok ho
  have hnot := h.not_open_of_path2fd hp
  refine ⟨?_, ?_⟩
  · intro fd'
    show Function.update d.fd2path fd (some path) fd' = Function.update d.openFds fd (some path) fd'
    by_cases hfd : fd' = fd
    · rw [hfd, Function.update_self, Function.update_self]
    · rw [Function.update_of_ne hfd, Function.update_of_ne hfd, h.fd2path]
  · intro path' fd'
    show Function.update d.path2fd path (some fd) path' = some fd' ↔
      Function.update d.openFds fd (some path) fd' = some path'
    by_cases hpath : path' = path
    · subst hpath
      rw [Function.update_self]
      by_cases hfd : fd' = fd
      · simp [hfd]
      · rw [Function.update_of_ne hfd]
        constructor
        · intro he
          exact absurd (Option.some.inj he).symm hfd
        · exact fun he => absurd ⟨fd', he⟩ hnot
    · rw [Function.update_of_ne hpath]
      by_cases hfd : fd' = fd
      · subst hfd
        rw [Function.update_self, h.path2fd, hfree]
        simp [Ne.symm hpath]
      · rw [Function.update_of_ne hfd, h.path2fd]

theorem Agree.closeFile (h : Agree d) (hc : d.closeFile fd = .ok d') : Agree d' := by
  obtain ⟨path, hp, rfl⟩ := closeFile_ok hc
  rw [h.fd2path] at hp
  refine ⟨?_, ?_⟩
  · intro fd'
    show Function.update d.fd2path fd none fd' = Function.update d.openFds fd none fd'
    by_cases hfd : fd' = fd
    · rw [hfd, Function.update_self, Function.update_self]
    · rw [Function.update_of_ne hfd, Function.update_of_ne hfd, h.fd2path]
  · intro path' fd'
    show Function.update d.path2fd path none path' = some fd' ↔
      Function.update d.openFds fd none fd' = some path'
    by_cases hpath : path' = path
    · subst hpath
      rw [Function.update_self]
      by_cases hfd : fd' = fd
      · simp [hfd]
      · rw [Function.update_of_ne hfd]
        simp only [reduceCtorEq, false_iff]
        exact fun he => hfd (h.injective fd' fd path' he hp)
    · rw [Function.update_of_ne hpath, h.path2fd]
      by_cases hfd : fd' = fd
      · subst hfd
        rw [Function.update_self, hp]
        simp [Ne.symm hpath]
      · rw [Function.update_of_ne hfd]

namespace Tables

theorem openFile (h : Tables d) (hfree : d.openFds fd = none) (ho : d.openFile path fd = .ok d') :
    Tables d' := by
  refine ⟨h.toAgree.openFile hfree ho, fun fd' path' hfd' => ?_⟩
  obtain ⟨hfile, _, rfl⟩ := openFile_ok ho
  change Function.update d.openFds fd (some path) fd' = some path' at hfd'
  by_cases hfd : fd' = fd
  · rw [hfd, Function.update_self, Option.some.injEq] at hfd'
    exact hfd' ▸ hfile
  · rw [Function.update_of_ne hfd] at hfd'
    exact h.present fd' path' hfd'

theorem closeFile (h : Tables d) (hc : d.closeFile fd = .ok d') : Tables d' := by
  refine ⟨h.toAgree.closeFile hc, fun fd' path' hfd' => ?_⟩
  obtain ⟨path, _, rfl⟩ := closeFile_ok hc
  change Function.update d.openFds fd none fd' = some path' at hfd'
  by_cases hfd : fd' = fd
  · rw [hfd, Function.update_self] at hfd'
    exact absurd hfd' (by simp)
  · rw [Function.update_of_ne hfd] at hfd'
    exact h.present fd' path' hfd'

/-- Changing or creating files keeps the tables; a file may be removed if it is not open. -/
theorem files (h : Tables d) {g : String → Option OsFile}
    (hg : ∀ path, d.IsOpen path → (g path).isSome) : Tables { d with files := g } :=
  ⟨⟨h.fd2path, h.path2fd⟩, fun fd path hfd => hg path ⟨fd, hfd⟩⟩

theorem setFd2pageno (h : Tables d) (fd : Int) (n : Nat) : Tables (d.setFd2pageno fd n) :=
  ⟨⟨h.fd2path, h.path2fd⟩, h.present⟩

end Tables

/-- `d'` differs from `d` in the contents of open files and in counters only. -/
structure SameTables (d d' : DiskManager) : Prop where
  openFds : d'.openFds = d.openFds
  path2fd : d'.path2fd = d.path2fd
  fd2path : d'.fd2path = d.fd2path
  closed : ∀ path, ¬ d.IsOpen path → d'.files path = d.files path
  present : ∀ path, (d.files path).isSome → (d'.files path).isSome

theorem SameTables.refl (d : DiskManager) : SameTables d d :=
  ⟨rfl, rfl, rfl, fun _ _ => rfl, fun _ h => h⟩

theorem SameTables.tables (h : SameTables d d') (ht : Tables d) : Tables d' := by
  refine ⟨⟨?_, ?_⟩, ?_⟩
  · rw [h.fd2path, h.openFds]
    exact ht.fd2path
  · rw [h.path2fd, h.openFds]
    exact ht.path2fd
  · intro fd path hfd
    rw [h.openFds] at hfd
    exact h.present path (ht.present fd path hfd)

theorem SameTables.writePage {d₀ : DiskManager} {no : Int} {buf : Nat → UInt8} {n : Nat}
    (h : SameTables d₀ d) (hw : d.writePage fd no buf n = some d') : SameTables d₀ d' := by
  obtain ⟨path, f, hp, _, _, rfl⟩ := writePage_some hw
  refine ⟨h.openFds, h.path2fd, h.fd2path, ?_, ?_⟩
  · intro path' hno
    have hne : path' ≠ path := by
      rintro rfl
      exact hno ⟨fd, h.openFds ▸ hp⟩
    exact (Function.update_of_ne hne ..).trans (h.closed path' hno)
  · intro path' hsome
    show (Function.update d.files path _ path').isSome = true
    by_cases hpath : path' = path
    · rw [hpath, Function.update_self]
      rfl
    · rw [Function.update_of_ne hpath]
      exact h.present path' hsome

end DiskManager

/-! ## The allocation counter -/

namespace BufferPoolManager

variable {s s' t : BufferPoolManager} {p : PageId} {f : Nat} {d d' : DiskManager}

/-- No open file is longer than its counter says. -/
def Sized (d : DiskManager) : Prop :=
  ∀ fd file, d.fileOf fd = some file → file.size ≤ d.fd2pageno fd * pageSize

/-- The counter of an open descriptor is above its cached pages and covers its file. -/
structure Counted (s : BufferPoolManager) : Prop where
  cached : ∀ p f, (s.diskManager.openFds p.fd).isSome → s.pageTable p = some f →
    p.pageNo < s.diskManager.fd2pageno p.fd
  sized : Sized s.diskManager

theorem Sized.writePage {fd no : Int} {buf : Nat → UInt8} {n : Nat} (h : Sized d)
    (hinj : d.FdsInjective) (hno : no < d.fd2pageno fd) (hn : n ≤ pageSize)
    (hw : d.writePage fd no buf n = some d') : Sized d' := by
  obtain ⟨⟨f, hf, hf'⟩, hpos, hother⟩ := DiskManager.writePage_fileOf hinj hw
  intro fd' file hfile
  rw [(DiskManager.writePage_frame hw).2.1]
  by_cases hfd : fd' = fd
  · subst hfd
    rw [hf', Option.some.injEq] at hfile
    subst hfile
    have h1 := h fd' f hf
    have h2 : (no.toNat + 1) * pageSize ≤ d.fd2pageno fd' * pageSize :=
      Nat.mul_le_mul_right _ (by omega)
    rw [Nat.succ_mul] at h2
    show max f.size (no.toNat * pageSize + n) ≤ _
    omega
  · rw [hother fd' hfd] at hfile
    exact h fd' file hfile

/-- Only cached pages of open files are ever written out, so no file outgrows its counter. -/
theorem Counted.wrote (h : Counted s) (hinv : PoolInv s) (hinj : s.diskManager.FdsInjective)
    (hf : f < s.poolSize) (hw : s.Wrote f d) : Sized d := by
  obtain ⟨path, _, hopen, _, hpos, _⟩ := DiskManager.writePage_some hw
  have hm := hinv.mapped_of_valid hf (by unfold invalidPageId; omega)
  exact h.sized.writePage hinj (h.cached _ f (by simp [hopen]) hm) le_rfl hw

theorem Counted.writesOld (h : Counted s) (hinv : PoolInv s) (hinj : s.diskManager.FdsInjective)
    (hf : f < s.poolSize) (hw : s.WritesOld f d) : Sized d := by
  rcases hw.cases with ⟨rfl, _⟩ | ⟨_, hw⟩
  · exact h.sized
  · exact h.wrote hinv hinj hf hw

/-- Handing out a number keeps the count. -/
theorem Counted.allocatePage (h : Counted s) (fd : Int) :
    Counted { s with diskManager := (s.diskManager.allocatePage fd).2 } := by
  have hle := DiskManager.le_allocatePage s.diskManager fd
  refine ⟨?_, ?_⟩
  · intro p f hopen hp
    have h1 := h.cached p f hopen hp
    have h2 := hle p.fd
    show p.pageNo < ((s.diskManager.allocatePage fd).2.fd2pageno p.fd : Int)
    omega
  · intro fd' file hfile
    exact (h.sized fd' file hfile).trans (Nat.mul_le_mul_right _ (hle fd'))

/-- A page brought in whose number is below the counter. -/
theorem Counted.install {x : PageData} (h : Counted s) (hinv : PoolInv s)
    (ht : PoolInv.Taken s f t) (hp : s.pageTable p = none)
    {u : DiskManager} (hu : u.openFds = s.diskManager.openFds)
    (hle : ∀ fd, s.diskManager.fd2pageno fd ≤ u.fd2pageno fd)
    (hd : d.openFds = u.openFds ∧ d.fd2pageno = u.fd2pageno) (hsized : Sized d)
    (hno : (d.openFds p.fd).isSome → p.pageNo < d.fd2pageno p.fd) :
    Counted (t.install f p d x) := by
  refine ⟨?_, hsized⟩
  intro q g hopen hq
  change (d.openFds q.fd).isSome at hopen
  show q.pageNo < (d.fd2pageno q.fd : Int)
  rcases (hinv.install_table ht hp).mp hq with ⟨rfl, rfl⟩ | ⟨_, hqg⟩
  · exact hno hopen
  · rw [hd.1, hu] at hopen
    have h1 := h.cached q g hopen hqg
    have h2 := hle q.fd
    rw [hd.2]
    omega

theorem Counted.cleaned (h : Counted s) (hinv : PoolInv s) (hinj : s.diskManager.FdsInjective)
    (hf : f < s.poolSize) (hw : s.Wrote f d) : Counted (s.cleaned f d) := by
  have hfr := DiskManager.writePage_frame hw
  refine ⟨?_, h.wrote hinv hinj hf hw⟩
  intro p g hopen hp
  change (d.openFds p.fd).isSome at hopen
  show p.pageNo < (d.fd2pageno p.fd : Int)
  rw [hfr.1] at hopen
  rw [hfr.2.1]
  exact h.cached p g hopen hp

theorem PoolInv.withDisk (h : PoolInv s) (d : DiskManager) :
    PoolInv { s with diskManager := d } :=
  ⟨h.free_nodup, h.free_lt, h.cap, h.table, h.valid, h.free_id, h.rep, h.pins⟩

/-- **Every call keeps the counters right.** -/
theorem Counted.step {c : Call} {r : Ret} (h : Counted s) (hinv : PoolInv s)
    (hinj : s.diskManager.FdsInjective) (hs : Step s (c, r) s') : Counted s' := by
  have hfresh := (step_iff.mp hs).1
  cases hs.effect with
  | fetchHit _ => exact ⟨h.cached, h.sized⟩
  | fetchNull _ _ _ => exact h
  | @fetchMiss p f t d hp ht hw hhas =>
      have htk := hinv.taken ht
      have hw' : s.WritesOld f d := by
        rw [ht.frame] at hw
        exact hw
      have hsized := h.writesOld hinv hinj htk.lt hw'
      refine h.install hinv htk hp rfl (fun _ => le_rfl) hw'.frame hsized (fun _ => ?_)
      -- the page was read from the file, and the file is covered by the counter
      obtain ⟨hpos, file, hfile, hsize⟩ := hhas
      have hlt := Nat.lt_of_mul_lt_mul_right (a := pageSize)
        (Nat.lt_of_lt_of_le (by rw [Nat.succ_mul]; have := pageSize_pos; omega)
          (hsize.trans (hsized p.fd file hfile)) : p.pageNo.toNat * pageSize < _)
      omega
  | newNull _ _ => exact h
  | @newPage fd f t d ht hw =>
      have htk := hinv.taken ht
      have hw' : ({ s with diskManager := (s.diskManager.allocatePage fd).2 } :
          BufferPoolManager).WritesOld f d := by
        rw [ht.frame] at hw
        exact hw
      have hsized := (h.allocatePage fd).writesOld (hinv.withDisk _) hinj htk.lt hw'
      have hcount : d.fd2pageno = _ := hw'.frame.2
      refine h.install (u := (s.diskManager.allocatePage fd).2) hinv htk hfresh rfl
        (DiskManager.le_allocatePage s.diskManager fd) hw'.frame hsized (fun _ => ?_)
      rw [hcount]
      show (s.diskManager.fd2pageno fd : Int) <
        (Function.update s.diskManager.fd2pageno fd (s.diskManager.fd2pageno fd + 1) fd : Nat)
      rw [Function.update_self]
      omega
  | unpin _ _ => exact ⟨h.cached, h.sized⟩
  | unpinRefused _ => exact h
  | @flush p f d hp hw => exact h.cleaned hinv hinj (hinv.of_mapped hp).1 hw
  | flushMiss _ => exact h
  | deleteMiss _ => exact h
  | deletePinned _ _ => exact h
  | @delete p f d hp _ hw =>
      have hd : Sized d ∧ d.openFds = s.diskManager.openFds
          ∧ d.fd2pageno = s.diskManager.fd2pageno := by
        split at hw
        · have hfr := DiskManager.writePage_frame hw
          exact ⟨h.wrote hinv hinj (hinv.of_mapped hp).1 hw, hfr.1, hfr.2.1⟩
        · subst hw
          exact ⟨h.sized, rfl, rfl⟩
      refine ⟨?_, hd.1⟩
      intro q g hopen hq
      show q.pageNo < (d.fd2pageno q.fd : Int)
      change (d.openFds q.fd).isSome at hopen
      rw [hd.2.1] at hopen
      rw [hd.2.2]
      exact h.cached q g hopen ((hinv.freed_table hp).mp hq).2
  | flushAll hrun =>
      have key : PoolInv s' ∧ s'.diskManager.FdsInjective ∧ Counted s' := by
        refine flushAllPages_invariant (I := fun t => PoolInv t ∧ t.diskManager.FdsInjective
          ∧ Counted t) ?_ ⟨hinv, hinj, h⟩ hrun
        rintro t g d ⟨h1, h2, h3⟩ hg _ hv hw
        exact ⟨h1.cleaned (h1.mapped_of_valid hg hv), hw.injective h2, h3.cleaned h1 h2 hg hw⟩
      exact key.2.2

end BufferPoolManager

end Rucbase
