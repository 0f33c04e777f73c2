import Rucbase.Storage.FileCreation
import Rucbase.System.FailedCalls
import Rucbase.System.SmMeta

/-!
# Handles and the catalog

`open_db` of `system/sm_manager.cpp`, from where the catalog is read: it opens the file of every table
and of every index. `Mirrors` says what there is of handles then: one for each table and one for each
column that is marked as indexed, each with a descriptor that is open on its file.
-/

namespace Rucbase

open Lib BufferPoolManager

namespace SmManager

/-! ## `open_db` -/

/-- One column of a table. `fdOf` is what `open` returns for a path. -/
def openIndexOf (fdOf : String → Int) (tab : TabMeta) (col : ColMeta) (i : Nat) : SmM Unit :=
  if col.index then do
    let indexName := IxManager.getIndexName tab.name i
    let s ← get
    if (s.ihs indexName).isSome then
      throw .assertionFailure
    else
      let hdr ← onPool (IxManager.openIndex tab.name i (fdOf indexName))
      emplaceIh indexName ⟨fdOf indexName, hdr⟩
  else pure ⟨⟩

/-- The loop over the columns. -/
def openIndexes (fdOf : String → Int) (tab : TabMeta) : List (ColMeta × Nat) → SmM Unit
  | [] => pure ⟨⟩
  | entry :: cols => do
      openIndexOf fdOf tab entry.1 entry.2
      openIndexes fdOf tab cols

/-- One table. -/
def openTable (fdOf : String → Int) (tab : TabMeta) : SmM Unit := do
  let hdr ← onPool (RmManager.openFile tab.name (fdOf tab.name))
  emplaceFh tab.name ⟨fdOf tab.name, hdr⟩
  openIndexes fdOf tab tab.cols.zipIdx

/-- The loop over the tables. -/
def openTables (fdOf : String → Int) : List (String × TabMeta) → SmM Unit
  | [] => pure ⟨⟩
  | entry :: tabs => do
      openTable fdOf entry.2
      openTables fdOf tabs

/-- `open_db`, in the directory of the database; `metaText` is what `db.meta` holds. -/
def openDb (u : Indeterminate) (metaText : List Char) (fdOf : String → Int) : SmM Unit := do
  modify fun s => { s with db := ((DbMeta.read u s.db).run ⟨metaText, false⟩).1 }
  let s ← get
  openTables fdOf s.db.tabs.toList

/-! ## What the handles are -/

/-- `n` is the name of the index on a column that is marked. -/
def IndexOf (tabs : String → Option TabMeta) (n : String) : Prop :=
  ∃ t tab i col, tabs t = some tab ∧ tab.cols[i]? = some col ∧ col.index = true
    ∧ n = IxManager.getIndexName t i

/-- Every handle has a descriptor that is open on its file, and no file has two handles. -/
structure HandlesOpen (s : SmManager) : Prop where
  disk : s.pool.diskManager.Tables
  fhOpen : ∀ t fh, s.fhs t = some fh → s.pool.diskManager.openFds fh.fd = some t
  ihOpen : ∀ n ih, s.ihs n = some ih → s.pool.diskManager.openFds ih.fd = some n
  apart : ∀ t, (s.fhs t).isSome → s.ihs t = none

/-- **The handles are those of the catalog**: every table with columns has a record file, and every
marked column an index file; there are no others, and all of them are open. Tables without columns
are apart, since `tabs_[tab_name]` enters such. The lengths of columns are `int`s. -/
structure Mirrors (s : SmManager) : Prop where
  lens : ∀ (t : String) (tab : TabMeta), s.db.tabs[t]? = some tab → ∀ col ∈ tab.cols, IsInt32 col.len
  fhs : ∀ t, (s.fhs t).isSome → (s.db.tabs[t]?).isSome
  tables : ∀ (t : String) (tab : TabMeta), s.db.tabs[t]? = some tab → tab.cols ≠ [] →
    tab.name = t ∧ (s.fhs t).isSome
  ihs : ∀ n, (s.ihs n).isSome ↔ IndexOf (s.db.tabs[·]?) n
  handles : HandlesOpen s

/-! ## Names of indexes -/

/-- A decimal number has no dot. -/
theorem dot_not_mem_toDigits (n : Nat) : '.' ∉ Nat.toDigits 10 n := by
  intro h
  have := Nat.isDigit_of_mem_toDigits (by decide) (by decide) h
  exact absurd this (by decide)

/-- Where the last dot is. -/
theorem last_dot_inj {a b xs ys : List Char} (hx : '.' ∉ xs) (hy : '.' ∉ ys)
    (h : a ++ '.' :: xs = b ++ '.' :: ys) : a = b ∧ xs = ys := by
  have hfront : ∀ {zs c : List Char}, '.' ∉ zs →
      (c ++ '.' :: zs).reverse.takeWhile (· != '.') = zs.reverse := by
    intro zs c hz
    rw [List.reverse_append, List.reverse_cons, List.append_assoc,
      List.takeWhile_append_of_pos fun x hx => by
        have hne : x ≠ '.' := by
          rintro rfl
          exact hz (List.mem_reverse.mp hx)
        simpa using hne]
    simp
  have hxy : xs = ys := by
    have := hfront (c := a) hx
    rw [h, hfront hy] at this
    exact (List.reverse_injective this).symm
  subst hxy
  exact ⟨List.append_cancel_right h, rfl⟩

/-- **The name of an index says which column it is on.** -/
theorem getIndexName_inj {t t' : String} {i i' : Nat}
    (h : IxManager.getIndexName t i = IxManager.getIndexName t' i') : t = t' ∧ i = i' := by
  have hlist : ∀ {t : String} {i : Nat}, (IxManager.getIndexName t i).toList
      = (t.toList ++ '.' :: Nat.toDigits 10 i) ++ ".idx".toList := by
    intro t i
    have hdigits : (toString i).toList = Nat.toDigits 10 i := Nat.toList_repr
    rw [IxManager.getIndexName, String.toList_append, String.toList_append, String.toList_append,
      hdigits, List.append_assoc t.toList]
    rfl
  have hdots := congrArg String.toList h
  rw [hlist, hlist] at hdots
  obtain ⟨ht, hi⟩ := last_dot_inj (dot_not_mem_toDigits i) (dot_not_mem_toDigits i')
    (List.append_cancel_right hdots)
  refine ⟨String.toList_injective ht, ?_⟩
  rw [← Nat.ofDigitChars_ten_toDigits (n := i), hi, Nat.ofDigitChars_ten_toDigits]

/-- The index of a table under its own name. -/
theorem indexOf_getIndexName {tabs : String → Option TabMeta} {t : String} {i : Nat} :
    IndexOf tabs (IxManager.getIndexName t i)
      ↔ ∃ tab col, tabs t = some tab ∧ tab.cols[i]? = some col ∧ col.index = true := by
  constructor
  · rintro ⟨t', tab, i', col, htab, hcol, hindex, hname⟩
    obtain ⟨rfl, rfl⟩ := getIndexName_inj hname
    exact ⟨tab, col, htab, hcol, hindex⟩
  · rintro ⟨tab, col, htab, hcol, hindex⟩
    exact ⟨t, tab, i, col, htab, hcol, hindex, rfl⟩

/-! ## Calls on the files -/

variable {s s' : BufferPoolManager} {path : String} {fd : Int}

/-- A file was opened under `fd`. -/
structure Opened (d : DiskManager) (path : String) (fd : Int) (d' : DiskManager) : Prop where
  disk : d'.Tables
  openFds : d'.openFds = Function.update d.openFds fd (some path)
  closed : d.path2fd path = none

/-- The ways to turn down a call of `open_file`. -/
def OpenRefused (d : DiskManager) (path : String) (e : RedBaseError) : Prop :=
  e = .fileNotFoundError path ∧ d.files path = none
    ∨ e = .fileExistsError path ∧ (d.path2fd path).isSome

theorem ends_disk {g : DiskManager → Except RedBaseError DiskManager} :
    Ends s (disk g) (fun _ t => ∃ d, g s.diskManager = .ok d ∧ t = { s with diskManager := d })
      fun e _ => g s.diskManager = .error e := by
  cases hd : g s.diskManager with
  | ok d =>
      refine .of_ok (a := ⟨⟩) (t := { s with diskManager := d }) ?_ ⟨d, rfl, rfl⟩
      unfold disk
      rw [run_get_bind, hd]
      rfl
  | error e =>
      refine .of_error (e := e) (t := s) ?_ rfl
      unfold disk
      rw [run_get_bind, hd]
      rfl

theorem ends_writeDisk {no : Int} {buf : Nat → UInt8} {n : Nat} :
    Ends s (writeDisk fd no buf n) (fun _ t => ∃ d, s.diskManager.writePage fd no buf n = some d
      ∧ t = { s with diskManager := d }) fun e _ => e = .unixError := by
  refine ⟨fun _ t h => writeDisk_ok h, fun e t h => ?_⟩
  unfold writeDisk at h
  rw [run_get_bind] at h
  split at h
  · rw [run_throw_any, EStateM.Result.error.injEq] at h
    exact h.1.symm
  · exact absurd h (by simp)

theorem ends_readDisk {no : Int} {n : Nat} :
    Ends s (readDisk fd no n) (fun _ t => t = s) fun e _ => e = .unixError := by
  unfold readDisk
  refine .of_run (run_get_bind ..) ?_
  dsimp only
  split
  · exact .of_ok rfl rfl
  · exact .of_error rfl rfl

/-- What an outcome of opening a file means. -/
abbrev OpenOutcome {α : Type} (s : BufferPoolManager) (path : String) (fd : Int) (x : PoolM α) : Prop :=
  Ends s x (fun _ s' => Opened s.diskManager path fd s'.diskManager)
    fun e _ => e = .unixError ∨ OpenRefused s.diskManager path e

theorem openHandle_outcome (n : Nat) (hr : s.diskManager.Tables)
    (hfree : s.diskManager.path2fd path = none → s.diskManager.openFds fd = none) :
    OpenOutcome s path fd (openHandle path fd n) := by
  unfold openHandle
  refine ends_disk.bind ?_ fun e _ hd => ?_
  · rintro _ _ ⟨d, hd, rfl⟩
    obtain ⟨_, hclosed, _⟩ := DiskManager.openFile_ok hd
    have hstep := hr.step (.openFile path fd (hfree hclosed) hd)
    obtain ⟨_, _, rfl⟩ := DiskManager.openFile_ok hd
    exact ends_readDisk.imp (fun _ _ h => h ▸ ⟨hstep, rfl, hclosed⟩) fun _ _ => .inl
  · unfold DiskManager.openFile DiskManager.isFile at hd
    split at hd
    · rename_i hno
      exact .inr (.inl ⟨(Except.error.inj hd).symm, by simpa using hno⟩)
    · split at hd
      · rename_i hopen
        exact .inr (.inr ⟨(Except.error.inj hd).symm, hopen⟩)
      · split at hd
        · exact .inl (Except.error.inj hd).symm
        · cases hd

/-- The counter that is set afterwards is nobody's descriptor. -/
theorem OpenOutcome.counter {α β : Type} {x : PoolM α} {g : α → DiskManager → Nat} {r : α → β}
    (h : OpenOutcome s path fd x) : OpenOutcome s path fd (do
      let a ← x
      modify fun s => { s with diskManager := s.diskManager.setFd2pageno fd (g a s.diskManager) }
      return r a) :=
  h.bind (fun _ _ ⟨hr, ho, hclosed⟩ => .of_ok rfl ⟨hr.step (.setFd2pageno fd _), ho, hclosed⟩)
    fun _ _ he => he

theorem openFile_outcome (hr : s.diskManager.Tables)
    (hfree : s.diskManager.path2fd path = none → s.diskManager.openFds fd = none) :
    OpenOutcome s path fd (RmManager.openFile path fd) :=
  (openHandle_outcome RmFileHdr.size hr hfree).counter (g := fun buf _ =>
    (RmFileHdr.ofBuf buf).numPages.toNat) (r := RmFileHdr.ofBuf)

theorem openIndex_outcome {t : String} {i : Nat} (hr : s.diskManager.Tables)
    (hfree : s.diskManager.path2fd (IxManager.getIndexName t i) = none →
      s.diskManager.openFds fd = none) :
    OpenOutcome s (IxManager.getIndexName t i) fd (IxManager.openIndex t i fd) :=
  (openHandle_outcome IxFileHdr.size hr hfree).counter (g := fun _ d => d.fd2pageno fd + 1)
    (r := IxFileHdr.ofBuf)

/-- A file was made, and is closed. -/
structure Created (d : DiskManager) (path : String) (d' : DiskManager) : Prop where
  disk : d'.Tables
  openFds : d'.openFds = d.openFds
  file : (d'.files path).isSome
  closed : d'.path2fd path = none

/-- A file that was just made is not refused. -/
theorem Created.not_refused {d d' : DiskManager} {e : RedBaseError} (h : Created d path d') :
    ¬ OpenRefused d' path e := by
  rintro (⟨_, hno⟩ | ⟨_, hopen⟩)
  · have := h.file
    rw [hno] at this
    cases this
  · rw [h.closed] at hopen
    cases hopen

/-- With valid arguments, the file is made, or a system call fails. -/
theorem creation_valid {c : Creation} (hr : s.diskManager.Tables)
    (habsent : s.diskManager.files c.filePath = none) (hfree : s.diskManager.openFds fd = none)
    (hfd : fd ≠ -1) (hvalid : c.Valid) :
    Ends s (c.run fd) (fun _ s' => Created s.diskManager c.filePath s'.diskManager)
      fun e _ => e = .unixError := by
  have hstays := Creation.run_stays (c := c) (fun h => h.step) hr hfree
  unfold Creation.Stays at hstays
  have hclosed := hr.path2fd_of_absent habsent
  obtain ⟨f, _, ⟨s₁, hrun, hmade, _⟩ | ⟨s₁, hrun, _⟩⟩ :=
    Creation.run_valid (c := c) habsent hclosed hfd hvalid
  · rw [hrun] at hstays
    refine .of_ok hrun ⟨hstays, ?_, ?_, ?_⟩
    · rw [hmade.openFds, ← hfree, Function.update_eq_self]
    · rw [hmade.files, Function.update_self]
      rfl
    · rw [hmade.path2fd, hclosed]
  · exact .of_error hrun rfl

theorem createFile_outcome (path : String) (recordSize : Int) (hr : s.diskManager.Tables)
    (hfree : s.diskManager.openFds fd = none) (hfd : fd ≠ -1) :
    Ends s (RmManager.createFile path recordSize fd)
      (fun _ s' => Created s.diskManager path s'.diskManager) fun e s' => e = .unixError
        ∨ s' = s ∧ (e = .fileExistsError path ∧ (s.diskManager.files path).isSome
          ∨ e = .invalidRecordSizeError recordSize
            ∧ ¬ (1 ≤ recordSize ∧ recordSize ≤ rmMaxRecordSize)) := by
  by_cases hsize : 1 ≤ recordSize ∧ recordSize ≤ rmMaxRecordSize
  · cases hfile : s.diskManager.files path with
    | none =>
        exact (creation_valid (c := .createFile path recordSize) hr hfile hfree hfd hsize).imp
          (fun _ _ h => h) fun _ _ => .inl
    | some f =>
        have hrun : (RmManager.createFile path recordSize fd).run s
            = .error (.fileExistsError path) s := by
          unfold RmManager.createFile
          rw [if_neg (by omega)]
          exact Creation.run_createFile_exists (by rw [hfile]; rfl)
        exact .of_error hrun (.inr ⟨rfl, .inl ⟨rfl, rfl⟩⟩)
  · have hrun : (RmManager.createFile path recordSize fd).run s
        = .error (.invalidRecordSizeError recordSize) s := by
      unfold RmManager.createFile
      rw [if_pos (by omega)]
      rfl
    exact .of_error hrun (.inr ⟨rfl, .inr ⟨rfl, hsize⟩⟩)

/-- `create_index` leaves its file open, when the column has a length that no index can have. -/
theorem createIndex_outcome (t : String) (i : Nat) (type : ColType) {len : Int} (hlen : IsInt32 len)
    (buf : Nat → UInt8) (hr : s.diskManager.Tables) (hfree : s.diskManager.openFds fd = none)
    (hfd : fd ≠ -1) :
    Ends s (IxManager.createIndex t i type len buf fd)
      (fun _ s' => Created s.diskManager (IxManager.getIndexName t i) s'.diskManager)
      fun e s' => e = .unixError
        ∨ s' = s ∧ e = .fileExistsError (IxManager.getIndexName t i)
          ∧ (s.diskManager.files (IxManager.getIndexName t i)).isSome
        ∨ Creation.LengthError len e ∧ s'.diskManager.Tables ∧ s'.diskManager.openFds
            = Function.update s.diskManager.openFds fd (some (IxManager.getIndexName t i)) := by
  let c : Creation := .createIndex t i type len hlen buf
  cases hfile : s.diskManager.files (IxManager.getIndexName t i) with
  | some f =>
      have hrun : (IxManager.createIndex t i type len buf fd).run s
          = .error (.fileExistsError (IxManager.getIndexName t i)) s :=
        Creation.run_createFile_exists (by rw [hfile]; rfl)
      exact .of_error hrun (.inr (.inl ⟨rfl, rfl, rfl⟩))
  | none =>
      by_cases hvalid : -8 < len ∧ len ≤ ixMaxColLen
      · exact (creation_valid (c := c) hr hfile hfree hfd hvalid).imp (fun _ _ h => h) fun _ _ => .inl
      · have hreach := Creation.run_stays (c := c) (fun h => h.step) hr hfree
        unfold Creation.Stays at hreach
        have hclosed := hr.path2fd_of_absent hfile
        obtain ⟨e₁, s₁, hrun, hlong, hmaking⟩ :=
          Creation.run_createIndex_invalid type buf hlen hfile hclosed hfd hvalid
        change (c.run fd).run s = _ at hrun
        rw [hrun] at hreach
        exact .of_error hrun (.inr (.inr ⟨hlong, hreach, hmaking.openFds⟩))

theorem raises_flushAllPages (fd : Int) : Raises (· = .unixError) (flushAllPages fd) := by
  have hwrite : ∀ id data, Raises (· = .unixError) (writeBack id data) := by
    intro id data
    refine .get_bind fun s => ?_
    split
    · exact .throw rfl
    · exact .set
  refine .get_bind fun s => Raises.forM (fun i => .get_bind fun s => ?_) _
  exact .onlyIf ((hwrite _ _).bind fun _ => .modify)

theorem flushAllPages_outcome {d : DiskManager} (hsame : d.SameTables s.diskManager) :
    Ends s (flushAllPages fd) (fun _ s' => d.SameTables s'.diskManager) fun e _ => e = .unixError :=
  ⟨fun _ _ h => flushAllPages_invariant (I := fun t => d.SameTables t.diskManager)
    (fun _ _ _ ht _ _ _ hwrote => ht.writePage hwrote) hsame h, raises_flushAllPages fd s⟩

/-- **`close_index`** on a handle that is open. -/
theorem closeHandle_outcome (hdr : Nat → UInt8) (n : Nat) (hr : s.diskManager.Tables)
    (hopen : s.diskManager.openFds fd = some path) :
    Ends s (closeHandle fd hdr n) (fun _ s' => s'.diskManager.Tables
        ∧ s'.diskManager.openFds = Function.update s.diskManager.openFds fd none
        ∧ (s'.diskManager.files path).isSome ∧ s'.diskManager.path2fd path = none)
      fun e _ => e = .unixError := by
  unfold closeHandle
  refine ends_writeDisk.bind ?_ fun _ _ he => he
  rintro _ _ ⟨d, hd, rfl⟩
  refine (flushAllPages_outcome ((DiskManager.SameTables.refl _).writePage hd)).bind
    (fun _ s₂ hsame => ?_) fun _ _ he => he
  have hr₂ := hsame.tables hr
  have hopen₂ : s₂.diskManager.openFds fd = some path := by rw [hsame.openFds, hopen]
  have hclose := DiskManager.closeFile_eq (by rw [hr₂.fd2path, hopen₂]) hopen₂
  refine ends_disk.imp ?_ fun e _ he => ?_
  · rintro _ _ ⟨d, hd, rfl⟩
    have hr₃ := hr₂.step (.closeFile fd hd)
    rw [hclose] at hd
    obtain rfl := Except.ok.inj hd
    refine ⟨hr₃, ?_, hsame.present path (hr.present fd path hopen), Function.update_self ..⟩
    show Function.update s₂.diskManager.openFds fd none = _
    rw [hsame.openFds]
  · rw [hclose] at he
    cases he

/-- A file that is closed can be destroyed. -/
theorem destroyFile_closed {d : DiskManager} (hfile : (d.files path).isSome)
    (hclosed : d.path2fd path = none) :
    d.destroyFile path = .ok { d with files := Function.update d.files path none } := by
  unfold DiskManager.destroyFile DiskManager.isFile
  rw [hfile, hclosed, if_neg (by simp), if_neg (by simp)]

/-! ## The handles -/

section

variable {s : SmManager} {pool : BufferPoolManager}

/-- All that is open stays open. -/
def StaysOpen (d d' : DiskManager) : Prop :=
  ∀ fd path, d.openFds fd = some path → d'.openFds fd = some path

theorem Created.staysOpen {d d' : DiskManager} {path : String} (hc : Created d path d') :
    StaysOpen d d' := by
  intro fd path' hopen
  rw [hc.openFds, hopen]

/-- More may be open. -/
theorem HandlesOpen.more (h : HandlesOpen s) (hr : pool.diskManager.Tables)
    (hmore : StaysOpen s.pool.diskManager pool.diskManager) : HandlesOpen { s with pool := pool } where
  disk := hr
  fhOpen t fh hfh := hmore _ _ (h.fhOpen t fh hfh)
  ihOpen n ih hih := hmore _ _ (h.ihOpen n ih hih)
  apart := h.apart

theorem Mirrors.more (h : Mirrors s) (hr : pool.diskManager.Tables)
    (hmore : StaysOpen s.pool.diskManager pool.diskManager) : Mirrors { s with pool := pool } :=
  ⟨h.lens, h.fhs, h.tables, h.ihs, h.handles.more hr hmore⟩

/-- So it does when a free descriptor is taken. -/
theorem staysOpen_update {d d' : DiskManager} {path : String} (hfree : d.openFds fd = none)
    (h : d'.openFds = Function.update d.openFds fd (some path)) : StaysOpen d d' := by
  intro fd' path' hopen
  have hne : fd' ≠ fd := by
    rintro rfl
    rw [hfree] at hopen
    cases hopen
  rw [h, Function.update_of_ne hne, hopen]

/-- A file that did not exist has no handle. -/
theorem HandlesOpen.absent (h : HandlesOpen s) {path : String}
    (habsent : s.pool.diskManager.path2fd path = none) : s.fhs path = none ∧ s.ihs path = none := by
  have ht := h.disk
  have hno : ∀ fd, s.pool.diskManager.openFds fd ≠ some path := fun fd hfd => by
    rw [(ht.path2fd path fd).mpr hfd] at habsent
    cases habsent
  constructor
  · cases hfh : s.fhs path with
    | none => rfl
    | some fh => exact absurd (h.fhOpen path fh hfh) (hno _)
  · cases hih : s.ihs path with
    | none => rfl
    | some ih => exact absurd (h.ihOpen path ih hih) (hno _)

/-- A table that is open gets its handle. -/
theorem HandlesOpen.withFh (h : HandlesOpen s) {t : String} {fh : RmFile}
    (hopen : s.pool.diskManager.openFds fh.fd = some t) (hih : s.ihs t = none) :
    HandlesOpen { s with fhs := Function.update s.fhs t (some fh) } := by
  refine ⟨h.disk, fun k fh' hk => ?_, h.ihOpen, fun k hk => ?_⟩
  · dsimp only at hk ⊢
    rw [Function.update_apply] at hk
    split at hk
    · rename_i hkt
      rw [← Option.some.inj hk, hkt]
      exact hopen
    · exact h.fhOpen k fh' hk
  · dsimp only at hk ⊢
    by_cases hkt : k = t
    · exact hkt ▸ hih
    · rw [Function.update_of_ne hkt] at hk
      exact h.apart k hk

/-- An index that is open gets its handle. -/
theorem HandlesOpen.withIh (h : HandlesOpen s) {n : String} {ih : IxFile}
    (hopen : s.pool.diskManager.openFds ih.fd = some n) (hfh : s.fhs n = none) :
    HandlesOpen { s with ihs := Function.update s.ihs n (some ih) } := by
  refine ⟨h.disk, h.fhOpen, fun k ih' hk => ?_, fun k hk => ?_⟩
  · dsimp only at hk ⊢
    rw [Function.update_apply] at hk
    split at hk
    · rename_i hkn
      rw [← Option.some.inj hk, hkn]
      exact hopen
    · exact h.ihOpen k ih' hk
  · have hne : k ≠ n := by
      rintro rfl
      rw [hfh] at hk
      cases hk
    exact (Function.update_of_ne hne ..).trans (h.apart k hk)

/-- An index that is closed loses its handle. The other handles have other descriptors. -/
theorem HandlesOpen.withoutIh (h : HandlesOpen s) {n : String} {ih : IxFile}
    (hih : s.ihs n = some ih) (hr : pool.diskManager.Tables)
    (ho : pool.diskManager.openFds = Function.update s.pool.diskManager.openFds ih.fd none) :
    HandlesOpen { s with ihs := Function.update s.ihs n none, pool := pool } := by
  have hother : ∀ {fd path}, s.pool.diskManager.openFds fd = some path → path ≠ n →
      pool.diskManager.openFds fd = some path := by
    intro fd path hfd hne
    have hfdne : fd ≠ ih.fd := by
      rintro rfl
      rw [h.ihOpen n ih hih, Option.some.injEq] at hfd
      exact hne hfd.symm
    rw [ho, Function.update_of_ne hfdne, hfd]
  refine ⟨hr, fun t fh hfh => hother (h.fhOpen t fh hfh) ?_, fun k ih' hk => ?_, fun t ht => ?_⟩
  · rintro rfl
    have := h.apart t (by rw [hfh]; rfl)
    rw [hih] at this
    cases this
  · dsimp only at hk
    rw [Function.update_apply] at hk
    split at hk
    · cases hk
    · rename_i hne
      exact hother (h.ihOpen k ih' hk) hne
  · show Function.update s.ihs n none t = none
    rw [Function.update_apply]
    split
    · rfl
    · exact h.apart t ht

/-- Once a file is made, only a system call can keep it from being opened. -/
theorem Created.opens {α : Type} {d : DiskManager} {path : String} {x : PoolM α}
    (hc : Created d path pool.diskManager) (hfree : d.openFds fd = none)
    (hx : OpenOutcome pool path fd x) :
    Ends pool x (fun _ pool' => Opened pool.diskManager path fd pool'.diskManager
        ∧ StaysOpen d pool'.diskManager) fun e _ => e = .unixError := by
  have hfree' : pool.diskManager.openFds fd = none := by rw [hc.openFds, hfree]
  exact hx.imp (fun _ _ ho => ⟨ho, fun fd₀ path₀ hopen => staysOpen_update hfree' ho.openFds _ _
    (hc.staysOpen _ _ hopen)⟩) fun _ _ he => he.resolve_right hc.not_refused

/-- A call on the pool, in the course of one on the manager. -/
theorem ends_onPool {α : Type} {x : PoolM α} {P : α → BufferPoolManager → Prop}
    {E : RedBaseError → BufferPoolManager → Prop} (hx : Ends s.pool x P E) :
    Ends s (onPool x) (fun a s' => ∃ pool, s' = { s with pool := pool } ∧ P a pool)
      fun e s' => ∃ pool, s' = { s with pool := pool } ∧ E e pool := by
  refine ⟨fun a s' h => ?_, fun e s' h => ?_⟩
  · obtain ⟨pool, hrun, rfl⟩ := onPool_ok h
    exact ⟨pool, rfl, hx.returns a pool hrun⟩
  · obtain ⟨pool, hrun, rfl⟩ := onPool_error h
    exact ⟨pool, rfl, hx.throws e pool hrun⟩

end

end SmManager

end Rucbase
