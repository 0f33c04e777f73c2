import Rucbase.Record.RmRuns

/-!
# `insert_record` at a given rid

The second `insert_record` of `record/rm_file_handle.cpp` puts a record back where it was, and
is to add the page when there is none yet. It asks `rid.page_no < num_pages`, which is when the
page is there: it then adds one more, without unpinning it, and for the next page of the file it
adds none.
-/

namespace Rucbase

open Lib RmPageHandle

namespace RmFileHandle

/-- The rest of `insert_record(rid, buf)`, behind the `if`. -/
def recoverInto (rid : Rid) (buf : Nat → UInt8) : RmM Unit := do
  let no ← fetchPageHandle rid.pageNo
  modifyPage no fun d => setBit d rid.slotNo.toNat
  modifyPage no fun d => setNumRecords d (numRecords d + 1)
  let s ← get
  onlyIf (numRecords (s.page no) = s.fileHdr.numRecordsPerPage)
    (modify fun s => { s with fileHdr := { s.fileHdr with
      firstFreePageNo := nextFreePageNo (s.page no) } })
  modifyPage no fun d => putRecord s.fileHdr d rid.slotNo.toNat buf
  unpinPage no

/-- `insert_record(rid, buf)`. -/
def insertRecordAt (rid : Rid) (buf : Nat → UInt8) : RmM Unit := do
  let s ← get
  onlyIf (rid.pageNo < s.fileHdr.numPages) (do let _ ← createNewPageHandle)
  recoverInto rid buf

/-- A rid to recover a record at: a free slot, or a slot of the page the file gets next. -/
def Insertable (s : RmFileHandle) (rid : Rid) : Prop :=
  0 ≤ rid.slotNo ∧ rid.slotNo < s.fileHdr.numRecordsPerPage
    ∧ (rid.pageNo = s.fileHdr.numPages
      ∨ (rid.pageNo < s.fileHdr.numPages ∧ ∃ bytes, s.slot rid = some (false, bytes)))

/-- The record is there, and nothing else has changed but what it takes. -/
structure Exact (s : RmFileHandle) (rid : Rid) (buf : Nat → UInt8) (t : RmFileHandle) : Prop where
  returns : (insertRecordAt rid buf).run s = .ok ⟨⟩ t
  reads : ∃ u, (getRecord rid).run t = .ok (bytesOf s.fileHdr buf) u
  others : ∀ r, r ≠ rid → t.liveRecord r = s.liveRecord r
  /-- A page is allocated if and only if the rid's is not there. -/
  alloc : t.store.nextPageNo = s.store.nextPageNo + 1 ↔ s.fileHdr.numPages ≤ rid.pageNo
  counts : ∀ no d, t.store.pages no = some d → numRecords d = liveCount t.fileHdr d
  chain : ∃ free, Chain t.link rmNoPage t.fileHdr.firstFreePageNo free ∧ free.Nodup
    ∧ ∀ no, no ∈ free ↔
      ∃ d, t.store.pages no = some d ∧ numRecords d < t.fileHdr.numRecordsPerPage
  pins : ∀ no, t.store.pins.count no = s.store.pins.count no

variable {s t : RmFileHandle} {no : Int} {d : PageData} {buf : Nat → UInt8} {rid : Rid}
  {free : List Int} {rs : Int}

/-! ## What it allocates -/

/-- `fd2pageno_`, as the store has it. -/
abbrev counter (s : RmFileHandle) : Nat := s.store.nextPageNo

theorem leaves_fetchPageHandle (no : Int) : Leaves counter (fetchPageHandle no) := by
  intro s a t h
  unfold fetchPageHandle at h
  rw [run_get_bind] at h
  cases hf : s.store.fetchPage no with
  | error e =>
      rw [hf] at h
      exact absurd h (by simp)
  | ok r =>
      rw [hf] at h
      cases r with
      | none => exact absurd h (by simp)
      | some u =>
          dsimp only at h
          rw [run_set_bind, EStateM.run_pure, EStateM.Result.ok.injEq] at h
          rw [← h.2, counter, (PageStore.of_fetchPage hf).2]

theorem leaves_modifyPage (no : Int) (f : PageData → PageData) :
    Leaves counter (modifyPage no f) := .modify fun _ => rfl

theorem leaves_recoverInto (rid : Rid) (buf : Nat → UInt8) :
    Leaves counter (recoverInto rid buf) := by
  refine (leaves_fetchPageHandle _).bind fun no => (leaves_modifyPage _ _).bind fun _ => ?_
  refine (leaves_modifyPage _ _).bind fun _ => .get_bind fun s => .bind ?_ fun _ => ?_
  · exact .onlyIf (.modify fun _ => rfl)
  · exact (leaves_modifyPage _ _).bind fun _ => .modify fun _ => rfl

theorem of_createNewPageHandle (h : createNewPageHandle.run s = .ok no t) :
    t.store.nextPageNo = s.store.nextPageNo + 1 := by
  unfold createNewPageHandle at h
  rw [run_get_bind] at h
  cases hn : s.store.newPage zeroPage with
  | none =>
      rw [hn] at h
      exact absurd h (by simp)
  | some r =>
      rw [hn] at h
      dsimp only at h
      rw [run_set_bind] at h
      obtain ⟨_, u, hmod, hrest⟩ := bind_eq_ok.mp h
      have hkept : u.store.nextPageNo = r.2.nextPageNo := leaves_modifyPage _ _ _ _ _ hmod
      have hnew : r.2.nextPageNo = s.store.nextPageNo + 1 := by
        rw [(PageStore.of_newPage (show s.store.newPage zeroPage = some (r.1, r.2) from hn)).2]
      split at hrest
      · exact absurd hrest (by simp)
      · rw [run_modify_bind, EStateM.run_pure, EStateM.Result.ok.injEq] at hrest
        rw [← hrest.2]
        exact hkept.trans hnew

/-- **It allocates when the page is there, and only then.** -/
theorem insertRecordAt_counter (h : (insertRecordAt rid buf).run s = .ok ⟨⟩ t) :
    t.store.nextPageNo = if rid.pageNo < s.fileHdr.numPages then s.store.nextPageNo + 1
      else s.store.nextPageNo := by
  unfold insertRecordAt at h
  rw [run_get_bind] at h
  by_cases hlt : rid.pageNo < s.fileHdr.numPages
  · rw [onlyIf_pos hlt] at h
    obtain ⟨_, u, hnew, hrest⟩ := bind_eq_ok.mp h
    obtain ⟨no, v, hcreate, hpure⟩ := bind_eq_ok.mp hnew
    rw [EStateM.run_pure, EStateM.Result.ok.injEq] at hpure
    rw [if_pos hlt, ← of_createNewPageHandle hcreate, hpure.2]
    exact leaves_recoverInto rid buf _ _ _ hrest
  · rw [onlyIf_neg hlt, run_pure_bind] at h
    rw [if_neg hlt]
    exact leaves_recoverInto rid buf _ _ _ h

/-! ## What it does to a file in order -/

/-- The page after the tail of `insert_record(rid, buf)`. -/
def recoveredPage (h : RmFileHdr) (d : PageData) (k : Nat) (buf : Nat → UInt8) : PageData :=
  putRecord h (setNumRecords (setBit d k) (numRecords (setBit d k) + 1)) k buf

theorem run_putAndUnpin {f : PageData → PageData} {rest : List Int}
    (hp : s.store.pages no = some d) (hpins : s.store.pins = no :: rest) :
    (do modifyPage no f; unpinPage no).run s = .ok ⟨⟩ ((s.setPage no (f d)).setPins rest) := by
  rw [run_modifyPage_bind hp]
  exact run_unpinPage hpins

theorem run_recoverInto (he : s.store.frames = none) (hp : s.store.pages rid.pageNo = some d) :
    ∃ first, (recoverInto rid buf).run s = .ok ⟨⟩
      ((s.setPage rid.pageNo (recoveredPage s.fileHdr d rid.slotNo.toNat buf)).setFirst first) := by
  have hp' : (s.setPins (rid.pageNo :: s.store.pins)).store.pages rid.pageNo = some d := hp
  unfold recoverInto
  rw [bind_ok (run_fetchPageHandle he hp), run_modifyPage_bind hp',
    run_modifyPage_bind pages_setPage, setPage_setPage, run_get_bind]
  by_cases hfull : numRecords (setNumRecords (setBit d rid.slotNo.toNat)
      (numRecords (setBit d rid.slotNo.toNat) + 1)) = s.fileHdr.numRecordsPerPage
  · rw [onlyIf_pos (by rwa [page_setPage]), run_modify_bind, page_setPage]
    refine ⟨nextFreePageNo (setNumRecords (setBit d rid.slotNo.toNat)
      (numRecords (setBit d rid.slotNo.toNat) + 1)), ?_⟩
    refine (run_putAndUnpin (Function.update_self ..) rfl).trans ?_
    simp only [setPage, PageStore.setPage, setPins, Function.update_idem]
    rfl
  · rw [onlyIf_neg (by rwa [page_setPage]), run_pure_bind, run_putAndUnpin pages_setPage rfl,
      setPage_setPage]
    exact ⟨s.fileHdr.firstFreePageNo, rfl⟩

/-- A rid on a page of the file: one page more, which stays pinned. -/
theorem RmInv.recover_present (hi : RmInv s free) (hp : s.store.pages rid.pageNo = some d)
    (hmax : s.fileHdr.numPages ≠ 2147483647) :
    ∃ t, (insertRecordAt rid buf).run s = .ok ⟨⟩ t
      ∧ t.store.nextPageNo = s.store.nextPageNo + 1
      ∧ t.store.pins = (s.store.nextPageNo : Int) :: s.store.pins := by
  obtain ⟨_, hlt, _, _⟩ := hi.number hp
  have hpage : (s.grown.setPins ((s.store.nextPageNo : Int) :: s.store.pins)).store.pages
      rid.pageNo = some d :=
    (Function.update_of_ne hlt.ne ..).trans hp
  obtain ⟨first, hrest⟩ : ∃ first, (recoverInto rid buf).run
      (s.grown.setPins ((s.store.nextPageNo : Int) :: s.store.pins)) = .ok ⟨⟩
        (((s.grown.setPins ((s.store.nextPageNo : Int) :: s.store.pins)).setPage rid.pageNo
          (recoveredPage s.fileHdr d rid.slotNo.toNat buf)).setFirst first) :=
    run_recoverInto hi.enough hpage
  refine ⟨_, Eq.trans ?_ hrest, rfl, rfl⟩
  unfold insertRecordAt
  rw [run_get_bind, onlyIf_pos (show rid.pageNo < s.fileHdr.numPages from hi.counter ▸ hlt),
    bind_assoc, bind_ok (run_createNewPageHandle (PageStore.exhausted_none hi.enough) hmax),
    run_pure_bind]

/-- A rid on the next page: none is added, and there is none to fetch. -/
theorem RmInv.recover_next (hi : RmInv s free) (hnext : rid.pageNo = s.fileHdr.numPages) :
    (insertRecordAt rid buf).run s = .error .unixError s := by
  have hnone : s.store.pages rid.pageNo = none := by
    rw [← Option.not_isSome_iff_eq_none, hi.present, hnext, hi.counter]
    omega
  have hfetch : s.store.fetchPage rid.pageNo = .error .unixError := by
    rw [PageStore.fetchPage, if_neg (by simp [PageStore.exhausted_none hi.enough]), hnone]
  unfold insertRecordAt recoverInto fetchPageHandle
  rw [run_get_bind, onlyIf_neg (by omega), run_pure_bind, bind_assoc, run_get_bind, hfetch]
  rfl

/-! ## The result -/

/-- **`insert_record(rid, buf)` is never exact**: not for a free slot of the file and not for a slot
of its next page, whatever the state. In a file that calls have left in order the first adds a
page that stays pinned, and the second raises. -/
theorem insertRecordAt_never_exact (rid : Rid) (buf : Nat → UInt8) :
    (∀ s, Insertable s rid → ∀ t, ¬ Exact s rid buf t)
      ∧ ∀ rs history w, 1 ≤ rs → rs ≤ rmMaxRecordSize → RmWorld.Calls rs history w →
        Insertable w.file rid →
          (rid.pageNo < w.file.fileHdr.numPages → w.file.fileHdr.numPages ≠ 2147483647 →
            ∃ t, (insertRecordAt rid buf).run w.file = .ok ⟨⟩ t
              ∧ t.store.nextPageNo = w.file.store.nextPageNo + 1
              ∧ t.store.pins = (w.file.store.nextPageNo : Int) :: w.file.store.pins)
          ∧ (rid.pageNo = w.file.fileHdr.numPages →
            (insertRecordAt rid buf).run w.file = .error .unixError w.file) := by
  constructor
  · intro s hrid t ht
    have hcounter := insertRecordAt_counter ht.returns
    have halloc := ht.alloc
    rw [hcounter] at halloc
    obtain ⟨_, _, hnext | ⟨hlt, _⟩⟩ := hrid
    · rw [if_neg (by omega)] at halloc
      omega
    · rw [if_pos hlt] at halloc
      omega
  · intro rs history w h1 h2 hrun hrid
    obtain ⟨free, hi⟩ := (RmWorld.agrees_run h1 h2 hrun).inv
    obtain ⟨_, _, hnext | ⟨hlt, bytes, hslot⟩⟩ := hrid
    · exact ⟨fun hlt => by omega, fun _ => hi.recover_next hnext⟩
    · refine ⟨fun _ hmax => ?_, fun hnext => by omega⟩
      obtain ⟨d, hp⟩ : ∃ d, w.file.store.pages rid.pageNo = some d := by
        rw [← Option.isSome_iff_exists]
        by_contra hnone
        rw [Option.not_isSome_iff_eq_none] at hnone
        rw [slot, hnone] at hslot
        exact absurd hslot (by simp)
      exact hi.recover_present hp hmax

/-- A file with one record: the slot beside it, and the first slot of the next page. -/
theorem oneRecord_run : ∃ history w, RmWorld.Calls 512 history w ∧ Insertable w.file ⟨1, 1⟩
    ∧ Insertable w.file ⟨2, 0⟩ ∧ w.file.fileHdr.numPages = 2 ∧ w.file.store.pins = [] := by
  obtain ⟨history, w, hrun, hpages, hper, hpins, hslot⟩ : ∃ history w,
      RmWorld.Calls 512 history w ∧ w.file.fileHdr.numPages = 2
        ∧ w.file.fileHdr.numRecordsPerPage = 7 ∧ w.file.store.pins = []
        ∧ (w.file.slot ⟨1, 1⟩).map Prod.fst = some false :=
    Run.exists_of_replay (RmWorld.step 512) [.insert fun _ => 1] (by decide +kernel)
  obtain ⟨⟨_, bytes⟩, hsome, rfl⟩ := Option.map_eq_some_iff.mp hslot
  refine ⟨history, w, hrun, ⟨by decide, ?_, .inr ⟨?_, bytes, hsome⟩⟩,
    ⟨by decide, ?_, .inl hpages.symm⟩, hpages, hpins⟩
  · exact hper ▸ (by decide)
  · exact hpages ▸ (by decide)
  · exact hper ▸ (by decide)

/-- Recovering a record beside the other one adds page 2 and keeps it pinned. -/
theorem insertRecordAt_not_exact : ∃ history w, RmWorld.Calls 512 history w
    ∧ Insertable w.file ⟨1, 1⟩ ∧ (∀ t, ¬ Exact w.file ⟨1, 1⟩ (fun _ => 2) t)
    ∧ ∃ t, (insertRecordAt ⟨1, 1⟩ fun _ => 2).run w.file = .ok ⟨⟩ t
      ∧ w.file.store.nextPageNo = 2 ∧ t.store.nextPageNo = 3 ∧ t.store.pins.count 2 = 1 := by
  obtain ⟨history, w, hrun, hin, _, hpages, hpins⟩ := oneRecord_run
  obtain ⟨free, hi⟩ := (RmWorld.agrees_run (by decide) (by decide) hrun).inv
  have hcounter : (w.file.store.nextPageNo : Int) = 2 := hi.counter.symm.trans hpages
  have hnew : w.file.store.nextPageNo = 2 := by omega
  obtain ⟨d, hp⟩ := Option.isSome_iff_exists.mp ((hi.present 1).mpr ⟨le_refl _, by omega⟩)
  obtain ⟨t, hins, hcount, hpin⟩ : ∃ t,
      (insertRecordAt ⟨1, 1⟩ fun _ => 2).run w.file = .ok ⟨⟩ t
        ∧ t.store.nextPageNo = w.file.store.nextPageNo + 1
        ∧ t.store.pins = (w.file.store.nextPageNo : Int) :: w.file.store.pins :=
    hi.recover_present hp (by omega)
  refine ⟨history, w, hrun, hin, fun u hu => ?_, t, hins, hnew, by omega, ?_⟩
  · -- a page more, for a page that was there
    have hlt : (1 : Int) < w.file.fileHdr.numPages := by omega
    have hle : w.file.fileHdr.numPages ≤ 1 :=
      hu.alloc.mp (by rw [insertRecordAt_counter hu.returns, if_pos hlt])
    omega
  · rw [hpin, hpins, hnew]
    decide

/-- The result for the slot beside the record and for the next page. -/
theorem insertRecordAt_never_exact_one : ∃ history w, RmWorld.Calls 512 history w
    ∧ (∀ t, ¬ Exact w.file ⟨1, 1⟩ (fun _ => 2) t)
    ∧ (insertRecordAt ⟨2, 0⟩ fun _ => 2).run w.file = .error .unixError w.file := by
  obtain ⟨history, w, hrun, hin, hnext, hpages, _⟩ := oneRecord_run
  refine ⟨history, w, hrun, (insertRecordAt_never_exact _ _).1 _ hin, ?_⟩
  have hdoes := (insertRecordAt_never_exact ⟨2, 0⟩ fun _ => 2).2 512 history w
  exact (hdoes (by decide) (by decide) hrun hnext).2 hpages.symm

end RmFileHandle

end Rucbase
