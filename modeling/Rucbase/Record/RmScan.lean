import Rucbase.Record.RmRuns

/-!
# `RmScan`

`record/rm_scan.cpp`: a cursor over the records of a file, page by page and slot by slot. `next`
reads the page count once and the bitmap of every page when it gets there, so a scan sees what
other calls have done behind its back: what they do ahead of the cursor counts, what they do
behind it does not.
-/

namespace Rucbase

open Lib RmPageHandle RmFileHandle

/-- `RM_FIRST_RECORD_PAGE`. -/
def rmFirstRecordPage : Int := 1

/-- A scan. The file handle it points to is the state its functions run in. -/
structure RmScan where
  rid : Rid
deriving DecidableEq

/-- Rids by page, then by slot. -/
instance : LT Rid := ⟨fun a b => a.pageNo < b.pageNo ∨ (a.pageNo = b.pageNo ∧ a.slotNo < b.slotNo)⟩

theorem Rid.lt_iff {a b : Rid} :
    a < b ↔ a.pageNo < b.pageNo ∨ (a.pageNo = b.pageNo ∧ a.slotNo < b.slotNo) := Iff.rfl

theorem Rid.lt_trans {a b c : Rid} (h : a < b) (h' : b < c) : a < c := by
  rw [Rid.lt_iff] at *
  omega

theorem Rid.lt_irrefl (a : Rid) : ¬ a < a := by
  rw [Rid.lt_iff]
  omega

theorem Rid.eq_or_lt {a b : Rid} (h : ¬ a < b) : a = b ∨ b < a := by
  obtain ⟨p, i⟩ := a
  obtain ⟨q, j⟩ := b
  rw [Rid.lt_iff] at h ⊢
  rw [Rid.mk.injEq]
  dsimp only at h ⊢
  omega

namespace RmScan

/-- `is_end`. -/
def isEnd (scan : RmScan) : Bool := scan.rid.pageNo = rmNoPage

/-- Where a scan is left when there is nothing more. -/
def atEnd : RmScan := ⟨⟨rmNoPage, -1⟩⟩

/-- The loop of `next`, with at most `n` pages left. -/
def nextLoop (fileHdr : RmFileHdr) : Nat → Rid → RmM RmScan
  | 0, _ => return atEnd
  | n + 1, rid =>
      if rid.pageNo < fileHdr.numPages then do
        let no ← fetchPageHandle rid.pageNo
        let s ← get
        let slotNo := Bitmap.nextBit true (s.page no).toBuf bitmap fileHdr.slotsPerPage rid.slotNo
        unpinPage no
        if slotNo < fileHdr.slotsPerPage then
          return ⟨⟨rid.pageNo, slotNo⟩⟩
        else
          nextLoop fileHdr n ⟨rid.pageNo + 1, -1⟩
      else
        return atEnd

/-- `next`. -/
def next (scan : RmScan) : RmM RmScan := do
  let fileHdr := (← get).fileHdr
  nextLoop fileHdr (fileHdr.numPages - scan.rid.pageNo).toNat scan.rid

/-- The constructor. -/
def new : RmM RmScan := do
  let s ← get
  if s.fileHdr.numPages ≤ rmFirstRecordPage then
    return atEnd
  else
    next ⟨⟨rmFirstRecordPage, -1⟩⟩

/-! ## What `next` finds -/

variable {s : RmFileHandle} {free : List Int} {rid r : Rid} {d : PageData} {scan : RmScan}

/-- **The scan went from `rid` to the next record**: it skipped none. -/
structure Moved (s : RmFileHandle) (rid : Rid) (scan : RmScan) : Prop where
  skipped : ∀ r, rid < r → (scan.isEnd = false → r < scan.rid) → s.liveRecord r = none
  found : scan.isEnd = false → rid < scan.rid ∧ s.liveRecord scan.rid ≠ none

/-- A live rid has a slot of a page of the file. -/
theorem live_bounds (hi : RmInv s free) (h : s.liveRecord r ≠ none) :
    1 ≤ r.pageNo ∧ r.pageNo < s.fileHdr.numPages ∧ 0 ≤ r.slotNo
      ∧ r.slotNo < s.fileHdr.numRecordsPerPage := by
  obtain ⟨bytes, hb⟩ := Option.ne_none_iff_exists'.mp h
  obtain ⟨d, hp, h0, h1, _⟩ := liveRecord_eq_some hb
  have hno := hi.number hp
  rw [hi.counter]
  exact ⟨hno.1, hno.2.1, h0, h1⟩

theorem live_iff (hi : RmInv s free) (hp : s.store.pages r.pageNo = some d) :
    s.liveRecord r ≠ none ↔ 0 ≤ r.slotNo ∧ r.slotNo < s.fileHdr.slotsPerPage
      ∧ isSet d r.slotNo.toNat = true := by
  have hn := hi.layout.numRecordsPerPage_eq
  constructor
  · intro h
    obtain ⟨bytes, hb⟩ := Option.ne_none_iff_exists'.mp h
    obtain ⟨d', hp', h0, h1, hset, _⟩ := liveRecord_eq_some hb
    rw [hp, Option.some.injEq] at hp'
    exact ⟨h0, hn ▸ h1, hp' ▸ hset⟩
  · rintro ⟨h0, h1, hset⟩
    rw [liveRecord, slot_of_page hp h0 (hn ▸ h1), hset]
    simp

theorem moved_atEnd (h : ∀ r, rid < r → s.liveRecord r = none) : Moved s rid atEnd where
  skipped := fun r hr _ => h r hr
  found := fun h => absurd h (by decide)

/-- The slot `next_bit` answers on page `d`, behind slot `slotNo`. -/
def nextSlot (h : RmFileHdr) (d : PageData) (slotNo : Int) : Nat :=
  Bitmap.nextBit true d.toBuf bitmap h.slotsPerPage slotNo

/-- One round of the loop: a record on this page, or none and on to the next. -/
theorem nextLoop_round (hi : RmInv s free) {n : Nat} (hp : s.store.pages rid.pageNo = some d)
    (hlt : rid.pageNo < s.fileHdr.numPages) :
    (nextLoop s.fileHdr (n + 1) rid).run s =
      if nextSlot s.fileHdr d rid.slotNo < s.fileHdr.slotsPerPage then
        .ok ⟨⟨rid.pageNo, nextSlot s.fileHdr d rid.slotNo⟩⟩ s
      else (nextLoop s.fileHdr n ⟨rid.pageNo + 1, -1⟩).run s := by
  have hpage : (s.setPins (rid.pageNo :: s.store.pins)).page rid.pageNo = d := page_of_some hp
  rw [nextLoop, if_pos hlt, bind_ok (run_fetchPageHandle hi.enough hp), run_get_bind]
  dsimp only
  rw [hpage, run_unpinPage_bind rfl]
  unfold nextSlot
  split <;> rfl

/-- Behind the last page there is nothing. -/
theorem dead_past (hi : RmInv s free) (hle : s.fileHdr.numPages ≤ rid.pageNo) :
    Moved s rid atEnd := by
  refine moved_atEnd fun r hr => ?_
  by_contra hlive
  have := live_bounds hi hlive
  rw [Rid.lt_iff] at hr
  omega

/-- No record lies between a slot and the one `next_bit` answers. -/
theorem dead_between (hi : RmInv s free) (hp : s.store.pages rid.pageNo = some d)
    (h2 : -1 ≤ rid.slotNo) (hpage : r.pageNo = rid.pageNo) (hgt : rid.slotNo < r.slotNo)
    (hlt : r.slotNo < nextSlot s.fileHdr d rid.slotNo) : s.liveRecord r = none := by
  by_contra hlive
  obtain ⟨h0, hmax, hset⟩ := (live_iff hi (hpage ▸ hp)).mp hlive
  have hskip := (Bitmap.nextBit_spec true d.toBuf bitmap s.fileHdr.slotsPerPage h2).1
  exact hskip r.slotNo.toNat (by omega) (by unfold nextSlot at hlt; omega) (by omega) hset

/-- A record on this page. -/
theorem moved_here (hi : RmInv s free) (hp : s.store.pages rid.pageNo = some d)
    (h2 : -1 ≤ rid.slotNo) (hhit : nextSlot s.fileHdr d rid.slotNo < s.fileHdr.slotsPerPage) :
    Moved s rid ⟨⟨rid.pageNo, nextSlot s.fileHdr d rid.slotNo⟩⟩ := by
  obtain ⟨hgt, hset⟩ :=
    (Bitmap.nextBit_spec true d.toBuf bitmap s.fileHdr.slotsPerPage h2).2 hhit
  have hend : isEnd ⟨⟨rid.pageNo, nextSlot s.fileHdr d rid.slotNo⟩⟩ = false := by
    have hno := hi.number hp
    exact decide_eq_false hno.2.2.2
  refine ⟨fun r hr hbefore => ?_, fun _ => ⟨.inr ⟨rfl, hgt⟩, ?_⟩⟩
  · have hlt := hbefore hend
    rw [Rid.lt_iff] at hr hlt
    dsimp only at hlt
    exact dead_between hi hp h2 (by omega) (by omega) (by omega)
  · let hit : Rid := ⟨rid.pageNo, nextSlot s.fileHdr d rid.slotNo⟩
    have hp' : s.store.pages hit.pageNo = some d := hp
    exact (live_iff hi hp').mpr ⟨Int.natCast_nonneg _, Int.ofNat_lt.mpr hhit, hset⟩

/-- No record on this page: what is found behind it is the next one. -/
theorem Moved.past (hi : RmInv s free) (hp : s.store.pages rid.pageNo = some d)
    (h2 : -1 ≤ rid.slotNo) (hmiss : ¬ nextSlot s.fileHdr d rid.slotNo < s.fileHdr.slotsPerPage)
    (hmoved : Moved s ⟨rid.pageNo + 1, -1⟩ scan) : Moved s rid scan := by
  have hpast : rid < ⟨rid.pageNo + 1, -1⟩ := .inl (by dsimp only; omega)
  refine ⟨fun r hr hbefore => ?_, fun hend => ?_⟩
  · by_contra hlive
    obtain ⟨_, _, h0, hper⟩ := live_bounds hi hlive
    rw [hi.layout.numRecordsPerPage_eq] at hper
    rw [Rid.lt_iff] at hr
    by_cases hpage : r.pageNo = rid.pageNo
    · exact hlive (dead_between hi hp h2 hpage (by omega) (by omega))
    · refine hlive (hmoved.skipped r ?_ hbefore)
      rw [Rid.lt_iff]
      dsimp only
      omega
  · obtain ⟨hlt, hlive⟩ := hmoved.found hend
    exact ⟨Rid.lt_trans hpast hlt, hlive⟩

/-- **The loop skips no record**, whatever page and slot it starts behind. -/
theorem nextLoop_spec (hi : RmInv s free) : ∀ (n : Nat) (rid : Rid), 1 ≤ rid.pageNo →
    -1 ≤ rid.slotNo → s.fileHdr.numPages ≤ rid.pageNo + n →
      ∃ scan, (nextLoop s.fileHdr n rid).run s = .ok scan s ∧ Moved s rid scan := by
  intro n
  induction n with
  | zero =>
      intro rid _ _ hn
      exact ⟨atEnd, rfl, dead_past hi (by omega)⟩
  | succ n ih =>
      intro rid h1 h2 hn
      by_cases hlt : rid.pageNo < s.fileHdr.numPages
      · obtain ⟨d, hp⟩ := Option.isSome_iff_exists.mp
          ((hi.present rid.pageNo).mpr ⟨h1, hi.counter ▸ hlt⟩)
        rw [nextLoop_round hi hp hlt]
        split
        · rename_i hhit
          exact ⟨_, rfl, moved_here hi hp h2 hhit⟩
        · rename_i hmiss
          obtain ⟨scan, hrun, hmoved⟩ := ih ⟨rid.pageNo + 1, -1⟩ (show 1 ≤ rid.pageNo + 1 by omega)
            (le_refl _) (show s.fileHdr.numPages ≤ rid.pageNo + 1 + n by omega)
          exact ⟨scan, hrun, hmoved.past hi hp h2 hmiss⟩
      · rw [nextLoop, if_neg hlt]
        exact ⟨atEnd, rfl, dead_past hi (by omega)⟩

theorem next_spec (hi : RmInv s free) (h1 : 1 ≤ scan.rid.pageNo) (h2 : -1 ≤ scan.rid.slotNo) :
    ∃ scan', (next scan).run s = .ok scan' s ∧ Moved s scan.rid scan' := by
  unfold next
  rw [run_get_bind]
  exact nextLoop_spec hi _ scan.rid h1 h2 (by omega)

/-- The constructor goes to the first record. -/
theorem new_spec (hi : RmInv s free) :
    ∃ scan, new.run s = .ok scan s ∧ Moved s ⟨rmFirstRecordPage, -1⟩ scan := by
  unfold new
  rw [run_get_bind]
  by_cases hno : s.fileHdr.numPages ≤ rmFirstRecordPage
  · rw [if_pos hno]
    refine ⟨atEnd, rfl, moved_atEnd fun r _ => ?_⟩
    by_contra hlive
    have := live_bounds hi hlive
    unfold rmFirstRecordPage at hno
    omega
  · rw [if_neg hno]
    exact next_spec hi (le_refl _) (le_refl _)

/-- Every record lies behind where the constructor starts. -/
theorem first_lt (hi : RmInv s free) (h : s.liveRecord r ≠ none) :
    (⟨rmFirstRecordPage, -1⟩ : Rid) < r := by
  obtain ⟨h1, _, h0, _⟩ := live_bounds hi h
  rw [Rid.lt_iff]
  unfold rmFirstRecordPage
  dsimp only
  omega

end RmScan

end Rucbase
