import Rucbase.Lib.Run
import Rucbase.Record.RmRecords

/-!
# Runs of a record file

Sequences of `insert_record`, `update_record`, `delete_record` and `get_record` on a file that
was just created and opened, beside the map they are meant to maintain. The calls that name a
record are only made on rids that hold one by that map. In every state reached, file and map
agree, and the free chain is in order.
-/

namespace Rucbase

open Lib RmPageHandle RmFileHandle

/-- The calls. -/
inductive RmOp where
  | insert (buf : Nat → UInt8)
  | update (rid : Rid) (buf : Nat → UInt8)
  | delete (rid : Rid)
  | get (rid : Rid)

/-- What they return. -/
inductive RmRet where
  | rid (rid : Rid)
  | bytes (bytes : List UInt8)
  | unit
deriving DecidableEq

/-- A record file, and the map from rids to records that the calls made so far amount to. -/
structure RmWorld where
  file : RmFileHandle
  records : Rid → Option (List UInt8)

namespace RmWorld

variable {rs : Int} {w w' : RmWorld} {op : RmOp} {ret : RmRet} {history : List (RmOp × RmRet)}

/-- `create_file` with a record size, then `open_file`. -/
def created (rs : Int) : RmWorld := ⟨opened rs, fun _ => none⟩

/-- A call, with its answer. -/
def exec : RmOp → RmM RmRet
  | .insert buf => do return .rid (← insertRecord buf)
  | .update rid buf => do
      updateRecord rid buf
      return .unit
  | .delete rid => do
      deleteRecord rid
      return .unit
  | .get rid => do return .bytes (← getRecord rid)

/-- The rids a call may be made on: `update`, `delete` and `get` need a record. -/
def allowed (w : RmWorld) : RmOp → Bool
  | .insert _ => true
  | .update rid _ | .delete rid | .get rid => (w.records rid).isSome

/-- The record made of the first `rs` bytes of a buffer. -/
def payload (rs : Int) (buf : Nat → UInt8) : List UInt8 := (List.range rs.toNat).map buf

/-- What a call does to the map. -/
def after (rs : Int) (records : Rid → Option (List UInt8)) :
    RmOp → RmRet → Rid → Option (List UInt8)
  | .insert buf, .rid rid => Function.update records rid (some (payload rs buf))
  | .update rid buf, _ => Function.update records rid (some (payload rs buf))
  | .delete rid, _ => Function.update records rid none
  | _, _ => records

/-- One call on the file and on the map. -/
def step (rs : Int) (w : RmWorld) (op : RmOp) : Option (RmRet × RmWorld) :=
  if w.allowed op then
    match (exec op).run w.file with
    | .ok ret file => some (ret, ⟨file, after rs w.records op ret⟩)
    | .error _ _ => none
  else none

/-- Calls, one after the other. -/
abbrev Calls (rs : Int) (history : List (RmOp × RmRet)) (w : RmWorld) : Prop :=
  Run (Run.Asks (step rs)) (created rs) history w

/-- **File and map agree**, and the free chain is in order. -/
structure Agrees (rs : Int) (w : RmWorld) : Prop where
  inv : ∃ free, RmInv w.file free
  size : w.file.fileHdr.recordSize = rs
  records : w.file.liveRecord = w.records

theorem step_ok (hop : w.allowed op) {file : RmFileHandle}
    (hrun : (exec op).run w.file = .ok ret file) :
    step rs w op = some (ret, ⟨file, after rs w.records op ret⟩) := by
  rw [step, if_pos hop, hrun]

/-- A step is a call that is allowed and returns. -/
theorem step_eq_some (h : step rs w op = some (ret, w')) :
    w.allowed op ∧ (exec op).run w.file = .ok ret w'.file
      ∧ w'.records = after rs w.records op ret := by
  unfold step at h
  by_cases hop : w.allowed op
  · rw [if_pos hop] at h
    cases hrun : (exec op).run w.file with
    | error e t => simp [hrun] at h
    | ok r t =>
        simp only [hrun, Option.some.injEq, Prod.mk.injEq] at h
        obtain ⟨rfl, rfl⟩ := h
        exact ⟨hop, rfl, rfl⟩
  · rw [if_neg hop] at h
    exact absurd h (by simp)

/-! ## The empty file -/

/-- The header survives page 0: its fields are 32-bit integers. -/
theorem ofBuf_toBuf {h : RmFileHdr} (h1 : IsInt32 h.recordSize) (h2 : IsInt32 h.numPages)
    (h3 : IsInt32 h.numRecordsPerPage) (h4 : IsInt32 h.firstFreePageNo)
    (h5 : IsInt32 h.bitmapSize) : RmFileHdr.ofBuf h.toBuf = h := by
  obtain ⟨a, b, c, d, e⟩ := h
  unfold RmFileHdr.ofBuf RmFileHdr.toBuf
  simp only [int32At_putInt32 h5, int32At_putInt32_of_disjoint, int32At_putInt32 h4,
    int32At_putInt32 h3, int32At_putInt32 h2, int32At_putInt32 h1, Nat.reduceAdd, Nat.reduceLeDiff,
    le_refl, or_false]

/-- Size, slots and bitmap always fit; that leaves the two fields that change. -/
theorem ofBuf_toBuf_of_sound {h : RmFileHdr} (hl : h.SoundLayout) (hpages : IsInt32 h.numPages)
    (hfirst : IsInt32 h.firstFreePageNo) : RmFileHdr.ofBuf h.toBuf = h := by
  have hb := hl.slotsPerPage_bounds
  have hn := hl.numRecordsPerPage_eq
  have hm := hl.bitmapSize_eq
  have h1 := hl.one_le
  have h2 := hl.le_max
  unfold rmMaxRecordSize at h2
  refine ofBuf_toBuf ?_ hpages ?_ hfirst ?_
  · unfold IsInt32
    omega
  · unfold IsInt32
    omega
  · have : 0 ≤ h.bitmapSize := by
      rw [hl.bitmap]
      exact Int.natCast_nonneg _
    unfold IsInt32
    omega

theorem opened_fileHdr (h1 : 1 ≤ rs) (h2 : rs ≤ rmMaxRecordSize) :
    (opened rs).fileHdr = .initial rs :=
  ofBuf_toBuf_of_sound (.initial h1 h2) (by decide : IsInt32 1) (by decide : IsInt32 rmNoPage)

/-- The file starts with no page and an empty chain. -/
theorem agrees_created (h1 : 1 ≤ rs) (h2 : rs ≤ rmMaxRecordSize) : Agrees rs (created rs) := by
  have hhdr := opened_fileHdr h1 h2
  have hcounter : (opened rs).store.nextPageNo = (opened rs).fileHdr.numPages.toNat := rfl
  rw [hhdr] at hcounter
  have hone : (opened rs).store.nextPageNo = 1 := hcounter
  refine ⟨⟨[], ?_⟩, ?_, ?_⟩
  · refine ⟨?_, rfl, ?_, ?_, ?_, ?_, ?_, ?_, List.nodup_nil, ?_⟩
    · exact (show (opened rs).fileHdr.SoundLayout from hhdr ▸ .initial h1 h2)
    · show (opened rs).fileHdr.numPages = ((opened rs).store.nextPageNo : Int)
      rw [hhdr, hone]
      rfl
    · exact hone.ge
    · show (opened rs).store.nextPageNo ≤ 2147483647
      omega
    · intro no
      show (none : Option PageData).isSome ↔ 1 ≤ no ∧ no < ((opened rs).store.nextPageNo : Int)
      rw [hone]
      simp only [Option.isSome_none, Bool.false_eq_true, false_iff]
      omega
    · intro no d hd
      exact absurd hd (by simp [created, opened])
    · show Chain _ rmNoPage (opened rs).fileHdr.firstFreePageNo []
      rw [hhdr]
      exact .nil
    · intro no
      simp [created, opened]
  · show (opened rs).fileHdr.recordSize = rs
    rw [hhdr]
    rfl
  · funext rid
    rfl

/-! ## The calls, one by one -/

/-- A new page is needed and can be counted, or there is a page with room. -/
def Room (w : RmWorld) : Prop :=
  ¬ (w.file.fileHdr.numPages = 2147483647 ∧ w.file.fileHdr.firstFreePageNo = rmNoPage)

/-- Every slot but that of `rid` is as it was. -/
def OthersKept (w : RmWorld) (rid : Rid) (w' : RmWorld) : Prop :=
  ∀ r, r ≠ rid → (w.file.slot r ≠ none → w'.file.slot r = w.file.slot r)
    ∧ w'.file.liveRecord r = w.file.liveRecord r

/-- What a call answers and what it leaves alone. -/
def Answers (w : RmWorld) (ret : RmRet) (w' : RmWorld) : RmOp → Prop
  | .insert _ => ∃ rid, ret = .rid rid ∧ w.records rid = none
      ∧ 1 ≤ rid.pageNo ∧ rid.pageNo < w'.file.fileHdr.numPages
      ∧ 0 ≤ rid.slotNo ∧ rid.slotNo < w'.file.fileHdr.numRecordsPerPage
      ∧ OthersKept w rid w'
  | .update rid _ => ret = .unit ∧ OthersKept w rid w'
  | .delete rid => ret = .unit ∧ OthersKept w rid w'
  | .get rid => (∃ bytes, w.records rid = some bytes ∧ ret = .bytes bytes) ∧ w'.file = w.file

theorem othersKept_of_update {rid : Rid} {x : Option (Bool × List UInt8)}
    (h : w'.file.slot = Function.update w.file.slot rid x) : OthersKept w rid w' := by
  intro r hr
  have hslot : w'.file.slot r = w.file.slot r := by
    rw [h, Function.update_of_ne hr]
  exact ⟨fun _ => hslot, liveRecord_congr hslot⟩

/-- `insert_record`, with the pages that had room. -/
theorem insert_step (ha : Agrees rs w) (hroom : w.Room) (buf : Nat → UInt8) :
    ∃ rid w' free, step rs w (.insert buf) = some (.rid rid, w') ∧ Agrees rs w'
      ∧ RmInv w.file free ∧ Inserted free w.file buf rid w'.file := by
  obtain ⟨free, hi⟩ := ha.inv
  have hfree : free ≠ [] ∨ w.file.fileHdr.numPages ≠ 2147483647 := by
    by_contra hno
    rw [not_or, not_not, not_not] at hno
    refine hroom ⟨hno.2, ?_⟩
    have hchain := hi.chain
    rw [hno.1] at hchain
    by_contra hne
    obtain ⟨_, _, hcons, _⟩ := hchain.of_ne hne
    exact absurd hcons (by simp)
  obtain ⟨rid, file, hrun, hins⟩ := insertRecord_spec hi hfree
  have hexec : (exec (.insert buf)).run w.file = .ok (.rid rid) file := bind_ok hrun
  refine ⟨rid, _, free, step_ok rfl hexec, ⟨hins.keeps, hins.size.trans ha.size, ?_⟩, hi, hins⟩
  show file.liveRecord = Function.update w.records rid (some (payload rs buf))
  rw [hins.live, ha.records, bytesOf, ha.size]
  rfl

/-- Without room `insert_record` does not return. -/
theorem insert_none (ha : Agrees rs w) (hroom : ¬ w.Room) (buf : Nat → UInt8) :
    step rs w (.insert buf) = none := by
  obtain ⟨free, hi⟩ := ha.inv
  unfold Room at hroom
  rw [not_not] at hroom
  have hnil : free = [] := (hroom.2 ▸ hi.chain).of_stop
  obtain ⟨t, ht⟩ := run_insertRecord_overflow (hnil ▸ hi) hroom.1
  have hexec : (exec (.insert buf)).run w.file = .error .undefinedBehaviour t :=
    bind_eq_error.mpr (.inl ht)
  rw [step, if_pos (show w.allowed (.insert buf) = true from rfl), hexec]

/-- **Every call that is allowed and has room returns**, with the answer it owes. -/
theorem step_spec (ha : Agrees rs w) (hop : w.allowed op)
    (hroom : ∀ buf, op = .insert buf → w.Room) :
    ∃ ret w', step rs w op = some (ret, w') ∧ Agrees rs w' ∧ Answers w ret w' op := by
  cases op with
  | insert buf =>
      obtain ⟨rid, w', free, hstep, ha', _, hins⟩ := insert_step ha (hroom buf rfl) buf
      refine ⟨_, w', hstep, ha', rid, rfl, ?_, hins.page.1, hins.page.2, hins.slot.1,
        hins.slot.2, ?_⟩
      · rw [← ha.records]
        exact hins.dead
      · intro r hr
        refine ⟨hins.others r hr, ?_⟩
        rw [hins.live, Function.update_of_ne hr]
  | update rid buf =>
      obtain ⟨bytes, hb⟩ := Option.isSome_iff_exists.mp hop
      obtain ⟨free, hi⟩ := ha.inv
      obtain ⟨file, hrun, hinv, hhdr, hslot⟩ :=
        updateRecord_spec hi ((congrFun ha.records rid).trans hb)
      have hexec : (exec (.update rid buf)).run w.file = .ok .unit file := bind_ok hrun
      refine ⟨_, _, step_ok hop hexec, ⟨⟨free, hinv⟩, ?_, ?_⟩, rfl, othersKept_of_update hslot⟩
      · exact (congrArg _ hhdr).trans ha.size
      · show file.liveRecord = Function.update w.records rid (some (payload rs buf))
        rw [liveRecord_update_live hslot, ha.records, bytesOf, ha.size]
        rfl
  | delete rid =>
      obtain ⟨bytes, hb⟩ := Option.isSome_iff_exists.mp hop
      obtain ⟨free, hi⟩ := ha.inv
      obtain ⟨file, free', hrun, hinv, hsize, hslot⟩ :=
        deleteRecord_spec hi ((congrFun ha.records rid).trans hb)
      have hexec : (exec (.delete rid)).run w.file = .ok .unit file := bind_ok hrun
      refine ⟨_, _, step_ok hop hexec, ⟨⟨free', hinv⟩, hsize.trans ha.size, ?_⟩, rfl,
        othersKept_of_update hslot⟩
      show file.liveRecord = Function.update w.records rid none
      rw [liveRecord_update_dead hslot, ha.records]
  | get rid =>
      obtain ⟨bytes, hb⟩ := Option.isSome_iff_exists.mp hop
      obtain ⟨free, hi⟩ := ha.inv
      have hrun := getRecord_spec hi ((congrFun ha.records rid).trans hb)
      have hexec : (exec (.get rid)).run w.file = .ok (.bytes bytes) w.file := bind_ok hrun
      exact ⟨_, _, step_ok hop hexec, ⟨ha.inv, ha.size, ha.records⟩, ⟨bytes, hb, rfl⟩, rfl⟩

/-- A call that returns had room. -/
theorem room_of_step (ha : Agrees rs w) (h : step rs w op = some (ret, w')) :
    ∀ buf, op = .insert buf → w.Room := by
  rintro buf rfl
  by_contra hroom
  rw [insert_none ha hroom buf] at h
  exact absurd h (by simp)

/-- **The step lemma.** -/
theorem agrees_step (ha : Agrees rs w) (h : step rs w op = some (ret, w')) :
    Agrees rs w' ∧ Answers w ret w' op := by
  obtain ⟨ret₁, w₁, h₁, ha₁, hans₁⟩ := step_spec ha (step_eq_some h).1 (room_of_step ha h)
  rw [h₁, Option.some.injEq, Prod.mk.injEq] at h
  obtain ⟨rfl, rfl⟩ := h
  exact ⟨ha₁, hans₁⟩

/-- **The run lemma.** -/
theorem agrees_run (h1 : 1 ≤ rs) (h2 : rs ≤ rmMaxRecordSize) (hrun : Calls rs history w) :
    Agrees rs w := by
  refine hrun.invariant (agrees_created h1 h2) ?_
  intro t l t' ht hl
  exact (agrees_step ht hl).1

end RmWorld

/-! ## The results -/

section

variable {rs : Int} {history : List (RmOp × RmRet)} {w : RmWorld}

/-- Eight inserts, a delete on the first page, an update on the second, and an insert. -/
def fillAndReuse : List RmOp :=
  (List.range 8).map (fun i => .insert fun _ => .ofNat i)
    ++ [.delete ⟨1, 3⟩, .update ⟨2, 0⟩ (fun _ => 9), .get ⟨2, 0⟩, .insert (fun _ => 10)]

/-- Seven records of 512 bytes fill a page; the eighth opens a second one, and the slot freed in
the first is used again. -/
theorem fillAndReuse_run : ∃ history w, RmWorld.Calls 512 history w
    ∧ (history.map Prod.snd).head? = some (.rid ⟨1, 3⟩) :=
  Run.exists_of_replay (RmWorld.step 512) fillAndReuse (by decide +kernel)

/-- **A record file is a map from rids to records.** In every state a run reaches, the records
read off the page bytes are those of the map; every call answers by the map and leaves the
slots of other rids as they are; every call returns, but for an insert that would need more
pages than `num_pages` can count; and header, bitmap and slots do not overlap. -/
theorem record_file_refines_map (h1 : 1 ≤ rs) (h2 : rs ≤ rmMaxRecordSize)
    (hrun : RmWorld.Calls rs history w) :
    w.file.liveRecord = w.records
      ∧ (∀ op ret w', RmWorld.step rs w op = some (ret, w') →
          RmWorld.Answers w ret w' op ∧ w'.file.liveRecord = w'.records)
      ∧ (∀ op, w.allowed op → (∀ buf, op = .insert buf → w.Room) →
          ∃ ret w', RmWorld.step rs w op = some (ret, w'))
      ∧ (∀ k, k < w.file.fileHdr.slotsPerPage →
          bitmap + Bitmap.getBucket k < slots w.file.fileHdr
            ∧ slots w.file.fileHdr ≤ getSlot w.file.fileHdr k
            ∧ getSlot w.file.fileHdr k + rs.toNat ≤ pageSize
            ∧ ∀ l, l < k → getSlot w.file.fileHdr l + rs.toNat ≤ getSlot w.file.fileHdr k) := by
  have ha := RmWorld.agrees_run h1 h2 hrun
  obtain ⟨free, hi⟩ := ha.inv
  refine ⟨ha.records, ?_, ?_, ?_⟩
  · intro op ret w' hstep
    obtain ⟨ha', hans⟩ := RmWorld.agrees_step ha hstep
    exact ⟨hans, ha'.records⟩
  · intro op hop hroom
    obtain ⟨ret, w', hstep, _, _⟩ := RmWorld.step_spec ha hop hroom
    exact ⟨ret, w', hstep⟩
  · intro k hk
    refine ⟨(hi.layout.bit_inside hk).1, Nat.le_add_right _ _, ?_, ?_⟩
    · have hend : getSlot w.file.fileHdr (k + 1) ≤ pageSize :=
        (RmFileHdr.SoundLayout.getSlot_mono hk).trans hi.layout.fits
      rwa [RmFileHdr.SoundLayout.getSlot_succ, ha.size] at hend
    · intro l hlk
      have hnext : getSlot w.file.fileHdr (l + 1) ≤ getSlot w.file.fileHdr k :=
        RmFileHdr.SoundLayout.getSlot_mono hlk
      rwa [RmFileHdr.SoundLayout.getSlot_succ, ha.size] at hnext

/-- The map of the run above, with its second page and the slot used again. -/
theorem record_file_refines_map_two_pages :
    ∃ history w, RmWorld.Calls 512 history w
      ∧ (history.map Prod.snd).head? = some (.rid ⟨1, 3⟩)
      ∧ w.file.liveRecord = w.records := by
  obtain ⟨history, w, hrun, hlast⟩ := fillAndReuse_run
  exact ⟨history, w, hrun, hlast, (record_file_refines_map (by decide) (by decide) hrun).1⟩

/-- **The free chain.** After every run the chain from `first_free_page_no` ends at `RM_NO_PAGE`,
repeats no page and holds the pages with room; the counters in the page headers count the set
bits; the allocation counter is `num_pages`; and an insert adds a page only when all are full. -/
theorem free_chain_exact (h1 : 1 ≤ rs) (h2 : rs ≤ rmMaxRecordSize)
    (hrun : RmWorld.Calls rs history w) :
    (∃ free, Chain w.file.link rmNoPage w.file.fileHdr.firstFreePageNo free ∧ free.Nodup
        ∧ ∀ no, no ∈ free ↔ 1 ≤ no ∧ no < w.file.fileHdr.numPages
          ∧ numRecords (w.file.page no) < w.file.fileHdr.numRecordsPerPage)
      ∧ (∀ no, 1 ≤ no → no < w.file.fileHdr.numPages →
          ∃ d, w.file.store.pages no = some d ∧ numRecords d = liveCount w.file.fileHdr d)
      ∧ w.file.fileHdr.numPages = w.file.store.nextPageNo
      ∧ (∀ buf ret w', RmWorld.step rs w (.insert buf) = some (ret, w') →
          ∃ rid, ret = .rid rid ∧
            (((∀ no, 1 ≤ no → no < w.file.fileHdr.numPages →
                  numRecords (w.file.page no) = w.file.fileHdr.numRecordsPerPage)
                ∧ rid.pageNo = w.file.fileHdr.numPages
                ∧ w'.file.fileHdr.numPages = w.file.fileHdr.numPages + 1)
              ∨ ((∃ bytes, w.file.slot rid = some (false, bytes))
                ∧ w'.file.fileHdr.numPages = w.file.fileHdr.numPages))) := by
  have ha := RmWorld.agrees_run h1 h2 hrun
  obtain ⟨free, hi⟩ := ha.inv
  have hpresent : ∀ no, 1 ≤ no → no < w.file.fileHdr.numPages →
      ∃ d, w.file.store.pages no = some d := by
    intro no hno hlt
    exact Option.isSome_iff_exists.mp ((hi.present no).mpr ⟨hno, hi.counter ▸ hlt⟩)
  refine ⟨⟨free, hi.chain, hi.nodup, ?_⟩, ?_, hi.counter, ?_⟩
  · intro no
    rw [hi.mem]
    constructor
    · rintro ⟨d, hp, hlt⟩
      obtain ⟨hno, hbound, _⟩ := hi.number hp
      rw [page_of_some hp]
      exact ⟨hno, hi.counter.symm ▸ hbound, hlt⟩
    · rintro ⟨hno, hbound, hlt⟩
      obtain ⟨d, hp⟩ := hpresent no hno hbound
      rw [page_of_some hp] at hlt
      exact ⟨d, hp, hlt⟩
  · intro no hno hlt
    obtain ⟨d, hp⟩ := hpresent no hno hlt
    exact ⟨d, hp, hi.counts no d hp⟩
  · intro buf ret w' hstep
    obtain ⟨rid, w₁, free₁, hstep₁, _, hi₁, hins⟩ :=
      RmWorld.insert_step ha (RmWorld.room_of_step ha hstep buf rfl) buf
    rw [hstep₁, Option.some.injEq, Prod.mk.injEq] at hstep
    obtain ⟨rfl, rfl⟩ := hstep
    refine ⟨rid, rfl, ?_⟩
    -- no page has room exactly if the chain is empty
    by_cases hnil : free₁ = []
    · obtain ⟨hgrow, hnew⟩ := hins.alloc hnil
      refine .inl ⟨?_, hnew, hgrow⟩
      intro no hno hlt
      obtain ⟨d, hp⟩ := hpresent no hno hlt
      have hfull : ¬ numRecords d < w.file.fileHdr.numRecordsPerPage := by
        intro hroom
        have hmem := (hi₁.mem no).mpr ⟨d, hp, hroom⟩
        rw [hnil] at hmem
        exact absurd hmem (by simp)
      have hle := (hi.num_bounds hp).2.1
      rw [page_of_some hp]
      omega
    · obtain ⟨hsame, hclear⟩ := hins.reuse hnil
      exact .inr ⟨hclear, hsame⟩

/-- The counter and the chain after the run above. -/
theorem free_chain_exact_two_pages :
    ∃ history w, RmWorld.Calls 512 history w
      ∧ (history.map Prod.snd).head? = some (.rid ⟨1, 3⟩)
      ∧ w.file.fileHdr.numPages = w.file.store.nextPageNo
      ∧ ∃ free, Chain w.file.link rmNoPage w.file.fileHdr.firstFreePageNo free ∧ free.Nodup := by
  obtain ⟨history, w, hrun, hlast⟩ := fillAndReuse_run
  obtain ⟨⟨free, hchain, hnodup, _⟩, _, hcounter, _⟩ :=
    free_chain_exact (by decide) (by decide) hrun
  exact ⟨history, w, hrun, hlast, hcounter, free, hchain, hnodup⟩

end

end Rucbase
