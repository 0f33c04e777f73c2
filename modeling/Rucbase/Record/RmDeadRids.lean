import Rucbase.Record.RmRuns

/-!
# Rids that hold no record

`get_record`, `update_record` and `delete_record` never look at the bitmap before they work on
a slot, so a rid without a record is not rejected. Reading and updating such a slot leaves the
file consistent. Deleting it does not: the counter in the page header goes down and the bitmap
stays, and once the page fills up again `insert_record` finds no clear bit.
-/

namespace Rucbase

open Lib RmPageHandle RmFileHandle

/-- The rid a call is made on. -/
def RmOp.target : RmOp → Option Rid
  | .insert _ => none
  | .update rid _ | .delete rid | .get rid => some rid

namespace RmFileHandle

/-- The rid names a slot of a page of the file. -/
def InRange (s : RmFileHandle) (rid : Rid) : Prop :=
  1 ≤ rid.pageNo ∧ rid.pageNo < s.fileHdr.numPages
    ∧ 0 ≤ rid.slotNo ∧ rid.slotNo < s.fileHdr.numRecordsPerPage

instance (s : RmFileHandle) (rid : Rid) : Decidable (s.InRange rid) :=
  inferInstanceAs (Decidable (_ ∧ _ ∧ _ ∧ _))

/-- One call, on any rid in range. -/
def callInRange (s : RmFileHandle) (op : RmOp) : Option (RmRet × RmFileHandle) :=
  if ∀ rid ∈ op.target, s.InRange rid then
    match (RmWorld.exec op).run s with
    | .ok ret t => some (ret, t)
    | .error _ _ => none
  else none

/-- Calls on arbitrary rids in range, from a file just created and opened. -/
abbrev AnyCalls (rs : Int) (history : List (RmOp × RmRet)) (s : RmFileHandle) : Prop :=
  Run (Run.Asks callInRange) (opened rs) history s

/-- If the call deletes, it deletes a record. -/
def DeletesLive (s : RmFileHandle) (op : RmOp) : Prop :=
  ∀ rid, op = .delete rid → s.liveRecord rid ≠ none

/-- Calls on arbitrary rids in range, of which those that delete find a record. -/
abbrev LiveDeletes (rs : Int) (history : List (RmOp × RmRet)) (s : RmFileHandle) : Prop :=
  Run (fun s l t => s.DeletesLive l.1 ∧ Run.Asks callInRange s l t) (opened rs) history s

/-- The call is refused with `RecordNotFoundError`, and file and pins are as before. -/
def Rejects {α : Type} (x : RmM α) (s : RmFileHandle) (rid : Rid) : Prop :=
  ∃ t, x.run s = .error (.recordNotFoundError rid.pageNo rid.slotNo) t
    ∧ t.fileHdr = s.fileHdr ∧ t.store.pages = s.store.pages
    ∧ ∀ no, t.store.pins.count no = s.store.pins.count no

/-- Counters and bitmaps agree, and an insert finds a slot of the page. -/
structure Consistent (s : RmFileHandle) : Prop where
  counts : ∀ no d, s.store.pages no = some d → numRecords d = liveCount s.fileHdr d
  slots : ∀ buf rid t, (insertRecord buf).run s = .ok rid t →
    0 ≤ rid.slotNo ∧ rid.slotNo < s.fileHdr.numRecordsPerPage

variable {rs : Int} {s t : RmFileHandle} {free : List Int} {rid : Rid} {op : RmOp} {ret : RmRet}
  {d : PageData}

/-! ## What the calls can raise -/

/-- Nothing but `RecordNotFoundError`. -/
def NotNotFound (e : RedBaseError) : Prop := ∀ a b, e ≠ .recordNotFoundError a b

theorem raises_fetchPageHandle (no : Int) : Raises NotNotFound (fetchPageHandle no) := by
  refine .get_bind fun s => ?_
  cases hf : s.store.fetchPage no with
  | error e =>
      refine .throw ?_
      unfold PageStore.fetchPage at hf
      split at hf
      · exact absurd hf (by simp)
      · split at hf
        · rw [Except.error.injEq] at hf
          intro a b he
          exact absurd (hf.trans he) (by simp)
        · exact absurd hf (by simp)
  | ok r =>
      cases r with
      | none => exact .throw fun a b he => absurd he (by simp)
      | some u => exact Raises.set.bind fun _ => .pure

theorem raises_updateRecord (rid : Rid) (buf : Nat → UInt8) :
    Raises NotNotFound (updateRecord rid buf) := by
  refine (raises_fetchPageHandle _).bind fun no => .get_bind fun s => ?_
  exact Raises.modify.bind fun _ => .modify

theorem raises_getRecord (rid : Rid) : Raises NotNotFound (getRecord rid) := by
  refine (raises_fetchPageHandle _).bind fun no => .get_bind fun s => ?_
  exact Raises.modify.bind fun _ => .pure

theorem raises_releasePageHandle (no : Int) : Raises NotNotFound (releasePageHandle no) :=
  .get_bind fun _ => Raises.modify.bind fun _ => .modify

theorem raises_deleteRecord (rid : Rid) : Raises NotNotFound (deleteRecord rid) := by
  refine (raises_fetchPageHandle _).bind fun no => Raises.modify.bind fun _ => ?_
  refine Raises.modify.bind fun _ => .get_bind fun s => ?_
  exact (Raises.onlyIf (raises_releasePageHandle no)).bind fun _ => .modify

/-- **No call on a rid raises `RecordNotFoundError`.** -/
theorem not_rejects (hop : op.target = some rid) : ¬ Rejects (RmWorld.exec op) s rid := by
  have hraises : Raises NotNotFound (RmWorld.exec op) := by
    cases op with
    | insert buf => exact absurd hop (by simp [RmOp.target])
    | update r buf => exact (raises_updateRecord r buf).bind fun _ => .pure
    | delete r => exact (raises_deleteRecord r).bind fun _ => .pure
    | get r => exact (raises_getRecord r).bind fun _ => .pure
  intro hr
  obtain ⟨t, hrun, _⟩ := hr
  exact hraises s _ t hrun _ _ rfl

/-! ## What the calls do to a slot without a record -/

/-- A rid in range names a page that is there. -/
theorem RmInv.page_in_range (hi : RmInv s free) (hin : s.InRange rid) :
    ∃ d, s.store.pages rid.pageNo = some d ∧ rid.slotNo.toNat < s.fileHdr.slotsPerPage := by
  obtain ⟨h1, h2, h3, h4⟩ := hin
  have hn := hi.layout.numRecordsPerPage_eq
  obtain ⟨d, hd⟩ := Option.isSome_iff_exists.mp ((hi.present rid.pageNo).mpr ⟨h1, hi.counter ▸ h2⟩)
  exact ⟨d, hd, by omega⟩

theorem isSet_of_dead (hin : s.InRange rid) (hp : s.store.pages rid.pageNo = some d)
    (hdead : s.liveRecord rid = none) : isSet d rid.slotNo.toNat = false := by
  rw [liveRecord, slot_of_page hp hin.2.2.1 hin.2.2.2] at hdead
  cases hb : isSet d rid.slotNo.toNat with
  | false => rfl
  | true =>
      rw [hb] at hdead
      exact absurd hdead (by simp)

theorem RmInv.consistent (hi : RmInv s free) : Consistent s where
  counts := hi.counts
  slots := by
    intro buf rid t hrun
    have hroom : free ≠ [] ∨ s.fileHdr.numPages ≠ 2147483647 := by
      by_contra hno
      rw [not_or, not_not, not_not] at hno
      obtain ⟨u, hu⟩ : ∃ u, (insertRecord buf).run s = .error .undefinedBehaviour u :=
        run_insertRecord_overflow (hno.1 ▸ hi) hno.2
      rw [hu] at hrun
      exact absurd hrun (by simp)
    obtain ⟨rid', t', hrun', hins⟩ :
          ∃ rid' t', (insertRecord buf).run s = .ok rid' t' ∧ Inserted free s buf rid' t' :=
        insertRecord_spec hi hroom
    rw [hrun', EStateM.Result.ok.injEq] at hrun
    obtain ⟨rfl, rfl⟩ := hrun
    have hslot := hins.slot
    obtain ⟨free', hi'⟩ := hins.keeps
    have hper : t'.fileHdr.numRecordsPerPage = s.fileHdr.numRecordsPerPage := by
      rw [hi'.layout.perPage, hi.layout.perPage, hins.size]
    rw [hper] at hslot
    exact hslot

/-- **Deleting a slot that holds no record** counts it out of the page all the same. -/
theorem RmInv.delete_dead (hi : RmInv s free) (hin : s.InRange rid)
    (hdead : s.liveRecord rid = none) :
    ∃ t, (deleteRecord rid).run s = .ok ⟨⟩ t ∧ ¬ Consistent t := by
  obtain ⟨d, hp, hk⟩ := hi.page_in_range hin
  have hl := hi.layout
  have hclear := isSet_of_dead hin hp hdead
  obtain ⟨hn0, hn1, hn2⟩ := hi.num_bounds hp
  have hnum : numRecords (deletedPage d rid.slotNo.toNat) = numRecords d - 1 :=
    deletedPage_num (by unfold IsInt32; omega)
  -- no bit changes
  have hbits : liveCount s.fileHdr (deletedPage d rid.slotNo.toNat) = liveCount s.fileHdr d := by
    refine liveCount_congr fun q hq => ?_
    rw [deletedPage_isSet hl hq]
    by_cases hqk : q = rid.slotNo.toNat
    · rw [hqk, hclear, Bool.and_false]
    · simp [hqk]
  have hold := hi.counts rid.pageNo d hp
  refine ⟨_, run_deleteRecord hi.enough hp, ?_⟩
  intro hc
  by_cases hfull : numRecords (deletedPage d rid.slotNo.toNat) = s.fileHdr.numRecordsPerPage - 1
  · rw [if_pos hfull] at hc
    have hcount := hc.counts rid.pageNo _ (Function.update_self ..)
    have hsame : liveCount s.fileHdr (setNextFreePageNo (deletedPage d rid.slotNo.toNat)
        s.fileHdr.firstFreePageNo) = liveCount s.fileHdr (deletedPage d rid.slotNo.toNat) :=
      liveCount_congr fun q hq => isSet_setNext hl hq
    change _ = ((liveCount s.fileHdr (setNextFreePageNo (deletedPage d rid.slotNo.toNat)
      s.fileHdr.firstFreePageNo) : Nat) : Int) at hcount
    rw [numRecords_setNext, hsame, hbits] at hcount
    omega
  · rw [if_neg hfull] at hc
    have hcount := hc.counts rid.pageNo _ (Function.update_self ..)
    change _ = ((liveCount s.fileHdr (deletedPage d rid.slotNo.toNat) : Nat) : Int) at hcount
    rw [hbits] at hcount
    omega

theorem callInRange_some (h : callInRange s op = some (ret, t)) :
    (∀ rid ∈ op.target, s.InRange rid) ∧ (RmWorld.exec op).run s = .ok ret t := by
  unfold callInRange at h
  split at h
  · rename_i hin
    split at h
    · rename_i r u hrun
      rw [Option.some.injEq, Prod.mk.injEq] at h
      obtain ⟨rfl, rfl⟩ := h
      exact ⟨hin, hrun⟩
    · exact absurd h (by simp)
  · exact absurd h (by simp)

/-- **The step lemma**: whatever is not a delete of a slot without a record keeps the chain and
the counters. -/
theorem RmInv.call_step (hi : RmInv s free) (hlive : s.DeletesLive op)
    (h : callInRange s op = some (ret, t)) : ∃ free', RmInv t free' := by
  obtain ⟨hin, hrun⟩ := callInRange_some h
  cases op with
  | insert buf =>
      obtain ⟨rid, h1, _⟩ := bind_pure_eq_ok.mp hrun
      -- without room the page count would overflow, and the call would not return
      have hroom : free ≠ [] ∨ s.fileHdr.numPages ≠ 2147483647 := by
        by_contra hno
        rw [not_or, not_not, not_not] at hno
        obtain ⟨v, hv⟩ : ∃ v, (insertRecord buf).run s = .error .undefinedBehaviour v :=
          run_insertRecord_overflow (hno.1 ▸ hi) hno.2
        rw [hv] at h1
        exact absurd h1 (by simp)
      obtain ⟨rid', t', hrun', hins⟩ :
          ∃ rid' t', (insertRecord buf).run s = .ok rid' t' ∧ Inserted free s buf rid' t' :=
        insertRecord_spec hi hroom
      rw [hrun', EStateM.Result.ok.injEq] at h1
      exact h1.2 ▸ hins.keeps
  | update rid buf =>
      obtain ⟨d, hp, _⟩ := hi.page_in_range (hin rid rfl)
      obtain ⟨_, h1, _⟩ := bind_pure_eq_ok.mp hrun
      rw [run_updateRecord hi.enough hp, EStateM.Result.ok.injEq] at h1
      exact ⟨free, h1.2 ▸ hi.update hp⟩
  | delete rid =>
      obtain ⟨bytes, hb⟩ := Option.ne_none_iff_exists'.mp (hlive rid rfl)
      obtain ⟨_, h1, _⟩ := bind_pure_eq_ok.mp hrun
      obtain ⟨t', free', hrun', hi', _⟩ := deleteRecord_spec hi hb
      rw [hrun', EStateM.Result.ok.injEq] at h1
      exact ⟨free', h1.2 ▸ hi'⟩
  | get rid =>
      obtain ⟨d, hp, _⟩ := hi.page_in_range (hin rid rfl)
      obtain ⟨_, h1, _⟩ := bind_pure_eq_ok.mp hrun
      rw [run_getRecord hi.enough hp, EStateM.Result.ok.injEq] at h1
      exact ⟨free, h1.2 ▸ hi⟩

/-- **The run lemma.** -/
theorem inv_of_liveDeletes {history : List (RmOp × RmRet)} (h1 : 1 ≤ rs) (h2 : rs ≤ rmMaxRecordSize)
    (hrun : LiveDeletes rs history s) : ∃ free, RmInv s free := by
  refine hrun.invariant (I := fun s => ∃ free, RmInv s free) (RmWorld.agrees_created h1 h2).inv ?_
  intro s l t hs hl
  obtain ⟨free, hi⟩ := hs
  exact hi.call_step hl.1 hl.2

/-! ## The result -/

/-- **A rid without a record is never rejected**, whatever was called before. While every delete
finds a record, counters and bitmaps agree and inserts stay on their page; the first delete that
finds none ends that. -/
theorem dead_rid_not_rejected (h1 : 1 ≤ rs) (h2 : rs ≤ rmMaxRecordSize) :
    (∀ history s, AnyCalls rs history s → ∀ op rid, op.target = some rid → s.InRange rid →
        s.liveRecord rid = none → ¬ Rejects (RmWorld.exec op) s rid)
      ∧ ∀ history s, LiveDeletes rs history s → Consistent s
        ∧ ∀ rid, s.InRange rid → s.liveRecord rid = none →
          ∃ t, (deleteRecord rid).run s = .ok ⟨⟩ t ∧ ¬ Consistent t := by
  refine ⟨fun _ _ _ _ _ hop _ _ => not_rejects hop, ?_⟩
  intro history s hrun
  obtain ⟨free, hi⟩ := inv_of_liveDeletes h1 h2 hrun
  exact ⟨hi.consistent, fun rid hin hdead => hi.delete_dead hin hdead⟩

/-- The rid of a record, deleted twice, and eight inserts. -/
def deleteTwice : List RmOp :=
  [.insert fun _ => 1, .delete ⟨1, 0⟩, .delete ⟨1, 0⟩]
    ++ (List.range 8).map fun _ => .insert fun _ => 2

/-- Records of 512 bytes, seven to a page. The second delete of a rid is carried out: the page then
counts minus one records, and the eighth insert that follows goes into slot seven. -/
theorem deleteTwice_not_rejected :
    (∃ history s, AnyCalls 512 history s ∧ s.InRange ⟨1, 0⟩ ∧ s.liveRecord ⟨1, 0⟩ = none
        ∧ ¬ Rejects (RmWorld.exec (.delete ⟨1, 0⟩)) s ⟨1, 0⟩)
      ∧ (∃ history s, AnyCalls 512 history s ∧ numRecords (s.page 1) = -1)
      ∧ ∃ history s, AnyCalls 512 history s ∧ s.fileHdr.numRecordsPerPage = 7
        ∧ (history.map Prod.snd).head? = some (.rid ⟨1, 7⟩) := by
  refine ⟨?_, ?_, ?_⟩
  · obtain ⟨history, s, hrun, hin, hdead⟩ : ∃ history s, AnyCalls 512 history s
        ∧ s.InRange ⟨1, 0⟩ ∧ s.liveRecord ⟨1, 0⟩ = none :=
      Run.exists_of_replay callInRange (deleteTwice.take 2) (by decide +kernel)
    exact ⟨history, s, hrun, hin, hdead, not_rejects rfl⟩
  · exact Run.exists_of_replay callInRange (deleteTwice.take 3) (by decide +kernel)
  · exact Run.exists_of_replay callInRange deleteTwice (by decide +kernel)

/-- The result after one insert, for the slot next to the record's. -/
theorem dead_rid_not_rejected_next :
    ∃ history s, LiveDeletes 512 history s ∧ Consistent s ∧ s.InRange ⟨1, 1⟩
      ∧ ∃ t, (deleteRecord ⟨1, 1⟩).run s = .ok ⟨⟩ t ∧ ¬ Consistent t := by
  have hadded : ∃ ret s, callInRange (opened 512) (.insert fun _ => 1) = some (ret, s)
      ∧ s.InRange ⟨1, 1⟩ ∧ s.liveRecord ⟨1, 1⟩ = none := by
    obtain ⟨r, hcall, hp⟩ := (Option.any_eq_true _ _).mp (by decide +kernel :
      (callInRange (opened 512) (.insert fun _ => 1)).any (fun r =>
        decide (r.2.InRange ⟨1, 1⟩ ∧ r.2.liveRecord ⟨1, 1⟩ = none)) = true)
    exact ⟨r.1, r.2, hcall, of_decide_eq_true hp⟩
  obtain ⟨ret, s, hcall, hin, hdead⟩ := hadded
  have hrun : LiveDeletes 512 [(.insert fun _ => 1, ret)] s := .step .nil ⟨nofun, hcall⟩
  obtain ⟨hc, hdel⟩ := (dead_rid_not_rejected (by decide) (by decide)).2 _ _ hrun
  exact ⟨_, s, hrun, hc, hin, hdel _ hin hdead⟩

end RmFileHandle

end Rucbase
