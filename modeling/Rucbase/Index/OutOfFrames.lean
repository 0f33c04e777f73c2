import Rucbase.Lib.Lockstep
import Rucbase.Index.IxCalls
import Rucbase.Index.IxPins
import Rucbase.Record.RmRuns

/-!
# Out of frames

What becomes of `insert_record`, `insert_entry` and `delete_entry` when the pool behind the file
has no frame left for a page they need. `fetch_page_handle` raises, and as it is the first thing
`insert_record` does, nothing has happened yet. `create_new_page_handle`, `FetchNode` and
`CreateNode` go on with the null page: for an index the frames make no other difference than
that, at whichever of its many fetches they run out.
-/

namespace Rucbase

open Lib

section

variable {σ γ α : Type}

/-- Some page the call asks for is refused: with frames enough the call would have done something
else. -/
def MeetsNull (unlimited : σ → σ) (x : EStateM RedBaseError σ α) (s : σ) : Prop :=
  x.run (unlimited s) ≠ lift unlimited (x.run s)

/-- The call raises an exception, and what there is to see of the file is as it was. -/
def Reported (look : σ → γ) (x : EStateM RedBaseError σ α) (s : σ) : Prop :=
  ∃ e t, e ≠ .undefinedBehaviour ∧ x.run s = .error e t ∧ look t = look s

theorem not_reported_of_lost {look : σ → γ} {x : EStateM RedBaseError σ α} {s t : σ}
    (h : x.run s = .error .undefinedBehaviour t) : ¬ Reported look x s := by
  intro hr
  obtain ⟨e, u, he, hu, _⟩ := hr
  exact he (EStateM.Result.error.inj (hu.symm.trans h)).1

theorem not_reported_of_ok {look : σ → γ} {x : EStateM RedBaseError σ α} {s t : σ} {a : α}
    (h : x.run s = .ok a t) : ¬ Reported look x s := by
  intro hr
  obtain ⟨e, u, _, hu, _⟩ := hr
  exact absurd (hu.symm.trans h) (by simp)

end

/-! ## Record files -/

namespace RmFileHandle

variable {s : RmFileHandle} {buf : Nat → UInt8}

/-- The same file on a pool with frames enough. -/
def unlimited (s : RmFileHandle) : RmFileHandle := { s with store := s.store.unlimited }

/-- The first page `insert_record` asks for is refused. -/
def FirstRefused (s : RmFileHandle) : Prop :=
  s.store.exhausted = true
    ∧ (s.fileHdr.firstFreePageNo = rmNoPage ∨ s.fileHdr.firstFreePageNo ∉ s.store.pins)

theorem insertRecord_lost (hx : s.store.exhausted = true)
    (hno : s.fileHdr.firstFreePageNo = rmNoPage) :
    (insertRecord buf).run s = .error .undefinedBehaviour s := by
  refine bind_eq_error.mpr (.inl ?_)
  rw [createPageHandle, run_get_bind, if_pos hno, createNewPageHandle, run_get_bind,
    PageStore.newPage_refused hx]
  rfl

theorem insertRecord_raises (hno : s.fileHdr.firstFreePageNo ≠ rmNoPage)
    (hr : s.store.Refuses s.fileHdr.firstFreePageNo) :
    (insertRecord buf).run s
      = .error (.pageNotExistError "table" s.fileHdr.firstFreePageNo) s := by
  refine bind_eq_error.mpr (.inl ?_)
  rw [createPageHandle, run_get_bind, if_neg hno]
  exact run_fetchPageHandle_refused hr

/-- The file with a page of zeros more. -/
def withNewPage (s : RmFileHandle) : RmFileHandle :=
  { s with store := { s.store with
      pages := Function.update s.store.pages s.store.nextPageNo (some zeroPage)
      pins := (s.store.nextPageNo : Int) :: s.store.pins
      nextPageNo := s.store.nextPageNo + 1 } }

/-- A new page, when the header can count no more of them. -/
theorem insertRecord_overflow (hx : s.store.exhausted = false)
    (hno : s.fileHdr.firstFreePageNo = rmNoPage) (hmax : s.fileHdr.numPages = 2147483647) :
    (insertRecord buf).run s = .error .undefinedBehaviour
      (s.withNewPage.setPage s.store.nextPageNo (RmPageHandle.initBitmap s.fileHdr
        (RmPageHandle.setNumRecords (RmPageHandle.setNextFreePageNo zeroPage rmNoPage) 0))) := by
  refine bind_eq_error.mpr (.inl ?_)
  rw [createPageHandle, run_get_bind, if_pos hno, createNewPageHandle, run_get_bind,
    PageStore.newPage_some hx]
  dsimp only
  rw [run_set_bind, run_modifyPage_bind (d := zeroPage) (Function.update_self ..), if_pos hmax]
  rfl

theorem insertRecord_missing (hno : s.fileHdr.firstFreePageNo ≠ rmNoPage)
    (hr : ¬ s.store.Refuses s.fileHdr.firstFreePageNo)
    (hp : s.store.pages s.fileHdr.firstFreePageNo = none) :
    (insertRecord buf).run s = .error .unixError s := by
  refine bind_eq_error.mpr (.inl ?_)
  rw [createPageHandle, run_get_bind, if_neg hno]
  exact run_fetchPageHandle_missing hr hp

/-- A page that is not refused. -/
theorem insertRecord_granted (hno : s.fileHdr.firstFreePageNo ≠ rmNoPage)
    (hr : ¬ s.store.Refuses s.fileHdr.firstFreePageNo) :
    (insertRecord buf).run s.unlimited = lift unlimited ((insertRecord buf).run s) := by
  have hr' : ¬ s.unlimited.store.Refuses s.fileHdr.firstFreePageNo := PageStore.not_refuses rfl
  cases hp : s.store.pages s.fileHdr.firstFreePageNo with
  | none =>
      have hfree : (insertRecord buf).run s.unlimited = _ := insertRecord_missing hno hr' hp
      rw [hfree, insertRecord_missing hno hr hp]
      rfl
  | some d =>
      have hfree : (insertRecord buf).run s.unlimited = _ := run_insertRecord_free hr' rfl hno hp
      rw [hfree, run_insertRecord_free hr rfl hno hp]
      rfl

/-- A new page when there are frames left. -/
theorem insertRecord_new (hx : s.store.exhausted = false)
    (hno : s.fileHdr.firstFreePageNo = rmNoPage) :
    (insertRecord buf).run s.unlimited = lift unlimited ((insertRecord buf).run s) := by
  have hx' : s.unlimited.store.exhausted = false := PageStore.exhausted_none rfl
  by_cases hmax : s.fileHdr.numPages = 2147483647
  · have hfree : (insertRecord buf).run s.unlimited = _ := insertRecord_overflow hx' hno hmax
    rw [hfree, insertRecord_overflow hx hno hmax]
    rfl
  · have hfree : (insertRecord buf).run s.unlimited = _ := run_insertRecord_new hx' hno hmax
    rw [hfree, run_insertRecord_new hx hno hmax]
    rfl

theorem insertRecord_not_reported (hno : s.fileHdr.firstFreePageNo = rmNoPage) :
    ¬ Reported id (insertRecord buf) s := by
  cases hx : s.store.exhausted with
  | true => exact not_reported_of_lost (insertRecord_lost hx hno)
  | false =>
      by_cases hmax : s.fileHdr.numPages = 2147483647
      · exact not_reported_of_lost (insertRecord_overflow hx hno hmax)
      · exact not_reported_of_ok (run_insertRecord_new hx hno hmax)

/-- The call meets the null page in its first step or not at all. -/
theorem insertRecord_meetsNull_iff :
    MeetsNull unlimited (insertRecord buf) s ↔ s.FirstRefused := by
  have hfree : s.unlimited.store.exhausted = false := PageStore.exhausted_none rfl
  by_cases hno : s.fileHdr.firstFreePageNo = rmNoPage
  · cases hx : s.store.exhausted with
    | false =>
        refine iff_of_false (fun hm => hm (insertRecord_new hx hno)) (fun h => ?_)
        exact absurd (h.1.symm.trans hx) (by simp)
    | true =>
        refine iff_of_true (fun heq => ?_) ⟨hx, .inl hno⟩
        rw [insertRecord_lost hx hno] at heq
        by_cases hmax : s.fileHdr.numPages = 2147483647
        · have hover : (insertRecord buf).run s.unlimited = _ :=
            insertRecord_overflow hfree hno hmax
          rw [hover] at heq
          have hnext := congrArg (fun t : RmFileHandle => t.store.nextPageNo)
            (EStateM.Result.error.inj heq).2
          exact absurd hnext (Nat.succ_ne_self s.store.nextPageNo)
        · have hnew : (insertRecord buf).run s.unlimited = _ := run_insertRecord_new hfree hno hmax
          exact absurd (hnew.symm.trans heq) (by simp [lift])
  · by_cases hr : s.store.Refuses s.fileHdr.firstFreePageNo
    · refine iff_of_true (fun heq => ?_) ⟨hr.1, .inr hr.2⟩
      rw [insertRecord_raises hno hr] at heq
      have hr' : ¬ s.unlimited.store.Refuses s.fileHdr.firstFreePageNo := PageStore.not_refuses rfl
      cases hp : s.store.pages s.fileHdr.firstFreePageNo with
      | none =>
          have hfree : (insertRecord buf).run s.unlimited = _ := insertRecord_missing hno hr' hp
          exact absurd (EStateM.Result.error.inj (hfree.symm.trans heq)).1 (by simp)
      | some d =>
          have hfree : (insertRecord buf).run s.unlimited = _ :=
            run_insertRecord_free hr' rfl hno hp
          exact absurd (hfree.symm.trans heq) (by simp [lift])
    · refine iff_of_false (fun hm => hm (insertRecord_granted hno hr)) ?_
      rintro ⟨hx, hno' | hpin⟩
      · exact hno hno'
      · exact hr ⟨hx, hpin⟩

/-- **`insert_record` reports a missing frame** if and only if there is a page with room. -/
theorem insertRecord_reported_iff (hm : MeetsNull unlimited (insertRecord buf) s) :
    Reported id (insertRecord buf) s ↔ s.fileHdr.firstFreePageNo ≠ rmNoPage := by
  constructor
  · exact fun hr hno => insertRecord_not_reported hno hr
  · intro hno
    obtain ⟨hx, hpin⟩ := insertRecord_meetsNull_iff.mp hm
    exact ⟨_, s, by simp, insertRecord_raises hno ⟨hx, hpin.resolve_left hno⟩, rfl⟩

end RmFileHandle

/-! ## Indexes -/

namespace IxIndexHandle

variable {κ : Type}

/-- The same index on a pool with frames enough. -/
def unlimited (s : IxIndexHandle κ) : IxIndexHandle κ := { s with store := s.store.unlimited }

/-- With frames enough the call does the same, or here it uses the null page. -/
abbrev Kept {α : Type} (x : IxM κ α) : Prop := Lockstep unlimited .undefinedBehaviour x

variable {no : Int} {key : κ} {value : Rid}

theorem unlimited_unlimited (s : IxIndexHandle κ) : s.unlimited.unlimited = s.unlimited := rfl

theorem kept_modify {h : IxIndexHandle κ → IxIndexHandle κ}
    (hh : ∀ s, h s.unlimited = (h s).unlimited) : Kept (modify h : IxM κ Unit) :=
  .modify unlimited_unlimited hh

theorem kept_pure {α : Type} {a : α} : Kept (pure a : IxM κ α) := .pure unlimited_unlimited

theorem kept_modifyNode [Inhabited κ] {f : IxNode κ → IxNode κ} : Kept (modifyNode no f) :=
  kept_modify fun _ => rfl

theorem kept_modifyHdr {f : IxFileHdr → IxFileHdr} : Kept (modifyHdr f : IxM κ Unit) :=
  kept_modify fun _ => rfl

theorem kept_unpinPage : Kept (unpinPage no : IxM κ Unit) := kept_modify fun _ => rfl

theorem kept_onlyIf {c : Prop} [Decidable c] {x : IxM κ Unit} (hx : Kept x) : Kept (onlyIf c x) :=
  .onlyIf unlimited_unlimited hx

theorem kept_forM {γ : Type} {g : γ → IxM κ Unit} (hg : ∀ i, Kept (g i)) (l : List γ) :
    Kept (forM l g) := .forM unlimited_unlimited hg l

theorem not_refuses_unlimited (s : IxIndexHandle κ) : ¬ s.unlimited.store.Refuses no :=
  PageStore.not_refuses rfl

theorem kept_fetchNode : Kept (fetchNode no : IxM κ Int) := by
  refine .of_cases (fun s => ?_) (fun s => ?_)
  · by_cases hr : s.store.Refuses no
    · exact .inl ⟨s, run_fetchNode_refused hr⟩
    · refine .inr ?_
      cases hp : s.store.pages no with
      | none =>
          rw [run_fetchNode_missing hr hp, run_fetchNode_missing (not_refuses_unlimited s) hp]
          rfl
      | some n =>
          rw [run_fetchNode_some hr hp, run_fetchNode_some (not_refuses_unlimited s) hp]
          rfl
  · cases hp : s.unlimited.store.pages no with
    | none => exact .inr ⟨_, _, run_fetchNode_missing (not_refuses_unlimited s) hp, by simp⟩
    | some n => exact .inl ⟨_, _, run_fetchNode_some (not_refuses_unlimited s) hp, rfl⟩

theorem kept_createNode [Inhabited κ] : Kept (createNode : IxM κ Int) := by
  refine .of_cases (fun s => ?_) (fun s => .inl ⟨_, _, rfl, rfl⟩)
  let hdr : IxFileHdr := { s.fileHdr with numPages := s.fileHdr.numPages + 1 }
  rw [createNode, modifyHdr, run_modify_bind, run_modify_bind, run_get_bind, run_get_bind]
  cases hx : s.store.exhausted with
  | true =>
      rw [PageStore.newPage_refused hx]
      exact .inl ⟨{ s with fileHdr := hdr }, rfl⟩
  | false =>
      rw [PageStore.newPage_some hx]
      exact .inr rfl

theorem kept_findChild [Inhabited κ] {parent child : Int} : Kept (findChild parent child : IxM κ Nat) := by
  refine .get_bind (fun s => ?_) (fun s => rfl)
  cases (s.node parent).findChild child with
  | none => exact .throw (by simp)
  | some idx => exact kept_pure

theorem kept_assertUnpinPage : Kept (assertUnpinPage no : IxM κ Unit) :=
  .get_bind (fun _ => .ite kept_unpinPage (.throw (by simp))) (fun _ => rfl)

theorem kept_releaseNodeHandle : Kept (releaseNodeHandle : IxM κ Unit) := kept_modifyHdr

variable [Inhabited κ]

theorem kept_maintainChild {node : Int} {i : Nat} : Kept (maintainChild node i : IxM κ Unit) := by
  refine .get_bind (fun s => kept_onlyIf ?_) (fun _ => rfl)
  exact kept_fetchNode.bind fun _ => kept_modifyNode.bind fun _ => kept_unpinPage

theorem kept_maintainParent [LinearOrder κ] (fuel : Nat) (curr : Int) :
    Kept (maintainParent fuel curr : IxM κ Unit) := by
  induction fuel generalizing curr with
  | zero => exact .throw (by simp)
  | succ fuel ih =>
      refine .get_bind (fun s => kept_onlyIf ?_) (fun _ => rfl)
      refine kept_fetchNode.bind fun parent => kept_findChild.bind fun rank => .ite ?_ ?_
      · exact kept_assertUnpinPage
      · exact kept_modifyNode.bind fun _ => kept_assertUnpinPage.bind fun _ => ih parent

theorem kept_eraseLeaf {leaf : Int} : Kept (eraseLeaf leaf : IxM κ Unit) := by
  refine .get_bind (fun s => .ite (.throw (by simp)) ?_) (fun _ => rfl)
  refine kept_fetchNode.bind fun _ => kept_modifyNode.bind fun _ => kept_unpinPage.bind fun _ => ?_
  exact kept_fetchNode.bind fun _ => kept_modifyNode.bind fun _ => kept_unpinPage

theorem kept_descend [LinearOrder κ] (fuel : Nat) (node : Int) : Kept (descend key fuel node) := by
  induction fuel generalizing node with
  | zero => exact .throw (by simp)
  | succ fuel ih =>
      refine .get_bind (fun s => .ite kept_pure ?_) (fun _ => rfl)
      exact kept_unpinPage.bind fun _ => kept_fetchNode.bind ih

theorem kept_findLeafPage [LinearOrder κ] (fuel : Nat) : Kept (findLeafPage fuel key) :=
  .get_bind (fun _ => kept_fetchNode.bind fun node => kept_descend fuel node) (fun _ => rfl)

/-! ## Insertion -/

theorem kept_linkLeaf {node newNode next : Int} :
    Kept (linkLeaf node newNode next : IxM κ Unit) := by
  refine kept_modifyNode.bind fun _ => .bind (kept_onlyIf ?_) fun _ => kept_modifyNode
  exact kept_fetchNode.bind fun _ => kept_modifyNode.bind fun _ => kept_unpinPage

theorem kept_split {node : Int} : Kept (split node : IxM κ Int) := by
  refine .get_bind (fun s => kept_createNode.bind fun newNode => ?_) (fun _ => rfl)
  refine kept_modifyNode.bind fun _ => kept_modifyNode.bind fun _ => ?_
  refine kept_modifyNode.bind fun _ => ?_
  refine .ite (kept_linkLeaf.bind fun _ => kept_pure) ?_
  exact (kept_forM (fun _ => kept_maintainChild) _).bind fun _ => kept_pure

theorem kept_growRoot {oldNode newNode : Int} : Kept (growRoot oldNode key newNode) := by
  refine .get_bind (fun s => kept_createNode.bind fun newRoot => ?_) (fun _ => rfl)
  refine kept_modifyNode.bind fun _ => kept_modifyNode.bind fun _ => ?_
  refine kept_modifyNode.bind fun _ => ?_
  refine kept_modifyNode.bind fun _ => kept_modifyNode.bind fun _ => ?_
  exact kept_modifyHdr.bind fun _ => kept_unpinPage

theorem kept_insertIntoParent (fuel : Nat) (oldNode : Int) (key : κ) (newNode : Int) :
    Kept (insertIntoParent fuel oldNode key newNode) := by
  induction fuel generalizing oldNode key newNode with
  | zero => exact .throw (by simp)
  | succ fuel ih =>
      refine .get_bind (fun s => .ite kept_growRoot ?_) (fun _ => rfl)
      refine kept_fetchNode.bind fun parent => kept_findChild.bind fun idx => ?_
      refine kept_modifyNode.bind fun _ => kept_modifyNode.bind fun _ => ?_
      refine .get_bind (fun s => .bind (kept_onlyIf ?_) fun _ => kept_unpinPage) (fun _ => rfl)
      refine kept_split.bind fun newParent => .get_bind (fun s => ?_) (fun _ => rfl)
      exact .bind (ih _ _ _) fun _ => kept_unpinPage

theorem kept_insertIntoLeaf [LinearOrder κ] (fuel : Nat) (leaf : Int) :
    Kept (insertIntoLeaf fuel leaf key value) := by
  refine kept_modifyNode.bind fun _ => .get_bind (fun s => ?_) (fun _ => rfl)
  refine .bind (kept_onlyIf ?_) fun _ => kept_unpinPage.bind fun _ => kept_pure
  refine kept_split.bind fun newLeaf => .get_bind (fun t => ?_) (fun _ => rfl)
  refine .bind (kept_insertIntoParent fuel _ _ _) fun _ => ?_
  exact .bind (kept_onlyIf kept_modifyHdr) fun _ => kept_unpinPage

theorem kept_insertEntry [LinearOrder κ] (fuel : Nat) : Kept (insertEntry fuel key value) :=
  (kept_findLeafPage fuel).bind fun leaf => kept_insertIntoLeaf fuel leaf

/-! ## Deletion -/

theorem kept_adjustRoot {oldRoot : Int} : Kept (adjustRoot oldRoot : IxM κ Bool) := by
  refine .get_bind (fun s => .ite ?_ (.ite ?_ kept_pure)) (fun _ => rfl)
  · refine kept_modifyNode.bind fun _ => kept_fetchNode.bind fun newRoot => ?_
    refine kept_modifyNode.bind fun _ => kept_unpinPage.bind fun _ => ?_
    exact kept_modifyHdr.bind fun _ => kept_releaseNodeHandle.bind fun _ => kept_pure
  · exact kept_modifyHdr.bind fun _ => kept_releaseNodeHandle.bind fun _ => kept_pure

theorem kept_redistribute [LinearOrder κ] (fuel : Nat) {neighbor node : Int} {index : Nat} :
    Kept (redistribute fuel neighbor node index : IxM κ Unit) := by
  refine .get_bind (fun s => .ite ?_ ?_) (fun _ => rfl)
  · refine kept_modifyNode.bind fun _ => kept_modifyNode.bind fun _ => ?_
    exact (kept_maintainParent fuel _).bind fun _ => kept_maintainChild
  · refine kept_modifyNode.bind fun _ => kept_modifyNode.bind fun _ => ?_
    exact (kept_maintainParent fuel _).bind fun _ => kept_maintainChild

theorem kept_coalesce {again : Int → IxM κ Bool} (h : ∀ p, Kept (again p))
    {neighbor node parent : Int} {index : Nat} :
    Kept (coalesce again neighbor node parent index) := by
  refine .get_bind (fun s => kept_modifyNode.bind fun _ => ?_) (fun _ => rfl)
  refine .bind (kept_onlyIf (kept_forM (fun _ => kept_maintainChild) _)) fun _ => ?_
  refine .bind (kept_onlyIf ?_) fun _ => ?_
  · exact .bind (kept_onlyIf kept_modifyHdr) fun _ => kept_eraseLeaf
  refine kept_findChild.bind fun idx => kept_modifyNode.bind fun _ => ?_
  refine kept_releaseNodeHandle.bind fun _ => kept_unpinPage.bind fun _ => ?_
  exact .bind (kept_modify fun _ => rfl) fun _ => kept_unpinPage.bind fun _ => h parent

variable [LinearOrder κ]

theorem kept_coalesceOrRedistribute (fuel : Nat) (node : Int) :
    Kept (coalesceOrRedistribute fuel node : IxM κ Bool) := by
  induction fuel generalizing node with
  | zero => exact .throw (by simp)
  | succ fuel ih =>
      refine .get_bind (fun s => .ite ?_ (.ite ?_ ?_)) (fun _ => rfl)
      · exact kept_unpinPage.bind fun _ => kept_pure
      · exact kept_adjustRoot.bind fun _ => kept_unpinPage.bind fun _ => kept_pure
      · refine kept_fetchNode.bind fun parent => kept_findChild.bind fun idx => ?_
        refine .get_bind (fun t => kept_fetchNode.bind fun neighbor => ?_) (fun _ => rfl)
        refine .get_bind (fun u => .ite ?_ (kept_coalesce ih)) (fun _ => rfl)
        refine .bind (kept_redistribute fuel) fun _ => kept_unpinPage.bind fun _ => ?_
        exact kept_unpinPage.bind fun _ => kept_unpinPage.bind fun _ => kept_pure

theorem kept_removeFromLeaf (fuel : Nat) (leaf : Int) : Kept (removeFromLeaf fuel leaf key) := by
  refine .get_bind (fun s => kept_modifyNode.bind fun _ => ?_) (fun _ => rfl)
  refine .get_bind (fun t => .ite ?_ ?_) (fun _ => rfl)
  · exact kept_unpinPage.bind fun _ => kept_pure
  · exact (kept_coalesceOrRedistribute fuel leaf).bind fun _ => kept_pure

theorem kept_deleteEntry (fuel : Nat) : Kept (deleteEntry fuel key) :=
  (kept_findLeafPage fuel).bind fun leaf => kept_removeFromLeaf fuel leaf

end IxIndexHandle

/-! ## The result -/

section

variable {κ : Type}

/-- What there is to see of an index: the header, the pages and the pins. -/
def IxIndexHandle.look (s : IxIndexHandle κ) : IxFileHdr × PageStore (IxNode κ) :=
  (s.fileHdr, s.store)

/-- A call on an index that is refused a page uses the null page. -/
theorem IxIndexHandle.not_reported {α : Type} {x : IxM κ α} {s : IxIndexHandle κ}
    (hx : IxIndexHandle.Kept x) (hm : MeetsNull unlimited x s) : ¬ Reported look x s := by
  obtain ⟨t, hlost⟩ := hx.lost_iff.mpr hm
  exact not_reported_of_lost hlost

variable [LinearOrder κ] [Inhabited κ]

/-- **Running out of frames.** A call that is refused a page raises an exception and leaves
everything as it was, if and only if it is an `insert_record` on a file that has a page with room:
on a full file it uses the null page, and so does every insertion into an index and every deletion
from it. -/
theorem out_of_frames_reported_iff :
    (∀ (s : RmFileHandle) (buf : Nat → UInt8),
      MeetsNull RmFileHandle.unlimited (RmFileHandle.insertRecord buf) s →
        (Reported id (RmFileHandle.insertRecord buf) s ↔ s.fileHdr.firstFreePageNo ≠ rmNoPage))
    ∧ (∀ (s : IxIndexHandle κ) (fuel : Nat) (key : κ) (value : Rid),
        MeetsNull IxIndexHandle.unlimited (IxIndexHandle.insertEntry fuel key value) s →
          ¬ Reported IxIndexHandle.look (IxIndexHandle.insertEntry fuel key value) s)
    ∧ (∀ (s : IxIndexHandle κ) (fuel : Nat) (key : κ),
        MeetsNull IxIndexHandle.unlimited (IxIndexHandle.deleteEntry fuel key) s →
          ¬ Reported IxIndexHandle.look (IxIndexHandle.deleteEntry fuel key) s) := by
  refine ⟨fun s buf hm => RmFileHandle.insertRecord_reported_iff hm, fun s fuel key value hm => ?_,
    fun s fuel key hm => ?_⟩
  · exact IxIndexHandle.not_reported (IxIndexHandle.kept_insertEntry fuel) hm
  · exact IxIndexHandle.not_reported (IxIndexHandle.kept_deleteEntry fuel) hm

/-- A record file just opened, on a pool whose frames are all pinned. -/
def crowdedFile : RmFileHandle :=
  { RmFileHandle.opened 512 with
    store := { (RmFileHandle.opened 512).store with frames := some 0 } }

/-- An index whose only leaf has room for one key more, on a pool with one frame for it. -/
def crowdedLeaf : IxIndexHandle Nat :=
  { IxCall.fullLeaf with store := { IxCall.fullLeaf.store with frames := some 1, pins := [] } }

/-- A record file with one page, which has room, on a pool whose frames are all pinned. -/
def roomyFile : RmFileHandle where
  fileHdr := { RmFileHdr.initial 512 with numPages := 2, firstFreePageNo := 1 }
  store := { pages := fun no => if no = 1 then some zeroPage else none, pins := [], nextPageNo := 2,
             frames := some 0 }

/-- The index with its leaf, on a pool whose frames are all pinned. -/
def lockedLeaf : IxIndexHandle Nat :=
  { crowdedLeaf with store := { crowdedLeaf.store with frames := some 0 } }

/-- With a page with room, `insert_record` reports that it is refused the page; `delete_entry` does
not. -/
theorem out_of_frames_reported_iff_room :
    Reported id (RmFileHandle.insertRecord fun _ => 7) roomyFile
      ∧ ¬ Reported IxIndexHandle.look (IxIndexHandle.deleteEntry 2 2) lockedLeaf := by
  obtain ⟨hinsert, _, hdelete⟩ := out_of_frames_reported_iff (κ := Nat)
  have hlost : ∃ t, (IxIndexHandle.deleteEntry 2 2).run lockedLeaf = .error .undefinedBehaviour t :=
    ⟨_, rfl⟩
  have hroom : MeetsNull RmFileHandle.unlimited (RmFileHandle.insertRecord fun _ => 7) roomyFile :=
    RmFileHandle.insertRecord_meetsNull_iff.mpr ⟨by decide, .inr (by decide)⟩
  exact ⟨(hinsert _ _ hroom).mpr (by decide),
    hdelete _ _ _ ((IxIndexHandle.kept_deleteEntry 2).lost_iff.mp hlost)⟩

/-- An `insert_record` and an `insert_entry` that use the null page; by then the key is in the leaf
and `num_pages` is increased. -/
theorem null_page_used :
    (MeetsNull RmFileHandle.unlimited (RmFileHandle.insertRecord fun _ => 7) crowdedFile
      ∧ ¬ Reported id (RmFileHandle.insertRecord fun _ => 7) crowdedFile)
    ∧ MeetsNull IxIndexHandle.unlimited (IxIndexHandle.insertEntry 2 4 ⟨1, 4⟩) crowdedLeaf
    ∧ ∃ t, (IxIndexHandle.insertEntry 2 4 ⟨1, 4⟩).run crowdedLeaf = .error .undefinedBehaviour t
      ∧ (t.node 2).numKey = 4 ∧ t.fileHdr.numPages = crowdedLeaf.fileHdr.numPages + 1
      ∧ ¬ Reported IxIndexHandle.look (IxIndexHandle.insertEntry 2 4 ⟨1, 4⟩) crowdedLeaf := by
  have hlost : ∃ t, (IxIndexHandle.insertEntry 2 4 ⟨1, 4⟩).run crowdedLeaf
      = .error .undefinedBehaviour t ∧ (t.node 2).numKey = 4
        ∧ t.fileHdr.numPages = crowdedLeaf.fileHdr.numPages + 1 := by
    have hdec : (match (IxIndexHandle.insertEntry 2 4 ⟨1, 4⟩).run crowdedLeaf with
      | .ok _ _ => false
      | .error e t => e = .undefinedBehaviour ∧ (t.node 2).numKey = 4
          ∧ t.fileHdr.numPages = crowdedLeaf.fileHdr.numPages + 1) = true := by decide +kernel
    cases hrun : (IxIndexHandle.insertEntry 2 4 ⟨1, 4⟩).run crowdedLeaf with
    | ok a t => simp [hrun] at hdec
    | error e t =>
        rw [hrun] at hdec
        obtain ⟨rfl, hkeys, hpages⟩ := of_decide_eq_true hdec
        exact ⟨t, rfl, hkeys, hpages⟩
  obtain ⟨t, hrun, hkeys, hpages⟩ := hlost
  refine ⟨⟨?_, ?_⟩, ?_, t, hrun, hkeys, hpages, not_reported_of_lost hrun⟩
  · exact RmFileHandle.insertRecord_meetsNull_iff.mpr ⟨by decide, .inl (by decide +kernel)⟩
  · exact RmFileHandle.insertRecord_not_reported (by decide +kernel)
  · exact (IxIndexHandle.kept_insertEntry 2).lost_iff.mp ⟨t, hrun⟩

end

end Rucbase
