import Rucbase.Lib.Run
import Rucbase.Index.IxAllocation
import Rucbase.Index.IxRuns

/-!
# An index file from session to session

The calls of `IxManager` and those on the open index, one after the other, in one process or in
several. The counter of a descriptor outlives the sessions under it, and is gone with the process.
-/

namespace Rucbase

open Lib

/-- One index file. While it is open, its counter is that of the handle. `created` is no part of the
program: what `CreateNode` got in the sessions that are over. -/
structure IxHistory (κ : Type) where
  fd2pageno : Int → Nat
  file : Option (IxFileHdr × (Int → Option (IxNode κ)))
  opened : Option (Int × IxIndexHandle κ)
  created : List (Int × IxCore κ)

/-- What is done to the file, and to the counters. -/
inductive IxEvent (κ : Type) where
  | createIndex (fd : Int) (order : Nat) (hdr : IxFileHdr) (page0 junk : IxNode κ)
  | openIndex (fd : Int) (frames : Option Nat)
  | call (op : IxOp κ)
  | closeIndex
  | newProcess
  /-- Another file sets or advances the counter of a descriptor that this one does not have. -/
  | otherFile (fd : Int) (pageno : Nat)

namespace IxOp

variable {κ : Type} [LinearOrder κ] [Inhabited κ]

/-- The call returns or raises, and leaves the index as `t`. -/
def Ends (op : IxOp κ) (s t : IxIndexHandle κ) : Prop :=
  ∃ fuel, (∃ ret, (op.exec fuel).run s = .ok ret t) ∨ ∃ e, (op.exec fuel).run s = .error e t

theorem allocs_exec (op : IxOp κ) (fuel : Nat) :
    IxIndexHandle.Allocs [] (op.exec fuel) fun _ => [] := by
  cases op with
  | insert k v => exact (IxIndexHandle.allocs_insertEntry fuel k v).bind fun _ => .pure (by simp)
  | delete k => exact (IxIndexHandle.allocs_deleteEntry fuel k).bind fun _ => .pure (by simp)
  | get k => exact (IxIndexHandle.allocs_getValue fuel k).bind fun _ => .pure (by simp)

theorem Ends.numbered {op : IxOp κ} {s t : IxIndexHandle κ} (h : op.Ends s t) (hs : s.Numbered) :
    t.Numbered := by
  obtain ⟨fuel, ⟨ret, hrun⟩ | ⟨e, hrun⟩⟩ := h
  · exact ((op.allocs_exec fuel).of_ok hs (by simp) hrun).1
  · exact (op.allocs_exec fuel).of_error hs (by simp) hrun

end IxOp

namespace IxHistory

variable {κ : Type}

/-- A process that knows nothing yet, and no file. -/
def start : IxHistory κ := ⟨fun _ => 0, none, none, []⟩

/-- The handle that `open_index` makes of the file. -/
def handle (w : IxHistory κ) (fd : Int) (frames : Option Nat) (hdr : IxFileHdr)
    (pages : Int → Option (IxNode κ)) : IxIndexHandle κ :=
  ⟨hdr, ⟨pages, [], w.fd2pageno fd + 1, frames⟩, [], []⟩

/-- The counter of a descriptor replaced. -/
def setFd2pageno (w : IxHistory κ) (fd : Int) (pageno : Nat) : IxHistory κ :=
  { w with fd2pageno := Function.update w.fd2pageno fd pageno }

inductive Step [LinearOrder κ] [Inhabited κ] : IxHistory κ → IxEvent κ → IxHistory κ → Prop where
  | createIndex {w : IxHistory κ} {fd : Int} {order : Nat} {hdr : IxFileHdr}
      {page0 junk : IxNode κ} : w.file = none → w.opened = none →
      Step w (.createIndex fd order hdr page0 junk)
        { w.setFd2pageno fd (ixInitNumPages - 1) with
          file := some (IxIndexHandle.initialHdr order hdr, IxIndexHandle.initialPages page0 junk) }
  | openIndex {w : IxHistory κ} {fd : Int} {frames : Option Nat} {hdr : IxFileHdr}
      {pages : Int → Option (IxNode κ)} : w.file = some (hdr, pages) → w.opened = none →
      Step w (.openIndex fd frames) { w with opened := some (fd, w.handle fd frames hdr pages) }
  | call {w : IxHistory κ} {fd : Int} {s t : IxIndexHandle κ} {op : IxOp κ} :
      w.opened = some (fd, s) → op.Ends s t → Step w (.call op) { w with opened := some (fd, t) }
  | closeIndex {w : IxHistory κ} {fd : Int} {s : IxIndexHandle κ} : w.opened = some (fd, s) →
      Step w .closeIndex
        { w.setFd2pageno fd s.store.nextPageNo with
          file := some (s.fileHdr, s.store.pages)
          opened := none
          created := s.created ++ w.created }
  | newProcess {w : IxHistory κ} : w.opened = none →
      Step w .newProcess { w with fd2pageno := fun _ => 0 }
  | otherFile {w : IxHistory κ} {fd : Int} {pageno : Nat} : (∀ s, w.opened ≠ some (fd, s)) →
      Step w (.otherFile fd pageno) (w.setFd2pageno fd pageno)

/-- `fd2pageno_[fd]` has come to the last page of the file. -/
def CaughtUp (w : IxHistory κ) (fd : Int) : Prop :=
  ∀ hdr pages, w.file = some (hdr, pages) → ∀ no, (pages no).isSome → no ≤ w.fd2pageno fd

/-- The file is only opened under a descriptor whose counter has caught up with it. -/
def Careful (w : IxHistory κ) : IxEvent κ → Prop
  | .openIndex fd _ => w.CaughtUp fd
  | _ => True

/-- All that `CreateNode` has got. -/
def allCreated (w : IxHistory κ) : List (Int × IxCore κ) :=
  (w.opened.elim [] fun o => o.2.created) ++ w.created

/-- `CreateNode` has always got a fresh page. -/
def AlwaysFresh (w : IxHistory κ) : Prop := ∀ e ∈ w.allCreated, IxCore.GotFresh e

variable {w w' : IxHistory κ} {event : IxEvent κ} {history : List (IxEvent κ)} {fd : Int}

@[simp] theorem setFd2pageno_self {pageno : Nat} : (w.setFd2pageno fd pageno).fd2pageno fd = pageno :=
  Function.update_self ..

theorem setFd2pageno_of_ne {fd' : Int} {pageno : Nat} (h : fd ≠ fd') :
    (w.setFd2pageno fd' pageno).fd2pageno fd = w.fd2pageno fd := Function.update_of_ne h ..

/-! ## The counter is ahead -/

structure Ahead (w : IxHistory κ) : Prop where
  leafHeader : ∀ hdr pages, w.file = some (hdr, pages) → (pages ixLeafHeaderPage).isSome
  numbered : ∀ fd s, w.opened = some (fd, s) → s.Numbered
  created : ∀ e ∈ w.created, IxCore.GotFresh e

theorem Ahead.alwaysFresh (ha : Ahead w) : AlwaysFresh w := by
  intro e he
  rcases List.mem_append.mp he with hopen | hclosed
  · cases ho : w.opened with
    | none =>
        rw [ho] at hopen
        exact absurd hopen (by simp)
    | some o =>
        rw [ho] at hopen
        exact (ha.numbered o.1 o.2 ho).fresh e hopen
  · exact ha.created e hclosed

theorem ahead_start : Ahead (start : IxHistory κ) :=
  ⟨fun _ _ h => absurd h (by simp [start]), fun _ _ h => absurd h (by simp [start]), by simp [start]⟩

/-- A handle whose counter was behind by one at most is ahead. -/
theorem CaughtUp.numbered {frames : Option Nat} {hdr : IxFileHdr} {pages : Int → Option (IxNode κ)}
    (hc : w.CaughtUp fd) (hfile : w.file = some (hdr, pages))
    (hheader : (pages ixLeafHeaderPage).isSome) : (w.handle fd frames hdr pages).Numbered := by
  refine ⟨hheader, fun no hno => ?_, fun e he => absurd he (by simp [handle])⟩
  have hle := hc hdr pages hfile no hno
  show no < ((w.fd2pageno fd + 1 : Nat) : Int)
  omega

/-- **A careful step keeps the counter ahead.** -/
theorem Ahead.step [LinearOrder κ] [Inhabited κ] (ha : Ahead w) (hcareful : Careful w event)
    (hstep : Step w event w') :
    Ahead w' := by
  cases hstep with
  | createIndex hfile hopen =>
      refine ⟨fun hdr pages h => ?_, ha.numbered, ha.created⟩
      obtain ⟨_, rfl⟩ := Prod.mk.inj (Option.some.inj h)
      rfl
  | openIndex hfile hopen =>
      refine ⟨ha.leafHeader, fun fd s h => ?_, ha.created⟩
      obtain ⟨rfl, rfl⟩ := Prod.mk.inj (Option.some.inj h)
      exact CaughtUp.numbered hcareful hfile (ha.leafHeader _ _ hfile)
  | call hopen hends =>
      refine ⟨ha.leafHeader, fun fd s h => ?_, ha.created⟩
      obtain ⟨rfl, rfl⟩ := Prod.mk.inj (Option.some.inj h)
      exact hends.numbered (ha.numbered _ _ hopen)
  | closeIndex hopen =>
      have hs := ha.numbered _ _ hopen
      refine ⟨fun hdr pages h => ?_, fun _ _ h => absurd h (by simp), fun e he => ?_⟩
      · obtain ⟨_, rfl⟩ := Prod.mk.inj (Option.some.inj h)
        exact hs.leafHeader
      · exact (List.mem_append.mp he).elim (hs.fresh e) (ha.created e)
  | newProcess hopen => exact ⟨ha.leafHeader, ha.numbered, ha.created⟩
  | otherFile hother => exact ⟨ha.leafHeader, ha.numbered, ha.created⟩

/-- **What `CreateNode` gets is fresh** in every history that opens the file only under descriptors
whose counters have caught up with it. -/
theorem alwaysFresh_of_careful [LinearOrder κ] [Inhabited κ]
    (hrun : Run (fun w event w' => Careful w event ∧ Step w event w') start history w) :
    AlwaysFresh w :=
  (hrun.invariant ahead_start fun _ _ _ ha hstep => ha.step hstep.1 hstep.2).alwaysFresh

/-! ## One process and one descriptor -/

theorem initialPages_le {page0 junk : IxNode κ} {no : Int}
    (h : (IxIndexHandle.initialPages page0 junk no).isSome) : no ≤ 2 := by
  by_contra hgt
  unfold IxIndexHandle.initialPages ixLeafHeaderPage ixInitRootPage at h
  rw [if_neg (by omega), if_neg (by omega), if_neg (by omega)] at h
  exact absurd h (by simp)

variable [LinearOrder κ] [Inhabited κ]

/-- The event does not leave the process, and the file and no other has the descriptor `fd`. -/
def OnlyUnder (fd : Int) : IxEvent κ → Prop
  | .createIndex fd' _ _ _ _ | .openIndex fd' _ => fd' = fd
  | .otherFile fd' _ => fd' ≠ fd
  | .newProcess => False
  | _ => True

/-- The counter of the descriptor has caught up whenever the file is closed. -/
structure Keeping (fd : Int) (w : IxHistory κ) : Prop extends Ahead w where
  caughtUp : w.opened = none → w.CaughtUp fd
  under : ∀ fd' s, w.opened = some (fd', s) → fd' = fd

theorem Keeping.careful (hk : Keeping fd w) (honly : OnlyUnder fd event) (hstep : Step w event w') :
    Careful w event := by
  cases hstep with
  | openIndex hfile hopen =>
      obtain rfl := honly
      exact hk.caughtUp hopen
  | _ => exact trivial

theorem Keeping.step (hk : Keeping fd w) (honly : OnlyUnder fd event) (hstep : Step w event w') :
    Keeping fd w' := by
  have hahead := hk.toAhead.step (hk.careful honly hstep) hstep
  cases hstep with
  | createIndex hfile hopen =>
      obtain rfl := honly
      refine ⟨hahead, fun _ hdr pages h no hno => ?_, hk.under⟩
      obtain ⟨_, rfl⟩ := Prod.mk.inj (Option.some.inj h)
      show no ≤ ((w.setFd2pageno _ _).fd2pageno _ : Int)
      rw [setFd2pageno_self]
      exact initialPages_le hno
  | openIndex hfile hopen =>
      obtain rfl := honly
      refine ⟨hahead, fun h => absurd h (by simp), fun fd' s h => ?_⟩
      exact (Prod.mk.inj (Option.some.inj h)).1.symm
  | call hopen hends =>
      refine ⟨hahead, fun h => absurd h (by simp), fun fd' s h => ?_⟩
      rw [← (Prod.mk.inj (Option.some.inj h)).1]
      exact hk.under _ _ hopen
  | closeIndex hopen =>
      obtain rfl := hk.under _ _ hopen
      refine ⟨hahead, fun _ hdr pages h no hno => ?_, fun _ _ h => absurd h (by simp)⟩
      obtain ⟨_, rfl⟩ := Prod.mk.inj (Option.some.inj h)
      show no ≤ ((w.setFd2pageno _ _).fd2pageno _ : Int)
      rw [setFd2pageno_self]
      exact le_of_lt ((hk.numbered _ _ hopen).past no hno)
  | newProcess hopen => exact honly.elim
  | otherFile hother =>
      refine ⟨hahead, fun hopen hdr pages h no hno => ?_, hk.under⟩
      rw [setFd2pageno_of_ne (Ne.symm honly)]
      exact hk.caughtUp hopen hdr pages h no hno

/-- Under one descriptor of one process `CreateNode` always gets a fresh page, however often the file
is closed and opened again. -/
theorem alwaysFresh_of_onlyUnder
    (hrun : Run (fun w event w' => OnlyUnder fd event ∧ Step w event w') start history w) :
    AlwaysFresh w := by
  have hstart : Keeping fd (start : IxHistory κ) :=
    ⟨ahead_start, fun _ _ _ h => absurd h (by simp [start]), fun _ _ h => absurd h (by simp [start])⟩
  have hk : Keeping fd w := hrun.invariant hstart fun _ _ _ hk hstep => hk.step hstep.1 hstep.2
  exact hk.toAhead.alwaysFresh

/-! ## Histories by hand -/

/-- The handle after the keys were inserted one after the other. -/
def insertAll (fuel : Nat) : IxIndexHandle Nat → List Nat → Option (IxIndexHandle Nat)
  | s, [] => some s
  | s, k :: keys =>
      match ((IxOp.insert k ⟨1, k⟩).exec fuel).run s with
      | .ok _ t => insertAll fuel t keys
      | .error _ _ => none

theorem run_insertAll {w : IxHistory Nat} {fuel : Nat} {s t : IxIndexHandle Nat} {keys : List Nat}
    (h : insertAll fuel s keys = some t) (hopen : w.opened = some (fd, s)) : ∃ history,
      Run (fun w event w' => Careful w event ∧ Step w event w') w history
        { w with opened := some (fd, t) } := by
  induction keys generalizing s w with
  | nil =>
      obtain rfl := Option.some.inj h
      rw [← hopen]
      exact ⟨[], .nil⟩
  | cons k keys ih =>
      unfold insertAll at h
      cases hrun : ((IxOp.insert k ⟨1, k⟩).exec fuel).run s with
      | error e u =>
          rw [hrun] at h
          exact absurd h (by simp)
      | ok ret u =>
          rw [hrun] at h
          obtain ⟨history, hrest⟩ := ih (w := { w with opened := some (fd, u) }) h rfl
          have hcall : Step w (.call (.insert k ⟨1, k⟩)) { w with opened := some (fd, u) } :=
            .call hopen ⟨fuel, .inl ⟨ret, hrun⟩⟩
          have hfirst : Careful w (.call (.insert k ⟨1, k⟩)) := trivial
          exact ⟨_, (Run.step .nil ⟨hfirst, hcall⟩).append hrest⟩

/-- The header of an index of `CHAR(512)` keys, of order 6. -/
def wideHdr : IxFileHdr :=
  IxIndexHandle.initialHdr 6 ⟨ixNoPage, 0, 0, ColType.typeString.toInt, 512, 0, 0, 0, 0⟩

/-- The pages of a new index. -/
def newPages : Int → Option (IxNode Nat) := IxIndexHandle.initialPages .blank .blank

/-- Such an index was just created, under descriptor 3. -/
def createdWide : IxHistory Nat :=
  { (start : IxHistory Nat).setFd2pageno 3 2 with file := some (wideHdr, newPages) }

theorem start_createdWide : Step start
    (.createIndex 3 6 ⟨ixNoPage, 0, 0, ColType.typeString.toInt, 512, 0, 0, 0, 0⟩ .blank .blank)
    createdWide := .createIndex rfl rfl

theorem createdWide_caughtUp : createdWide.CaughtUp 3 := by
  intro hdr pages h no hno
  obtain ⟨_, rfl⟩ := Prod.mk.inj (Option.some.inj h)
  exact initialPages_le hno

/-- Seven keys, and after a close and an open under the same descriptor three more: every split gets
a fresh page. -/
theorem alwaysFresh_of_careful_reopened : ∃ history w,
    Run (fun w event w' => Careful w event ∧ Step w event w') (start : IxHistory Nat) history w
      ∧ w.allCreated.map Prod.fst = [6, 4, 3] ∧ AlwaysFresh w := by
  let reopened (t : IxIndexHandle Nat) : IxIndexHandle Nat :=
    ⟨t.fileHdr, ⟨t.store.pages, [], t.store.nextPageNo + 1, none⟩, [], []⟩
  have hall : ((insertAll 4 (createdWide.handle 3 none wideHdr newPages)
      [70, 60, 50, 40, 30, 20, 10]).bind fun t => (insertAll 4 (reopened t) [9, 8, 7]).map fun u =>
        (t.created.map Prod.fst, u.created.map Prod.fst)) = some ([4, 3], [6]) := by
    decide +kernel
  obtain ⟨t, hfirst, hrest⟩ := Option.bind_eq_some_iff.mp hall
  obtain ⟨u, hsecond, hcreated⟩ := Option.map_eq_some_iff.mp hrest
  obtain ⟨ht, hu⟩ := Prod.mk.inj hcreated
  let w₁ : IxHistory Nat :=
    { createdWide with opened := some (3, createdWide.handle 3 none wideHdr newPages) }
  let w₂ : IxHistory Nat := { createdWide with opened := some (3, t) }
  let w₃ : IxHistory Nat :=
    { createdWide.setFd2pageno 3 t.store.nextPageNo with
      file := some (t.fileHdr, t.store.pages)
      opened := none
      created := t.created ++ [] }
  obtain ⟨history, hinserts⟩ := run_insertAll (w := w₁) hfirst rfl
  have hopens : Step createdWide (.openIndex 3 none) w₁ := .openIndex rfl rfl
  have hopened : Run (fun w event w' => Careful w event ∧ Step w event w')
      (start : IxHistory Nat) _ w₁ :=
    .step (.step .nil ⟨by trivial, start_createdWide⟩) ⟨by exact createdWide_caughtUp, hopens⟩
  have hrun₂ : Run _ _ _ w₂ := hopened.append hinserts
  -- the counter of the first session is past its pages
  have hahead : Ahead w₂ :=
    hrun₂.invariant ahead_start fun _ _ _ ha hstep => ha.step hstep.1 hstep.2
  have hcaught : w₃.CaughtUp 3 := by
    intro hdr pages h no hno
    obtain ⟨_, rfl⟩ := Prod.mk.inj (Option.some.inj h)
    exact le_of_lt ((hahead.numbered 3 t rfl).past no hno)
  have hclosed : Step w₂ .closeIndex w₃ := .closeIndex rfl
  have hagain : Step w₃ (.openIndex 3 none)
      { w₃ with opened := some (3, w₃.handle 3 none t.fileHdr t.store.pages) } := .openIndex rfl rfl
  obtain ⟨history', hmore⟩ := run_insertAll
    (w := { w₃ with opened := some (3, w₃.handle 3 none t.fileHdr t.store.pages) }) hsecond rfl
  have hrun := ((hrun₂.step ⟨by trivial, hclosed⟩).step ⟨by exact hcaught, hagain⟩).append hmore
  refine ⟨_, _, hrun, ?_, alwaysFresh_of_careful hrun⟩
  show (u.created ++ (t.created ++ [])).map Prod.fst = _
  rw [List.append_nil, List.map_append, hu, ht]
  rfl

/-- **A new process gives away the header of the leaves, and then the root.** -/
theorem newProcess_overwrites : ∃ history w,
    Run Step (start : IxHistory Nat) history w ∧ ¬ AlwaysFresh w := by
  let anew : IxHistory Nat := { createdWide with fd2pageno := fun _ => 0 }
  have hall : (insertAll 4 (anew.handle 3 none wideHdr newPages) [70, 60, 50, 40, 30, 20, 10]).map
      (fun t => t.created.map Prod.fst) = some [2, 1] := by decide +kernel
  obtain ⟨t, hinserted, hcreated⟩ := Option.map_eq_some_iff.mp hall
  have hleft : Step createdWide .newProcess anew := .newProcess rfl
  let w : IxHistory Nat := { anew with opened := some (3, anew.handle 3 none wideHdr newPages) }
  have hopened : Step anew (.openIndex 3 none) w := .openIndex rfl rfl
  obtain ⟨history, hinserts⟩ := run_insertAll (w := w) hinserted rfl
  have hrun : Run Step (start : IxHistory Nat) _ w :=
    .step (.step (.step .nil start_createdWide) hleft) hopened
  refine ⟨_, _, hrun.append (hinserts.mono fun _ _ _ hstep => hstep.2), fun hfresh => ?_⟩
  obtain ⟨e, he, hpage⟩ : ∃ e ∈ t.created, e.1 = ixLeafHeaderPage := by
    have hmem : (1 : Int) ∈ t.created.map Prod.fst := by
      rw [hcreated]
      decide
    exact List.mem_map.mp hmem
  exact (hfresh e (List.mem_append_left _ he)).2.1 hpage

end IxHistory

end Rucbase
