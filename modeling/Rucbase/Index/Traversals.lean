import Rucbase.Storage.PoolReads
import Rucbase.Record.RmReopen
import Rucbase.Record.RmScan
import Rucbase.Index.IxOnPool
import Rucbase.Index.IxScan

/-!
# Pins of read-only calls

The calls of a client that only reads: the table scan, `is_record` and `get_record`, and the two
steps of an index scan, over the buffer pool itself. Each of them fetches a page, and what one of
them does not unpin stays pinned for good, since nobody else knows of it. The table scan and
`get_record` give every page back. `is_record` and `IxScan::next` keep the page they looked at,
whenever they get it, and `get_rid` does when it raises.

A fetch that raises moves no pin, but it is not without consequence: the page may be mapped
afterwards, to a frame that was never read, and the next call will find it there.
-/

namespace Rucbase

open Lib BufferPoolManager

/-! ## The calls -/

namespace PooledFile

/-- `is_record`. -/
def isRecord (rid : Rid) : PooledM Bool := do
  let f ← fetchPageHandle rid.pageNo
  let s ← get
  return RmPageHandle.isSet (s.data f) rid.slotNo.toNat

/-- The loop of `RmScan::next`, with at most `n` pages left. -/
def nextLoop (fileHdr : RmFileHdr) : Nat → Rid → PooledM RmScan
  | 0, _ => return RmScan.atEnd
  | n + 1, rid =>
      if rid.pageNo < fileHdr.numPages then do
        let f ← fetchPageHandle rid.pageNo
        let s ← get
        let slotNo := Bitmap.nextBit true (s.data f).toBuf RmPageHandle.bitmap fileHdr.slotsPerPage
          rid.slotNo
        unpinPage f false
        if slotNo < fileHdr.slotsPerPage then
          return ⟨⟨rid.pageNo, slotNo⟩⟩
        else
          nextLoop fileHdr n ⟨rid.pageNo + 1, -1⟩
      else
        return RmScan.atEnd

/-- `RmScan::next`. -/
def next (scan : RmScan) : PooledM RmScan := do
  let fileHdr := (← get).fileHdr
  nextLoop fileHdr (fileHdr.numPages - scan.rid.pageNo).toNat scan.rid

/-- The constructor of `RmScan`. -/
def scan : PooledM RmScan := do
  let s ← get
  if s.fileHdr.numPages ≤ rmFirstRecordPage then
    return RmScan.atEnd
  else
    next ⟨⟨rmFirstRecordPage, -1⟩⟩

end PooledFile

namespace PooledIndex

/-- `IxScan::next`. -/
def next (scan : IxScan) : PooledIxM IxScan := do
  if scan.isEnd then
    throw .assertionFailure
  else
    let f ← fetchNode scan.iid.pageNo
    let s ← get
    let node := s.node (s.pool.pages f).data
    if node.isLeafPage = false then
      throw .assertionFailure
    else if node.numKey ≤ scan.iid.slotNo then
      throw .assertionFailure
    else if scan.iid.pageNo ≠ s.fileHdr.lastLeaf ∧ (scan.iid.slotNo + 1 : Int) = node.numKey then
      return { scan with iid := ⟨node.getNextLeaf, 0⟩ }
    else
      return { scan with iid := ⟨scan.iid.pageNo, scan.iid.slotNo + 1⟩ }

/-- `IxScan::rid`. -/
def rid (scan : IxScan) : PooledIxM Rid := getRid scan.iid

end PooledIndex

/-! ## Calls that end -/

section

variable {σ ρ α β : Type} {x : EStateM RedBaseError σ α} {s t u : σ}
  {pool : σ → BufferPoolManager}

/-- The call returns or raises, and leaves the handle in state `t`. -/
def EndsIn (x : EStateM RedBaseError σ α) (s t : σ) : Prop :=
  (∃ a, x.run s = .ok a t) ∨ ∃ e, e ≠ .undefinedBehaviour ∧ x.run s = .error e t

/-- The call ends with every pin as it was. -/
def PinNeutral (pool : σ → BufferPoolManager) (x : EStateM RedBaseError σ α) (s : σ) : Prop :=
  ∃ t, EndsIn x s t ∧ PinsKept (pool s) (pool t)

theorem EndsIn.unique (h : EndsIn x s t) (h' : EndsIn x s u) : t = u := by
  rcases h with ⟨a, h⟩ | ⟨e, _, h⟩ <;> rcases h' with ⟨b, h'⟩ | ⟨e', _, h'⟩ <;> rw [h] at h'
  · exact (EStateM.Result.ok.inj h').2
  · exact absurd h' (by simp)
  · exact absurd h' (by simp)
  · exact (EStateM.Result.error.inj h').2

/-- A result that nobody looks at. -/
theorem EndsIn.drop (h : EndsIn x s t) :
    EndsIn (do let _ ← x; return : EStateM RedBaseError σ Unit) s t := by
  rcases h with ⟨a, h⟩ | ⟨e, he, h⟩
  · exact .inl ⟨⟨⟩, bind_ok h⟩
  · exact .inr ⟨e, he, bind_eq_error.mpr (.inl h)⟩

theorem not_endsIn (h : x.run s = .error .undefinedBehaviour t) : ¬ EndsIn x s u := by
  rintro (⟨a, h'⟩ | ⟨e, he, h'⟩) <;> rw [h] at h'
  · exact absurd h' (by simp)
  · exact he (EStateM.Result.error.inj h').1.symm

/-- What a call does to the pool: it is `sound` if no page stays pinned, and it `asks` for pages
that have a number. -/
structure Treats (sound asks returned : Prop) (s t : BufferPoolManager) : Prop where
  grows : ∀ f, (s.pages f).pinCount ≤ (t.pages f).pinCount
  kept : sound → PinsKept s t
  only : (∀ f, (t.pages f).pinCount = (s.pages f).pinCount) → sound
  tidy : asks → Tidy t
  available : sound → returned → ∀ f, s.Available f → t.Available f

variable {sound asks returned : Prop} {p q : BufferPoolManager} {f : Nat} {id : PageId}
  {y : PageData}

theorem Treats.of_restored (h : Restored p q) (hs : sound) : Treats sound asks returned p q where
  grows := fun f => Int.le_of_eq (h.pins f).1.symm
  kept := fun _ => h.pins
  only := fun _ => hs
  tidy := fun _ => h.tidy
  available := fun _ _ => h.available

theorem Treats.of_kept (h : PinsKept p q) (hs : sound) (htidy : asks → Tidy q)
    (hr : ¬ returned) : Treats sound asks returned p q where
  grows := fun f => Int.le_of_eq (h f).1.symm
  kept := fun _ => h
  only := fun _ => hs
  tidy := htidy
  available := fun _ hret => absurd hret hr

theorem Treats.pinsKept_iff {s t : BufferPoolManager} (h : Treats sound asks returned s t) :
    PinsKept s t ↔ sound :=
  ⟨fun hk => h.only fun f => (hk f).1, h.kept⟩

theorem Treats.of_fetched (h : Fetched p id y f q) (hs : ¬ sound) :
    Treats sound asks returned p q where
  grows := h.leaks.1
  kept := fun hsound => absurd hsound hs
  only := fun hcounts => absurd hcounts h.leaks.2
  tidy := fun _ => h.tidy
  available := fun hsound => absurd hsound hs

/-! ## Along a traversal -/

/-- A call of a traversal, recorded with the state it was made in. -/
def Reads (exec : ρ → EStateM RedBaseError σ Unit) (s : σ) (l : σ × ρ) (t : σ) : Prop :=
  l.1 = s ∧ EndsIn (exec l.2) s t

/-- The call recorded returned. -/
def Returns (exec : ρ → EStateM RedBaseError σ Unit) (l : σ × ρ) : Prop :=
  ∃ t, (exec l.2).run l.1 = .ok ⟨⟩ t

variable {exec : ρ → EStateM RedBaseError σ Unit} {Sound : σ → ρ → Prop} {Asks : ρ → Prop}
  {h : List (σ × ρ)}

/-- **What a traversal does to the pins** follows from what its calls do: pins only grow in number,
so at the end they are as they were if and only if no call has kept one. -/
theorem traversal_treats (hs : Tidy (pool s)) (hrun : Run (Reads exec) s h t)
    (hexec : ∀ s r t, Tidy (pool s) → EndsIn (exec r) s t →
      Treats (Sound s r) (Asks r) (Returns exec (s, r)) (pool s) (pool t))
    (hasks : ∀ l ∈ h, Asks l.2) :
    Treats (∀ l ∈ h, Sound l.1 l.2) True (∀ l ∈ h, Returns exec l) (pool s) (pool t) := by
  refine hrun.invariant_history (I := fun t h => (∀ l ∈ h, Asks l.2) →
    Treats (∀ l ∈ h, Sound l.1 l.2) True (∀ l ∈ h, Returns exec l) (pool s) (pool t))
    (fun _ => .of_restored (.refl hs) (by simp)) ?_ hasks
  intro t h l t' ih hl hall
  obtain ⟨rfl, hend⟩ := hl
  obtain ⟨hask, hrest⟩ := List.forall_mem_cons.mp hall
  have hbefore := ih hrest
  have hcall := hexec l.1 l.2 t' (hbefore.tidy trivial) hend
  rw [List.forall_mem_cons, List.forall_mem_cons]
  constructor
  · exact fun f => (hbefore.grows f).trans (hcall.grows f)
  · exact fun hsound => (hbefore.kept hsound.2).trans (hcall.kept hsound.1)
  · intro hcounts
    -- in between the pins were no fewer than at the start and no more than at the end
    have hmid : ∀ f, ((pool l.1).pages f).pinCount = ((pool s).pages f).pinCount := fun f =>
      le_antisymm ((hcall.grows f).trans_eq (hcounts f)) (hbefore.grows f)
    exact ⟨hcall.only fun f => (hcounts f).trans (hmid f).symm, hbefore.only hmid⟩
  · exact fun _ => hcall.tidy hask
  · exact fun hsound hret f hf =>
      hcall.available hsound.1 hret.1 f (hbefore.available hsound.2 hret.2 f hf)

/-! ## Calls that give back what they fetch -/

/-- The call returns with the pins restored, or raises without having kept one. -/
def Quiet (pool : σ → BufferPoolManager) (asks : Prop) (x : EStateM RedBaseError σ α) (s : σ) :
    Prop :=
  (∃ a t, x.run s = .ok a t ∧ Restored (pool s) (pool t)) ∨
    ∃ e t, e ≠ .undefinedBehaviour ∧ x.run s = .error e t ∧ PinsKept (pool s) (pool t)
      ∧ (asks → Tidy (pool t))

theorem Quiet.pure (hs : Tidy (pool s)) (a : α) :
    Quiet pool asks (Pure.pure a : EStateM RedBaseError σ α) s := .inl ⟨a, s, rfl, .refl hs⟩

/-- The pins are restored, and what is left to do is quiet. -/
theorem Quiet.after {y : EStateM RedBaseError σ α} (hst : Restored (pool s) (pool t))
    (h : Quiet pool asks y t) (hrun : x.run s = y.run t) : Quiet pool asks x s := by
  rcases h with ⟨a, u, hx, hu⟩ | ⟨e, u, he, hx, hu, htidy⟩
  · exact .inl ⟨a, u, hrun.trans hx, hst.trans hu⟩
  · exact .inr ⟨e, u, he, hrun.trans hx, hst.pins.trans hu, htidy⟩

theorem Quiet.mono {asks' : Prop} (h : Quiet pool asks x s) (ha : asks' → asks) :
    Quiet pool asks' x s :=
  h.imp id fun ⟨e, t, he, hx, ht, htidy⟩ => ⟨e, t, he, hx, ht, fun h' => htidy (ha h')⟩

/-- A result that nobody looks at. -/
theorem Quiet.drop (h : Quiet pool asks x s) :
    Quiet pool asks (do let _ ← x; return : EStateM RedBaseError σ Unit) s := by
  rcases h with ⟨a, t, hx, ht⟩ | ⟨e, t, he, hx, ht⟩
  · exact .inl ⟨⟨⟩, t, bind_ok hx, ht⟩
  · exact .inr ⟨e, t, he, bind_eq_error.mpr (.inl hx), ht⟩

theorem Quiet.treats {x : EStateM RedBaseError σ Unit} (h : Quiet pool asks x s) (hs : sound) :
    ∃ t, EndsIn x s t
      ∧ Treats sound asks (∃ u, x.run s = .ok ⟨⟩ u) (pool s) (pool t) := by
  rcases h with ⟨a, t, hx, ht⟩ | ⟨e, t, he, hx, ht, htidy⟩
  · exact ⟨t, .inl ⟨a, hx⟩, .of_restored ht hs⟩
  · refine ⟨t, .inr ⟨e, he, hx⟩, .of_kept ht hs htidy ?_⟩
    rintro ⟨u, hu⟩
    exact absurd (hx.symm.trans hu) (by simp)

end

/-! ## Record files -/

namespace PooledFile

variable {α : Type} {s : PooledFile} {no : Int} {rid : Rid} {asks : Prop}

theorem run_pooled_error {y : PoolM α} {e : RedBaseError} {pool : BufferPoolManager}
    (h : y.run s.pool = .error e pool) :
    (pooled y).run s = .error e { s with pool := pool } := by
  show pooled y s = _
  unfold pooled
  rw [h]

/-- `fetch_page_handle` pins the page that is there, or raises. -/
theorem fetchPageHandle_cases (hs : Tidy s.pool) (no : Int) :
    (∃ x f t, s.pool.shown ⟨s.fd, no⟩ = some x
        ∧ (fetchPageHandle no).run s = .ok f { s with pool := t }
        ∧ Fetched s.pool ⟨s.fd, no⟩ x f t)
    ∨ (s.pool.shown ⟨s.fd, no⟩ = none ∧ ∃ e t, e ≠ .undefinedBehaviour
        ∧ (fetchPageHandle no).run s = .error e { s with pool := t }
        ∧ Failed s.pool ⟨s.fd, no⟩ t) := by
  unfold fetchPageHandle
  rw [run_get_bind]
  rcases hs.fetchPage_cases ⟨s.fd, no⟩ with ⟨x, f, t, hx, hrun, ht⟩ | ⟨hx, _, hrun⟩
    | ⟨hx, _, t, hrun, ht⟩
  · refine .inl ⟨x, f, t, hx, ?_, ht⟩
    rw [bind_ok (run_pooled hrun)]
    rfl
  · refine .inr ⟨hx, .pageNotExistError "table" no, s.pool, by simp, ?_, .refl _, fun _ => hs⟩
    rw [bind_ok (run_pooled hrun)]
    rfl
  · exact .inr ⟨hx, .unixError, t, by simp, bind_eq_error.mpr (.inl (run_pooled_error hrun)), ht⟩

/-- `UnpinPage` undoes what `fetch_page_handle` did. -/
theorem run_unpinPage {id : PageId} {x : PageData} {f : Nat} {t : BufferPoolManager}
    (hs : Tidy s.pool) (h : Fetched s.pool id x f t) (b : Bool) :
    ∃ u, (unpinPage f b).run { s with pool := t } = .ok ⟨⟩ { s with pool := u }
      ∧ Restored s.pool u := by
  obtain ⟨u, hrun, hu⟩ := h.unpin hs b
  refine ⟨u, ?_, hu⟩
  unfold unpinPage
  rw [run_get_bind, bind_ok (run_pooled hrun)]
  rfl

/-- A fetch, an unpin, and the rest. -/
theorem quiet_fetch_unpin {g : Nat → PooledFile → PooledM α} (hs : Tidy s.pool)
    (hno : asks → no ≠ invalidPageId)
    (hg : ∀ f t u, Restored s.pool u.pool → Quiet PooledFile.pool asks (g f t) u) :
    Quiet PooledFile.pool asks (do
      let f ← fetchPageHandle no
      let t ← get
      unpinPage f false
      g f t) s := by
  rcases fetchPageHandle_cases hs no with ⟨x, f, t, _, hrun, ht⟩ | ⟨_, e, t, he, hrun, ht⟩
  · obtain ⟨u, hunpin, hu⟩ := run_unpinPage hs ht false
    refine (hg f { s with pool := t } { s with pool := u } hu).after hu ?_
    rw [bind_ok hrun, run_get_bind, bind_ok hunpin]
  · exact .inr ⟨e, _, he, bind_eq_error.mpr (.inl hrun), ht.pins, fun ha => ht.tidy (hno ha)⟩

/-- The table scan leaves the pins as they are, wherever it starts. -/
theorem quiet_nextLoop (h : RmFileHdr) : ∀ (n : Nat) (rid : Rid) (s : PooledFile), Tidy s.pool →
    Quiet PooledFile.pool (0 ≤ rid.pageNo) (nextLoop h n rid) s := by
  intro n
  induction n with
  | zero => exact fun _ _ hs => .pure hs _
  | succ n ih =>
      intro rid s hs
      unfold nextLoop
      by_cases hlt : rid.pageNo < h.numPages
      · rw [if_pos hlt]
        let slotNo (f : Nat) (t : PooledFile) :=
          Bitmap.nextBit true (t.data f).toBuf RmPageHandle.bitmap h.slotsPerPage rid.slotNo
        refine quiet_fetch_unpin (g := fun f t => if slotNo f t < h.slotsPerPage then
          return ⟨⟨rid.pageNo, slotNo f t⟩⟩ else nextLoop h n ⟨rid.pageNo + 1, -1⟩) hs ?_ ?_
        · intro h0
          unfold invalidPageId
          omega
        · intro f t u hu
          by_cases hslot : slotNo f t < h.slotsPerPage
          · rw [if_pos hslot]
            exact .pure hu.tidy _
          · rw [if_neg hslot]
            exact (ih _ u hu.tidy).mono fun h0 => by dsimp only; omega
      · rw [if_neg hlt]
        exact .pure hs _

theorem quiet_next (scan : RmScan) (hs : Tidy s.pool) :
    Quiet PooledFile.pool (0 ≤ scan.rid.pageNo) (next scan) s :=
  quiet_nextLoop s.fileHdr _ _ s hs

theorem quiet_scan (hs : Tidy s.pool) : Quiet PooledFile.pool True scan s := by
  by_cases h : s.fileHdr.numPages ≤ rmFirstRecordPage
  · refine Quiet.after (.refl hs) (.pure hs RmScan.atEnd) ?_
    unfold scan
    rw [run_get_bind, if_pos h]
  · refine Quiet.after (.refl hs)
      ((quiet_next ⟨⟨rmFirstRecordPage, -1⟩⟩ hs).mono fun _ => (by decide : (0 : Int) ≤ 1)) ?_
    unfold scan
    rw [run_get_bind, if_neg h]

theorem quiet_getRecord (hs : Tidy s.pool) :
    Quiet PooledFile.pool (rid.pageNo ≠ invalidPageId) (getRecord rid) s :=
  quiet_fetch_unpin (g := fun f t =>
    return RmPageHandle.record t.fileHdr (t.data f) rid.slotNo.toNat) hs id
    fun _ _ _ hu => .pure hu.tidy _

end PooledFile

/-- The calls that read a record file. -/
inductive RmRead where
  | new
  | next (scan : RmScan)
  | isRecord (rid : Rid)
  | getRecord (rid : Rid)

namespace RmRead

variable {s t : PooledFile} {r : RmRead}

def exec : RmRead → PooledM Unit
  | .new => do
      let _ ← PooledFile.scan
      return
  | .next scan => do
      let _ ← PooledFile.next scan
      return
  | .isRecord rid => do
      let _ ← PooledFile.isRecord rid
      return
  | .getRecord rid => do
      let _ ← PooledFile.getRecord rid
      return

/-- The calls that leave nothing pinned: an `is_record` must not get its page. -/
def Sound (s : PooledFile) : RmRead → Prop
  | .isRecord rid => s.pool.shown ⟨s.fd, rid.pageNo⟩ = none
  | _ => True

/-- It asks for pages with a number: `next` is not called on a scan that is at its end. -/
def Asks : RmRead → Prop
  | .new => True
  | .next scan => 0 ≤ scan.rid.pageNo
  | .isRecord rid | .getRecord rid => rid.pageNo ≠ invalidPageId

/-- **What a call does to the pins.** -/
theorem treats (hs : Tidy s.pool) (r : RmRead) :
    ∃ t, EndsIn r.exec s t ∧ Treats (r.Sound s) r.Asks (Returns exec (s, r)) s.pool t.pool := by
  cases r with
  | new => exact (PooledFile.quiet_scan hs).drop.treats trivial
  | next scan => exact (PooledFile.quiet_next scan hs).drop.treats trivial
  | getRecord rid => exact (PooledFile.quiet_getRecord hs).drop.treats trivial
  | isRecord rid =>
      rcases PooledFile.fetchPageHandle_cases hs rid.pageNo with ⟨x, f, t, hx, hrun, ht⟩
        | ⟨hx, e, t, he, hrun, ht⟩
      · refine ⟨{ s with pool := t }, .inl ⟨⟨⟩, ?_⟩, .of_fetched ht ?_⟩
        · exact bind_ok (bind_ok hrun)
        · simp [Sound, hx]
      · have hend : (exec (.isRecord rid)).run s = .error e { s with pool := t } :=
          bind_eq_error.mpr (.inl (bind_eq_error.mpr (.inl hrun)))
        refine ⟨{ s with pool := t }, .inr ⟨e, he, hend⟩, .of_kept ht.pins hx ht.tidy ?_⟩
        rintro ⟨u, hu⟩
        exact absurd (hend.symm.trans hu) (by simp)

theorem treats_of_endsIn (hs : Tidy s.pool) (h : EndsIn r.exec s t) :
    Treats (r.Sound s) r.Asks (Returns exec (s, r)) s.pool t.pool := by
  obtain ⟨u, hu, htreats⟩ := treats hs r
  exact h.unique hu ▸ htreats

theorem neutral_iff (hs : Tidy s.pool) (r : RmRead) :
    PinNeutral PooledFile.pool r.exec s ↔ r.Sound s := by
  obtain ⟨t, hend, htreats⟩ := treats hs r
  rw [← htreats.pinsKept_iff]
  constructor
  · rintro ⟨u, hu, hk⟩
    exact hend.unique hu ▸ hk
  · exact fun hk => ⟨t, hend, hk⟩

end RmRead

/-! ## Indexes -/

namespace PooledIndex

variable {α : Type} {s : PooledIndex} {no : Int} {y : PoolM α} {pool : BufferPoolManager}

/-- `FetchNode` pins the page that is there, or has the null page, or raises. -/
theorem fetchNode_cases (hs : Tidy s.pool) (no : Int) :
    (∃ x f t, s.pool.shown ⟨s.fd, no⟩ = some x ∧ ¬ s.pool.NoFrame ⟨s.fd, no⟩
        ∧ (fetchNode no).run s = .ok f { s with pool := t }
        ∧ Fetched s.pool ⟨s.fd, no⟩ x f t)
    ∨ (s.pool.NoFrame ⟨s.fd, no⟩ ∧ (fetchNode no).run s = .error .undefinedBehaviour s)
    ∨ (s.pool.shown ⟨s.fd, no⟩ = none ∧ ¬ s.pool.NoFrame ⟨s.fd, no⟩
        ∧ ∃ t, (fetchNode no).run s = .error .unixError { s with pool := t }
          ∧ Failed s.pool ⟨s.fd, no⟩ t) := by
  unfold fetchNode
  rw [run_get_bind]
  rcases hs.fetchPage_cases ⟨s.fd, no⟩ with ⟨x, f, t, hx, hrun, ht⟩ | ⟨hx, hno, hrun⟩
    | ⟨hx, hno, t, hrun, ht⟩
  · refine .inl ⟨x, f, t, hx, fun hno => ?_, ?_, ht⟩
    · have hnull := fetchPage_null hno
      rw [hrun] at hnull
      exact absurd hnull (by simp)
    · rw [bind_ok (run_pooled hrun)]
      rfl
  · refine .inr (.inl ⟨hno, ?_⟩)
    rw [bind_ok (run_pooled hrun)]
    rfl
  · exact .inr (.inr ⟨hx, hno, t, bind_eq_error.mpr (.inl (run_pooled_error hrun)), ht⟩)

theorem run_unpinPage {id : PageId} {x : PageData} {f : Nat} {t : BufferPoolManager}
    (hs : Tidy s.pool) (h : Fetched s.pool id x f t) (b : Bool) :
    ∃ u, (unpinPage f b).run { s with pool := t } = .ok ⟨⟩ { s with pool := u }
      ∧ Restored s.pool u := by
  obtain ⟨u, hrun, hu⟩ := h.unpin hs b
  refine ⟨u, ?_, hu⟩
  unfold unpinPage
  rw [run_get_bind, bind_ok (run_pooled (s := { s with pool := t }) hrun)]
  rfl

end PooledIndex

/-- The calls that read an index. -/
inductive IxRead where
  | next (scan : IxScan)
  | rid (scan : IxScan)

namespace IxRead

variable {s t : PooledIndex} {r : IxRead}

def exec : IxRead → PooledIxM Unit
  | .next scan => do
      let _ ← PooledIndex.next scan
      return
  | .rid scan => do
      let _ ← PooledIndex.rid scan
      return

/-- The calls that leave nothing pinned: `next` if it comes to no page, and `rid` on an entry. -/
def Sound (s : PooledIndex) : IxRead → Prop
  | .next scan => scan.isEnd = true
      ∨ (¬ s.pool.NoFrame ⟨s.fd, scan.iid.pageNo⟩ ∧ s.pool.shown ⟨s.fd, scan.iid.pageNo⟩ = none)
  | .rid scan => ¬ s.pool.NoFrame ⟨s.fd, scan.iid.pageNo⟩
      ∧ ∀ x, s.pool.shown ⟨s.fd, scan.iid.pageNo⟩ = some x → scan.iid.slotNo < (s.node x).numKey

/-- It asks for a page with a number. -/
def Asks : IxRead → Prop
  | .next scan | .rid scan => scan.iid.pageNo ≠ invalidPageId

/-- The call uses the null page. -/
def Lost (s : PooledIndex) : IxRead → Prop
  | .next scan => scan.isEnd = false ∧ s.pool.NoFrame ⟨s.fd, scan.iid.pageNo⟩
  | .rid scan => s.pool.NoFrame ⟨s.fd, scan.iid.pageNo⟩

theorem Sound.not_lost (h : r.Sound s) : ¬ r.Lost s := by
  cases r with
  | next scan =>
      rintro ⟨hend, hno⟩
      rcases h with h | h
      · exact absurd (hend.symm.trans h) (by simp)
      · exact h.1 hno
  | rid scan => exact h.1

/-- `next` gives nothing back. -/
theorem treats_next (hs : Tidy s.pool) {scan : IxScan} (hl : ¬ (IxRead.next scan).Lost s) :
    ∃ t, EndsIn (IxRead.next scan).exec s t ∧ Treats ((IxRead.next scan).Sound s)
      (IxRead.next scan).Asks (Returns exec (s, .next scan)) s.pool t.pool := by
  have hraises : ∀ {e u}, (PooledIndex.next scan).run s = .error e u →
      (exec (.next scan)).run s = .error e u ∧ ¬ Returns exec (s, .next scan) := by
    intro e u h
    have hend : (exec (.next scan)).run s = .error e u := bind_eq_error.mpr (.inl h)
    refine ⟨hend, ?_⟩
    rintro ⟨v, hv⟩
    exact absurd (hend.symm.trans hv) (by simp)
  by_cases hend : scan.isEnd = true
  · have hrun : (PooledIndex.next scan).run s = .error .assertionFailure s := by
      unfold PooledIndex.next
      rw [if_pos hend]
      rfl
    obtain ⟨hexec, hret⟩ := hraises hrun
    exact ⟨s, .inr ⟨_, by simp, hexec⟩, .of_kept (.refl _) (.inl hend) (fun _ => hs) hret⟩
  · rcases PooledIndex.fetchNode_cases hs scan.iid.pageNo with ⟨x, f, t, hx, _, hrun, ht⟩
      | ⟨hno, _⟩ | ⟨hx, hno, t, hrun, ht⟩
    · -- the page is pinned, and all that follows only looks
      refine ⟨{ s with pool := t }, ?_, .of_fetched ht ?_⟩
      · have hnext : EndsIn (PooledIndex.next scan) s { s with pool := t } := by
          unfold EndsIn PooledIndex.next
          rw [if_neg hend, bind_ok hrun, run_get_bind]
          dsimp only
          split
          · exact .inr ⟨_, by simp, rfl⟩
          · split
            · exact .inr ⟨_, by simp, rfl⟩
            · split <;> exact .inl ⟨_, rfl⟩
        exact hnext.drop
      · rintro (h | h)
        · exact hend h
        · exact absurd (hx.symm.trans h.2) (by simp)
    · exact absurd ⟨by simpa using hend, hno⟩ hl
    · have hnext : (PooledIndex.next scan).run s = .error .unixError { s with pool := t } := by
        unfold PooledIndex.next
        rw [if_neg hend]
        exact bind_eq_error.mpr (.inl hrun)
      obtain ⟨hexec, hret⟩ := hraises hnext
      exact ⟨{ s with pool := t }, .inr ⟨_, by simp, hexec⟩,
        .of_kept ht.pins (.inr ⟨hno, hx⟩) ht.tidy hret⟩

/-- `rid` unpins the page, unless it raises. -/
theorem treats_rid (hs : Tidy s.pool) {scan : IxScan} (hl : ¬ (IxRead.rid scan).Lost s) :
    ∃ t, EndsIn (IxRead.rid scan).exec s t ∧ Treats ((IxRead.rid scan).Sound s)
      (IxRead.rid scan).Asks (Returns exec (s, .rid scan)) s.pool t.pool := by
  rcases PooledIndex.fetchNode_cases hs scan.iid.pageNo with ⟨x, f, t, hx, hno, hrun, ht⟩
    | ⟨hno, _⟩ | ⟨hx, hno, t, hrun, ht⟩
  · by_cases hlt : scan.iid.slotNo < (s.node x).numKey
    · obtain ⟨u, hunpin, hu⟩ := PooledIndex.run_unpinPage hs ht false
      have hrid : (PooledIndex.rid scan).run s
          = .ok ((s.node x).getRid scan.iid.slotNo) { s with pool := u } := by
        unfold PooledIndex.rid PooledIndex.getRid
        rw [bind_ok hrun, run_get_bind]
        dsimp only
        rw [ht.data, if_neg (by exact Int.not_le.mpr hlt), bind_ok hunpin]
        rfl
      refine ⟨{ s with pool := u }, .inl ⟨⟨⟩, bind_ok hrid⟩, .of_restored hu ⟨hno, ?_⟩⟩
      rintro y hy
      rw [hx, Option.some.injEq] at hy
      exact hy ▸ hlt
    · have hrid : (PooledIndex.rid scan).run s
          = .error .indexEntryNotFoundError { s with pool := t } := by
        unfold PooledIndex.rid PooledIndex.getRid
        rw [bind_ok hrun, run_get_bind]
        dsimp only
        rw [ht.data, if_pos (by exact Int.not_lt.mp hlt)]
        rfl
      refine ⟨{ s with pool := t }, .inr ⟨_, by simp, bind_eq_error.mpr (.inl hrid)⟩,
        .of_fetched ht ?_⟩
      exact fun h => hlt (h.2 x hx)
  · exact absurd hno hl
  · have hend : (exec (.rid scan)).run s = .error .unixError { s with pool := t } := by
      refine bind_eq_error.mpr (.inl ?_)
      unfold PooledIndex.rid PooledIndex.getRid
      exact bind_eq_error.mpr (.inl hrun)
    refine ⟨{ s with pool := t }, .inr ⟨_, by simp, hend⟩,
      .of_kept ht.pins ⟨hno, fun x hx' => ?_⟩ ht.tidy ?_⟩
    · exact absurd (hx.symm.trans hx') (by simp)
    · rintro ⟨u, hu⟩
      exact absurd (hend.symm.trans hu) (by simp)

/-- **What a call does to the pins.** -/
theorem treats (hs : Tidy s.pool) (hl : ¬ r.Lost s) :
    ∃ t, EndsIn r.exec s t ∧ Treats (r.Sound s) r.Asks (Returns exec (s, r)) s.pool t.pool := by
  cases r with
  | next scan => exact treats_next hs hl
  | rid scan => exact treats_rid hs hl

/-- With the null page the program is lost. -/
theorem not_endsIn_exec (hl : r.Lost s) : ¬ EndsIn r.exec s t := by
  have hnull {no : Int} (hno : s.pool.NoFrame ⟨s.fd, no⟩) :
      (PooledIndex.fetchNode no).run s = .error .undefinedBehaviour s := by
    unfold PooledIndex.fetchNode
    rw [run_get_bind, bind_ok (PooledIndex.run_pooled (fetchPage_null hno))]
    rfl
  cases r with
  | next scan =>
      obtain ⟨hend, hno⟩ := hl
      refine not_endsIn (t := s) (bind_eq_error.mpr (.inl ?_))
      unfold PooledIndex.next
      rw [hend, if_neg (by simp)]
      exact bind_eq_error.mpr (.inl (hnull hno))
  | rid scan =>
      exact not_endsIn (t := s) (bind_eq_error.mpr (.inl (bind_eq_error.mpr (.inl (hnull hl)))))

theorem treats_of_endsIn (hs : Tidy s.pool) (h : EndsIn r.exec s t) :
    Treats (r.Sound s) r.Asks (Returns exec (s, r)) s.pool t.pool := by
  obtain ⟨u, hu, htreats⟩ := treats hs fun hl => not_endsIn_exec hl h
  exact h.unique hu ▸ htreats

theorem neutral_iff (hs : Tidy s.pool) (r : IxRead) :
    PinNeutral PooledIndex.pool r.exec s ↔ r.Sound s := by
  by_cases hl : r.Lost s
  · refine iff_of_false (fun hn => ?_) fun h => h.not_lost hl
    obtain ⟨t, hend, _⟩ := hn
    exact not_endsIn_exec hl hend
  · obtain ⟨t, hend, htreats⟩ := treats hs hl
    rw [← htreats.pinsKept_iff]
    constructor
    · rintro ⟨u, hu, hk⟩
      exact hend.unique hu ▸ hk
    · exact fun hk => ⟨t, hend, hk⟩

end IxRead

/-! ## The result -/

/-- **Read-only calls and pins.** In every state that a pool can be in, a call that reads leaves
every pin as it was if and only if it is neither an `is_record` that gets its page, nor a `next` of
an index scan that comes to a page, nor a `rid` of one that raises there. A traversal of any length
leaves the pins as they were if and only if all its calls do; and if these return, every frame that
could be handed out before can be handed out afterwards. -/
theorem read_only_pin_neutral_iff {s : PooledFile} {u : PooledIndex} (hs : Tidy s.pool)
    (hu : Tidy u.pool) :
    (∀ r : RmRead, PinNeutral PooledFile.pool r.exec s ↔ r.Sound s)
    ∧ (∀ r : IxRead, PinNeutral PooledIndex.pool r.exec u ↔ r.Sound u)
    ∧ (∀ h t, Run (Reads RmRead.exec) s h t → (∀ l ∈ h, l.2.Asks) →
        (PinsKept s.pool t.pool ↔ ∀ l ∈ h, l.2.Sound l.1)
        ∧ ((∀ l ∈ h, l.2.Sound l.1) → (∀ l ∈ h, Returns RmRead.exec l) →
            ∀ f, s.pool.Available f → t.pool.Available f))
    ∧ (∀ h t, Run (Reads IxRead.exec) u h t → (∀ l ∈ h, l.2.Asks) →
        (PinsKept u.pool t.pool ↔ ∀ l ∈ h, l.2.Sound l.1)
        ∧ ((∀ l ∈ h, l.2.Sound l.1) → (∀ l ∈ h, Returns IxRead.exec l) →
            ∀ f, u.pool.Available f → t.pool.Available f))
    -- whatever the clients of a pool did before, and whatever raised
    ∧ (∀ poolSize disk fd h pool, Run AttemptStep (.new poolSize disk fd) h pool →
        (∀ l ∈ h, ∀ c, l.action = .call c → BufferPoolManager.Asks c) → Tidy pool) := by
  refine ⟨RmRead.neutral_iff hs, IxRead.neutral_iff hu, fun h t hrun hasks => ?_,
    fun h t hrun hasks => ?_, fun _ _ _ _ _ hrun hasks => tidy_of_run hrun hasks⟩
  · have htreats : Treats (∀ l ∈ h, l.2.Sound l.1) True (∀ l ∈ h, Returns RmRead.exec l)
        s.pool t.pool :=
      traversal_treats hs hrun (fun _ _ _ hs hend => RmRead.treats_of_endsIn hs hend) hasks
    exact ⟨htreats.pinsKept_iff, htreats.available⟩
  · have htreats : Treats (∀ l ∈ h, l.2.Sound l.1) True (∀ l ∈ h, Returns IxRead.exec l)
        u.pool t.pool :=
      traversal_treats hu hrun (fun _ _ _ hs hend => IxRead.treats_of_endsIn hs hend) hasks
    exact ⟨htreats.pinsKept_iff, htreats.available⟩

/-- A leaf page with that many keys. -/
def leafPage (numKey nextLeaf : Int) : Nat → UInt8 :=
  putInt32 (putInt32 (putInt32 (fun _ => 0) 8 numKey) 12 1) 20 nextLeaf

/-- An index of two leaves, pages 2 and 3, with two entries and three, on a pool of one frame. -/
def openedTwo : PooledIndex where
  fd := 3
  fileHdr := ⟨-1, 5, 4, 0, 4, 338, 1356, 2, 3⟩
  colType := .typeInt
  isType := rfl
  pool := .new 1 { DiskManager.new (fun _ => some ((OsFile.empty.write (2 * pageSize)
    (leafPage 2 3) pageSize).write (3 * pageSize) (leafPage 3 1) pageSize)) with
      openFds := fun _ => some "t.0.idx" } 0

/-- Three steps of a scan from its first entry. -/
def threeSteps : PooledIxM IxScan := do
  let scan ← PooledIndex.next ⟨⟨2, 0⟩, ⟨3, 3⟩⟩
  let scan ← PooledIndex.next scan
  PooledIndex.next scan

/-- The file over the page store is carried by a tidy pool. -/
theorem PooledWorld.Carries.tidy {filename : String} {rs : Int} {w : PooledWorld} {v : RmWorld}
    (h : PooledWorld.Carries filename rs w v) : Tidy w.file.pool := by
  obtain ⟨m, pins, owes, _, hback⟩ := h.rests
  exact hback.good.faithful.inv.tidy hback.inUse.idle

/-- A table file with two pages and no records, on a pool of one frame. -/
def openedTable : PooledFile where
  fd := 3
  fileHdr := { RmFileHdr.initial 8 with numPages := 3, firstFreePageNo := 1 }
  pool := .new 1 { DiskManager.new (fun _ => some
    (OsFile.empty.write 0 (fun _ => 0) (3 * pageSize))) with openFds := fun _ => some "t" } 0

/-- A scan of the table goes through both pages with the one frame, which is there again in the
end. `rid` on an entry of the first leaf gives the page back. -/
theorem read_only_pin_neutral_iff_one_frame :
    (∃ t, Run (Reads RmRead.exec) openedTable [(openedTable, .new)] t
      ∧ PinsKept openedTable.pool t.pool ∧ t.pool.Available 0)
    ∧ PinNeutral PooledIndex.pool (IxRead.rid ⟨⟨2, 1⟩, ⟨3, 3⟩⟩).exec openedTwo := by
  have hkeys : (openedTwo.pool.shown ⟨3, 2⟩).all
      (fun x => (1 : Int) < (openedTwo.node x).numKey) = true := by decide +kernel
  obtain ⟨_, hrid, hscan, _⟩ :=
    read_only_pin_neutral_iff (s := openedTable) (u := openedTwo) (.init ..) (.init ..)
  constructor
  · obtain ⟨t, hrun⟩ : ∃ t, (RmRead.exec .new).run openedTable = .ok ⟨⟩ t := by
      have hret : (RmRead.exec .new).run' openedTable = some ⟨⟩ := by decide +kernel
      cases hrun : (RmRead.exec .new).run openedTable with
      | ok a t => exact ⟨t, rfl⟩
      | error e t =>
          delta EStateM.run' at hret
          rw [hrun] at hret
          exact absurd hret (by simp)
    have hreads : Run (Reads RmRead.exec) openedTable [(openedTable, .new)] t :=
      .step .nil ⟨rfl, .inl ⟨_, hrun⟩⟩
    obtain ⟨hpins, hframes⟩ := hscan _ _ hreads (by simp [RmRead.Asks])
    refine ⟨t, hreads, hpins.mpr (by simp [RmRead.Sound]), hframes (by simp [RmRead.Sound]) ?_ 0 ?_⟩
    · exact List.forall_mem_singleton.mpr ⟨t, hrun⟩
    · exact .inl (List.mem_range.mpr Nat.zero_lt_one)
  · refine (hrid _).mpr ⟨by decide, fun x hx => ?_⟩
    change openedTwo.pool.shown ⟨3, 2⟩ = some x at hx
    rw [hx] at hkeys
    exact of_decide_eq_true hkeys

/-- After `is_record` on the only record of a file its page stays pinned. So does a leaf after one
step of an index scan, and the leaf behind whose end `rid` looks: with one frame the scan does
not get beyond the first leaf. -/
theorem reads_leak :
    (∃ start w, PooledWorld.created (.new (.new 1 (.new fun _ => none) 0)) "t" 512 3 3 = some start
      ∧ PooledWorld.step "t" 512 start (.call (.insert fun _ => 7)) = some (.rid ⟨1, 0⟩, w)
      ∧ ¬ PinNeutral PooledFile.pool (RmRead.isRecord ⟨1, 0⟩).exec w.file)
    ∧ ¬ PinNeutral PooledIndex.pool (IxRead.next ⟨⟨2, 0⟩, ⟨3, 3⟩⟩).exec openedTwo
    ∧ ¬ PinNeutral PooledIndex.pool (IxRead.rid ⟨⟨2, 2⟩, ⟨3, 3⟩⟩).exec openedTwo
    ∧ ∃ t, threeSteps.run openedTwo = .error .undefinedBehaviour t := by
  have hopened : Tidy openedTwo.pool := .init ..
  refine ⟨?_, ?_, ?_, ?_⟩
  · have hrun : ((PooledWorld.created (.new (.new 1 (.new fun _ => none) 0)) "t" 512 3 3).any fun start =>
        (PooledWorld.step "t" 512 start (.call (.insert fun _ => 7))).any fun r =>
          r.1 = .rid ⟨1, 0⟩ ∧ r.2.file.fd = 3 ∧ (r.2.file.pool.shown ⟨3, 1⟩).isSome) = true := by
      decide +kernel
    obtain ⟨start, hcreated, hstep⟩ := (Option.any_eq_true _ _).mp hrun
    obtain ⟨⟨ret, w⟩, hstep, hw⟩ := (Option.any_eq_true _ _).mp hstep
    obtain ⟨rfl, hfd, hshown⟩ := of_decide_eq_true hw
    refine ⟨start, w, hcreated, hstep, ?_⟩
    have hc := PooledWorld.carries_created (Good.init 1 (fun _ => none) 0) (.init ..)
      ⟨fun _ => rfl, 0, Nat.one_pos, rfl⟩ hcreated
    rcases PooledWorld.step_call hc (.insert fun _ => 7) with ⟨ret, w', v', _, hstep', hc'⟩
      | ⟨_, hnone⟩
    · rw [hstep, Option.some.injEq, Prod.mk.injEq] at hstep'
      obtain ⟨rfl, rfl⟩ := hstep'
      rw [RmRead.neutral_iff hc'.tidy]
      intro hsound
      rw [RmRead.Sound, hfd] at hsound
      rw [hsound] at hshown
      exact absurd hshown (by simp)
    · exact absurd (hstep.symm.trans hnone) (by simp)
  · rw [IxRead.neutral_iff hopened]
    rintro (h | ⟨_, h⟩)
    · exact absurd h (by decide)
    · have hshown : (openedTwo.pool.shown ⟨3, 2⟩).isSome = true := by decide +kernel
      rw [show openedTwo.pool.shown ⟨3, 2⟩ = none from h] at hshown
      exact absurd hshown (by simp)
  · rw [IxRead.neutral_iff hopened]
    intro h
    have hkeys : (openedTwo.pool.shown ⟨3, 2⟩).any
        (fun x => ¬ (2 : Int) < (openedTwo.node x).numKey) = true := by decide +kernel
    obtain ⟨x, hx, hkey⟩ := (Option.any_eq_true _ _).mp hkeys
    exact of_decide_eq_true hkey (h.2 x hx)
  · exact ⟨_, rfl⟩

end Rucbase
