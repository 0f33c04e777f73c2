import Rucbase.Storage.BufferPool

/-!
# What one pool call can do

Each public function of the pool is inverted once, here: from "the call returned `r`
in state `s'`" to a closed description of `s'`. The invariants of the later modules
never unfold a pool function again. `Call`, `Ret` and `exec` package the six public
calls, so that a run of the pool is a list of calls.
-/

namespace Rucbase.BufferPoolManager

open Lib

variable {s s' : BufferPoolManager} {p : PageId} {f : Nat}

/-! ## Taking a frame -/

/-- `FindVictimPage` took frame `f`, from the free list or else from the replacer. -/
structure TakesFrame (s : BufferPoolManager) (f : Nat) (s' : BufferPoolManager) : Prop where
  /-- Only the two lists change. -/
  frame : s' = { s with freeList := s'.freeList, replacer := s'.replacer }
  source : (s.freeList = f :: s'.freeList ∧ s'.replacer = s.replacer) ∨
    (s.freeList = [] ∧ s'.freeList = [] ∧ s.replacer.victim = (some f, s'.replacer))

/-- Where a frame was taken, a list was not empty. -/
theorem TakesFrame.lists (ht : TakesFrame s f s') :
    ¬ (s.freeList = [] ∧ s.replacer.frames = []) := by
  rintro ⟨hfree, hrep⟩
  rcases ht.source with ⟨hcons, _⟩ | ⟨_, _, hvic⟩
  · rw [hfree] at hcons
    exact absurd hcons (by simp)
  · have hmem := (LRUReplacer.victim_some hvic).1
    rw [hrep] at hmem
    exact absurd hmem List.not_mem_nil

theorem findVictimPage_some (h : findVictimPage.run s = .ok (some f) s') : TakesFrame s f s' := by
  unfold findVictimPage at h
  rw [run_get_bind] at h
  split at h
  · rename_i g rest hfree
    rw [run_set_bind, EStateM.run_pure, EStateM.Result.ok.injEq] at h
    obtain ⟨h1, rfl⟩ := h
    injection h1 with h1
    subst h1
    exact ⟨rfl, .inl ⟨hfree, rfl⟩⟩
  · rename_i hfree
    rw [run_set_bind, EStateM.run_pure, EStateM.Result.ok.injEq] at h
    obtain ⟨h1, rfl⟩ := h
    exact ⟨rfl, .inr ⟨hfree, hfree, Prod.ext h1 rfl⟩⟩

theorem findVictimPage_none (h : findVictimPage.run s = .ok none s') :
    s' = s ∧ s.freeList = [] ∧ s.replacer.frames = [] := by
  unfold findVictimPage at h
  rw [run_get_bind] at h
  split at h
  · rw [run_set_bind, EStateM.run_pure, EStateM.Result.ok.injEq] at h
    exact absurd h.1 (by simp)
  · rename_i hfree
    rw [run_set_bind, EStateM.run_pure, EStateM.Result.ok.injEq] at h
    obtain ⟨h1, rfl⟩ := h
    have hv : s.replacer.victim = (none, s.replacer.victim.2) := Prod.ext h1 rfl
    obtain ⟨h2, h3⟩ := LRUReplacer.victim_none hv
    exact ⟨by rw [h3], hfree, h2⟩

theorem findVictimPage_ne_error {e : RedBaseError} : findVictimPage.run s ≠ .error e s' := by
  unfold findVictimPage
  rw [run_get_bind]
  split
  · rw [run_set_bind, EStateM.run_pure]
    simp
  · rw [run_set_bind, EStateM.run_pure]
    simp

/-! ## Writing back and re-labelling a frame -/

theorem writeBack_ok {id : PageId} {x : PageData} (h : (writeBack id x).run s = .ok ⟨⟩ s') :
    ∃ d, s.diskManager.writePage id.fd id.pageNo x.toBuf pageSize = some d
      ∧ s' = { s with diskManager := d } := by
  unfold writeBack at h
  rw [run_get_bind] at h
  split at h
  · simp at h
  · rename_i d hd
    rw [EStateM.run_set, EStateM.Result.ok.injEq] at h
    exact ⟨d, hd, h.2.symm⟩

theorem writeBack_error {id : PageId} {x : PageData} {e : RedBaseError}
    (h : (writeBack id x).run s = .error e s') :
    s.diskManager.writePage id.fd id.pageNo x.toBuf pageSize = none ∧ s' = s := by
  unfold writeBack at h
  rw [run_get_bind] at h
  split at h
  · rename_i hd
    rw [run_throw_any, EStateM.Result.error.injEq] at h
    exact ⟨hd, h.2.symm⟩
  · simp at h

/-- The disk after the page in frame `f` was written back, if it had to be. -/
def WritesOld (s : BufferPoolManager) (f : Nat) (d : DiskManager) : Prop :=
  if (s.pages f).id.pageNo ≠ invalidPageId ∧ (s.pages f).isDirty then
    s.diskManager.writePage (s.pages f).id.fd (s.pages f).id.pageNo (s.pages f).data.toBuf pageSize
      = some d
  else d = s.diskManager

/-- The page table once frame `f` no longer holds its old page. -/
def dropOld (s : BufferPoolManager) (f : Nat) : PageId → Option Nat :=
  if (s.pages f).id.pageNo ≠ invalidPageId then
    Function.update s.pageTable (s.pages f).id none
  else s.pageTable

/-- Frame `f` re-labelled to hold page `p` with bytes `x`, over disk `d`. -/
def relabel (s : BufferPoolManager) (f : Nat) (p : PageId) (d : DiskManager) (x : PageData)
    (pins : Int) : BufferPoolManager :=
  { s with
    pageTable := Function.update (s.dropOld f) p (some f)
    pages := Function.update s.pages f ⟨p, x, false, pins⟩
    diskManager := d }

theorem updatePage_ok (h : (updatePage f p f).run s = .ok ⟨⟩ s') :
    ∃ d, s.WritesOld f d ∧ s' = s.relabel f p d zeroPage 0 := by
  unfold updatePage at h
  rw [run_get_bind] at h
  dsimp only at h
  by_cases hv : (s.pages f).id.pageNo ≠ invalidPageId
  · by_cases hd : (s.pages f).isDirty = true
    · rw [onlyIf_pos ⟨hv, hd⟩, onlyIf_pos hv] at h
      obtain ⟨_, t, h1, h2⟩ := bind_eq_ok.mp h
      obtain ⟨d, hw, rfl⟩ := writeBack_ok h1
      rw [run_modify_bind, run_modify_bind, EStateM.run_modify, EStateM.Result.ok.injEq] at h2
      refine ⟨d, ?_, ?_⟩
      · rw [WritesOld, if_pos ⟨hv, hd⟩]
        exact hw
      · rw [← h2.2, relabel, dropOld, if_pos hv]
        rfl
    · rw [onlyIf_neg (fun hc => hd hc.2), run_pure_bind, onlyIf_pos hv, run_modify_bind,
        run_modify_bind, EStateM.run_modify, EStateM.Result.ok.injEq] at h
      refine ⟨s.diskManager, ?_, ?_⟩
      · rw [WritesOld, if_neg (fun hc => hd hc.2)]
      · rw [← h.2, relabel, dropOld, if_pos hv]
        rfl
  · rw [onlyIf_neg (fun hc => hv hc.1), run_pure_bind, onlyIf_neg hv, run_pure_bind,
      run_modify_bind, EStateM.run_modify, EStateM.Result.ok.injEq] at h
    refine ⟨s.diskManager, ?_, ?_⟩
    · rw [WritesOld, if_neg (fun hc => hv hc.1)]
    · rw [← h.2, relabel, dropOld, if_neg hv]
      rfl

/-- When `UpdatePage` raises, it is the write that did, and nothing has changed yet. -/
theorem updatePage_error {e : RedBaseError} (h : (updatePage f p f).run s = .error e s') :
    s' = s ∧ (s.pages f).id.pageNo ≠ invalidPageId ∧ (s.pages f).isDirty = true := by
  unfold updatePage at h
  rw [run_get_bind] at h
  dsimp only at h
  by_cases hv : (s.pages f).id.pageNo ≠ invalidPageId
  · by_cases hd : (s.pages f).isDirty = true
    · rw [onlyIf_pos ⟨hv, hd⟩, onlyIf_pos hv] at h
      rcases bind_eq_error.mp h with h1 | ⟨_, t, _, h2⟩
      · exact ⟨(writeBack_error h1).2, hv, hd⟩
      · simp at h2
    · rw [onlyIf_neg (fun hc => hd hc.2), onlyIf_pos hv] at h
      simp at h
  · rw [onlyIf_neg (fun hc => hv hc.1), onlyIf_neg hv] at h
    simp at h

theorem readInto_ok (h : (readInto f p).run s = .ok ⟨⟩ s') :
    (s.diskManager.readPage p.fd p.pageNo (s.pages f).data.toBuf pageSize).2 = true
      ∧ s' = s.setPage f { s.pages f with
          data := .ofBuf (s.diskManager.readPage p.fd p.pageNo (s.pages f).data.toBuf pageSize).1 } := by
  unfold readInto at h
  rw [run_get_bind, run_set_bind] at h
  split at h
  · rename_i hr
    rw [EStateM.run_pure, EStateM.Result.ok.injEq] at h
    exact ⟨hr, h.2.symm⟩
  · simp at h

theorem readInto_error {e : RedBaseError} (h : (readInto f p).run s = .error e s') :
    ∃ x, s' = s.setPage f { s.pages f with data := x } := by
  unfold readInto at h
  rw [run_get_bind, run_set_bind] at h
  split at h
  · simp at h
  · rw [run_throw_any, EStateM.Result.error.injEq] at h
    exact ⟨_, h.2.symm⟩

/-! ## The six calls -/

/-- A hit: one more pin, and the frame is no longer a candidate for eviction. -/
def pinHit (s : BufferPoolManager) (f : Nat) : BufferPoolManager :=
  { s.setPage f { s.pages f with pinCount := (s.pages f).pinCount + 1 } with
    replacer := s.replacer.pin f }

/-- A page brought into frame `f`, pinned once. -/
def install (s : BufferPoolManager) (f : Nat) (p : PageId) (d : DiskManager) (x : PageData) :
    BufferPoolManager :=
  { s.relabel f p d x 1 with replacer := s.replacer.pin f }

theorem fetchPage_ok {r : Option Nat} (h : (fetchPage p).run s = .ok r s') :
    (∃ f, s.pageTable p = some f ∧ r = some f ∧ s' = s.pinHit f) ∨
    (s.pageTable p = none ∧ r = none ∧ s.freeList = [] ∧ s.replacer.frames = [] ∧ s' = s) ∨
    (∃ f t d, s.pageTable p = none ∧ r = some f ∧ TakesFrame s f t ∧ t.WritesOld f d
      ∧ d.HasPage p ∧ s' = t.install f p d (d.pageBytes p)) := by
  unfold fetchPage at h
  rw [run_get_bind] at h
  split at h
  · rename_i f hf
    rw [run_set_bind, EStateM.run_pure, EStateM.Result.ok.injEq] at h
    exact .inl ⟨f, hf, h.1.symm, h.2.symm⟩
  · rename_i hf
    refine .inr ?_
    obtain ⟨v, t, h1, h2⟩ := bind_eq_ok.mp h
    cases v with
    | none =>
        rw [EStateM.run_pure, EStateM.Result.ok.injEq] at h2
        obtain ⟨ht, hfree, hrep⟩ := findVictimPage_none h1
        exact .inl ⟨hf, h2.1.symm, hfree, hrep, by rw [← h2.2, ht]⟩
    | some f =>
        obtain ⟨_, u, h3, h4⟩ := bind_eq_ok.mp h2
        obtain ⟨d, hw, rfl⟩ := updatePage_ok h3
        obtain ⟨_, w, h5, h6⟩ := bind_eq_ok.mp h4
        obtain ⟨hr, rfl⟩ := readInto_ok h5
        obtain ⟨hbytes, hpos⟩ := DiskManager.readPage_ok hr
        rw [run_modify_bind, EStateM.run_pure, EStateM.Result.ok.injEq] at h6
        refine .inr ⟨f, t, d, hf, h6.1.symm, findVictimPage_some h1, hw, hpos, ?_⟩
        rw [← h6.2, hbytes]
        simp only [install, relabel, setPage, Function.update_self, Function.update_idem]

theorem newPage_ok {fd : Int} {r : Option (Nat × PageId)} (h : (newPage fd).run s = .ok r s') :
    (r = none ∧ s.freeList = [] ∧ s.replacer.frames = [] ∧ s' = s) ∨
    (∃ f t d, r = some (f, ⟨fd, s.diskManager.fd2pageno fd⟩) ∧ TakesFrame s f t
      ∧ ({ t with diskManager := (s.diskManager.allocatePage fd).2 } : BufferPoolManager).WritesOld f d
      ∧ s' = t.install f ⟨fd, s.diskManager.fd2pageno fd⟩ d zeroPage) := by
  unfold newPage at h
  obtain ⟨v, t, h1, h2⟩ := bind_eq_ok.mp h
  cases v with
  | none =>
      rw [EStateM.run_pure, EStateM.Result.ok.injEq] at h2
      obtain ⟨ht, hfree, hrep⟩ := findVictimPage_none h1
      exact .inl ⟨h2.1.symm, hfree, hrep, by rw [← h2.2, ht]⟩
  | some f =>
      rw [run_get_bind] at h2
      have htake := findVictimPage_some h1
      have hdisk : t.diskManager = s.diskManager := by rw [htake.frame]
      rw [hdisk] at h2
      simp only [DiskManager.allocatePage] at h2
      rw [run_set_bind] at h2
      obtain ⟨_, u, h3, h4⟩ := bind_eq_ok.mp h2
      obtain ⟨d, hw, rfl⟩ := updatePage_ok h3
      rw [run_modify_bind, EStateM.run_pure, EStateM.Result.ok.injEq] at h4
      refine .inr ⟨f, t, d, h4.1.symm, htake, hw, ?_⟩
      rw [← h4.2]
      simp only [install, relabel, setPage, Function.update_self, Function.update_idem]
      rfl

/-- `UnpinPage` on the page in frame `f`. -/
def unpinHit (s : BufferPoolManager) (f : Nat) (isDirty : Bool) : BufferPoolManager :=
  { s.setPage f { s.pages f with
      pinCount := (s.pages f).pinCount - 1, isDirty := (s.pages f).isDirty || isDirty } with
    replacer := if (s.pages f).pinCount - 1 = 0 then s.replacer.unpin f else s.replacer }

/-- `UnpinPage` never raises; it refuses exactly when there is no pin to take back. -/
theorem unpinPage_run (s : BufferPoolManager) (p : PageId) (b : Bool) :
    (∃ f, s.pageTable p = some f ∧ 0 < (s.pages f).pinCount
      ∧ (unpinPage p b).run s = .ok true (s.unpinHit f b)) ∨
    ((∀ f, s.pageTable p = some f → (s.pages f).pinCount ≤ 0) ∧ (unpinPage p b).run s = .ok false s) := by
  unfold unpinPage
  rw [run_get_bind]
  cases hf : s.pageTable p with
  | none => exact .inr ⟨by simp, rfl⟩
  | some f =>
      by_cases hpin : (s.pages f).pinCount ≤ 0
      · refine .inr ⟨by simp [hpin], ?_⟩
        dsimp only
        rw [if_pos hpin, EStateM.run_pure]
      · refine .inl ⟨f, rfl, by omega, ?_⟩
        dsimp only
        rw [if_neg hpin, run_set_bind, EStateM.run_pure]
        rfl

/-- The page in frame `f` written to disk `d` and marked clean. -/
def cleaned (s : BufferPoolManager) (f : Nat) (d : DiskManager) : BufferPoolManager :=
  { s.setPage f { s.pages f with isDirty := false } with diskManager := d }

/-- The page in frame `f` was written out, giving disk `d`. -/
def Wrote (s : BufferPoolManager) (f : Nat) (d : DiskManager) : Prop :=
  s.diskManager.writePage (s.pages f).id.fd (s.pages f).id.pageNo (s.pages f).data.toBuf pageSize
    = some d

theorem flushPage_ok {r : Bool} (h : (flushPage p).run s = .ok r s') :
    (s.pageTable p = none ∧ r = false ∧ s' = s) ∨
    (∃ f d, s.pageTable p = some f ∧ r = true ∧ s.Wrote f d ∧ s' = s.cleaned f d) := by
  unfold flushPage at h
  rw [run_get_bind] at h
  split at h
  · rename_i hf
    rw [EStateM.run_pure, EStateM.Result.ok.injEq] at h
    exact .inl ⟨hf, h.1.symm, h.2.symm⟩
  · rename_i f hf
    obtain ⟨_, t, h1, h2⟩ := bind_eq_ok.mp h
    obtain ⟨d, hw, rfl⟩ := writeBack_ok h1
    rw [run_modify_bind, EStateM.run_pure, EStateM.Result.ok.injEq] at h2
    exact .inr ⟨f, d, hf, h2.1.symm, hw, h2.2.symm⟩

/-- The frame of a deleted page goes back to the end of the free list. -/
def freed (s : BufferPoolManager) (f : Nat) (p : PageId) (d : DiskManager) : BufferPoolManager :=
  { s.setPage f ⟨⟨(s.pages f).id.fd, invalidPageId⟩, zeroPage, false, 0⟩ with
    pageTable := Function.update s.pageTable p none
    freeList := s.freeList ++ [f]
    replacer := s.replacer.pin f
    diskManager := d }

theorem deletePage_ok {r : Bool} (h : (deletePage p).run s = .ok r s') :
    (s.pageTable p = none ∧ r = true ∧ s' = s) ∨
    (∃ f, s.pageTable p = some f ∧ 0 < (s.pages f).pinCount ∧ r = false ∧ s' = s) ∨
    (∃ f d, s.pageTable p = some f ∧ (s.pages f).pinCount ≤ 0 ∧ r = true
      ∧ (if (s.pages f).isDirty then s.Wrote f d else d = s.diskManager)
      ∧ s' = s.freed f p d) := by
  unfold deletePage at h
  rw [run_get_bind] at h
  split at h
  · rename_i hf
    rw [run_set_bind, EStateM.run_pure, EStateM.Result.ok.injEq] at h
    exact .inl ⟨hf, h.1.symm, h.2.symm⟩
  · rename_i f hf
    refine .inr ?_
    dsimp only at h
    split at h
    · rename_i hpin
      rw [EStateM.run_pure, EStateM.Result.ok.injEq] at h
      exact .inl ⟨f, hf, hpin, h.1.symm, h.2.symm⟩
    · rename_i hpin
      rw [run_set_bind] at h
      refine .inr ?_
      by_cases hd : (s.pages f).isDirty = true
      · rw [onlyIf_pos hd] at h
        obtain ⟨_, t, h1, h2⟩ := bind_eq_ok.mp h
        obtain ⟨d, hw, rfl⟩ := writeBack_ok h1
        rw [run_modify_bind, run_modify_bind, EStateM.run_pure, EStateM.Result.ok.injEq] at h2
        exact ⟨f, d, hf, by omega, h2.1.symm, by rw [if_pos hd]; exact hw, h2.2.symm⟩
      · rw [onlyIf_neg hd, run_pure_bind, run_modify_bind, run_modify_bind, EStateM.run_pure,
          EStateM.Result.ok.injEq] at h
        exact ⟨f, s.diskManager, hf, by omega, h.1.symm, by rw [if_neg hd], h.2.symm⟩

/-- When `DeletePage` raises, the mapping is gone and nothing else has changed. -/
theorem deletePage_error {e : RedBaseError} (h : (deletePage p).run s = .error e s') :
    ∃ f, s.pageTable p = some f ∧ (s.pages f).pinCount ≤ 0 ∧ (s.pages f).isDirty = true
      ∧ s' = { s with pageTable := Function.update s.pageTable p none } := by
  unfold deletePage at h
  rw [run_get_bind] at h
  split at h
  · rw [run_set_bind, EStateM.run_pure] at h
    simp at h
  · rename_i f hf
    dsimp only at h
    split at h
    · simp at h
    · rename_i hpin
      rw [run_set_bind] at h
      by_cases hd : (s.pages f).isDirty = true
      · rw [onlyIf_pos hd] at h
        rcases bind_eq_error.mp h with h1 | ⟨_, t, _, h2⟩
        · exact ⟨f, hf, by omega, hd, (writeBack_error h1).2⟩
        · rw [run_modify_bind, run_modify_bind, EStateM.run_pure] at h2
          simp at h2
      · rw [onlyIf_neg hd, run_pure_bind, run_modify_bind, run_modify_bind, EStateM.run_pure] at h
        simp at h

theorem flushFrame_ok {fd : Int} (h : (flushFrame fd f).run s = .ok ⟨⟩ s') :
    (¬ ((s.pages f).id.fd = fd ∧ (s.pages f).id.pageNo ≠ invalidPageId) ∧ s' = s) ∨
      ∃ d, (s.pages f).id.fd = fd ∧ (s.pages f).id.pageNo ≠ invalidPageId ∧ s.Wrote f d
        ∧ s' = s.cleaned f d := by
  unfold flushFrame at h
  rw [run_get_bind] at h
  dsimp only at h
  by_cases hc : (s.pages f).id.fd = fd ∧ (s.pages f).id.pageNo ≠ invalidPageId
  · rw [onlyIf_pos hc] at h
    obtain ⟨_, t, h1, h2⟩ := bind_eq_ok.mp h
    obtain ⟨d, hw, rfl⟩ := writeBack_ok h1
    rw [EStateM.run_modify, EStateM.Result.ok.injEq] at h2
    exact .inr ⟨d, hc.1, hc.2, hw, h2.2.symm⟩
  · rw [onlyIf_neg hc, EStateM.run_pure, EStateM.Result.ok.injEq] at h
    exact .inl ⟨hc, h.2.symm⟩

/-- What every write-back of a flush keeps, `FlushAllPages` keeps. -/
theorem flushAllPages_invariant {I : BufferPoolManager → Prop} {fd : Int}
    (hI : ∀ t g d, I t → g < t.poolSize → (t.pages g).id.fd = fd →
      (t.pages g).id.pageNo ≠ invalidPageId → t.Wrote g d → I (t.cleaned g d))
    (h0 : I s) (h : (flushAllPages fd).run s = .ok ⟨⟩ s') : I s' := by
  unfold flushAllPages at h
  rw [run_get_bind] at h
  have hloop : I s' ∧ s'.poolSize = s.poolSize := by
    refine forM_invariant (I := fun t => I t ∧ t.poolSize = s.poolSize) _ ?_ ⟨h0, rfl⟩ h
    intro g hg t u ht hu
    rcases flushFrame_ok hu with ⟨_, rfl⟩ | ⟨d, h1, h2, h3, rfl⟩
    · exact ht
    · exact ⟨hI t g d ht.1 (ht.2 ▸ List.mem_range.mp hg) h1 h2 h3, ht.2⟩
  exact hloop.1

/-! ## Calls as data -/

/-- A public call of the pool. -/
inductive Call where
  | fetchPage (pageId : PageId)
  | newPage (fd : Int)
  | unpinPage (pageId : PageId) (isDirty : Bool)
  | flushPage (pageId : PageId)
  | deletePage (pageId : PageId)
  | flushAllPages (fd : Int)
deriving DecidableEq, Repr

/-- The descriptor a call is about. -/
def Call.fd : Call → Int
  | .fetchPage p | .unpinPage p _ | .flushPage p | .deletePage p => p.fd
  | .newPage fd | .flushAllPages fd => fd

/-- What a call returns. -/
inductive Ret where
  | page (frame : Option Nat)
  | created (page : Option (Nat × PageId))
  | bool (b : Bool)
  | unit
deriving DecidableEq, Repr

/-- Run a call. -/
def exec : Call → PoolM Ret
  | .fetchPage p => do return .page (← BufferPoolManager.fetchPage p)
  | .newPage fd => do return .created (← BufferPoolManager.newPage fd)
  | .unpinPage p b => do return .bool (← BufferPoolManager.unpinPage p b)
  | .flushPage p => do return .bool (← BufferPoolManager.flushPage p)
  | .deletePage p => do return .bool (← BufferPoolManager.deletePage p)
  | .flushAllPages fd => do
      BufferPoolManager.flushAllPages fd
      return .unit

/-- **What a call that returns can have done**, one constructor for each outcome. -/
inductive Effect (s : BufferPoolManager) : Call → Ret → BufferPoolManager → Prop where
  | fetchHit {p : PageId} {f : Nat} : s.pageTable p = some f →
      Effect s (.fetchPage p) (.page (some f)) (s.pinHit f)
  | fetchNull {p : PageId} : s.pageTable p = none → s.freeList = [] → s.replacer.frames = [] →
      Effect s (.fetchPage p) (.page none) s
  | fetchMiss {p : PageId} {f : Nat} {t : BufferPoolManager} {d : DiskManager} :
      s.pageTable p = none → TakesFrame s f t → t.WritesOld f d → d.HasPage p →
      Effect s (.fetchPage p) (.page (some f)) (t.install f p d (d.pageBytes p))
  | newNull {fd : Int} : s.freeList = [] → s.replacer.frames = [] →
      Effect s (.newPage fd) (.created none) s
  | newPage {fd : Int} {f : Nat} {t : BufferPoolManager} {d : DiskManager} : TakesFrame s f t →
      ({ t with diskManager := (s.diskManager.allocatePage fd).2 } : BufferPoolManager).WritesOld f d →
      Effect s (.newPage fd) (.created (some (f, ⟨fd, s.diskManager.fd2pageno fd⟩)))
        (t.install f ⟨fd, s.diskManager.fd2pageno fd⟩ d zeroPage)
  | unpin {p : PageId} {f : Nat} {b : Bool} : s.pageTable p = some f → 0 < (s.pages f).pinCount →
      Effect s (.unpinPage p b) (.bool true) (s.unpinHit f b)
  | unpinRefused {p : PageId} {b : Bool} :
      (∀ f, s.pageTable p = some f → (s.pages f).pinCount ≤ 0) →
      Effect s (.unpinPage p b) (.bool false) s
  | flush {p : PageId} {f : Nat} {d : DiskManager} : s.pageTable p = some f → s.Wrote f d →
      Effect s (.flushPage p) (.bool true) (s.cleaned f d)
  | flushMiss {p : PageId} : s.pageTable p = none → Effect s (.flushPage p) (.bool false) s
  | deleteMiss {p : PageId} : s.pageTable p = none → Effect s (.deletePage p) (.bool true) s
  | deletePinned {p : PageId} {f : Nat} : s.pageTable p = some f → 0 < (s.pages f).pinCount →
      Effect s (.deletePage p) (.bool false) s
  | delete {p : PageId} {f : Nat} {d : DiskManager} : s.pageTable p = some f →
      (s.pages f).pinCount ≤ 0 →
      (if (s.pages f).isDirty then s.Wrote f d else d = s.diskManager) →
      Effect s (.deletePage p) (.bool true) (s.freed f p d)
  | flushAll {fd : Int} {s' : BufferPoolManager} : (flushAllPages fd).run s = .ok ⟨⟩ s' →
      Effect s (.flushAllPages fd) .unit s'

theorem exec_effect {c : Call} {r : Ret} (h : (exec c).run s = .ok r s') : Effect s c r s' := by
  cases c with
  | fetchPage p =>
      obtain ⟨a, h1, rfl⟩ := bind_pure_eq_ok.mp h
      rcases fetchPage_ok h1 with ⟨f, hp, rfl, rfl⟩ | ⟨hp, rfl, h3, h4, rfl⟩ |
        ⟨f, u, d, hp, rfl, ht, hw, hpos, rfl⟩
      · exact .fetchHit hp
      · exact .fetchNull hp h3 h4
      · exact .fetchMiss hp ht hw hpos
  | newPage fd =>
      obtain ⟨a, h1, rfl⟩ := bind_pure_eq_ok.mp h
      rcases newPage_ok h1 with ⟨rfl, h3, h4, rfl⟩ | ⟨f, u, d, rfl, ht, hw, rfl⟩
      · exact .newNull h3 h4
      · exact .newPage ht hw
  | unpinPage p b =>
      obtain ⟨a, h1, rfl⟩ := bind_pure_eq_ok.mp h
      rcases unpinPage_run s p b with ⟨f, hp, hpos, he⟩ | ⟨hno, he⟩
      · rw [he, EStateM.Result.ok.injEq] at h1
        obtain ⟨rfl, rfl⟩ := h1
        exact .unpin hp hpos
      · rw [he, EStateM.Result.ok.injEq] at h1
        obtain ⟨rfl, rfl⟩ := h1
        exact .unpinRefused hno
  | flushPage p =>
      obtain ⟨a, h1, rfl⟩ := bind_pure_eq_ok.mp h
      rcases flushPage_ok h1 with ⟨hp, rfl, rfl⟩ | ⟨f, d, hp, rfl, hw, rfl⟩
      · exact .flushMiss hp
      · exact .flush hp hw
  | deletePage p =>
      obtain ⟨a, h1, rfl⟩ := bind_pure_eq_ok.mp h
      rcases deletePage_ok h1 with ⟨hp, rfl, rfl⟩ | ⟨f, hp, hpos, rfl, rfl⟩ |
        ⟨f, d, hp, hz, rfl, hw, rfl⟩
      · exact .deleteMiss hp
      · exact .deletePinned hp hpos
      · exact .delete hp hz hw
  | flushAllPages fd =>
      obtain ⟨_, h1, rfl⟩ := bind_pure_eq_ok.mp h
      exact .flushAll h1

end Rucbase.BufferPoolManager
