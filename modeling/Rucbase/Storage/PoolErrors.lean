import Rucbase.Storage.PoolInvariant

/-!
# What a disk error leaves behind

`FetchPage`, `NewPage` and `DeletePage` change the pool before they touch the disk: the
victim has left its list, the page table is rewritten, and only then may `write_page` or
`read_page` raise. Nothing undoes the first half. The frame that was being moved is then
in no list and not pinned: it is lost, and after a failed read the page table maps an id to
bytes that were never loaded.
-/

namespace Rucbase.BufferPoolManager

open Lib

/-- The calls that move a page between the disk and a frame. -/
def MovesPage : Call → Prop
  | .fetchPage _ => True
  | .newPage _ => True
  | .deletePage _ => True
  | _ => False

/-- What the pool should look like when a call leaves with an exception. -/
structure Survives (s : BufferPoolManager) (c : Call) (s' : BufferPoolManager) : Prop where
  partition : s'.FramePartition
  /-- No page whose bytes were not loaded is mapped. -/
  loaded : ∀ p, s.pageTable p = none → s'.pageTable p = none
  /-- No dirty page lost its mapping. -/
  dirty : ∀ p f, s.pageTable p = some f → (s.pages f).isDirty = true → s'.pageTable p = some f
  /-- Asking again reads the disk or raises again. -/
  rereads : ∀ p f t, c = .fetchPage p → (fetchPage p).run s' = .ok (some f) t →
    (t.pages f).data = t.diskManager.pageBytes p

variable {s s' t : BufferPoolManager} {p : PageId} {f : Nat} {e : RedBaseError}

/-- The frame `FindVictimPage` took has left both lists, and its page was not pinned. -/
theorem FramePartition.taken (h : s.FramePartition) (ht : TakesFrame s f t) :
    f < s.poolSize ∧ f ∉ t.freeList ∧ f ∉ t.replacer.frames
      ∧ ¬ (s.Mapped f ∧ 0 < (s.pages f).pinCount) := by
  rcases ht.source with ⟨hfree, hrep⟩ | ⟨hfree, hfree', hvic⟩
  · have hmem : f ∈ s.freeList := by
      rw [hfree]
      exact List.mem_cons_self
    have hlt := h.free_lt f hmem
    rcases h.cells f hlt with ⟨hone, hnot, hpin⟩ | ⟨hno, _⟩ | ⟨hno, _⟩
    · refine ⟨hlt, ?_, hrep ▸ hnot, hpin⟩
      rw [hfree, List.count_cons_self] at hone
      exact List.count_eq_zero.mp (by omega)
    · exact absurd hmem hno
    · exact absurd hmem hno
  · obtain ⟨hmem, hrest, _⟩ := LRUReplacer.victim_some hvic
    have hlt := h.rep_lt f hmem
    refine ⟨hlt, by simp [hfree'], fun hc => ((hrest f).mp hc).1 rfl, ?_⟩
    rintro ⟨_, hpos⟩
    rcases h.cells f hlt with ⟨_, hno, _⟩ | ⟨_, _, _, hzero⟩ | ⟨_, hno, _⟩
    · exact hno hmem
    · omega
    · exact hno hmem

/-- A frame in neither list and not pinned breaks the partition. -/
theorem not_partition_of_lost (hlt : f < s.poolSize) (hfree : f ∉ s.freeList)
    (hrep : f ∉ s.replacer.frames) (hpin : ¬ (s.Mapped f ∧ 0 < (s.pages f).pinCount)) :
    ¬ s.FramePartition := by
  intro h
  rcases h.cells f hlt with ⟨hone, _⟩ | ⟨_, hone, _⟩ | ⟨_, _, hm, hpos⟩
  · rw [List.count_eq_zero.mpr hfree] at hone
    omega
  · rw [List.count_eq_zero.mpr hrep] at hone
    omega
  · exact hpin ⟨hm, hpos⟩

/-- `FetchPage` raises after the victim has left its list. -/
theorem fetchPage_error (h : (fetchPage p).run s = .error e s') :
    ∃ f t, TakesFrame s f t
      ∧ (s' = t ∨ ∃ d x, s' = (t.relabel f p d zeroPage 0).setPage f
          { (t.relabel f p d zeroPage 0).pages f with data := x }) := by
  unfold fetchPage at h
  rw [run_get_bind] at h
  split at h
  · rw [run_set_bind, EStateM.run_pure] at h
    exact absurd h (by simp)
  · rcases bind_eq_error.mp h with h1 | ⟨v, t, h1, h2⟩
    · exact absurd h1 findVictimPage_ne_error
    · cases v with
      | none => exact absurd h2 (by simp)
      | some f =>
          refine ⟨f, t, findVictimPage_some h1, ?_⟩
          rcases bind_eq_error.mp h2 with h3 | ⟨_, u, h3, h4⟩
          · exact .inl (updatePage_error h3).1
          · obtain ⟨d, _, rfl⟩ := updatePage_ok h3
            rcases bind_eq_error.mp h4 with h5 | ⟨_, w, _, h6⟩
            · obtain ⟨x, rfl⟩ := readInto_error h5
              exact .inr ⟨d, x, rfl⟩
            · rw [run_modify_bind, EStateM.run_pure] at h6
              exact absurd h6 (by simp)

/-- `NewPage` raises after the victim has left its list and a number is spent. -/
theorem newPage_error {fd : Int} (h : (newPage fd).run s = .error e s') :
    ∃ f t, TakesFrame s f t
      ∧ s' = { t with diskManager := (t.diskManager.allocatePage fd).2 } := by
  unfold newPage at h
  rcases bind_eq_error.mp h with h1 | ⟨v, t, h1, h2⟩
  · exact absurd h1 findVictimPage_ne_error
  · cases v with
    | none => exact absurd h2 (by simp)
    | some f =>
        refine ⟨f, t, findVictimPage_some h1, ?_⟩
        rw [run_get_bind] at h2
        dsimp only at h2
        rw [run_set_bind] at h2
        rcases bind_eq_error.mp h2 with h3 | ⟨_, u, _, h4⟩
        · exact (updatePage_error h3).1
        · rw [run_modify_bind, EStateM.run_pure] at h4
          exact absurd h4 (by simp)

/-- Whichever call raised, the partition is broken. -/
theorem FramePartition.not_after_error {c : Call} (h : s.FramePartition) (hc : MovesPage c)
    (he : (exec c).run s = .error e s') : ¬ s'.FramePartition := by
  cases c with
  | fetchPage p =>
      rcases bind_eq_error.mp he with he | ⟨_, _, _, h2⟩
      · obtain ⟨f, t, ht, hs'⟩ := fetchPage_error he
        obtain ⟨hlt, hfree, hrep, hpin⟩ := h.taken ht
        have hframe := ht.frame
        rcases hs' with rfl | ⟨d, x, rfl⟩
        · -- the write-back failed
          refine not_partition_of_lost (f := f) ?_ hfree hrep ?_
          · rw [hframe]
            exact hlt
          · rw [hframe]
            exact hpin
        · -- the read failed: the frame carries the new id but was never pinned
          refine not_partition_of_lost (f := f) ?_ hfree hrep ?_
          · show f < t.poolSize
            rw [hframe]
            exact hlt
          · rintro ⟨_, hpos⟩
            simp [setPage, relabel] at hpos
      · exact absurd h2 (by simp)
  | newPage fd =>
      rcases bind_eq_error.mp he with he | ⟨_, _, _, h2⟩
      · obtain ⟨f, t, ht, rfl⟩ := newPage_error he
        obtain ⟨hlt, hfree, hrep, hpin⟩ := h.taken ht
        have hframe := ht.frame
        refine not_partition_of_lost (f := f) ?_ hfree hrep ?_
        · show f < t.poolSize
          rw [hframe]
          exact hlt
        · rw [hframe]
          exact hpin
      · exact absurd h2 (by simp)
  | deletePage p =>
      rcases bind_eq_error.mp he with he | ⟨_, _, _, h2⟩
      · obtain ⟨f, hp, hz, _, rfl⟩ := deletePage_error he
        obtain ⟨hlt, hfree, hid⟩ := (h.table p f).mp hp
        -- the frame is still in use but no page maps to it
        intro h'
        have hnone := (h'.table p f).mpr ⟨hlt, hfree, hid⟩
        dsimp only at hnone
        rw [Function.update_self] at hnone
        exact absurd hnone (by simp)
      · exact absurd h2 (by simp)
  | unpinPage | flushPage | flushAllPages => exact absurd hc (by simp [MovesPage])

/-- **No call survives a disk error**: whenever `FetchPage`, `NewPage` or `DeletePage` raises,
the pool it leaves is broken. -/
theorem not_survives_error {s s' : BufferPoolManager} {c : Call} {e : RedBaseError}
    (h : s.FramePartition) (hc : MovesPage c) (he : (exec c).run s = .error e s') :
    ¬ Survives s c s' := by
  intro hsurv
  exact h.not_after_error hc he hsurv.partition

/-- The state after a `FetchPage` past the end of an empty file, on a pool of one frame. -/
def phantom : BufferPoolManager :=
  match (exec (.fetchPage ⟨3, 0⟩)).run (.new 1 { DiskManager.new (fun _ => some .empty) with
    openFds := fun _ => some "t" } 0) with
  | .ok _ s => s
  | .error _ s => s

theorem not_survives_error_read :
    ∃ s e, s.FramePartition ∧ (exec (.fetchPage ⟨3, 0⟩)).run s = .error e phantom
      ∧ ¬ Survives s (.fetchPage ⟨3, 0⟩) phantom :=
  have hpart := (PoolInv.init 1 { DiskManager.new (fun _ => some .empty) with
    openFds := fun _ => some "t" } 0).framePartition
  ⟨_, .unixError, hpart, rfl, not_survives_error hpart trivial rfl⟩

/-- A `FetchPage` past the end of the file raises; the same call then returns a zeroed page. -/
theorem fetch_returns_phantom :
    ∃ s e t, s.FramePartition ∧ (exec (.fetchPage ⟨3, 0⟩)).run s = .error e phantom
      ∧ s.pageTable ⟨3, 0⟩ = none ∧ phantom.pageTable ⟨3, 0⟩ = some 0
      ∧ (exec (.fetchPage ⟨3, 0⟩)).run phantom = .ok (.page (some 0)) t
      ∧ (t.pages 0).data = zeroPage ∧ ¬ Survives s (.fetchPage ⟨3, 0⟩) phantom := by
  refine ⟨_, .unixError, _, (PoolInv.init 1 { DiskManager.new (fun _ => some .empty) with
    openFds := fun _ => some "t" } 0).framePartition, rfl, rfl, rfl, rfl, ?_, ?_⟩
  · -- the failed read transferred nothing
    funext i
    change (if i.val < 0 then (0 : UInt8) else zeroPage.toBuf i.val) = zeroPage i
    rw [if_neg (Nat.not_lt_zero _), PageData.toBuf_val]
  · intro h
    have := h.loaded ⟨3, 0⟩ rfl
    exact absurd this (by decide)

end Rucbase.BufferPoolManager
