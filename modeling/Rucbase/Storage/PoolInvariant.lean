import Rucbase.Lib.Run
import Rucbase.Storage.PoolSteps
import Mathlib.Data.List.Perm.Subperm

/-!
# The frame partition

Four structures describe the frames of the pool: the page table, the frame metadata,
the free list and the replacer. `FramePartition` says how they agree: the page table is
the inverse of the frame labels, and every frame is in exactly one of the free list, the
replacer and the set of pinned frames.

`PoolInv` is the inductive form. It adds what the agreement rests on: a free frame
carries no page number (so taking it writes nothing back and unmaps nothing), and a
mapped frame carries a valid one (so evicting it does).
-/

namespace Rucbase.BufferPoolManager

open Lib

/-- Some page id is mapped to `f`. -/
def Mapped (s : BufferPoolManager) (f : Nat) : Prop := ∃ p, s.pageTable p = some f

/-- Frame `f` sits in the free list, once, and nowhere else. -/
def IsFree (s : BufferPoolManager) (f : Nat) : Prop :=
  s.freeList.count f = 1 ∧ f ∉ s.replacer.frames ∧ ¬ (s.Mapped f ∧ 0 < (s.pages f).pinCount)

/-- Frame `f` sits in the replacer, once: it is mapped, unpinned, and nowhere else. -/
def IsEvictable (s : BufferPoolManager) (f : Nat) : Prop :=
  f ∉ s.freeList ∧ s.replacer.frames.count f = 1 ∧ s.Mapped f ∧ (s.pages f).pinCount = 0

/-- Frame `f` is mapped and pinned, and in neither list. -/
def IsPinned (s : BufferPoolManager) (f : Nat) : Prop :=
  f ∉ s.freeList ∧ f ∉ s.replacer.frames ∧ s.Mapped f ∧ 0 < (s.pages f).pinCount

/-- **The frame-partition invariant.** -/
structure FramePartition (s : BufferPoolManager) : Prop where
  /-- The page table is the inverse of the labels of the frames in use. -/
  table : ∀ p f, s.pageTable p = some f ↔
    f < s.poolSize ∧ f ∉ s.freeList ∧ (s.pages f).id = p
  /-- Both lists hold frames of this pool only. -/
  free_lt : ∀ f ∈ s.freeList, f < s.poolSize
  rep_lt : ∀ f ∈ s.replacer.frames, f < s.poolSize
  /-- Every frame is in one of the three places, and by their definition in only one. -/
  cells : ∀ f < s.poolSize, s.IsFree f ∨ s.IsEvictable f ∨ s.IsPinned f

/-- The page table never maps two ids to one frame. -/
theorem FramePartition.injective {s : BufferPoolManager} (h : s.FramePartition)
    {p q : PageId} {f : Nat} (hp : s.pageTable p = some f) (hq : s.pageTable q = some f) :
    p = q :=
  ((h.table p f).mp hp).2.2.symm.trans ((h.table q f).mp hq).2.2

/-- The inductive form of the partition. -/
structure PoolInv (s : BufferPoolManager) : Prop where
  free_nodup : s.freeList.Nodup
  free_lt : ∀ f ∈ s.freeList, f < s.poolSize
  cap : s.replacer.maxSize = s.poolSize
  table : ∀ p f, s.pageTable p = some f ↔
    f < s.poolSize ∧ f ∉ s.freeList ∧ (s.pages f).id = p
  /-- Mapped pages have numbers. -/
  valid : ∀ p f, s.pageTable p = some f → p.pageNo ≠ invalidPageId
  /-- Free frames do not. -/
  free_id : ∀ f ∈ s.freeList, (s.pages f).id.pageNo = invalidPageId
  /-- The replacer lists the unpinned frames in use. -/
  rep : ∀ f, f ∈ s.replacer.frames ↔ f < s.poolSize ∧ f ∉ s.freeList ∧ (s.pages f).pinCount = 0
  pins : ∀ f, f < s.poolSize → f ∉ s.freeList → 0 ≤ (s.pages f).pinCount

namespace PoolInv

variable {s t : BufferPoolManager} {p q : PageId} {f g : Nat} {d : DiskManager} {x : PageData}

theorem init (n : Nat) (disk : DiskManager) (fd : Int) : PoolInv (.new n disk fd) where
  free_nodup := List.nodup_range
  free_lt := fun f hf => List.mem_range.mp hf
  cap := rfl
  table := by
    intro p f
    simp only [new, List.mem_range, reduceCtorEq, false_iff]
    rintro ⟨h1, h2, _⟩
    exact h2 h1
  valid := by
    intro p f h
    simp [new] at h
  free_id := fun _ _ => rfl
  rep := by
    intro f
    simp only [new, LRUReplacer.frames_new, List.not_mem_nil, List.mem_range, false_iff]
    rintro ⟨h1, h2, _⟩
    exact h2 h1
  pins := fun f hf hfree => absurd (List.mem_range.mpr hf) hfree

theorem framePartition (h : PoolInv s) : s.FramePartition where
  table := h.table
  free_lt := h.free_lt
  rep_lt := fun f hf => ((h.rep f).mp hf).1
  cells := by
    intro f hf
    by_cases hfree : f ∈ s.freeList
    · refine .inl ⟨List.count_eq_one_of_mem h.free_nodup hfree, ?_, ?_⟩
      · exact fun hr => ((h.rep f).mp hr).2.1 hfree
      · rintro ⟨⟨p, hp⟩, _⟩
        exact ((h.table p f).mp hp).2.1 hfree
    · have hmap : s.Mapped f := ⟨_, (h.table _ f).mpr ⟨hf, hfree, rfl⟩⟩
      by_cases hpin : (s.pages f).pinCount = 0
      · have hr : f ∈ s.replacer.frames := (h.rep f).mpr ⟨hf, hfree, hpin⟩
        exact .inr (.inl ⟨hfree, List.count_eq_one_of_mem s.replacer.frames_nodup hr, hmap, hpin⟩)
      · have hpos : 0 < (s.pages f).pinCount := by
          have := h.pins f hf hfree
          omega
        exact .inr (.inr ⟨hfree, fun hr => hpin ((h.rep f).mp hr).2.2, hmap, hpos⟩)

/-- A frame outside the replacer leaves room in it: `Unpin` never drops a frame. -/
theorem room (h : PoolInv s) (hf : f < s.poolSize) (hr : f ∉ s.replacer.frames) :
    s.replacer.size < s.replacer.maxSize := by
  rw [h.cap, ← LRUReplacer.length_frames]
  have hsub : (f :: s.replacer.frames).Subperm (List.range s.poolSize) := by
    refine (List.nodup_cons.mpr ⟨hr, s.replacer.frames_nodup⟩).subperm ?_
    intro g hg
    rcases List.mem_cons.mp hg with rfl | hg
    · exact List.mem_range.mpr hf
    · exact List.mem_range.mpr ((h.rep g).mp hg).1
  have := hsub.length_le
  rw [List.length_cons, List.length_range] at this
  omega

/-- A mapped frame is in use and labelled with its page. -/
theorem of_mapped (h : PoolInv s) (hp : s.pageTable p = some f) :
    f < s.poolSize ∧ f ∉ s.freeList ∧ (s.pages f).id = p := (h.table p f).mp hp

/-- Two pages are never in one frame. -/
theorem frame_ne {q : PageId} {g : Nat} (h : PoolInv s) (hq : s.pageTable q = some g)
    (hp : s.pageTable p = some f) (hqp : q ≠ p) : g ≠ f := by
  rintro rfl
  exact hqp ((h.of_mapped hq).2.2.symm.trans (h.of_mapped hp).2.2)

/-! ## What taking a frame does to the lists -/

/-- Frame `f` was unused or evictable; it leaves its list and nothing else changes. -/
structure Taken (s : BufferPoolManager) (f : Nat) (t : BufferPoolManager) : Prop where
  lt : f < s.poolSize
  poolSize : t.poolSize = s.poolSize
  pages : t.pages = s.pages
  pageTable : t.pageTable = s.pageTable
  disk : t.diskManager = s.diskManager
  cap : t.replacer.maxSize = s.replacer.maxSize
  nodup : t.freeList.Nodup
  free : ∀ g, g ∈ t.freeList ↔ g ≠ f ∧ g ∈ s.freeList
  rep : ∀ g, g ∈ t.replacer.frames ↔ g ≠ f ∧ g ∈ s.replacer.frames
  /-- Where it came from: a free frame without a page, or an evictable one. -/
  source : f ∈ s.freeList ∨ (f ∉ s.freeList ∧ f ∈ s.replacer.frames)

theorem taken (h : PoolInv s) (ht : TakesFrame s f t) : Taken s f t := by
  have hframe := ht.frame
  rcases ht.source with ⟨hfree, hrep⟩ | ⟨hfree, hfree', hvic⟩
  · have hnd := h.free_nodup
    have hmem : f ∈ s.freeList := by rw [hfree]; exact List.mem_cons_self
    rw [hfree, List.nodup_cons] at hnd
    have hnot : f ∉ s.replacer.frames := fun hr => ((h.rep f).mp hr).2.1 hmem
    refine ⟨h.free_lt f hmem, by rw [hframe], by rw [hframe], by rw [hframe], by rw [hframe],
      by rw [hrep], hnd.2, ?_, ?_, .inl hmem⟩
    · intro g
      rw [hfree, List.mem_cons]
      constructor
      · intro hg
        exact ⟨fun he => hnd.1 (he ▸ hg), .inr hg⟩
      · rintro ⟨hne, rfl | hg⟩
        · exact absurd rfl hne
        · exact hg
    · intro g
      rw [hrep]
      exact ⟨fun hg => ⟨fun he => hnot (he ▸ hg), hg⟩, fun hg => hg.2⟩
  · obtain ⟨hmem, hrest, hcap⟩ := LRUReplacer.victim_some hvic
    have hf := (h.rep f).mp hmem
    refine ⟨hf.1, by rw [hframe], by rw [hframe], by rw [hframe], by rw [hframe], hcap,
      by rw [hfree']; exact List.nodup_nil, ?_, hrest, .inr ⟨hf.2.1, hmem⟩⟩
    intro g
    rw [hfree, hfree']
    simp

theorem dropOld_taken (h : PoolInv s) (ht : Taken s f t) :
    t.dropOld f q = some g ↔ g < s.poolSize ∧ g ∉ t.freeList ∧ g ≠ f ∧ (s.pages g).id = q := by
  unfold dropOld
  rw [ht.pages, ht.pageTable]
  rcases ht.source with hfree | ⟨hfree, _⟩
  · -- a free frame has no mapping to drop
    rw [if_neg (by simp [h.free_id f hfree]), h.table, ht.free]
    constructor
    · rintro ⟨h1, h2, h3⟩
      exact ⟨h1, fun hg => h2 hg.2, fun he => h2 (he ▸ hfree), h3⟩
    · rintro ⟨h1, h2, h3, h4⟩
      exact ⟨h1, fun hg => h2 ⟨h3, hg⟩, h4⟩
  · -- an evicted frame loses the mapping of the page it held
    have hold : s.pageTable (s.pages f).id = some f := (h.table _ f).mpr ⟨ht.lt, hfree, rfl⟩
    rw [if_pos (h.valid _ _ hold), ht.free]
    by_cases hq : q = (s.pages f).id
    · subst hq
      rw [Function.update_self]
      simp only [reduceCtorEq, false_iff]
      rintro ⟨h1, h2, h3, h4⟩
      have := (h.table (s.pages f).id g).mpr ⟨h1, fun hg => h2 ⟨h3, hg⟩, h4⟩
      rw [hold] at this
      exact h3 (Option.some.inj this).symm
    · rw [Function.update_of_ne hq, h.table]
      constructor
      · rintro ⟨h1, h2, h3⟩
        exact ⟨h1, fun hg => h2 hg.2, fun he => hq (by rw [← he, h3]), h3⟩
      · rintro ⟨h1, h2, h3, h4⟩
        exact ⟨h1, fun hg => h2 ⟨h3, hg⟩, h4⟩

/-- What a page table says once page `p` was brought into frame `f`. -/
theorem install_table (h : PoolInv s) (ht : Taken s f t) (hp : s.pageTable p = none) :
    (t.install f p d x).pageTable q = some g ↔
      (q = p ∧ g = f) ∨ (g ≠ f ∧ s.pageTable q = some g) := by
  show Function.update (t.dropOld f) p (some f) q = some g ↔ _
  by_cases hq : q = p
  · subst hq
    rw [Function.update_self, hp]
    simp [eq_comm]
  · rw [Function.update_of_ne hq, h.dropOld_taken ht, h.table, ht.free]
    constructor
    · rintro ⟨h1, h2, h3, h4⟩
      exact .inr ⟨h3, h1, fun hm => h2 ⟨h3, hm⟩, h4⟩
    · rintro (⟨h1, _⟩ | ⟨h1, h2, h3, h4⟩)
      · exact absurd h1 hq
      · exact ⟨h2, fun hm => h3 hm.2, h1, h4⟩

theorem install_pages (ht : Taken s f t) (hg : g ≠ f) :
    (t.install f p d x).pages g = s.pages g := by
  show Function.update t.pages f ⟨p, x, false, 1⟩ g = s.pages g
  rw [Function.update_of_ne hg, ht.pages]

/-- The frame taken was not pinned. -/
theorem Taken.ne_pinned (h : PoolInv s) (ht : Taken s g t) (hp : s.pageTable p = some f)
    (hpin : 0 < (s.pages f).pinCount) : f ≠ g := by
  rintro rfl
  rcases ht.source with hfree | ⟨_, hrep⟩
  · exact (h.of_mapped hp).2.1 hfree
  · have := ((h.rep f).mp hrep).2.2
    omega

/-! ## Every transition keeps the partition -/

theorem install (h : PoolInv s) (ht : Taken s f t) (hp : s.pageTable p = none)
    (hv : p.pageNo ≠ invalidPageId) : PoolInv (t.install f p d x) where
  free_nodup := ht.nodup
  free_lt := by
    intro g hg
    show g < t.poolSize
    rw [ht.poolSize]
    exact h.free_lt g ((ht.free g).mp hg).2
  cap := by
    show (t.replacer.pin f).maxSize = t.poolSize
    rw [LRUReplacer.maxSize_pin, ht.cap, ht.poolSize, h.cap]
  table := by
    intro q g
    show Function.update (t.dropOld f) p (some f) q = some g ↔ g < t.poolSize ∧ g ∉ t.freeList
      ∧ (Function.update t.pages f ⟨p, x, false, 1⟩ g).id = q
    have hff : f ∉ t.freeList := fun hg => ((ht.free f).mp hg).1 rfl
    rw [ht.poolSize, ht.pages]
    -- the frame taken holds the new page; the others hold what they held
    by_cases hg : g = f
    · subst hg
      rw [Function.update_self (f := s.pages)]
      by_cases hq : q = p
      · subst hq
        rw [Function.update_self]
        simp [ht.lt, hff]
      · rw [Function.update_of_ne hq, h.dropOld_taken ht]
        simp [Ne.symm hq]
    · rw [Function.update_of_ne hg]
      by_cases hq : q = p
      · subst hq
        rw [Function.update_self]
        constructor
        · intro he
          exact absurd (Option.some.inj he).symm hg
        · rintro ⟨h1, h2, h3⟩
          have hs : s.pageTable q = some g :=
            (h.table q g).mpr ⟨h1, fun hm => h2 ((ht.free g).mpr ⟨hg, hm⟩), h3⟩
          rw [hp] at hs
          exact absurd hs (by simp)
      · rw [Function.update_of_ne hq, h.dropOld_taken ht]
        simp [hg]
  valid := by
    intro q g hq
    change Function.update (t.dropOld f) p (some f) q = some g at hq
    by_cases hqp : q = p
    · exact hqp ▸ hv
    · rw [Function.update_of_ne hqp, h.dropOld_taken ht] at hq
      refine h.valid q g ((h.table q g).mpr ⟨hq.1, ?_, hq.2.2.2⟩)
      exact fun hm => hq.2.1 ((ht.free g).mpr ⟨hq.2.2.1, hm⟩)
  free_id := by
    intro g hg
    show (Function.update t.pages f ⟨p, x, false, 1⟩ g).id.pageNo = invalidPageId
    have hgf := (ht.free g).mp hg
    rw [Function.update_of_ne hgf.1, ht.pages]
    exact h.free_id g hgf.2
  rep := by
    intro g
    show g ∈ (t.replacer.pin f).frames ↔ g < t.poolSize ∧ g ∉ t.freeList
      ∧ (Function.update t.pages f ⟨p, x, false, 1⟩ g).pinCount = 0
    rw [LRUReplacer.mem_frames_pin, ht.rep, h.rep, ht.poolSize, ht.free, ht.pages]
    by_cases hg : g = f
    · subst hg
      simp [Function.update_self]
    · rw [Function.update_of_ne hg]
      simp [hg]
  pins := by
    intro g hg hfree
    show 0 ≤ (Function.update t.pages f ⟨p, x, false, 1⟩ g).pinCount
    by_cases hgf : g = f
    · subst hgf
      rw [Function.update_self]
      exact Int.zero_le_ofNat 1
    · rw [Function.update_of_ne hgf, ht.pages]
      refine h.pins g (ht.poolSize ▸ hg) ?_
      exact fun hm => hfree ((ht.free g).mpr ⟨hgf, hm⟩)

/-- Changing a mapped frame's bytes, dirty bit and pins keeps the partition if the
replacer follows the pins. -/
theorem setPage (h : PoolInv s) (hp : s.pageTable p = some f) {pg : Page} {r : LRUReplacer}
    (hid : pg.id = p) (hpin : 0 ≤ pg.pinCount) (hcap : r.maxSize = s.replacer.maxSize)
    (hself : f ∈ r.frames ↔ pg.pinCount = 0)
    (hother : ∀ g, g ≠ f → (g ∈ r.frames ↔ g ∈ s.replacer.frames)) :
    PoolInv { s.setPage f pg with replacer := r, diskManager := d } := by
  obtain ⟨hlt, hfree, hlab⟩ := h.of_mapped hp
  have hids : ∀ g, (Function.update s.pages f pg g).id = (s.pages g).id := by
    intro g
    by_cases hg : g = f
    · subst hg
      rw [Function.update_self, hid, hlab]
    · rw [Function.update_of_ne hg]
  refine ⟨h.free_nodup, h.free_lt, hcap.trans h.cap, ?_, h.valid, ?_, ?_, ?_⟩
  · intro q g
    show s.pageTable q = some g ↔ g < s.poolSize ∧ g ∉ s.freeList
      ∧ (Function.update s.pages f pg g).id = q
    rw [hids, h.table]
  · intro g hg
    show (Function.update s.pages f pg g).id.pageNo = invalidPageId
    rw [hids]
    exact h.free_id g hg
  · intro g
    show g ∈ r.frames ↔ g < s.poolSize ∧ g ∉ s.freeList
      ∧ (Function.update s.pages f pg g).pinCount = 0
    by_cases hg : g = f
    · subst hg
      rw [Function.update_self, hself]
      simp [hlt, hfree]
    · rw [Function.update_of_ne hg, hother g hg, h.rep]
  · intro g hg hgfree
    show 0 ≤ (Function.update s.pages f pg g).pinCount
    by_cases hgf : g = f
    · subst hgf
      rw [Function.update_self]
      exact hpin
    · rw [Function.update_of_ne hgf]
      exact h.pins g hg hgfree

theorem pinHit (h : PoolInv s) (hp : s.pageTable p = some f) : PoolInv (s.pinHit f) := by
  obtain ⟨hlt, hfree, hlab⟩ := h.of_mapped hp
  have hpin := h.pins f hlt hfree
  refine h.setPage (d := s.diskManager) hp hlab ?_ (LRUReplacer.maxSize_pin ..) ?_ ?_
  · show 0 ≤ (s.pages f).pinCount + 1
    omega
  · rw [LRUReplacer.mem_frames_pin]
    show _ ↔ (s.pages f).pinCount + 1 = 0
    constructor
    · exact fun hc => absurd rfl hc.1
    · intro hc
      omega
  · intro g hg
    rw [LRUReplacer.mem_frames_pin]
    simp [hg]

theorem unpinHit (h : PoolInv s) (hp : s.pageTable p = some f) (hpos : 0 < (s.pages f).pinCount)
    (b : Bool) : PoolInv (s.unpinHit f b) := by
  obtain ⟨hlt, hfree, hlab⟩ := h.of_mapped hp
  have hnot : f ∉ s.replacer.frames := by
    intro hr
    have := ((h.rep f).mp hr).2.2
    omega
  have hroom := h.room hlt hnot
  have hnn : 0 ≤ (s.pages f).pinCount - 1 := by omega
  by_cases hz : (s.pages f).pinCount - 1 = 0
  · unfold BufferPoolManager.unpinHit
    rw [if_pos hz]
    refine h.setPage (d := s.diskManager) hp hlab hnn (LRUReplacer.maxSize_unpin ..) ?_ ?_
    · rw [LRUReplacer.mem_frames_unpin hroom]
      simp [hz]
    · intro g hg
      rw [LRUReplacer.mem_frames_unpin hroom]
      simp [hg]
  · unfold BufferPoolManager.unpinHit
    rw [if_neg hz]
    refine h.setPage (d := s.diskManager) hp hlab hnn rfl ?_ (fun _ _ => Iff.rfl)
    exact ⟨fun hr => absurd hr hnot, fun hc => absurd hc hz⟩

theorem cleaned (h : PoolInv s) (hp : s.pageTable p = some f) : PoolInv (s.cleaned f d) := by
  obtain ⟨hlt, hfree, hlab⟩ := h.of_mapped hp
  refine h.setPage hp hlab (h.pins f hlt hfree) rfl ?_ (fun _ _ => Iff.rfl)
  show f ∈ s.replacer.frames ↔ (s.pages f).pinCount = 0
  rw [h.rep]
  simp [hlt, hfree]

/-- What a page table says once page `p` was deleted. -/
theorem freed_table (h : PoolInv s) (hp : s.pageTable p = some f) :
    (s.freed f p d).pageTable q = some g ↔ g ≠ f ∧ s.pageTable q = some g := by
  show Function.update s.pageTable p none q = some g ↔ _
  by_cases hq : q = p
  · subst hq
    rw [Function.update_self, hp]
    simp [eq_comm]
  · rw [Function.update_of_ne hq]
    constructor
    · exact fun hqg => ⟨h.frame_ne hqg hp hq, hqg⟩
    · exact fun hc => hc.2

theorem freed (h : PoolInv s) (hp : s.pageTable p = some f) : PoolInv (s.freed f p d) := by
  obtain ⟨hlt, hfree, hlab⟩ := h.of_mapped hp
  have hmem : ∀ g, g ∈ s.freeList ++ [f] ↔ g ∈ s.freeList ∨ g = f := by simp
  refine ⟨?_, ?_, ?_, ?_, ?_, ?_, ?_, ?_⟩
  · show (s.freeList ++ [f]).Nodup
    exact List.nodup_append.mpr ⟨h.free_nodup, List.nodup_singleton f, by
      intro a ha b hb he
      rw [List.mem_singleton] at hb
      exact hfree (hb ▸ he ▸ ha)⟩
  · intro g hg
    rcases (hmem g).mp hg with hg | rfl
    · exact h.free_lt g hg
    · exact hlt
  · exact (LRUReplacer.maxSize_pin ..).trans h.cap
  · intro q g
    show Function.update s.pageTable p none q = some g ↔ g < s.poolSize ∧ g ∉ s.freeList ++ [f]
      ∧ (Function.update s.pages f ⟨⟨(s.pages f).id.fd, invalidPageId⟩, zeroPage, false, 0⟩ g).id = q
    rw [hmem]
    -- the frame is free now and holds no page; the others are as before
    by_cases hg : g = f
    · subst hg
      simp only [or_true, not_true_eq_false, false_and, and_false, iff_false]
      by_cases hq : q = p
      · subst hq
        simp
      · rw [Function.update_of_ne hq]
        intro hqg
        exact hq (((h.table q g).mp hqg).2.2.symm.trans hlab)
    · rw [Function.update_of_ne hg]
      by_cases hq : q = p
      · subst hq
        simp only [Function.update_self, reduceCtorEq, hg, or_false, false_iff]
        intro hc
        have := (h.table q g).mpr hc
        rw [hp] at this
        exact hg (Option.some.inj this).symm
      · rw [Function.update_of_ne hq, h.table]
        simp [hg]
  · intro q g hq
    change Function.update s.pageTable p none q = some g at hq
    by_cases hqp : q = p
    · subst hqp
      rw [Function.update_self] at hq
      exact absurd hq (by simp)
    · rw [Function.update_of_ne hqp] at hq
      exact h.valid q g hq
  · intro g hg
    show (Function.update s.pages f ⟨⟨(s.pages f).id.fd, invalidPageId⟩, zeroPage, false, 0⟩ g).id.pageNo
      = invalidPageId
    by_cases hgf : g = f
    · subst hgf
      rw [Function.update_self]
    · rw [Function.update_of_ne hgf]
      exact h.free_id g (((hmem g).mp hg).resolve_right hgf)
  · intro g
    show g ∈ (s.replacer.pin f).frames ↔ g < s.poolSize ∧ g ∉ s.freeList ++ [f]
      ∧ (Function.update s.pages f ⟨⟨(s.pages f).id.fd, invalidPageId⟩, zeroPage, false, 0⟩ g).pinCount = 0
    rw [LRUReplacer.mem_frames_pin, hmem, h.rep]
    by_cases hg : g = f
    · subst hg
      simp
    · rw [Function.update_of_ne hg]
      simp [hg]
  · intro g hg hgfree
    show 0 ≤ (Function.update s.pages f ⟨⟨(s.pages f).id.fd, invalidPageId⟩, zeroPage, false, 0⟩ g).pinCount
    have hnot : ¬ (g ∈ s.freeList ∨ g = f) := fun hc => hgfree ((hmem g).mpr hc)
    rw [Function.update_of_ne (fun he => hnot (.inr he))]
    exact h.pins g hg (fun hm => hnot (.inl hm))

end PoolInv

/-! ## Runs of the pool -/

/-- The number `NewPage` is about to hand out is not the number of a cached page. -/
def FreshNumber (s : BufferPoolManager) : Call → Prop
  | .newPage fd => s.pageTable ⟨fd, s.diskManager.fd2pageno fd⟩ = none
  | _ => True

instance (s : BufferPoolManager) : (c : Call) → Decidable (s.FreshNumber c)
  | .newPage fd => inferInstanceAs (Decidable (s.pageTable ⟨fd, s.diskManager.fd2pageno fd⟩ = none))
  | .fetchPage _ => isTrue trivial
  | .unpinPage _ _ => isTrue trivial
  | .flushPage _ => isTrue trivial
  | .deletePage _ => isTrue trivial
  | .flushAllPages _ => isTrue trivial

/-- One call that returns: its disk transfers succeed and its page number is fresh. -/
def callStep (s : BufferPoolManager) (c : Call) : Option (Ret × BufferPoolManager) :=
  if s.FreshNumber c then
    match (exec c).run s with
    | .ok r s' => some (r, s')
    | .error _ _ => none
  else none

/-- A step of the pool: a call and what it returned. -/
def Step : BufferPoolManager → Call × Ret → BufferPoolManager → Prop := Run.Asks callStep

theorem step_iff {s s' : BufferPoolManager} {l : Call × Ret} :
    Step s l s' ↔ s.FreshNumber l.1 ∧ (exec l.1).run s = .ok l.2 s' := by
  unfold Step Run.Asks callStep
  split
  · rename_i hf
    split
    · rename_i r t he
      rw [he]
      simp [hf]
    · rename_i e t he
      rw [he]
      simp
  · rename_i hf
    simp [hf]

theorem Step.effect {s s' : BufferPoolManager} {c : Call} {r : Ret} (h : Step s (c, r) s') :
    Effect s c r s' := exec_effect (step_iff.mp h).2

/-- A frame with a page number is in use. -/
theorem PoolInv.mapped_of_valid {s : BufferPoolManager} {f : Nat} (h : PoolInv s)
    (hf : f < s.poolSize) (hv : (s.pages f).id.pageNo ≠ invalidPageId) :
    s.pageTable (s.pages f).id = some f :=
  (h.table _ f).mpr ⟨hf, fun hm => hv (h.free_id f hm), rfl⟩

/-- **One call keeps the partition.** -/
theorem PoolInv.step {s s' : BufferPoolManager} {l : Call × Ret} (h : PoolInv s)
    (hs : Step s l s') : PoolInv s' := by
  obtain ⟨c, r⟩ := l
  have hfresh := (step_iff.mp hs).1
  cases hs.effect with
  | fetchHit hp => exact h.pinHit hp
  | fetchNull _ _ _ => exact h
  | fetchMiss hp ht _ hpos =>
      refine h.install (h.taken ht) hp ?_
      have := hpos.1
      unfold invalidPageId
      omega
  | newNull _ _ => exact h
  | newPage ht _ =>
      refine h.install (h.taken ht) hfresh ?_
      show ((s.diskManager.fd2pageno _ : Nat) : Int) ≠ -1
      omega
  | unpin hp hpos => exact h.unpinHit hp hpos _
  | unpinRefused _ => exact h
  | flush hp _ => exact h.cleaned hp
  | flushMiss _ => exact h
  | deleteMiss _ => exact h
  | deletePinned _ _ => exact h
  | delete hp _ _ => exact h.freed hp
  | flushAll hrun =>
      refine flushAllPages_invariant ?_ h hrun
      intro t g d ht hg _ hv _
      exact ht.cleaned (ht.mapped_of_valid hg hv)

theorem PoolInv.of_run {s s' : BufferPoolManager} {h : List (Call × Ret)} (hs : PoolInv s)
    (hrun : Run Step s h s') : PoolInv s' :=
  hrun.invariant hs (fun _ _ _ => PoolInv.step)

/-- **After every run of calls on a new pool of any size, the frames are partitioned**, the
page table is injective, and there is room in the replacer for every frame outside it, so
that the capacity test of `Unpin` never drops a frame. -/
theorem framePartition_of_run {poolSize : Nat} {disk : DiskManager} {fd : Int}
    {h : List (Call × Ret)} {s : BufferPoolManager}
    (hrun : Run Step (.new poolSize disk fd) h s) :
    s.FramePartition
      ∧ (∀ p q f, s.pageTable p = some f → s.pageTable q = some f → p = q)
      ∧ ∀ f < s.poolSize, f ∉ s.replacer.frames → s.replacer.size < s.replacer.maxSize := by
  have hinv := PoolInv.of_run (PoolInv.init poolSize disk fd) hrun
  refine ⟨hinv.framePartition, ?_, ?_⟩
  · intro p q f hp hq
    exact hinv.framePartition.injective hp hq
  · intro f hf hr
    exact hinv.room hf hr

/-- A pool of one frame over an open empty file: create page 0, release it, create page 1
in its place. -/
theorem framePartition_of_run_evict :
    ∃ h s, Run Step (.new 1 { DiskManager.new (fun _ => some .empty) with
          openFds := fun _ => some "t" } 0) h s
      ∧ s.pageTable ⟨3, 1⟩ = some 0 ∧ s.pageTable ⟨3, 0⟩ = none ∧ s.FramePartition :=
  have hrun := Run.of_replay callStep [.newPage 3, .unpinPage ⟨3, 0⟩ true, .newPage 3] .nil rfl
  ⟨_, _, hrun, rfl, rfl, (framePartition_of_run hrun).1⟩

end Rucbase.BufferPoolManager
