import Rucbase.Storage.PoolErrors
import Rucbase.Storage.PoolFetchable

/-!
# Pins, across the calls that raise

A call that raises leaves the partition of the frames broken: the frame it took is in no list, and
the page it was to hold may be mapped without having been read. `Tidy` is what stays all the same,
in every state that calls of any kind lead to. A mapped page is in the frame that carries its id,
and no frame that `FindVictimPage` may hand out is pinned.

With it the three outcomes of `FetchPage` can be told from the state before the call (`shown` is
the page it will find), and what each does to the pins is known: a page that is found gets one pin
more, and a call that returns the null page or raises moves no pin.
-/

namespace Rucbase.BufferPoolManager

open Lib

/-- What every state has, whatever raised before. -/
structure Tidy (s : BufferPoolManager) : Prop where
  nodup : s.freeList.Nodup
  cap : s.replacer.maxSize = s.poolSize
  table : ∀ p f, s.pageTable p = some f →
    f < s.poolSize ∧ f ∉ s.freeList ∧ (s.pages f).id = p ∧ p.pageNo ≠ invalidPageId
  counts : ∀ f < s.poolSize, 0 ≤ (s.pages f).pinCount
  /-- The frames that may be handed out are not pinned. -/
  free : ∀ f ∈ s.freeList, f < s.poolSize ∧ (s.pages f).pinCount = 0
  rep : ∀ f ∈ s.replacer.frames, f < s.poolSize ∧ (s.pages f).pinCount = 0

/-- `FindVictimPage` can hand the frame out. -/
def Available (s : BufferPoolManager) (f : Nat) : Prop := f ∈ s.freeList ∨ f ∈ s.replacer.frames

/-- Every frame is pinned as often as before, and those that are pinned hold the same page. -/
def PinsKept (s t : BufferPoolManager) : Prop :=
  ∀ f, (t.pages f).pinCount = (s.pages f).pinCount
    ∧ (0 < (s.pages f).pinCount → (t.pages f).id = (s.pages f).id)

/-- The disk after the page in frame `f` was written back, if it has to be. -/
def writtenBack (s : BufferPoolManager) (f : Nat) : Option DiskManager :=
  let pg := s.pages f
  if pg.id.pageNo ≠ invalidPageId ∧ pg.isDirty then
    s.diskManager.writePage pg.id.fd pg.id.pageNo pg.data.toBuf pageSize
  else some s.diskManager

/-- The page that `FetchPage` will find: the cached one, or what the file has once there is a frame
for it. -/
def shown (s : BufferPoolManager) (p : PageId) : Option PageData :=
  match s.pageTable p with
  | some f => some (s.pages f).data
  | none => do
      let f ← s.nextVictim
      let d ← s.writtenBack f
      if (d.readPage p.fd p.pageNo zeroPage.toBuf pageSize).2 then some (d.pageBytes p) else none

/-- `FetchPage` has no frame to give: the page is not cached, and both lists are empty. -/
def NoFrame (s : BufferPoolManager) (p : PageId) : Prop :=
  s.pageTable p = none ∧ s.nextVictim = none

instance {s : BufferPoolManager} {p : PageId} : Decidable (s.NoFrame p) :=
  inferInstanceAs (Decidable (_ ∧ _))

variable {s s' t u : BufferPoolManager} {p q : PageId} {f g : Nat} {d : DiskManager}
  {x : PageData} {e : RedBaseError}

theorem PinsKept.refl (s : BufferPoolManager) : PinsKept s s := fun _ => ⟨rfl, fun _ => rfl⟩

theorem PinsKept.trans (h : PinsKept s t) (h' : PinsKept t u) : PinsKept s u := by
  intro f
  have hst := h f
  have htu := h' f
  refine ⟨htu.1.trans hst.1, fun hpos => ?_⟩
  rw [htu.2 (hst.1 ▸ hpos), hst.2 hpos]

/-! ## Every call leaves the pool tidy -/

namespace Tidy

theorem init (n : Nat) (disk : DiskManager) (fd : Int) : Tidy (.new n disk fd) where
  nodup := List.nodup_range
  cap := rfl
  table := fun _ _ h => absurd h (by simp [new])
  counts := fun _ _ => Int.le_refl _
  free := fun _ hf => ⟨List.mem_range.mp hf, rfl⟩
  rep := fun _ hf => absurd hf (by simp [new])

theorem withDisk (h : Tidy s) (d : DiskManager) : Tidy { s with diskManager := d } :=
  ⟨h.nodup, h.cap, h.table, h.counts, h.free, h.rep⟩

/-- A frame outside the replacer leaves room in it. -/
theorem room (h : Tidy s) (hf : f < s.poolSize) (hr : f ∉ s.replacer.frames) :
    s.replacer.size < s.replacer.maxSize := by
  rw [h.cap, ← LRUReplacer.length_frames]
  have hsub : (f :: s.replacer.frames).Subperm (List.range s.poolSize) := by
    refine (List.nodup_cons.mpr ⟨hr, s.replacer.frames_nodup⟩).subperm fun g hg => ?_
    rcases List.mem_cons.mp hg with rfl | hg
    · exact List.mem_range.mpr hf
    · exact List.mem_range.mpr (h.rep g hg).1
  have := hsub.length_le
  rw [List.length_cons, List.length_range] at this
  omega

/-- One frame changed, but not the page it holds. -/
theorem setPage (h : Tidy s) {pg : Page} {r : LRUReplacer} (hid : pg.id = (s.pages f).id)
    (hcount : f < s.poolSize → 0 ≤ pg.pinCount) (hfree : f ∈ s.freeList → pg.pinCount = 0)
    (hcap : r.maxSize = s.replacer.maxSize)
    (hself : f ∈ r.frames → f < s.poolSize ∧ pg.pinCount = 0)
    (hother : ∀ g, g ≠ f → g ∈ r.frames → g ∈ s.replacer.frames) :
    Tidy { s.setPage f pg with replacer := r, diskManager := d } := by
  have hpages : ∀ g, g ≠ f → Function.update s.pages f pg g = s.pages g :=
    fun g hg => Function.update_of_ne hg ..
  refine ⟨h.nodup, hcap.trans h.cap, fun q g hq => ?_, fun g hg => ?_, fun g hg => ?_, fun g hg => ?_⟩
  · obtain ⟨hlt, hnot, hlab, hv⟩ := h.table q g hq
    refine ⟨hlt, hnot, ?_, hv⟩
    show (Function.update s.pages f pg g).id = q
    by_cases hgf : g = f
    · subst hgf
      rw [Function.update_self, hid, hlab]
    · rw [hpages g hgf, hlab]
  · show 0 ≤ (Function.update s.pages f pg g).pinCount
    by_cases hgf : g = f
    · subst hgf
      rw [Function.update_self]
      exact hcount hg
    · rw [hpages g hgf]
      exact h.counts g hg
  · show g < s.poolSize ∧ (Function.update s.pages f pg g).pinCount = 0
    by_cases hgf : g = f
    · subst hgf
      rw [Function.update_self]
      exact ⟨(h.free g hg).1, hfree hg⟩
    · rw [hpages g hgf]
      exact h.free g hg
  · show g < s.poolSize ∧ (Function.update s.pages f pg g).pinCount = 0
    by_cases hgf : g = f
    · subst hgf
      rw [Function.update_self]
      exact hself hg
    · rw [hpages g hgf]
      exact h.rep g (hother g hgf hg)

theorem pinHit (h : Tidy s) (hp : s.pageTable p = some f) : Tidy (s.pinHit f) := by
  have hcount := h.counts f (h.table p f hp).1
  have hnot : f ∉ (s.replacer.pin f).frames := by simp
  refine h.setPage (d := s.diskManager) rfl (fun _ => show 0 ≤ (s.pages f).pinCount + 1 by omega)
    (fun hf => absurd hf (h.table p f hp).2.1) (LRUReplacer.maxSize_pin ..)
    (fun hf => absurd hf hnot) fun g _ hg => ?_
  exact (LRUReplacer.mem_frames_pin.mp hg).2

theorem unpinHit (h : Tidy s) (hp : s.pageTable p = some f) (hpos : 0 < (s.pages f).pinCount)
    (b : Bool) : Tidy (s.unpinHit f b) := by
  obtain ⟨hlt, hfree, _⟩ := h.table p f hp
  have hnot : f ∉ s.replacer.frames := by
    intro hf
    have := (h.rep f hf).2
    omega
  have hroom := h.room hlt hnot
  by_cases hz : (s.pages f).pinCount - 1 = 0
  · unfold BufferPoolManager.unpinHit
    rw [if_pos hz]
    refine h.setPage (d := s.diskManager) rfl (fun _ => show 0 ≤ (s.pages f).pinCount - 1 by omega)
      (fun hf => absurd hf hfree) (LRUReplacer.maxSize_unpin ..) (fun _ => ⟨hlt, hz⟩)
      fun g hgf hg => ?_
    exact ((LRUReplacer.mem_frames_unpin hroom).mp hg).resolve_left hgf
  · unfold BufferPoolManager.unpinHit
    rw [if_neg hz]
    exact h.setPage (d := s.diskManager) rfl (fun _ => show 0 ≤ (s.pages f).pinCount - 1 by omega)
      (fun hf => absurd hf hfree) rfl (fun hf => absurd hf hnot) fun _ _ hg => hg

/-- Bytes and dirty bit of a frame are of no interest. -/
theorem setBytes (h : Tidy s) (x : PageData) (b : Bool) :
    Tidy { s.setPage f { s.pages f with data := x, isDirty := b } with diskManager := d } :=
  h.setPage (r := s.replacer) rfl (h.counts f) (fun hf => (h.free f hf).2) rfl (h.rep f)
    fun _ _ hg => hg

/-- What `FindVictimPage` took leaves its list. -/
structure Took (s : BufferPoolManager) (f : Nat) (t : BufferPoolManager) : Prop where
  tidy : Tidy t
  size : t.poolSize = s.poolSize
  lt : f < t.poolSize
  idle : (s.pages f).pinCount = 0
  pages : t.pages = s.pages
  pageTable : t.pageTable = s.pageTable
  disk : t.diskManager = s.diskManager
  not_free : f ∉ t.freeList
  others : ∀ g, s.Available g → g = f ∨ t.Available g

theorem took (h : Tidy s) (ht : TakesFrame s f t) : Took s f t := by
  have hframe := ht.frame
  rcases ht.source with ⟨hfree, hrep⟩ | ⟨hfree, hfree', hvic⟩
  · have hmem : f ∈ s.freeList := by
      rw [hfree]
      exact List.mem_cons_self
    have hnd := h.nodup
    rw [hfree, List.nodup_cons] at hnd
    have hsub : ∀ g ∈ t.freeList, g ∈ s.freeList := fun g hg => hfree ▸ List.mem_cons_of_mem _ hg
    obtain ⟨hlt, hidle⟩ := h.free f hmem
    refine ⟨?_, by rw [hframe], by rw [hframe]; exact hlt, hidle, by rw [hframe], by rw [hframe], by rw [hframe],
      hnd.1, fun g hg => ?_⟩
    · rw [hframe]
      refine ⟨hnd.2, by rw [hrep]; exact h.cap, fun q g hq => ?_, h.counts,
        fun g hg => h.free g (hsub g hg), fun g hg => h.rep g (hrep ▸ hg)⟩
      obtain ⟨hlt, hnot, hlab⟩ := h.table q g hq
      exact ⟨hlt, fun hg => hnot (hsub g hg), hlab⟩
    · rcases hg with hg | hg
      · rw [hfree, List.mem_cons] at hg
        exact hg.imp id .inl
      · exact .inr (.inr (hrep.symm ▸ hg))
  · obtain ⟨hmem, hrest, hcap⟩ := LRUReplacer.victim_some hvic
    obtain ⟨hlt, hidle⟩ := h.rep f hmem
    refine ⟨?_, by rw [hframe], by rw [hframe]; exact hlt, hidle, by rw [hframe], by rw [hframe], by rw [hframe],
      by rw [hfree']; exact List.not_mem_nil, fun g hg => ?_⟩
    · rw [hframe]
      refine ⟨by rw [hfree']; exact List.nodup_nil, hcap.trans h.cap, fun q g hq => ?_, h.counts,
        fun g hg => absurd hg (by simp [hfree']), fun g hg => h.rep g ((hrest g).mp hg).2⟩
      obtain ⟨hlt, _, hlab⟩ := h.table q g hq
      exact ⟨hlt, by simp [hfree'], hlab⟩
    · rcases hg with hg | hg
      · rw [hfree] at hg
        exact absurd hg List.not_mem_nil
      · by_cases hgf : g = f
        · exact .inl hgf
        · exact .inr (.inr ((hrest g).mpr ⟨hgf, hg⟩))

/-- The frame carries page `p` now, and the page it held before is no longer mapped. -/
theorem relabel (h : Tidy t) (hlt : f < t.poolSize) (hfree : f ∉ t.freeList)
    (hv : p.pageNo ≠ invalidPageId) {n : Int} {r : LRUReplacer} (hn : 0 ≤ n)
    (hcap : r.maxSize = t.replacer.maxSize)
    (hrep : ∀ g ∈ r.frames, g ∈ t.replacer.frames ∧ (g = f → n = 0)) :
    Tidy { t.relabel f p d x n with replacer := r } := by
  have hpages : ∀ g, g ≠ f → Function.update t.pages f ⟨p, x, false, n⟩ g = t.pages g :=
    fun g hg => Function.update_of_ne hg ..
  refine ⟨h.nodup, hcap.trans h.cap, fun q g hq => ?_, fun g hg => ?_, fun g hg => ?_, fun g hg => ?_⟩
  · change Function.update (t.dropOld f) p (some f) q = some g at hq
    show g < t.poolSize ∧ g ∉ t.freeList
      ∧ (Function.update t.pages f ⟨p, x, false, n⟩ g).id = q ∧ _
    by_cases hqp : q = p
    · subst hqp
      rw [Function.update_self, Option.some.injEq] at hq
      subst hq
      rw [Function.update_self]
      exact ⟨hlt, hfree, rfl, hv⟩
    · rw [Function.update_of_ne hqp] at hq
      have hold : t.pageTable q = some g ∧ g ≠ f := by
        unfold dropOld at hq
        split at hq
        · by_cases hqf : q = (t.pages f).id
          · rw [hqf, Function.update_self] at hq
            exact absurd hq (by simp)
          · rw [Function.update_of_ne hqf] at hq
            refine ⟨hq, ?_⟩
            rintro rfl
            exact hqf (h.table q g hq).2.2.1.symm
        · next hno =>
            refine ⟨hq, ?_⟩
            rintro rfl
            obtain ⟨_, _, hlab, hvq⟩ := h.table q g hq
            exact hno (hlab ▸ hvq)
      obtain ⟨hlt', hnot, hlab, hvq⟩ := h.table q g hold.1
      rw [hpages g hold.2]
      exact ⟨hlt', hnot, hlab, hvq⟩
  · show 0 ≤ (Function.update t.pages f ⟨p, x, false, n⟩ g).pinCount
    by_cases hgf : g = f
    · subst hgf
      rw [Function.update_self]
      exact hn
    · rw [hpages g hgf]
      exact h.counts g hg
  · show g < t.poolSize ∧ (Function.update t.pages f ⟨p, x, false, n⟩ g).pinCount = 0
    have hgf : g ≠ f := fun hgf => hfree (hgf ▸ hg)
    rw [hpages g hgf]
    exact h.free g hg
  · show g < t.poolSize ∧ (Function.update t.pages f ⟨p, x, false, n⟩ g).pinCount = 0
    obtain ⟨hmem, hzero⟩ := hrep g hg
    by_cases hgf : g = f
    · rw [hgf, Function.update_self]
      exact ⟨hlt, hzero hgf⟩
    · rw [hpages g hgf]
      exact h.rep g hmem

theorem install (h : Tidy t) (hlt : f < t.poolSize) (hfree : f ∉ t.freeList)
    (hv : p.pageNo ≠ invalidPageId) : Tidy (t.install f p d x) := by
  refine h.relabel hlt hfree hv Int.one_nonneg (LRUReplacer.maxSize_pin ..) fun g hg => ?_
  obtain ⟨hne, hmem⟩ := LRUReplacer.mem_frames_pin.mp hg
  exact ⟨hmem, fun hgf => absurd hgf hne⟩

/-- The mapping of a page is dropped. -/
theorem unmapped (h : Tidy s) (p : PageId) :
    Tidy { s with pageTable := Function.update s.pageTable p none } := by
  refine ⟨h.nodup, h.cap, fun q g hq => ?_, h.counts, h.free, h.rep⟩
  change Function.update s.pageTable p none q = some g at hq
  by_cases hqp : q = p
  · rw [hqp, Function.update_self] at hq
    exact absurd hq (by simp)
  · rw [Function.update_of_ne hqp] at hq
    exact h.table q g hq

theorem freed (h : Tidy s) (hp : s.pageTable p = some f) : Tidy (s.freed f p d) := by
  obtain ⟨hlt, hfree, hlab, _⟩ := h.table p f hp
  let blank : Page := ⟨⟨(s.pages f).id.fd, invalidPageId⟩, zeroPage, false, 0⟩
  have hpages : ∀ g, g ≠ f → Function.update s.pages f blank g = s.pages g :=
    fun g hg => Function.update_of_ne hg ..
  refine ⟨?_, (LRUReplacer.maxSize_pin ..).trans h.cap, fun q g hq => ?_, fun g hg => ?_,
    fun g hg => ?_, fun g hg => ?_⟩
  · exact List.nodup_append.mpr ⟨h.nodup, List.nodup_singleton f, fun a ha b hb hab =>
      hfree (List.mem_singleton.mp hb ▸ hab ▸ ha)⟩
  · change Function.update s.pageTable p none q = some g at hq
    have hqp : q ≠ p := by
      rintro rfl
      rw [Function.update_self] at hq
      exact absurd hq (by simp)
    rw [Function.update_of_ne hqp] at hq
    obtain ⟨hlt', hnot, hlab', hv⟩ := h.table q g hq
    have hgf : g ≠ f := by
      rintro rfl
      exact hqp (hlab'.symm.trans hlab)
    refine ⟨hlt', fun hg => ?_, ?_, hv⟩
    · rcases List.mem_append.mp hg with hg | hg
      · exact hnot hg
      · exact hgf (List.mem_singleton.mp hg)
    · show (Function.update s.pages f blank g).id = q
      rw [hpages g hgf, hlab']
  · show 0 ≤ (Function.update s.pages f blank g).pinCount
    by_cases hgf : g = f
    · simp [hgf, blank]
    · rw [hpages g hgf]
      exact h.counts g hg
  · show g < s.poolSize ∧ (Function.update s.pages f blank g).pinCount = 0
    by_cases hgf : g = f
    · rw [hgf, Function.update_self]
      exact ⟨hlt, rfl⟩
    · rw [hpages g hgf]
      rcases List.mem_append.mp hg with hg | hg
      · exact h.free g hg
      · exact absurd (List.mem_singleton.mp hg) hgf
  · show g < s.poolSize ∧ (Function.update s.pages f blank g).pinCount = 0
    obtain ⟨hgf, hmem⟩ := LRUReplacer.mem_frames_pin.mp hg
    rw [hpages g hgf]
    exact h.rep g hmem

end Tidy

theorem PoolInv.tidy (h : PoolInv s) (hidle : FreeIdle s) : Tidy s where
  nodup := h.free_nodup
  cap := h.cap
  table := fun p f hp => ⟨(h.of_mapped hp).1, (h.of_mapped hp).2.1, (h.of_mapped hp).2.2,
    h.valid p f hp⟩
  counts := by
    intro f hf
    by_cases hfree : f ∈ s.freeList
    · exact Int.le_of_eq (hidle f hfree).symm
    · exact h.pins f hf hfree
  free := fun f hf => ⟨h.free_lt f hf, hidle f hf⟩
  rep := fun f hf => ⟨((h.rep f).mp hf).1, ((h.rep f).mp hf).2.2⟩

/-! ## Any run of calls -/

/-- Nobody asks for the page number that stands for no page. -/
def Asks (c : Call) : Prop := ∀ p, c = .fetchPage p → p.pageNo ≠ invalidPageId

theorem Tidy.effect {c : Call} {r : Ret} (h : Tidy s) (he : Effect s c r s') : Tidy s' := by
  cases he with
  | fetchHit hp => exact h.pinHit hp
  | fetchMiss _ ht _ hpage =>
      have htook := h.took ht
      have hno := hpage.1
      exact htook.tidy.install htook.lt htook.not_free (by unfold invalidPageId; omega)
  | newPage ht _ =>
      have htook := h.took ht
      exact htook.tidy.install htook.lt htook.not_free (by unfold invalidPageId; dsimp only; omega)
  | unpin hp hpos => exact h.unpinHit hp hpos _
  | flush _ _ => exact h.setBytes _ false
  | delete hp _ _ => exact h.freed hp
  | flushAll hrun =>
      exact flushAllPages_invariant (fun _ _ _ ht _ _ _ _ => ht.setBytes _ false) h hrun
  | fetchNull | newNull | unpinRefused | flushMiss | deleteMiss | deletePinned => exact h

theorem setPage_relabel {y : PageData} {n : Int} :
    (t.relabel f p d y n).setPage f { (t.relabel f p d y n).pages f with data := x }
      = t.relabel f p d x n := by
  simp only [setPage, relabel, Function.update_self, Function.update_idem]

theorem flushPage_error (h : (flushPage p).run s = .error e s') : s' = s := by
  unfold flushPage at h
  rw [run_get_bind] at h
  split at h
  · exact absurd h (by simp)
  · rcases bind_eq_error.mp h with h1 | ⟨_, t, _, h2⟩
    · exact (writeBack_error h1).2
    · rw [run_modify_bind, EStateM.run_pure] at h2
      exact absurd h2 (by simp)

theorem flushFrame_error {fd : Int} (h : (flushFrame fd f).run s = .error e s') : s' = s := by
  unfold flushFrame at h
  rw [run_get_bind] at h
  dsimp only at h
  by_cases hc : (s.pages f).id.fd = fd ∧ (s.pages f).id.pageNo ≠ invalidPageId
  · rw [onlyIf_pos hc] at h
    rcases bind_eq_error.mp h with h1 | ⟨_, t, _, h2⟩
    · exact (writeBack_error h1).2
    · exact absurd h2 (by simp)
  · rw [onlyIf_neg hc] at h
    exact absurd h (by simp)

/-- **A call that raises leaves the pool tidy.** -/
theorem Tidy.raised {c : Call} (h : Tidy s) (hc : Asks c) (he : (exec c).run s = .error e s') :
    Tidy s' := by
  cases c with
  | fetchPage p =>
      rcases bind_eq_error.mp he with he | ⟨_, _, _, h2⟩
      · obtain ⟨f, t, ht, hs'⟩ := fetchPage_error he
        have htook := h.took ht
        rcases hs' with rfl | ⟨d, x, rfl⟩
        · exact htook.tidy
        · rw [setPage_relabel]
          exact htook.tidy.relabel (r := t.replacer) htook.lt htook.not_free (hc p rfl)
            (Int.le_refl 0) rfl fun g hg => ⟨hg, fun _ => rfl⟩
      · exact absurd h2 (by simp)
  | newPage fd =>
      rcases bind_eq_error.mp he with he | ⟨_, _, _, h2⟩
      · obtain ⟨f, t, ht, rfl⟩ := newPage_error he
        exact (h.took ht).tidy.withDisk _
      · exact absurd h2 (by simp)
  | deletePage p =>
      rcases bind_eq_error.mp he with he | ⟨_, _, _, h2⟩
      · obtain ⟨f, _, _, _, rfl⟩ := deletePage_error he
        exact h.unmapped p
      · exact absurd h2 (by simp)
  | unpinPage p b =>
      rcases bind_eq_error.mp he with he | ⟨_, _, _, h2⟩
      · rcases unpinPage_run s p b with ⟨f, _, _, hrun⟩ | ⟨_, hrun⟩
        · exact absurd (hrun.symm.trans he) (by simp)
        · exact absurd (hrun.symm.trans he) (by simp)
      · exact absurd h2 (by simp)
  | flushPage p =>
      rcases bind_eq_error.mp he with he | ⟨_, _, _, h2⟩
      · exact flushPage_error he ▸ h
      · exact absurd h2 (by simp)
  | flushAllPages fd =>
      rcases bind_eq_error.mp he with he | ⟨_, _, _, h2⟩
      · unfold BufferPoolManager.flushAllPages at he
        rw [run_get_bind] at he
        refine forM_invariant_error (I := Tidy) _ (fun g _ t u ht hu => ?_)
          (fun g _ t u ht hu => flushFrame_error hu ▸ ht) h he
        rcases flushFrame_ok hu with ⟨_, rfl⟩ | ⟨d, _, _, _, rfl⟩
        · exact ht
        · exact ht.setBytes _ false
      · exact absurd h2 (by simp)

/-- One event, whether it returns or raises. -/
theorem Tidy.attempt {l : Attempt} (h : Tidy s) (hc : ∀ c, l.action = .call c → Asks c)
    (hs : AttemptStep s l s') : Tidy s' := by
  obtain ⟨rfl, hact⟩ := hs
  cases ha : l.action with
  | call c =>
      rw [ha] at hact
      have hact : l.before.tryCall c = (l.ret, s') := hact
      unfold tryCall at hact
      cases hrun : (exec c).run l.before with
      | ok r t =>
          rw [hrun, Prod.mk.injEq] at hact
          exact hact.2 ▸ h.effect (exec_effect hrun)
      | error e t =>
          rw [hrun, Prod.mk.injEq] at hact
          exact hact.2 ▸ h.raised (hc c ha) hrun
  | write f x =>
      rw [ha] at hact
      obtain ⟨_, _, rfl⟩ := hact
      exact h.setBytes (d := l.before.diskManager) x _

/-- **Every state of a pool is tidy**, whatever its clients did and whatever raised. -/
theorem tidy_of_run {poolSize : Nat} {disk : DiskManager} {fd : Int} {h : List Attempt}
    (hrun : Run AttemptStep (.new poolSize disk fd) h s)
    (hasks : ∀ l ∈ h, ∀ c, l.action = .call c → Asks c) : Tidy s := by
  refine (hrun.invariant_history (I := fun t h =>
    (∀ l ∈ h, ∀ c, l.action = .call c → Asks c) → Tidy t) (fun _ => .init ..) ?_) hasks
  intro t h l t' ih hl hall
  obtain ⟨hfirst, hrest⟩ := List.forall_mem_cons.mp hall
  exact (ih hrest).attempt hfirst hl

/-! ## Fetching a page and giving it back -/

theorem shown_miss (hp : s.pageTable p = none) (hv : s.nextVictim = some f) :
    s.shown p = (s.writtenBack f).bind fun d =>
      if (d.readPage p.fd p.pageNo zeroPage.toBuf pageSize).2 then some (d.pageBytes p) else none := by
  rw [shown, hp, hv]
  rfl

theorem updatePage_writes (h : s.writtenBack f = some d) :
    (updatePage f p f).run s = .ok ⟨⟩ (s.relabel f p d zeroPage 0) := by
  unfold writtenBack at h
  dsimp only at h
  unfold updatePage relabel dropOld
  rw [run_get_bind]
  dsimp only
  by_cases hc : (s.pages f).id.pageNo ≠ invalidPageId ∧ (s.pages f).isDirty = true
  · rw [if_pos hc] at h
    rw [onlyIf_pos hc, bind_ok (writeBack_run h), onlyIf_pos hc.1, if_pos hc.1]
    rfl
  · rw [if_neg hc, Option.some.injEq] at h
    rw [onlyIf_neg hc, run_pure_bind, ← h]
    by_cases hv : (s.pages f).id.pageNo ≠ invalidPageId
    · rw [onlyIf_pos hv, if_pos hv]
      rfl
    · rw [onlyIf_neg hv, if_neg hv]
      rfl

theorem updatePage_raises (h : s.writtenBack f = none) :
    (updatePage f p f).run s = .error .unixError s := by
  unfold writtenBack at h
  dsimp only at h
  split at h
  · next hc =>
      have hwrite : (writeBack (s.pages f).id (s.pages f).data).run s = .error .unixError s := by
        unfold writeBack
        rw [run_get_bind, h]
        rfl
      unfold updatePage
      rw [run_get_bind]
      dsimp only
      rw [onlyIf_pos hc]
      exact bind_eq_error.mpr (.inl hwrite)
  · exact absurd h (by simp)

theorem findVictimPage_run (s : BufferPoolManager) :
    ∃ t, findVictimPage.run s = .ok s.nextVictim t := by
  unfold findVictimPage nextVictim
  rw [run_get_bind]
  cases s.freeList with
  | nil => exact ⟨_, rfl⟩
  | cons f rest => exact ⟨_, rfl⟩

theorem fetchPage_null (h : s.NoFrame p) : (fetchPage p).run s = .ok none s := by
  obtain ⟨t, ht⟩ := findVictimPage_run s
  rw [h.2] at ht
  obtain ⟨rfl, _⟩ := findVictimPage_none ht
  unfold fetchPage
  rw [run_get_bind, h.1]
  exact bind_ok ht

/-- Page `p` is in frame `f`, with one pin more than before. -/
structure Fetched (s : BufferPoolManager) (p : PageId) (x : PageData) (f : Nat)
    (t : BufferPoolManager) : Prop where
  tidy : Tidy t
  size : t.poolSize = s.poolSize
  table : t.pageTable p = some f
  data : (t.pages f).data = x
  pinned : (t.pages f).pinCount = (s.pages f).pinCount + 1
  held : 0 < (s.pages f).pinCount → (t.pages f).id = (s.pages f).id
  others : ∀ g, g ≠ f → (t.pages g).pinCount = (s.pages g).pinCount
    ∧ (t.pages g).id = (s.pages g).id
  available : ∀ g, s.Available g → g = f ∨ t.Available g
  /-- A frame with pins was not there to be handed out. -/
  idle : s.Available f → (s.pages f).pinCount = 0

theorem Tidy.available_idle (h : Tidy s) (hf : s.Available f) : (s.pages f).pinCount = 0 := by
  rcases hf with hf | hf
  · exact (h.free f hf).2
  · exact (h.rep f hf).2

theorem Tidy.fetched_hit (h : Tidy s) (hp : s.pageTable p = some f) :
    Fetched s p (s.pages f).data f (s.pinHit f) := by
  have hself : (s.pinHit f).pages f = { s.pages f with pinCount := (s.pages f).pinCount + 1 } :=
    Function.update_self ..
  have hother : ∀ g, g ≠ f → (s.pinHit f).pages g = s.pages g :=
    fun g hg => Function.update_of_ne hg ..
  refine ⟨h.pinHit hp, rfl, hp, by rw [hself], by rw [hself], fun _ => by rw [hself],
    fun g hg => by rw [hother g hg]; exact ⟨rfl, rfl⟩, fun g hg => ?_, h.available_idle⟩
  by_cases hgf : g = f
  · exact .inl hgf
  · refine .inr (hg.imp id fun hg => ?_)
    exact LRUReplacer.mem_frames_pin.mpr ⟨hgf, hg⟩

theorem Tidy.fetched_miss (h : Tidy s) (ht : TakesFrame s f t) (hv : p.pageNo ≠ invalidPageId) :
    Fetched s p x f (t.install f p d x) := by
  have htook := h.took ht
  have hself : (t.install f p d x).pages f = ⟨p, x, false, 1⟩ := Function.update_self ..
  have hother : ∀ g, g ≠ f → (t.install f p d x).pages g = s.pages g := fun g hg =>
    (Function.update_of_ne hg ..).trans (congrFun htook.pages g)
  refine ⟨htook.tidy.install htook.lt htook.not_free hv, htook.size, Function.update_self .., by rw [hself],
    by rw [hself, htook.idle, Int.zero_add], fun hpos => ?_,
    fun g hg => by rw [hother g hg]; exact ⟨rfl, rfl⟩, fun g hg => ?_, fun _ => htook.idle⟩
  · rw [htook.idle] at hpos
    exact absurd hpos (Int.lt_irrefl 0)
  · by_cases hgf : g = f
    · exact .inl hgf
    · refine .inr (((htook.others g hg).resolve_left hgf).imp id fun hg => ?_)
      exact LRUReplacer.mem_frames_pin.mpr ⟨hgf, hg⟩

/-- What `FetchPage` leaves behind when it raises: nothing is pinned. -/
structure Failed (s : BufferPoolManager) (p : PageId) (t : BufferPoolManager) : Prop where
  pins : PinsKept s t
  tidy : p.pageNo ≠ invalidPageId → Tidy t

theorem pinned_relabel :
    { (t.relabel f p d x 0).setPage f { (t.relabel f p d x 0).pages f with pinCount := 1 } with
      replacer := t.replacer.pin f } = t.install f p d x := by
  simp only [install, relabel, setPage, Function.update_self, Function.update_idem]

theorem readInto_found
    (hr : (d.readPage p.fd p.pageNo zeroPage.toBuf pageSize).2 = true) :
    (readInto f p).run (t.relabel f p d zeroPage 0) = .ok ⟨⟩
      (t.relabel f p d (.ofBuf (d.readPage p.fd p.pageNo zeroPage.toBuf pageSize).1) 0) := by
  have hself : (t.relabel f p d zeroPage 0).pages f = ⟨p, zeroPage, false, 0⟩ :=
    Function.update_self ..
  unfold readInto
  rw [run_get_bind, run_set_bind, hself, ← hself, setPage_relabel, hself]
  exact congrFun (if_pos hr) _

theorem readInto_lost
    (hr : (d.readPage p.fd p.pageNo zeroPage.toBuf pageSize).2 = false) :
    (readInto f p).run (t.relabel f p d zeroPage 0) = .error .unixError
      (t.relabel f p d (.ofBuf (d.readPage p.fd p.pageNo zeroPage.toBuf pageSize).1) 0) := by
  have hself : (t.relabel f p d zeroPage 0).pages f = ⟨p, zeroPage, false, 0⟩ :=
    Function.update_self ..
  unfold readInto
  rw [run_get_bind, run_set_bind, hself, ← hself, setPage_relabel, hself]
  exact congrFun (if_neg (Bool.eq_false_iff.mp hr)) _

/-- The read failed: the frame carries the new id, and nobody has a pin on it. -/
theorem Tidy.Took.failed (ht : Tidy.Took s f t) : Failed s p (t.relabel f p d x 0) := by
  refine ⟨fun g => ?_, fun hv => ?_⟩
  · show (Function.update t.pages f ⟨p, x, false, 0⟩ g).pinCount = _
      ∧ (_ → (Function.update t.pages f ⟨p, x, false, 0⟩ g).id = _)
    by_cases hgf : g = f
    · rw [hgf, Function.update_self, ht.idle]
      exact ⟨rfl, fun hpos => absurd hpos (Int.lt_irrefl 0)⟩
    · rw [Function.update_of_ne hgf, ht.pages]
      exact ⟨rfl, fun _ => rfl⟩
  · exact ht.tidy.relabel (r := t.replacer) ht.lt ht.not_free hv (Int.le_refl 0) rfl
      fun g hg => ⟨hg, fun _ => rfl⟩

/-- **The three outcomes of `FetchPage`**: it finds the page that `shown` says and pins it, or it
has no frame and does nothing, or it raises and pins nothing. -/
theorem Tidy.fetchPage_cases (h : Tidy s) (p : PageId) :
    (∃ x f t, s.shown p = some x ∧ (fetchPage p).run s = .ok (some f) t ∧ Fetched s p x f t)
    ∨ (s.shown p = none ∧ s.NoFrame p ∧ (fetchPage p).run s = .ok none s)
    ∨ (s.shown p = none ∧ ¬ s.NoFrame p
        ∧ ∃ t, (fetchPage p).run s = .error .unixError t ∧ Failed s p t) := by
  cases hp : s.pageTable p with
  | some f =>
      refine .inl ⟨_, f, _, by rw [shown, hp], ?_, h.fetched_hit hp⟩
      unfold fetchPage
      rw [run_get_bind, hp]
      rfl
  | none =>
      cases hvic : s.nextVictim with
      | none =>
          refine .inr (.inl ⟨?_, ⟨hp, hvic⟩, fetchPage_null ⟨hp, hvic⟩⟩)
          rw [shown, hp, hvic]
          rfl
      | some f =>
          have hno : ¬ s.NoFrame p := fun hno => absurd (hvic.symm.trans hno.2) (by simp)
          obtain ⟨t, ht⟩ := findVictimPage_run s
          rw [hvic] at ht
          have htake := findVictimPage_some ht
          have htook := h.took htake
          have hback : t.writtenBack f = s.writtenBack f := by
            unfold writtenBack
            rw [htook.pages, htook.disk]
          rw [shown_miss hp hvic, fetchPage, run_get_bind, hp]
          dsimp only
          rw [bind_ok ht]
          dsimp only
          cases hd : s.writtenBack f with
          | none =>
              refine .inr (.inr ⟨rfl, hno, t, ?_, fun g => ?_, fun _ => htook.tidy⟩)
              · exact bind_eq_error.mpr (.inl (updatePage_raises (hback.trans hd)))
              rw [htook.pages]
              exact ⟨rfl, fun _ => rfl⟩
          | some d =>
              rw [bind_ok (updatePage_writes (hback.trans hd)), Option.bind_some]
              cases hr : (d.readPage p.fd p.pageNo zeroPage.toBuf pageSize).2 with
              | true =>
                  obtain ⟨hbytes, hpage⟩ := DiskManager.readPage_ok hr
                  have hv : p.pageNo ≠ invalidPageId := by
                    have := hpage.1
                    unfold invalidPageId
                    omega
                  refine .inl ⟨d.pageBytes p, f, t.install f p d (d.pageBytes p), rfl, ?_,
                    h.fetched_miss htake hv⟩
                  rw [bind_ok (readInto_found hr), hbytes, run_modify_bind, ← pinned_relabel]
                  rfl
              | false =>
                  have hrun := readInto_lost (f := f) (t := t) hr
                  exact .inr (.inr ⟨rfl, hno, _, bind_eq_error.mpr (.inl hrun), htook.failed⟩)

/-- The pins are as they were, and no frame was lost. -/
structure Restored (s u : BufferPoolManager) : Prop where
  tidy : Tidy u
  pins : PinsKept s u
  available : ∀ g, s.Available g → u.Available g

theorem Restored.refl (h : Tidy s) : Restored s s := ⟨h, .refl s, fun _ hg => hg⟩

theorem Restored.trans (h : Restored s t) (h' : Restored t u) : Restored s u :=
  ⟨h'.tidy, h.pins.trans h'.pins, fun g hg => h'.available g (h.available g hg)⟩

/-- **Giving the page back** undoes the fetch. -/
theorem Fetched.unpin (h : Fetched s p x f t) (hs : Tidy s) (b : Bool) :
    ∃ u, (unpinPage (t.pages f).id b).run t = .ok true u ∧ Restored s u := by
  obtain ⟨hlt, hfree, hlab, _⟩ := h.tidy.table p f h.table
  have hcount := hs.counts f (h.size ▸ hlt)
  have hpin := h.pinned
  have hpos : 0 < (t.pages f).pinCount := by omega
  have hself : (t.unpinHit f b).pages f = { t.pages f with
      pinCount := (t.pages f).pinCount - 1, isDirty := (t.pages f).isDirty || b } :=
    Function.update_self ..
  have hother : ∀ g, g ≠ f → (t.unpinHit f b).pages g = t.pages g :=
    fun g hg => Function.update_of_ne hg ..
  have hnot : f ∉ t.replacer.frames := by
    intro hf
    have := (h.tidy.rep f hf).2
    omega
  refine ⟨t.unpinHit f b, ?_, h.tidy.unpinHit h.table hpos b, fun g => ?_, fun g hg => ?_⟩
  · rw [hlab]
    rcases unpinPage_run t p b with ⟨g, hg, _, hrun⟩ | ⟨hno, _⟩
    · obtain rfl : f = g := Option.some.inj (h.table.symm.trans hg)
      exact hrun
    · have := hno f h.table
      omega
  · by_cases hgf : g = f
    · rw [hgf, hself]
      exact ⟨by dsimp only; omega, h.held⟩
    · rw [hother g hgf, (h.others g hgf).1, (h.others g hgf).2]
      exact ⟨rfl, fun _ => rfl⟩
  · have hroom := h.tidy.room hlt hnot
    show g ∈ t.freeList ∨ g ∈ (if (t.pages f).pinCount - 1 = 0 then t.replacer.unpin f
      else t.replacer).frames
    by_cases hgf : g = f
    · -- it had no pin, so the last one is given back here
      rw [hgf] at hg ⊢
      have hidle := h.idle hg
      rw [if_pos (by omega), LRUReplacer.mem_frames_unpin hroom]
      exact .inr (.inl rfl)
    · refine ((h.available g hg).resolve_left hgf).imp id fun hg => ?_
      split
      · rw [LRUReplacer.mem_frames_unpin hroom]
        exact .inr hg
      · exact hg

/-- A fetched page that is kept. -/
theorem Fetched.leaks (h : Fetched s p x f t) :
    (∀ g, (s.pages g).pinCount ≤ (t.pages g).pinCount)
      ∧ ¬ ∀ g, (t.pages g).pinCount = (s.pages g).pinCount := by
  have hpin := h.pinned
  refine ⟨fun g => ?_, fun hcounts => ?_⟩
  · by_cases hgf : g = f
    · rw [hgf]
      omega
    · exact Int.le_of_eq (h.others g hgf).1.symm
  · have := hcounts f
    omega

end Rucbase.BufferPoolManager
