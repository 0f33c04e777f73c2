import Rucbase.Storage.PoolClients

/-!
# When the pool answers

`FetchPage` and `NewPage` return the null page in one situation only: every frame is pinned.
The direction that needs the whole run is "only then": a frame that an earlier call had lost
from both lists would make the pool refuse while it is idle, and the partition rules that out.

In the other direction, a pool on a working disk that has an unpinned frame does return a page.
-/

namespace Rucbase.BufferPoolManager

open Lib

variable {s s' t : BufferPoolManager} {p q : PageId} {f g : Nat} {fd : Int} {d d' : DiskManager}

/-- `NewPage(PageId *page_id)`: the out parameter is set at the end, when there is a page. -/
def newPageInto (pageId : PageId) : PoolM (Option Nat × PageId) := do
  match ← newPage pageId.fd with
  | none => return (none, pageId)
  | some (f, newPageId) => return (some f, newPageId)

/-- Every frame has `pin_count_ > 0`. -/
def AllPinned (s : BufferPoolManager) : Prop := ∀ f < s.poolSize, 0 < (s.pages f).pinCount

/-! ## Frames in the free list -/

/-- Frames in the free list are not pinned. -/
def FreeIdle (s : BufferPoolManager) : Prop := ∀ f ∈ s.freeList, (s.pages f).pinCount = 0

theorem FreeIdle.update (h : FreeIdle s) (hf : f ∉ s.freeList) {pg : Page} :
    ∀ g ∈ s.freeList, (Function.update s.pages f pg g).pinCount = 0 := by
  intro g hg
  have hne : g ≠ f := by
    intro he
    exact hf (he ▸ hg)
  rw [Function.update_of_ne hne]
  exact h g hg

theorem FreeIdle.install {x : PageData} (h : FreeIdle s) (ht : PoolInv.Taken s f t) :
    FreeIdle (t.install f p d x) := by
  intro g hg
  obtain ⟨hne, hfree⟩ := (ht.free g).mp hg
  show (Function.update t.pages f _ g).pinCount = 0
  rw [Function.update_of_ne hne, ht.pages]
  exact h g hfree

/-- No call leaves a pinned frame in the free list. -/
theorem FreeIdle.effect {c : Call} {r : Ret} (hinv : PoolInv s) (h : FreeIdle s)
    (he : Effect s c r s') : FreeIdle s' := by
  cases he with
  | fetchHit hp => exact h.update (hinv.of_mapped hp).2.1
  | fetchMiss _ ht _ _ => exact h.install (hinv.taken ht)
  | newPage ht _ => exact h.install (hinv.taken ht)
  | unpin hp _ => exact h.update (hinv.of_mapped hp).2.1
  | flush hp _ => exact h.update (hinv.of_mapped hp).2.1
  | @delete q f d hp _ _ =>
      intro g hg
      show (Function.update s.pages f _ g).pinCount = 0
      by_cases hgf : g = f
      · subst hgf
        rw [Function.update_self]
      · rw [Function.update_of_ne hgf]
        rcases List.mem_append.mp hg with hg | hg
        · exact h g hg
        · exact absurd (List.mem_singleton.mp hg) hgf
  | flushAll hrun =>
      have hsame := flushAllPages_sameCache hrun
      intro g hg
      rw [hsame.freeList] at hg
      rw [hsame.pinCount]
      exact h g hg
  | fetchNull | newNull | unpinRefused | flushMiss | deleteMiss | deletePinned => exact h

/-- **Both lists are empty exactly when every frame is pinned.** -/
theorem PoolInv.lists_empty_iff (hinv : PoolInv s) (h : FreeIdle s) :
    (s.freeList = [] ∧ s.replacer.frames = []) ↔ s.AllPinned := by
  constructor
  · intro hlists f hf
    obtain ⟨hfree, hrep⟩ := hlists
    have hnot : f ∉ s.freeList := by
      rw [hfree]
      exact List.not_mem_nil
    have hne : (s.pages f).pinCount ≠ 0 := by
      intro hz
      have hmem := (hinv.rep f).mpr ⟨hf, hnot, hz⟩
      rw [hrep] at hmem
      exact absurd hmem List.not_mem_nil
    have := hinv.pins f hf hnot
    omega
  · intro hall
    constructor
    · refine List.eq_nil_iff_forall_not_mem.mpr ?_
      intro f hf
      have h1 := hall f (hinv.free_lt f hf)
      have h2 := h f hf
      omega
    · refine List.eq_nil_iff_forall_not_mem.mpr ?_
      intro f hf
      obtain ⟨hlt, _, hz⟩ := (hinv.rep f).mp hf
      have := hall f hlt
      omega

/-- With both lists empty there is no victim, and looking for one changes nothing. -/
theorem findVictimPage_refuses (hfree : s.freeList = []) (hrep : s.replacer.frames = []) :
    findVictimPage.run s = .ok none s := by
  have hvictim : s.replacer.victim = (none, s.replacer) := by
    cases hv : s.replacer.victim with
    | mk r rep =>
        cases r with
        | none => rw [(LRUReplacer.victim_none hv).2]
        | some f =>
            have hmem := (LRUReplacer.victim_some hv).1
            rw [hrep] at hmem
            exact absurd hmem List.not_mem_nil
  unfold findVictimPage
  rw [run_get_bind, hfree]
  dsimp only
  rw [run_set_bind, EStateM.run_pure, hvictim, ← hfree]

/-! ## When the pool refuses -/

/-- What the pool owes a caller it refuses. -/
structure Refuses (s : BufferPoolManager) : Prop where
  /-- `NewPage` returns a page unless every frame is pinned. -/
  newPage : ∀ pageId r s', (newPageInto pageId).run s = .ok r s' → (r.1 = none ↔ s.AllPinned)
  /-- So does `FetchPage`, and for a cached page it always does. -/
  fetchPage : ∀ p r s', (fetchPage p).run s = .ok r s' →
    (r = none ↔ s.pageTable p = none ∧ s.AllPinned)
  /-- When every frame is pinned, both return and nothing changes. -/
  newPage_same : s.AllPinned → ∀ pageId, (newPageInto pageId).run s = .ok (none, pageId) s
  fetchPage_same : s.AllPinned → ∀ p, s.pageTable p = none →
    (BufferPoolManager.fetchPage p).run s = .ok none s

theorem PoolInv.refuses (hinv : PoolInv s) (h : FreeIdle s) : Refuses s where
  newPage := by
    intro pageId r s' hrun
    unfold newPageInto at hrun
    obtain ⟨a, t, h1, h2⟩ := bind_eq_ok.mp hrun
    rcases newPage_ok h1 with ⟨rfl, hfree, hrep, rfl⟩ | ⟨f, u, d, rfl, ht, _, rfl⟩
    · rw [EStateM.run_pure, EStateM.Result.ok.injEq] at h2
      rw [← h2.1]
      exact ⟨fun _ => (hinv.lists_empty_iff h).mp ⟨hfree, hrep⟩, fun _ => rfl⟩
    · rw [EStateM.run_pure, EStateM.Result.ok.injEq] at h2
      rw [← h2.1]
      refine ⟨fun hno => absurd hno (by simp), ?_⟩
      intro hall
      exact absurd ((hinv.lists_empty_iff h).mpr hall) ht.lists
  fetchPage := by
    intro p r s' hrun
    rcases fetchPage_ok hrun with ⟨f, hp, rfl, rfl⟩ | ⟨hp, rfl, hfree, hrep, rfl⟩ |
      ⟨f, t, d, hp, rfl, ht, _, _, rfl⟩
    · simp [hp]
    · exact ⟨fun _ => ⟨hp, (hinv.lists_empty_iff h).mp ⟨hfree, hrep⟩⟩, fun _ => rfl⟩
    · refine ⟨fun hno => absurd hno (by simp), ?_⟩
      intro hall
      exact absurd ((hinv.lists_empty_iff h).mpr hall.2) ht.lists
  newPage_same := by
    intro hall pageId
    obtain ⟨hfree, hrep⟩ := (hinv.lists_empty_iff h).mpr hall
    unfold newPageInto BufferPoolManager.newPage
    rw [bind_assoc, bind_ok (findVictimPage_refuses hfree hrep)]
    rfl
  fetchPage_same := by
    intro hall p hp
    obtain ⟨hfree, hrep⟩ := (hinv.lists_empty_iff h).mpr hall
    unfold BufferPoolManager.fetchPage
    rw [run_get_bind, hp]
    dsimp only
    rw [bind_ok (findVictimPage_refuses hfree hrep)]
    rfl

/-- **The pool refuses only when it must, and without side effects.** -/
theorem refuses_of_run {poolSize : Nat} {disk : DiskManager} {fd : Int} {h : List (Call × Ret)}
    {s : BufferPoolManager} (hrun : Run Step (.new poolSize disk fd) h s) : Refuses s := by
  have key : PoolInv s ∧ FreeIdle s := by
    refine hrun.invariant (I := fun t => PoolInv t ∧ FreeIdle t) ?_ ?_
    · exact ⟨PoolInv.init poolSize disk fd, fun _ _ => rfl⟩
    · intro t l t' ht hs
      exact ⟨ht.1.step hs, ht.2.effect ht.1 hs.effect⟩
  exact key.1.refuses key.2

/-- Two frames, both handed out: the third request is refused. -/
theorem refuses_of_run_full :
    ∃ h s, Run Step (.new 2 (.new fun _ => none) 0) h s ∧ s.AllPinned ∧ Refuses s
      ∧ (newPageInto ⟨3, invalidPageId⟩).run s = .ok (none, ⟨3, invalidPageId⟩) s := by
  have hrun := Run.of_replay callStep (s := .new 2 (.new fun _ => none) 0)
    [.newPage 3, .newPage 3] .nil rfl
  refine ⟨_, _, hrun, ?full, refuses_of_run hrun, (refuses_of_run hrun).newPage_same ?full _⟩
  intro f hf
  have hf' : f < 2 := hf
  obtain rfl | rfl : f = 0 ∨ f = 1 := by omega
  · exact Int.one_pos
  · exact Int.one_pos

/-! ## When the pool returns -/

/-- What a call writes out are frames of mapped pages, so an invariant of the disk that such writes
keep, as allocation does, is kept by the call. -/
theorem Effect.disk_frames {I : DiskManager → Prop} {c : Call} {r : Ret} (hinv : PoolInv s)
    (he : Effect s c r s') (hI : I s.diskManager)
    (hw : ∀ d d' p f, s.pageTable p = some f → I d →
      d.writePage p.fd p.pageNo (s.pages f).data.toBuf pageSize = some d' → I d')
    (ha : ∀ d fd, I d → I (d.allocatePage fd).2) : I s'.diskManager := by
  have hframe : ∀ {u : BufferPoolManager} {f : Nat} {d : DiskManager}, u.pages = s.pages →
      u.poolSize = s.poolSize → f < s.poolSize → u.WritesOld f d → I u.diskManager → I d := by
    intro u f d hpages hsize hf hold hIu
    unfold WritesOld at hold
    rw [hpages] at hold
    split at hold
    · rename_i hc
      exact hw _ _ _ f (hinv.mapped_of_valid hf hc.1) hIu hold
    · exact hold ▸ hIu
  cases he with
  | fetchMiss _ ht hold _ =>
      have htk := hinv.taken ht
      exact hframe htk.pages htk.poolSize htk.lt hold (htk.disk ▸ hI)
  | @newPage fd f t d ht hold =>
      have htk := hinv.taken ht
      exact hframe (u := { t with diskManager := (s.diskManager.allocatePage fd).2 }) htk.pages
        htk.poolSize htk.lt hold (ha _ _ hI)
  | flush hp hwrote =>
      refine hw _ _ _ _ hp hI ?_
      rw [← (hinv.of_mapped hp).2.2]
      exact hwrote
  | delete hp _ hwrote =>
      split at hwrote
      · refine hw _ _ _ _ hp hI ?_
        rw [← (hinv.of_mapped hp).2.2]
        exact hwrote
      · exact hwrote ▸ hI
  | flushAll hrun =>
      refine (flushAllPages_invariant (I := fun t => SameCache s t ∧ I t.diskManager) ?_
        ⟨.refl s, hI⟩ hrun).2
      intro t g d ht hg _ hv hwrote
      refine ⟨ht.1.cleaned g, ?_⟩
      unfold Wrote at hwrote
      rw [ht.1.id, ht.1.data] at hwrote
      rw [ht.1.id] at hv
      rw [ht.1.poolSize] at hg
      exact hw _ _ _ g (hinv.mapped_of_valid hg hv) ht.2 hwrote
  | fetchHit | fetchNull | newNull | unpin | unpinRefused | flushMiss | deleteMiss | deletePinned =>
      exact hI

theorem writeBack_run {id : PageId} {x : PageData}
    (h : s.diskManager.writePage id.fd id.pageNo x.toBuf pageSize = some d) :
    (writeBack id x).run s = .ok ⟨⟩ { s with diskManager := d } := by
  unfold writeBack
  rw [run_get_bind, h]
  rfl

/-- `UpdatePage` returns when the old page, if it is to be written, can be written. -/
theorem updatePage_returns (hw : (s.pages f).id.pageNo ≠ invalidPageId → (s.pages f).isDirty = true →
      ∃ d, s.diskManager.writePage (s.pages f).id.fd (s.pages f).id.pageNo (s.pages f).data.toBuf pageSize
        = some d) :
    ∃ t, (updatePage f p f).run s = .ok ⟨⟩ t := by
  unfold updatePage
  rw [run_get_bind]
  dsimp only
  by_cases hv : (s.pages f).id.pageNo ≠ invalidPageId
  · by_cases hd : (s.pages f).isDirty = true
    · obtain ⟨d, hd'⟩ := hw hv hd
      rw [onlyIf_pos ⟨hv, hd⟩, bind_ok (writeBack_run hd'), onlyIf_pos hv]
      exact ⟨_, rfl⟩
    · rw [onlyIf_neg (fun hc => hd hc.2), onlyIf_pos hv]
      exact ⟨_, rfl⟩
  · rw [onlyIf_neg (fun hc => hv hc.1), onlyIf_neg hv]
    exact ⟨_, rfl⟩

theorem readInto_returns
    (h : ∀ buf, (s.diskManager.readPage p.fd p.pageNo buf pageSize).2 = true) :
    ∃ t, (readInto f p).run s = .ok ⟨⟩ t := by
  unfold readInto
  rw [run_get_bind, run_set_bind, if_pos (h _)]
  exact ⟨_, rfl⟩

/-- The disk takes the bytes of every mapped frame that is dirty, or has a page of a `live` file, and
goes on doing so. -/
def Takes (live : Int → Prop) (I : DiskManager → Prop) (s : BufferPoolManager) : Prop :=
  ∀ d p f, s.pageTable p = some f → (s.pages f).isDirty = true ∨ live p.fd → I d →
    ∃ d', d.writePage p.fd p.pageNo (s.pages f).data.toBuf pageSize = some d' ∧ I d'

section Returns

variable {live : Int → Prop} {I : DiskManager → Prop}

/-- It is about the frames, and every disk. -/
theorem Takes.withDisk (htakes : Takes live I s) (d : DiskManager) :
    Takes live I { s with diskManager := d } := htakes

/-- Re-labelling the frame that was taken returns. -/
theorem Takes.updatePage (htakes : Takes live I s) (hinv : PoolInv s) (ht : PoolInv.Taken s f t)
    {u : BufferPoolManager} (hpages : u.pages = t.pages) (hdisk : I u.diskManager) :
    ∃ v, (updatePage f p f).run u = .ok ⟨⟩ v ∧ I v.diskManager := by
  have hwrite : (u.pages f).id.pageNo ≠ invalidPageId → (u.pages f).isDirty = true →
      ∃ d', u.diskManager.writePage (u.pages f).id.fd (u.pages f).id.pageNo
        (u.pages f).data.toBuf pageSize = some d' ∧ I d' := by
    intro hv hd
    rw [hpages, ht.pages] at hv hd ⊢
    exact htakes u.diskManager _ f (hinv.mapped_of_valid ht.lt hv) (.inl hd) hdisk
  obtain ⟨v, hv⟩ := updatePage_returns (p := p) fun hval hd => ⟨_, (hwrite hval hd).choose_spec.1⟩
  obtain ⟨d, hold, rfl⟩ := updatePage_ok hv
  refine ⟨_, hv, (?_ : I d)⟩
  unfold WritesOld at hold
  split at hold
  · rename_i hc
    obtain ⟨d', hd', hI⟩ := hwrite hc.1 hc.2
    rw [hd', Option.some.injEq] at hold
    exact hold ▸ hI
  · exact hold ▸ hdisk

theorem Takes.fetchPage (htakes : Takes live I s) (hinv : PoolInv s) (hI : I s.diskManager)
    (hr : s.pageTable p = none → ∀ d, I d →
      ∀ buf, (d.readPage p.fd p.pageNo buf pageSize).2 = true) :
    ∃ r s', (fetchPage p).run s = .ok r s' := by
  unfold BufferPoolManager.fetchPage
  rw [run_get_bind]
  cases hp : s.pageTable p with
  | some f => exact ⟨_, _, rfl⟩
  | none =>
      dsimp only
      cases hv : findVictimPage.run s with
      | error e t => exact absurd hv findVictimPage_ne_error
      | ok v t =>
          rw [bind_ok hv]
          cases v with
          | none => exact ⟨_, _, rfl⟩
          | some f =>
              have htk := hinv.taken (findVictimPage_some hv)
              obtain ⟨u, hu, hIu⟩ := htakes.updatePage (p := p) hinv htk rfl (htk.disk ▸ hI)
              obtain ⟨w, hw⟩ := readInto_returns (f := f) (hr hp u.diskManager hIu)
              dsimp only
              rw [bind_ok hu, bind_ok hw]
              exact ⟨_, _, rfl⟩

theorem Takes.newPage (htakes : Takes live I s) (hinv : PoolInv s) (hI : I s.diskManager)
    (ha : ∀ d fd, I d → I (d.allocatePage fd).2) :
    ∃ r s', (newPage fd).run s = .ok r s' := by
  unfold BufferPoolManager.newPage
  cases hv : findVictimPage.run s with
  | error e t => exact absurd hv findVictimPage_ne_error
  | ok v t =>
      rw [bind_ok hv]
      cases v with
      | none => exact ⟨_, _, rfl⟩
      | some f =>
          have htk := hinv.taken (findVictimPage_some hv)
          dsimp only
          rw [run_get_bind, run_set_bind]
          obtain ⟨u, hu, _⟩ := htakes.updatePage (p := ⟨fd, (t.diskManager.allocatePage fd).1⟩)
            (u := { t with diskManager := (t.diskManager.allocatePage fd).2 }) hinv htk rfl
            (ha _ _ (htk.disk ▸ hI))
          rw [bind_ok hu]
          exact ⟨_, _, rfl⟩

/-- Writing out a mapped frame returns. -/
theorem Takes.writeBack (htakes : Takes live I s) (hinv : PoolInv s) (hp : s.pageTable p = some f)
    (hf : (s.pages f).isDirty = true ∨ live p.fd) {u : BufferPoolManager} (hu : I u.diskManager) :
    ∃ d, (writeBack (s.pages f).id (s.pages f).data).run u = .ok ⟨⟩ { u with diskManager := d }
      ∧ I d := by
  obtain ⟨d, hd, hId⟩ := htakes u.diskManager p f hp hf hu
  rw [← (hinv.of_mapped hp).2.2] at hd
  exact ⟨d, writeBack_run hd, hId⟩

theorem Takes.flushPage (htakes : Takes live I s) (hinv : PoolInv s) (hl : live p.fd)
    (hI : I s.diskManager) : ∃ r s', (flushPage p).run s = .ok r s' := by
  unfold BufferPoolManager.flushPage
  rw [run_get_bind]
  cases hp : s.pageTable p with
  | none => exact ⟨_, _, rfl⟩
  | some f =>
      obtain ⟨d, hd, _⟩ := htakes.writeBack hinv hp (.inr hl) hI
      dsimp only
      rw [bind_ok hd]
      exact ⟨_, _, rfl⟩

theorem Takes.deletePage (htakes : Takes live I s) (hinv : PoolInv s) (hI : I s.diskManager) :
    ∃ r s', (deletePage p).run s = .ok r s' := by
  unfold BufferPoolManager.deletePage
  rw [run_get_bind]
  cases hp : s.pageTable p with
  | none => exact ⟨_, _, rfl⟩
  | some f =>
      dsimp only
      by_cases hpin : (s.pages f).pinCount > 0
      · rw [if_pos hpin]
        exact ⟨_, _, rfl⟩
      · rw [if_neg hpin, run_set_bind]
        by_cases hd : (s.pages f).isDirty = true
        · obtain ⟨d, hd', _⟩ := htakes.writeBack hinv hp (.inl hd)
            (u := { s with pageTable := Function.update s.pageTable p none }) hI
          rw [onlyIf_pos hd, bind_ok hd']
          exact ⟨_, _, rfl⟩
        · rw [onlyIf_neg hd]
          exact ⟨_, _, rfl⟩

theorem Takes.flushAllPages (htakes : Takes live I s) (hinv : PoolInv s) (hl : live fd)
    (hI : I s.diskManager) : ∃ s', (flushAllPages fd).run s = .ok ⟨⟩ s' := by
  unfold BufferPoolManager.flushAllPages
  rw [run_get_bind]
  refine forM_returns (I := fun t => SameCache s t ∧ I t.diskManager) _ ?_ ⟨.refl s, hI⟩
  intro i hi t ht
  have hlt := List.mem_range.mp hi
  unfold flushFrame
  rw [run_get_bind]
  dsimp only
  by_cases hc : (t.pages i).id.fd = fd ∧ (t.pages i).id.pageNo ≠ invalidPageId
  · have hid : (s.pages i).id.fd = fd := ht.1.id i ▸ hc.1
    have hm := hinv.mapped_of_valid hlt (ht.1.id i ▸ hc.2)
    obtain ⟨d, hd, hId⟩ := htakes.writeBack hinv hm (.inr (hid.symm ▸ hl)) ht.2
    rw [← ht.1.id, ← ht.1.data] at hd
    rw [onlyIf_pos hc, bind_ok hd]
    exact ⟨_, rfl, ht.1.cleaned i, hId⟩
  · rw [onlyIf_neg hc]
    exact ⟨t, rfl, ht⟩

/-- **A call returns** if the disk takes the writes of mapped frames, and gives the page a
`FetchPage` has to read. -/
theorem Takes.exec {c : Call} (htakes : Takes live I s) (hinv : PoolInv s) (hl : live c.fd)
    (hI : I s.diskManager) (ha : ∀ d fd, I d → I (d.allocatePage fd).2)
    (hr : ∀ p, c = .fetchPage p → s.pageTable p = none → ∀ d, I d →
      ∀ buf, (d.readPage p.fd p.pageNo buf pageSize).2 = true) :
    ∃ r s', (exec c).run s = .ok r s' := by
  cases c with
  | fetchPage p =>
      obtain ⟨r, s', h⟩ := htakes.fetchPage hinv hI (hr p rfl)
      exact ⟨_, _, bind_ok h⟩
  | newPage fd =>
      obtain ⟨r, s', h⟩ : ∃ r s', (BufferPoolManager.newPage fd).run s = .ok r s' :=
        htakes.newPage hinv hI ha
      exact ⟨_, _, bind_ok h⟩
  | unpinPage p b =>
      rcases unpinPage_run s p b with ⟨f, _, _, h⟩ | ⟨_, h⟩
      · exact ⟨_, _, bind_ok h⟩
      · exact ⟨_, _, bind_ok h⟩
  | flushPage p =>
      obtain ⟨r, s', h⟩ := htakes.flushPage (p := p) hinv hl hI
      exact ⟨_, _, bind_ok h⟩
  | deletePage p =>
      obtain ⟨r, s', h⟩ := htakes.deletePage (p := p) hinv hI
      exact ⟨_, _, bind_ok h⟩
  | flushAllPages fd =>
      obtain ⟨s', h⟩ : ∃ s', (BufferPoolManager.flushAllPages fd).run s = .ok ⟨⟩ s' :=
        htakes.flushAllPages hinv hl hI
      exact ⟨_, _, bind_ok h⟩

end Returns

end Rucbase.BufferPoolManager
