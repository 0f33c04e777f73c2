import Rucbase.Storage.PoolProgress

/-!
# Which pages can be fetched again

`NewPage` hands out a number with a zeroed frame that is marked clean, and does not make the file
longer. If that frame is given up before an `UnpinPage` has reported it dirty, and before a page
further back was written, nothing of the page is left: its number lies past the end of the file,
and `FetchPage` raises. A run that gives up no such frame keeps every page it was ever handed.

A run here contains the calls that raise, with the state they leave.
-/

namespace Rucbase

open Lib

namespace DiskManager

/-- The files under these descriptors are open, and the device refuses no transfer. -/
structure Works (d : DiskManager) (live : Int → Prop) : Prop where
  opened : ∀ fd, live fd → (d.fileOf fd).isSome
  writes : ∀ fd no, live fd → d.writeFails fd no = false
  reads : ∀ fd no, live fd → d.readFails fd no = false
  inj : d.FdsInjective

variable {d d' : DiskManager} {live : Int → Prop} {p : PageId} {fd no : Int} {buf : Nat → UInt8}
  {n : Nat}

theorem Works.write (h : d.Works live) (hw : d.writePage fd no buf n = some d') :
    d'.Works live := by
  obtain ⟨path, f, hp, hfile, _, rfl⟩ := writePage_some hw
  refine ⟨fun fd' hl => ?_, h.writes, h.reads, h.inj⟩
  obtain ⟨g, hg⟩ := Option.isSome_iff_exists.mp (h.opened fd' hl)
  obtain ⟨path', hopen, hg'⟩ := Option.bind_eq_some_iff.mp hg
  show ((d.openFds fd').bind (Function.update d.files path _)).isSome
  rw [hopen, Option.bind_some]
  by_cases hpath : path' = path
  · rw [hpath, Function.update_self]
    rfl
  · rw [Function.update_of_ne hpath, hg']
    rfl

end DiskManager

namespace BufferPoolManager

/-! ## Runs with the calls that raise -/

/-- An attempt at a call, or a write through a pointer; `none` when the call raised. -/
structure Attempt where
  before : BufferPoolManager
  action : Action
  ret : Option Ret

/-- What a call answers, and the state it leaves either way. -/
def tryCall (s : BufferPoolManager) (c : Call) : Option Ret × BufferPoolManager :=
  match (exec c).run s with
  | .ok r s' => (some r, s')
  | .error _ s' => (none, s')

def AttemptStep (s : BufferPoolManager) (e : Attempt) (s' : BufferPoolManager) : Prop :=
  e.before = s ∧
    match e.action with
    | .call c => s.tryCall c = (e.ret, s')
    | .write f x => s.Mapped f ∧ 0 < (s.pages f).pinCount ∧ s' = s.overwrite f x

/-- `NewPage` has returned `p`. -/
def Created (p : PageId) (h : List Attempt) : Prop :=
  ∃ e ∈ h, ∃ fd f, e.action = .call (.newPage fd) ∧ e.ret = some (.created (some (f, p)))

/-- Nobody has written to `p`. -/
def Untouched (p : PageId) (h : List Attempt) : Prop :=
  ∀ e ∈ h, ∀ f x, e.action = .write f x → e.before.pageTable p ≠ some f

/-! ## What a call gives up -/

/-- The frame `FindVictimPage` would take. -/
def nextVictim (s : BufferPoolManager) : Option Nat :=
  match s.freeList with
  | f :: _ => some f
  | [] => s.replacer.victim.1

/-- The frame whose page leaves the pool. -/
def gives (s : BufferPoolManager) : Call → Option Nat
  | .fetchPage p => if (s.pageTable p).isSome then none else s.nextVictim
  | .newPage _ => s.nextVictim
  | .deletePage p => (s.pageTable p).filter fun f => (s.pages f).pinCount ≤ 0
  | _ => none

/-- The page in the frame is clean, and past the end of its file. -/
def Fleeting (s : BufferPoolManager) (f : Nat) : Prop :=
  (s.pages f).id.pageNo ≠ invalidPageId ∧ (s.pages f).isDirty = false
    ∧ ¬ s.diskManager.HasPage (s.pages f).id

/-- A call that loses no page. -/
structure Sound (live : Int → Prop) (s : BufferPoolManager) (c : Call) : Prop where
  file : live c.fd
  /-- It fetches a page that is cached or in the file, unless it will be refused. -/
  known : ∀ p, c = .fetchPage p → s.pageTable p ≠ none ∨ s.diskManager.HasPage p ∨ s.AllPinned
  kept : ∀ f, s.gives c = some f → ¬ s.Fleeting f

variable {s s' t : BufferPoolManager} {p q : PageId} {f g : Nat} {c : Call} {r : Ret}
  {live : Int → Prop} {d : DiskManager} {x : PageData} {h : List Attempt}

theorem TakesFrame.nextVictim (ht : TakesFrame s f t) : s.nextVictim = some f := by
  unfold BufferPoolManager.nextVictim
  rcases ht.source with ⟨hfree, _⟩ | ⟨hfree, _, hvic⟩
  · rw [hfree]
  · rw [hfree]
    exact congrArg Prod.fst hvic

/-- A dirty page that is given up is in its file afterwards. -/
theorem WritesOld.hasPage (hw : s.WritesOld f d) (hv : (s.pages f).id.pageNo ≠ invalidPageId)
    (hd : (s.pages f).isDirty = true) : d.HasPage (s.pages f).id := by
  rw [WritesOld, if_pos ⟨hv, hd⟩] at hw
  exact .page_of_write hw

/-- **A page loses its frame only to a call that gives it up**, and if it was dirty it is in its
file then. -/
theorem PoolInv.kept_or_given (hinv : PoolInv s) (hs : Step s (c, r) s')
    (hp : s.pageTable p = some f) :
    s'.pageTable p = some f ∨
      (s.gives c = some f ∧ ((s.pages f).isDirty = true → s'.diskManager.HasPage p)) := by
  have hfresh := (step_iff.mp hs).1
  obtain rfl := (hinv.of_mapped hp).2.2
  have hv := hinv.valid _ f hp
  cases hs.effect with
  | @fetchMiss q g t d hq ht hw _ =>
      have htk := hinv.taken ht
      by_cases hg : f = g
      · subst hg
        refine .inr ⟨?_, fun hd => ?_⟩
        · rw [gives, hq]
          exact ht.nextVictim
        · have hpages : t.pages f = s.pages f := congrFun htk.pages f
          exact hpages ▸ hw.hasPage (hpages ▸ hv) (hpages ▸ hd)
      · exact .inl ((hinv.install_table htk hq).mpr (.inr ⟨hg, hp⟩))
  | @newPage fd g t d ht hw =>
      have htk := hinv.taken ht
      by_cases hg : f = g
      · subst hg
        refine .inr ⟨ht.nextVictim, fun hd => ?_⟩
        have hpages : t.pages f = s.pages f := congrFun htk.pages f
        exact hpages ▸ hw.hasPage (hpages ▸ hv) (hpages ▸ hd)
      · exact .inl ((hinv.install_table htk hfresh).mpr (.inr ⟨hg, hp⟩))
  | @delete q g d hq hz hw =>
      by_cases hg : f = g
      · subst hg
        refine .inr ⟨?_, fun hd => ?_⟩
        · rw [gives, hq]
          simp [hz]
        · rw [if_pos hd] at hw
          exact .page_of_write hw
      · exact .inl ((hinv.freed_table hq).mpr ⟨hg, hp⟩)
  | flushAll hrun =>
      rw [(flushAllPages_sameCache hrun).pageTable]
      exact .inl hp
  | fetchHit | fetchNull | newNull | unpin | unpinRefused | flush | flushMiss | deleteMiss
    | deletePinned => exact .inl hp

/-- **Where a cached page comes from**: it was cached, or was read from its file, or is new. -/
theorem PoolInv.cached_from (hinv : PoolInv s) (hs : Step s (c, r) s')
    (hp : s'.pageTable p = some f) :
    (s.pageTable p = some f ∧ (s'.pages f).data = (s.pages f).data) ∨
      (c = .fetchPage p ∧ s'.diskManager.HasPage p
        ∧ (s'.pages f).data = s'.diskManager.pageBytes p) ∨
      ∃ fd, c = .newPage fd ∧ p = ⟨fd, s.diskManager.fd2pageno fd⟩
        ∧ s'.diskManager.fd2pageno fd = s.diskManager.fd2pageno fd + 1
        ∧ (s'.pages f).data = zeroPage := by
  have hfresh := (step_iff.mp hs).1
  -- a change of one frame that leaves its bytes alone
  have hdata : ∀ {g : Nat} {pg : Page}, pg.data = (s.pages g).data →
      (Function.update s.pages g pg f).data = (s.pages f).data := by
    intro g pg hpg
    by_cases hfg : f = g
    · rw [hfg, Function.update_self, hpg]
    · rw [Function.update_of_ne hfg]
  cases hs.effect with
  | @fetchMiss q g t d hq ht _ hpos =>
      rcases (hinv.install_table (hinv.taken ht) hq).mp hp with ⟨rfl, rfl⟩ | ⟨hne, hp⟩
      · have hself : (t.install f p d (d.pageBytes p)).pages f = ⟨p, d.pageBytes p, false, 1⟩ :=
          Function.update_self ..
        exact .inr (.inl ⟨rfl, hpos, by rw [hself]; rfl⟩)
      · exact .inl ⟨hp, by rw [install_pages (hinv.taken ht) hne]⟩
  | @newPage fd g t d ht hw =>
      rcases (hinv.install_table (hinv.taken ht) hfresh).mp hp with ⟨rfl, rfl⟩ | ⟨hne, hp⟩
      · refine .inr (.inr ⟨fd, rfl, rfl, ?_, ?_⟩)
        · show d.fd2pageno fd = _
          rw [hw.frame.2]
          exact Function.update_self ..
        · have hself : (t.install f ⟨fd, s.diskManager.fd2pageno fd⟩ d zeroPage).pages f
              = ⟨⟨fd, s.diskManager.fd2pageno fd⟩, zeroPage, false, 1⟩ := Function.update_self ..
          rw [hself]
      · exact .inl ⟨hp, by rw [install_pages (hinv.taken ht) hne]⟩
  | delete hq _ _ =>
      obtain ⟨hne, hp⟩ := (hinv.freed_table hq).mp hp
      exact .inl ⟨hp, congrArg Page.data (Function.update_of_ne hne ..)⟩
  | flushAll hrun =>
      have hsame := flushAllPages_sameCache hrun
      rw [hsame.pageTable] at hp
      exact .inl ⟨hp, hsame.data f⟩
  | fetchHit | unpin | flush => exact .inl ⟨hp, hdata rfl⟩
  | fetchNull | newNull | unpinRefused | flushMiss | deleteMiss | deletePinned =>
      exact .inl ⟨hp, rfl⟩

/-- **A clean page stays clean** while the calls are about other files. -/
theorem PoolInv.stays_clean (hinv : PoolInv s) (hs : Step s (c, r) s') (hp : s.pageTable p = some f)
    (hp' : s'.pageTable p = some f) (hne : c.fd ≠ p.fd) (hclean : (s.pages f).isDirty = false) :
    (s'.pages f).isDirty = false := by
  have hfresh := (step_iff.mp hs).1
  -- a change of one frame that leaves its dirty bit alone, or lowers it
  have hflag : ∀ {u : BufferPoolManager} {g : Nat} {pg : Page}, (u.pages f).isDirty = false →
      pg.isDirty = (u.pages g).isDirty ∨ pg.isDirty = false →
      (Function.update u.pages g pg f).isDirty = false := by
    intro u g pg hu hpg
    by_cases hfg : f = g
    · subst hfg
      rw [Function.update_self]
      exact hpg.elim (·.trans hu) id
    · rwa [Function.update_of_ne hfg]
  cases hs.effect with
  | @fetchMiss q g t d hq ht _ _ =>
      rcases (hinv.install_table (hinv.taken ht) hq).mp hp' with ⟨rfl, _⟩ | ⟨hfg, _⟩
      · exact absurd (hq.symm.trans hp) (by simp)
      · rwa [install_pages (hinv.taken ht) hfg]
  | @newPage fd g t d ht _ =>
      rcases (hinv.install_table (hinv.taken ht) hfresh).mp hp' with ⟨rfl, _⟩ | ⟨hfg, _⟩
      · exact absurd rfl hne
      · rwa [install_pages (hinv.taken ht) hfg]
  | @unpin q g b hq _ =>
      have hfg : f ≠ g := by
        rintro rfl
        exact hne (congrArg PageId.fd ((hinv.of_mapped hq).2.2.symm.trans (hinv.of_mapped hp).2.2))
      show (Function.update s.pages g _ f).isDirty = false
      rwa [Function.update_of_ne hfg]
  | flushAll hrun =>
      refine flushAllPages_invariant (I := fun t => (t.pages f).isDirty = false) ?_ hclean hrun
      intro t g d ht _ _ _ _
      exact hflag ht (.inr rfl)
  | fetchHit => exact hflag hclean (.inl rfl)
  | flush | delete => exact hflag hclean (.inr rfl)
  | fetchNull | newNull | unpinRefused | flushMiss | deleteMiss | deletePinned => exact hclean

/-! ## What a run keeps -/

/-- Every page of the live files, in the pool or in a file, has a number that was handed out, and
the disk works. Of other files there are clean pages at most. -/
structure Allocated (live : Int → Prop) (s : BufferPoolManager) : Prop where
  inv : PoolInv s
  idle : FreeIdle s
  works : s.diskManager.Works live
  cached : ∀ p f, s.pageTable p = some f → live p.fd →
    0 ≤ p.pageNo ∧ p.pageNo < s.diskManager.fd2pageno p.fd
  orphan : ∀ p f, s.pageTable p = some f → ¬ live p.fd → (s.pages f).isDirty = false
  stored : ∀ p, live p.fd → s.diskManager.HasPage p →
    p.pageNo < s.diskManager.fd2pageno p.fd

namespace Allocated

/-- The disk takes what is in the frames, whatever else a write keeps. -/
theorem takes (ha : Allocated live s) {I : DiskManager → Prop}
    (hI : ∀ d d' fd no (x : PageData), I d → d.writePage fd no x.toBuf pageSize = some d' → I d') :
    Takes live (fun d => d.Works live ∧ I d) s := by
  intro d p f hp hf hd
  have hl : live p.fd := by
    by_contra hno
    rcases hf with hf | hl
    · rw [ha.orphan p f hp hno] at hf
      exact absurd hf (by simp)
    · exact hno hl
  have hno := (ha.cached p f hp hl).1
  obtain ⟨d', hd'⟩ : ∃ d', d.writePage p.fd p.pageNo (s.pages f).data.toBuf pageSize = some d' :=
    DiskManager.writePage_returns (hd.1.opened p.fd hl) hno (hd.1.writes p.fd p.pageNo hl)
  exact ⟨d', hd', hd.1.write hd', hI d d' _ _ _ hd.2 hd'⟩

theorem fresh (ha : Allocated live s) (hc : live c.fd) : s.FreshNumber c := by
  cases c with
  | newPage fd =>
      show s.pageTable ⟨fd, s.diskManager.fd2pageno fd⟩ = none
      cases hp : s.pageTable ⟨fd, s.diskManager.fd2pageno fd⟩ with
      | none => rfl
      | some f => exact absurd (ha.cached _ f hp hc).2 (Int.lt_irrefl _)
  | fetchPage | unpinPage | flushPage | deletePage | flushAllPages => trivial

/-- `FetchPage` of a page that is cached or in its file returns. -/
theorem fetchPage_returns (ha : Allocated live s) (hl : live p.fd)
    (hp : s.pageTable p ≠ none ∨ s.diskManager.HasPage p) :
    ∃ r s', (fetchPage p).run s = .ok r s' := by
  cases hp' : s.pageTable p with
  | some f =>
      unfold BufferPoolManager.fetchPage
      rw [run_get_bind, hp']
      exact ⟨_, _, rfl⟩
  | none =>
      have hfile : s.diskManager.HasPage p := hp.resolve_left (absurd hp')
      refine (ha.takes (I := fun d => d.HasPage p) fun _ _ _ _ _ h hw => h.write hw).fetchPage ha.inv
        ⟨ha.works, hfile⟩ ?_
      intro _ d hd buf
      exact DiskManager.readPage_returns hd.2 (hd.1.reads p.fd p.pageNo hl)

/-- **A call returns** that asks for no page that was never there. -/
theorem returns (ha : Allocated live s) (hl : live c.fd)
    (hknown : ∀ p, c = .fetchPage p → s.pageTable p ≠ none ∨ s.diskManager.HasPage p ∨ s.AllPinned) :
    ∃ r s', Step s (c, r) s' := by
  have hexec : ∃ r s', (exec c).run s = .ok r s' := by
    cases c with
    | fetchPage p =>
        rcases hknown p rfl with hp | hp | hall
        · obtain ⟨r, s', h⟩ := ha.fetchPage_returns hl (.inl hp)
          exact ⟨_, _, bind_ok h⟩
        · obtain ⟨r, s', h⟩ := ha.fetchPage_returns hl (.inr hp)
          exact ⟨_, _, bind_ok h⟩
        · by_cases hp : s.pageTable p = none
          · exact ⟨_, _, bind_ok ((ha.inv.refuses ha.idle).fetchPage_same hall p hp)⟩
          · obtain ⟨r, s', h⟩ := ha.fetchPage_returns hl (.inl hp)
            exact ⟨_, _, bind_ok h⟩
    | newPage | unpinPage | flushPage | deletePage | flushAllPages =>
        refine (ha.takes (I := fun _ => True) fun _ _ _ _ _ _ _ => trivial).exec ha.inv hl
          ⟨ha.works, trivial⟩ (fun d fd hd => ⟨⟨hd.1.opened, hd.1.writes, hd.1.reads, hd.1.inj⟩, hd.2⟩)
          (fun p hp => absurd hp (by simp))
  obtain ⟨r, s', h⟩ := hexec
  exact ⟨r, s', step_iff.mpr ⟨ha.fresh hl, h⟩⟩

/-- What every write of a mapped frame and every allocation keeps on disk. -/
theorem disk_step (ha : Allocated live s) (hs : Step s (c, r) s') :
    s'.diskManager.Works live
      ∧ (∀ fd, s.diskManager.fd2pageno fd ≤ s'.diskManager.fd2pageno fd)
      ∧ ∀ p, live p.fd → s'.diskManager.HasPage p →
        p.pageNo < s'.diskManager.fd2pageno p.fd := by
  refine hs.effect.disk_frames (I := fun d => d.Works live
    ∧ (∀ fd, s.diskManager.fd2pageno fd ≤ d.fd2pageno fd)
    ∧ ∀ p, live p.fd → d.HasPage p → p.pageNo < d.fd2pageno p.fd) ha.inv
    ⟨ha.works, fun _ => Nat.le_refl _, ha.stored⟩ ?_ ?_
  · intro d d' q f hq hd hw
    obtain ⟨h1, h2, h3⟩ := hd
    have hcounter := (DiskManager.writePage_frame hw).2.1
    refine ⟨h1.write hw, fun fd => hcounter ▸ h2 fd, fun p hl hp => ?_⟩
    rw [hcounter]
    rcases DiskManager.HasPage.of_write h1.inj hw hp with hp | ⟨hfd, hle⟩
    · exact h3 p hl hp
    · have hlt := (ha.cached q f hq (hfd ▸ hl)).2
      have := h2 q.fd
      rw [hfd]
      omega
  · intro d fd hd
    obtain ⟨h1, h2, h3⟩ := hd
    have hup := d.le_allocatePage fd
    refine ⟨⟨h1.opened, h1.writes, h1.reads, h1.inj⟩, fun fd' => Nat.le_trans (h2 fd') (hup fd'), ?_⟩
    intro p hl hp
    have := h3 p hl hp
    have := hup p.fd
    omega

/-- **The step lemma.** -/
theorem step (ha : Allocated live s) (hc : live c.fd) (hs : Step s (c, r) s') :
    Allocated live s' := by
  obtain ⟨hworks, hup, hstored⟩ := ha.disk_step hs
  refine ⟨ha.inv.step hs, ha.idle.effect ha.inv hs.effect, hworks, ?_, ?_, hstored⟩
  · intro p f hp hl
    rcases ha.inv.cached_from hs hp with ⟨hp, _⟩ | ⟨rfl, hpos, _⟩ | ⟨fd, rfl, rfl, hnext, _⟩
    · obtain ⟨h1, h2⟩ := ha.cached p f hp hl
      have := hup p.fd
      exact ⟨h1, by omega⟩
    · exact ⟨hpos.1, hstored p hc hpos⟩
    · refine ⟨Int.natCast_nonneg _, ?_⟩
      show (s.diskManager.fd2pageno fd : Int) < s'.diskManager.fd2pageno fd
      omega
  · intro p f hp hl
    have hne : c.fd ≠ p.fd := by
      rintro hfd
      exact hl (hfd ▸ hc)
    rcases ha.inv.cached_from hs hp with ⟨hold, _⟩ | ⟨rfl, _⟩ | ⟨fd, rfl, rfl, _⟩
    · exact ha.inv.stays_clean hs hold hp hne (ha.orphan p f hold hl)
    · exact absurd rfl hne
    · exact absurd rfl hne

end Allocated

/-- The page can be had: it is in a frame or in its file. -/
def Safe (s : BufferPoolManager) (p : PageId) : Prop :=
  s.pageTable p ≠ none ∨ s.diskManager.HasPage p

/-- The page reads as zeros wherever it is. -/
def Zeros (s : BufferPoolManager) (p : PageId) : Prop :=
  (∀ f, s.pageTable p = some f → (s.pages f).data = zeroPage)
    ∧ s.diskManager.pageBytes p = zeroPage

/-- **A sound call leaves every page where it can be had.** -/
theorem Safe.step (hinv : PoolInv s) (hsafe : Safe s p) (hs : Step s (c, r) s')
    (hkept : ∀ f, s.pageTable p = some f → s.gives c = some f → ¬ s.Fleeting f) : Safe s' p := by
  have hfile : s.diskManager.HasPage p → s'.diskManager.HasPage p := fun hp =>
    hs.effect.disk_invariant (I := fun d => d.HasPage p) (fun _ _ _ _ _ h hw => h.write hw)
      (fun _ _ h => h) hp
  rcases hsafe with hp | hp
  · obtain ⟨f, hf⟩ := Option.ne_none_iff_exists'.mp hp
    rcases hinv.kept_or_given hs hf with hp | ⟨hgives, hdirty⟩
    · exact .inl (by simp [hp])
    · -- the page loses its frame: it was dirty, or its file reached it
      obtain rfl := (hinv.of_mapped hf).2.2
      refine .inr ?_
      by_contra hno
      refine hkept f hf hgives ⟨hinv.valid _ f hf, ?_, fun hp => hno (hfile hp)⟩
      exact Bool.eq_false_iff.mpr fun hd => hno (hdirty hd)
  · exact .inr (hfile hp)

/-- A call leaves zeros zeros. -/
theorem Zeros.step (hinv : PoolInv s) (hinj : s.diskManager.FdsInjective) (hz : Zeros s p)
    (hs : Step s (c, r) s') : Zeros s' p := by
  have hdisk : s'.diskManager.FdsInjective ∧ s'.diskManager.pageBytes p = zeroPage := by
    refine hs.effect.disk_frames (I := fun d => d.FdsInjective ∧ d.pageBytes p = zeroPage) hinv
      ⟨hinj, hz.2⟩ ?_ (fun _ _ h => h)
    intro d d' q f hq hd hw
    refine ⟨?_, ?_⟩
    · unfold DiskManager.FdsInjective
      rw [(DiskManager.writePage_frame hw).1]
      exact hd.1
    · by_cases hpq : p = q
      · subst hpq
        exact (DiskManager.writePage_self hw).trans (hz.1 f hq)
      · exact (DiskManager.writePage_other hd.1 hpq hw).trans hd.2
  refine ⟨fun f hp => ?_, hdisk.2⟩
  rcases hinv.cached_from hs hp with ⟨hp, hdata⟩ | ⟨_, _, hdata⟩ | ⟨_, _, _, _, hdata⟩
  · exact hdata.trans (hz.1 f hp)
  · exact hdata.trans hdisk.2
  · exact hdata

/-! ## The result -/

/-- A step that is sound, if it is a call. -/
def SoundStep (live : Int → Prop) (s : BufferPoolManager) (e : Attempt) (s' : BufferPoolManager) :
    Prop :=
  (∀ c, e.action = .call c → Sound live s c) ∧ AttemptStep s e s'

/-- What a run of sound steps keeps. -/
structure KeepsPages (live : Int → Prop) (s : BufferPoolManager) (h : List Attempt) : Prop where
  alloc : Allocated live s
  safe : ∀ p, Created p h → live p.fd ∧ Safe s p
  zeros : ∀ p, live p.fd → Untouched p h → Zeros s p
  returned : ∀ e ∈ h, ∀ c, e.action = .call c → e.ret ≠ none

/-- What `FetchPage` owes a caller that asks for a page it was handed. -/
def Fetchable (s : BufferPoolManager) (p : PageId) (h : List Attempt) : Prop :=
  ∃ r s', (fetchPage p).run s = .ok r s' ∧ (r = none → s.pageTable p = none ∧ s.AllPinned)
    ∧ ∀ f, r = some f → s'.pageTable p = some f ∧ (Untouched p h → (s'.pages f).data = zeroPage)

/-- A write through a pointer is the client's only other step. -/
theorem Allocated.overwrite (ha : Allocated live s) (hm : s.Mapped f) :
    Allocated live (s.overwrite f x) := by
  refine ⟨ha.inv.overwrite hm x, ?_, ha.works, ha.cached, ?_, ha.stored⟩
  · intro g hg
    show (Function.update s.pages f _ g).pinCount = 0
    by_cases hgf : g = f
    · subst hgf
      rw [Function.update_self]
      exact ha.idle g hg
    · rw [Function.update_of_ne hgf]
      exact ha.idle g hg
  · intro q g hq hl
    show (Function.update s.pages f _ g).isDirty = false
    by_cases hgf : g = f
    · subst hgf
      rw [Function.update_self]
      exact ha.orphan q g hq hl
    · rw [Function.update_of_ne hgf]
      exact ha.orphan q g hq hl

theorem Untouched.tail {e : Attempt} (hu : Untouched p (e :: h)) : Untouched p h :=
  fun e' he' => hu e' (List.mem_cons_of_mem _ he')

/-- **Every sound step keeps every page.** -/
theorem KeepsPages.step {e : Attempt} (hk : KeepsPages live s h) (hs : SoundStep live s e s') :
    KeepsPages live s' (e :: h) := by
  obtain ⟨hsound, rfl, hact⟩ := hs
  cases ha : e.action with
  | call c =>
      rw [ha] at hact
      have hc := hsound c ha
      obtain ⟨r, t, hstep⟩ := hk.alloc.returns hc.file hc.known
      -- the call returned, and what it returned is what the step shows
      have hret : e.ret = some r ∧ s' = t := by
        have hact : e.before.tryCall c = (e.ret, s') := hact
        rw [tryCall, (step_iff.mp hstep).2, Prod.mk.injEq] at hact
        exact ⟨hact.1.symm, hact.2.symm⟩
      obtain ⟨hr, rfl⟩ := hret
      have halloc := hk.alloc.step hc.file hstep
      refine ⟨halloc, ?_, ?_, ?_⟩
      · rintro p ⟨e', he', fd, f, hact', hret'⟩
        rcases List.mem_cons.mp he' with rfl | he'
        · -- the page was just handed out
          rw [ha, Action.call.injEq] at hact'
          subst hact'
          rw [hr, Option.some.injEq] at hret'
          subst hret'
          have hfresh := (step_iff.mp hstep).1
          have hp : s'.pageTable p = some f := by
            cases hstep.effect with
            | newPage ht _ =>
                exact (hk.alloc.inv.install_table (hk.alloc.inv.taken ht) hfresh).mpr
                  (.inl ⟨rfl, rfl⟩)
          have hpfd : p.fd = fd := by
            cases hstep.effect with
            | newPage => rfl
          exact ⟨hpfd ▸ hc.file, .inl (by simp [hp])⟩
        · obtain ⟨hl, hp⟩ := hk.safe p ⟨e', he', fd, f, hact', hret'⟩
          exact ⟨hl, hp.step hk.alloc.inv hstep fun f _ => hc.kept f⟩
      · intro p hl hu
        exact (hk.zeros p hl hu.tail).step hk.alloc.inv hk.alloc.works.inj hstep
      · intro e' he' c' hc'
        rcases List.mem_cons.mp he' with rfl | he'
        · simp [hr]
        · exact hk.returned e' he' c' hc'
  | write f x =>
      rw [ha] at hact
      obtain ⟨hm, _, rfl⟩ := hact
      refine ⟨hk.alloc.overwrite hm, ?_, ?_, ?_⟩
      · rintro p ⟨e', he', fd, g, hact', hret'⟩
        rcases List.mem_cons.mp he' with rfl | he'
        · rw [ha] at hact'
          exact absurd hact' (by simp)
        · exact hk.safe p ⟨e', he', fd, g, hact', hret'⟩
      · intro p hl hu
        obtain ⟨hz, hbytes⟩ := hk.zeros p hl hu.tail
        refine ⟨fun g hg => ?_, hbytes⟩
        show (Function.update e.before.pages f _ g).data = zeroPage
        have hgf : g ≠ f := by
          rintro rfl
          exact hu e List.mem_cons_self g x ha hg
        rw [Function.update_of_ne hgf]
        exact hz g hg
      · intro e' he' c' hc'
        rcases List.mem_cons.mp he' with rfl | he'
        · rw [ha] at hc'
          exact absurd hc' (by simp)
        · exact hk.returned e' he' c' hc'

/-- A pool over empty files. -/
theorem KeepsPages.init {poolSize : Nat} {disk : DiskManager} {fd₀ : Int}
    (hworks : disk.Works live) (hempty : ∀ fd, live fd → disk.fileOf fd = some .empty) :
    KeepsPages live (.new poolSize disk fd₀) [] where
  alloc := by
    refine ⟨.init poolSize disk fd₀, fun _ _ => rfl, hworks, ?_, ?_, ?_⟩
    · intro p f hp
      exact absurd hp (by simp [BufferPoolManager.new])
    · intro p f hp
      exact absurd hp (by simp [BufferPoolManager.new])
    · rintro p hl ⟨_, f, hf, hsize⟩
      have hf : disk.fileOf p.fd = some f := hf
      rw [hempty p.fd hl, Option.some.injEq] at hf
      subst hf
      have hpos : 0 < (p.pageNo.toNat + 1) * pageSize := Nat.mul_pos (Nat.succ_pos _) pageSize_pos
      have hle : (p.pageNo.toNat + 1) * pageSize ≤ 0 := hsize
      omega
  safe := by
    rintro p ⟨e, he, _⟩
    exact absurd he List.not_mem_nil
  zeros := by
    intro p hl _
    refine ⟨fun f hp => absurd hp (by simp [BufferPoolManager.new]), ?_⟩
    show disk.pageBytes p = zeroPage
    rw [DiskManager.pageBytes, hempty p.fd hl]
    dsimp only
    split <;> rfl
  returned := fun e he => absurd he List.not_mem_nil

/-- **A page that can be had is had.** -/
theorem KeepsPages.fetchable (hk : KeepsPages live s h) (hp : Created p h) : Fetchable s p h := by
  obtain ⟨hl, hsafe⟩ := hk.safe p hp
  obtain ⟨r, s', hrun⟩ := hk.alloc.fetchPage_returns hl hsafe
  have hstep : Step s (.fetchPage p, .page r) s' := step_iff.mpr ⟨trivial, bind_ok hrun⟩
  refine ⟨r, s', hrun, ((hk.alloc.inv.refuses hk.alloc.idle).fetchPage p r s' hrun).mp, ?_⟩
  rintro f rfl
  have hp' : s'.pageTable p = some f := by
    cases hstep.effect with
    | fetchHit hq => exact hq
    | fetchMiss hq ht _ _ =>
        exact (hk.alloc.inv.install_table (hk.alloc.inv.taken ht) hq).mpr (.inl ⟨rfl, rfl⟩)
  refine ⟨hp', fun hu => ?_⟩
  exact ((hk.zeros p hl hu).step hk.alloc.inv hk.alloc.works.inj hstep).1 f hp'

theorem nextVictim_none (hfree : s.freeList = []) (hrep : s.replacer.frames = []) :
    s.nextVictim = none := by
  unfold nextVictim
  rw [hfree]
  dsimp only
  cases hv : s.replacer.victim with
  | mk r rep =>
      cases r with
      | none => rfl
      | some f =>
          have hmem := (LRUReplacer.victim_some hv).1
          rw [hrep] at hmem
          exact absurd hmem List.not_mem_nil

/-- A page in the frame that was taken is not cached any more. -/
theorem PoolInv.install_drops (hinv : PoolInv s) (ht : Taken s f t) (hq : s.pageTable q = none)
    (hp : s.pageTable p = some f) : (t.install f q d x).pageTable p = none := by
  cases hp' : (t.install f q d x).pageTable p with
  | none => rfl
  | some g =>
      rcases (hinv.install_table ht hq).mp hp' with ⟨rfl, _⟩ | ⟨hne, hg⟩
      · exact absurd (hq.symm.trans hp) (by simp)
      · exact absurd (Option.some.inj (hg.symm.trans hp)) hne

/-- **A page that is given up while fleeting is lost**: it is in no frame and not in its file. -/
theorem Allocated.lost (ha : Allocated live s) (hs : Step s (c, r) s') (hg : s.gives c = some f)
    (hf : s.Fleeting f) :
    s'.pageTable (s.pages f).id = none ∧ ¬ s'.diskManager.HasPage (s.pages f).id := by
  obtain ⟨hv, hclean, hno⟩ := hf
  have hfresh := (step_iff.mp hs).1
  -- the frame is in use: the victim of the pool, or the frame of a page to delete
  have hold : ∀ {u : BufferPoolManager} {d : DiskManager}, u.pages = s.pages →
      u.WritesOld f d → d = u.diskManager := by
    intro u d hpages hw
    rcases hw.cases with ⟨rfl, _⟩ | ⟨hd, _⟩
    · rfl
    · rw [hpages, hclean] at hd
      exact absurd hd (by simp)
  cases hs.effect with
  | @fetchMiss q g t d hq ht hw _ =>
      have hgf : g = f := by
        rw [gives, hq] at hg
        exact Option.some.inj (ht.nextVictim.symm.trans hg)
      subst hgf
      have htk := ha.inv.taken ht
      have hp := ha.inv.mapped_of_valid htk.lt hv
      refine ⟨ha.inv.install_drops htk hq hp, ?_⟩
      show ¬ d.HasPage _
      rw [hold htk.pages hw, htk.disk]
      exact hno
  | @newPage fd g t d ht hw =>
      have hgf : g = f := Option.some.inj (ht.nextVictim.symm.trans hg)
      subst hgf
      have htk := ha.inv.taken ht
      have hp := ha.inv.mapped_of_valid htk.lt hv
      refine ⟨ha.inv.install_drops htk hfresh hp, ?_⟩
      show ¬ d.HasPage _
      rw [hold (u := { t with diskManager := (s.diskManager.allocatePage fd).2 }) htk.pages hw]
      exact hno
  | @delete q g d hq hz hw =>
      have hgf : g = f ∧ (s.pages f).pinCount ≤ 0 := by
        rw [gives, hq] at hg
        simpa [hz] using hg
      obtain ⟨rfl, _⟩ := hgf
      obtain rfl := (ha.inv.of_mapped hq).2.2
      rw [hclean] at hw
      refine ⟨Function.update_self .., ?_⟩
      show ¬ d.HasPage _
      rw [show d = s.diskManager from hw]
      exact hno
  | @fetchHit q g hq =>
      rw [gives, hq] at hg
      exact absurd hg (by simp)
  | @fetchNull q hq hfree hrep =>
      rw [gives, hq] at hg
      exact absurd ((nextVictim_none hfree hrep).symm.trans hg) (by simp)
  | newNull hfree hrep => exact absurd ((nextVictim_none hfree hrep).symm.trans hg) (by simp)
  | deleteMiss hq =>
      rw [gives, hq] at hg
      exact absurd hg (by simp)
  | @deletePinned q g hq hpos =>
      rw [gives, hq] at hg
      have hgf : g = f ∧ (s.pages f).pinCount ≤ 0 := by simpa using hg
      rw [hgf.1] at hpos
      omega
  | unpin | unpinRefused | flush | flushMiss | flushAll => exact absurd hg (by simp [gives])

/-- **Every page that `NewPage` returned can be fetched**, after every run that gives up no clean
page past the end of its file and asks for no page that was never there; no call of such a run
raises. The first call that gives up such a page loses it. -/
theorem fetchable_of_sound_run {poolSize : Nat} {disk : DiskManager} {fd₀ : Int}
    (hworks : disk.Works live) (hempty : ∀ fd, live fd → disk.fileOf fd = some .empty)
    (hrun : Run (SoundStep live) (.new poolSize disk fd₀) h s) :
    (∀ p, Created p h → Fetchable s p h)
      ∧ (∀ e ∈ h, ∀ c, e.action = .call c → e.ret ≠ none)
      ∧ ∀ c r s' f, Step s (c, r) s' → s.gives c = some f → s.Fleeting f →
        s'.pageTable (s.pages f).id = none ∧ ¬ s'.diskManager.HasPage (s.pages f).id := by
  have hk : KeepsPages live s h := by
    refine hrun.invariant_history (I := KeepsPages live) (.init hworks hempty) ?_
    intro t hist e t' ht hs
    exact ht.step hs
  exact ⟨fun p hp => hk.fetchable hp, hk.returned, fun c r s' f hs => hk.alloc.lost hs⟩

/-! ## A page that is lost -/

/-- The attempts at a list of calls, newest first, and the state they lead to. -/
def tryCalls (s : BufferPoolManager) (h : List Attempt) : List Call → List Attempt × BufferPoolManager
  | [] => (h, s)
  | c :: cs => tryCalls (s.tryCall c).2 (⟨s, .call c, (s.tryCall c).1⟩ :: h) cs

theorem run_tryCalls {s₀ : BufferPoolManager} : ∀ (cs : List Call) {h : List Attempt}
    {s : BufferPoolManager}, Run AttemptStep s₀ h s →
      Run AttemptStep s₀ (s.tryCalls h cs).1 (s.tryCalls h cs).2
  | [], _, _, hrun => hrun
  | _ :: cs, _, _, hrun => run_tryCalls cs (.step hrun ⟨rfl, rfl⟩)

/-- Page 0 is created and released clean, then page 1. -/
def twoClean : List Call :=
  [.newPage 3, .unpinPage ⟨3, 0⟩ false, .newPage 3, .unpinPage ⟨3, 1⟩ false]

/-- One frame: page 1 takes it from page 0, and page 0 cannot be fetched again, with the frame
unpinned. -/
theorem new_page_lost : ∃ h s, Run AttemptStep (.new 1 openOn3 0) h s ∧ Created ⟨3, 0⟩ h
    ∧ (∀ e ∈ h, e.ret ≠ none) ∧ ¬ s.AllPinned
    ∧ (∃ t, (fetchPage ⟨3, 0⟩).run s = .error .unixError t) ∧ ¬ Fetchable s ⟨3, 0⟩ h := by
  have hrun := run_tryCalls twoClean (.nil : Run AttemptStep (.new 1 openOn3 0) [] _)
  have hraise : ∃ t, (fetchPage ⟨3, 0⟩).run ((new 1 openOn3 0).tryCalls [] twoClean).2
      = .error .unixError t := ⟨_, rfl⟩
  refine ⟨_, _, hrun, ?_, by decide, ?_, hraise, ?_⟩
  · exact ⟨_, List.mem_cons_of_mem _ (List.mem_cons_of_mem _ (List.mem_cons_of_mem _
      List.mem_cons_self)), 3, 0, rfl, rfl⟩
  · intro hall
    exact absurd (hall 0 Nat.one_pos) (by decide)
  · intro hf
    obtain ⟨r, s', hr, _⟩ := hf
    obtain ⟨t, ht⟩ := hraise
    rw [ht] at hr
    exact absurd hr (by simp)

theorem openOn3_works : openOn3.Works (· = 3) where
  opened := by
    rintro fd rfl
    rfl
  writes := fun _ _ _ => rfl
  reads := fun _ _ _ => rfl
  inj := openOn3_injective

/-- The result for a pool of one frame: page 0 is released dirty, so page 1 may take its frame. -/
theorem fetchable_of_sound_run_one : ∃ h s, Run (SoundStep (· = 3)) (.new 1 openOn3 0) h s
    ∧ Created ⟨3, 0⟩ h ∧ s.pageTable ⟨3, 0⟩ = none ∧ Fetchable s ⟨3, 0⟩ h := by
  have hsound : ∀ {s : BufferPoolManager} {c : Call}, c.fd = 3 → (∀ p, c ≠ .fetchPage p) →
      (∀ f, s.gives c = some f →
        (s.pages f).id.pageNo = invalidPageId ∨ (s.pages f).isDirty = true) →
      SoundStep (· = 3) s ⟨s, .call c, (s.tryCall c).1⟩ (s.tryCall c).2 := by
    intro s c hfd hno hkept
    refine ⟨fun c' hc' => ?_, rfl, rfl⟩
    obtain rfl : c = c' := Action.call.inj hc'
    refine ⟨hfd, fun p hp => absurd hp (hno p), fun f hf hfleet => ?_⟩
    obtain ⟨hv, hclean, _⟩ := hfleet
    rcases hkept f hf with hid | hd
    · exact hv hid
    · rw [hd] at hclean
      exact absurd hclean (by simp)
  obtain ⟨h, s, hrun, hcreated, hnone⟩ : ∃ h s, Run (SoundStep (· = 3)) (.new 1 openOn3 0) h s
      ∧ Created ⟨3, 0⟩ h ∧ s.pageTable ⟨3, 0⟩ = none := by
    refine ⟨_, _, .step (.step (.step .nil
      (hsound (c := .newPage 3) rfl nofun fun f hf => Option.some.inj hf ▸ .inl rfl))
      (hsound (c := .unpinPage ⟨3, 0⟩ true) rfl nofun nofun))
      (hsound (c := .newPage 3) rfl nofun fun f hf => Option.some.inj hf ▸ .inr rfl), ?_, rfl⟩
    exact ⟨_, List.mem_cons_of_mem _ (List.mem_cons_of_mem _ List.mem_cons_self), 3, 0, rfl, rfl⟩
  refine ⟨h, s, hrun, hcreated, hnone, ?_⟩
  refine (fetchable_of_sound_run openOn3_works ?_ hrun).1 _ hcreated
  rintro fd rfl
  rfl

end BufferPoolManager

end Rucbase
