import Rucbase.Storage.PoolPins

/-!
# Where the bytes of a page are

The logical contents of a page live in its frame while it is cached and on disk when it
is not; in between, the dirty bit says whether the disk is behind. `Coherent` is that
statement, relative to a map `val` from page ids to their logical bytes.

The dirty bit is late: a client writes through a pointer first and reports it in its next
`UnpinPage`. `owed p` says that such a report is outstanding for `p`. It always comes from
a client that still holds a pin, so a page nobody has pinned owes nothing, and evicting
it is safe.

Ids of descriptors that are not `live` (their file is closed) may still be cached. All
that is asked of those frames is that they are clean, so that evicting them writes
nothing.
-/

namespace Rucbase.BufferPoolManager

open Lib

/-- The pool and the disk together hold the bytes `val` of every live page. -/
structure Coherent (s : BufferPoolManager) (live owed : PageId → Prop) (val : PageId → PageData) :
    Prop where
  cached : ∀ p f, live p → s.pageTable p = some f → (s.pages f).data = val p
  clean : ∀ p f, live p → s.pageTable p = some f → (s.pages f).isDirty = false → ¬ owed p →
    s.diskManager.pageBytes p = val p
  absent : ∀ p, live p → s.pageTable p = none → s.diskManager.pageBytes p = val p
  orphan : ∀ p f, ¬ live p → s.pageTable p = some f → (s.pages f).isDirty = false
  pinned : ∀ p, live p → owed p → ∃ f, s.pageTable p = some f ∧ 0 < (s.pages f).pinCount

variable {s s' t : BufferPoolManager} {p q : PageId} {f g : Nat} {d : DiskManager} {x : PageData}
  {live owed owed' : PageId → Prop} {val : PageId → PageData}

/-! ## Write-backs -/

theorem Wrote.self (h : s.Wrote f d) : d.pageBytes (s.pages f).id = (s.pages f).data :=
  DiskManager.writePage_self h

theorem Wrote.other (hinj : s.diskManager.FdsInjective) (h : s.Wrote f d)
    (hp : p ≠ (s.pages f).id) : d.pageBytes p = s.diskManager.pageBytes p :=
  DiskManager.writePage_other hinj hp h

theorem Wrote.injective (hinj : s.diskManager.FdsInjective) (h : s.Wrote f d) : d.FdsInjective := by
  unfold DiskManager.FdsInjective
  rw [(DiskManager.writePage_frame h).1]
  exact hinj

/-- Writing the bytes a page has anyway changes no page's logical contents. -/
theorem Wrote.same (hinj : s.diskManager.FdsInjective) (h : s.Wrote f d)
    (hid : (s.pages f).id = q) (hp : s.diskManager.pageBytes p = val p)
    (hq : (s.pages f).data = val q) : d.pageBytes p = val p := by
  by_cases hpq : p = q
  · subst hpq
    rw [← hid, h.self, hq, hid]
  · rw [h.other hinj (hid ▸ hpq), hp]

/-- What a write-back before eviction did. -/
theorem WritesOld.cases (h : s.WritesOld f d) :
    (d = s.diskManager ∧ ((s.pages f).id.pageNo = invalidPageId ∨ (s.pages f).isDirty = false)) ∨
      ((s.pages f).isDirty = true ∧ s.Wrote f d) := by
  unfold WritesOld at h
  split at h
  · rename_i hc
    exact .inr ⟨hc.2, h⟩
  · rename_i hc
    refine .inl ⟨h, ?_⟩
    by_cases hv : (s.pages f).id.pageNo = invalidPageId
    · exact .inl hv
    · refine .inr ?_
      cases hd : (s.pages f).isDirty with
      | false => rfl
      | true => exact absurd ⟨hv, hd⟩ hc

theorem WritesOld.frame (h : s.WritesOld f d) :
    d.openFds = s.diskManager.openFds ∧ d.fd2pageno = s.diskManager.fd2pageno := by
  rcases h.cases with ⟨rfl, _⟩ | ⟨_, hw⟩
  · exact ⟨rfl, rfl⟩
  · exact ⟨(DiskManager.writePage_frame hw).1, (DiskManager.writePage_frame hw).2.1⟩

namespace Coherent

/-- A page the pool gives up is on disk in its current form; the others are untouched. -/
theorem evict (hinv : PoolInv s)
    (h : s.Coherent live owed val) (ht : PoolInv.Taken s f t) {u : BufferPoolManager}
    (hu : u.pages = s.pages) (hbytes : ∀ q, u.diskManager.pageBytes q = s.diskManager.pageBytes q)
    (huinj : u.diskManager.FdsInjective) (hw : u.WritesOld f d) :
    (∀ q g, live q → g ≠ f → s.pageTable q = some g → d.pageBytes q = s.diskManager.pageBytes q)
      ∧ ∀ q, live q → (∀ g, g ≠ f → s.pageTable q ≠ some g) → d.pageBytes q = val q := by
  -- the page in frame `f`, if there is one, is unpinned, so no report about it is outstanding
  have hold : ∀ q, live q → s.pageTable q = some f → ¬ owed q := by
    intro q hlive hq ho
    obtain ⟨g, hg, hpos⟩ := h.pinned q hlive ho
    have hgf : g = f := Option.some.inj (hg.symm.trans hq)
    exact ht.ne_pinned hinv hg hpos hgf
  have hnone : ∀ q, live q → (∀ g, g ≠ f → s.pageTable q ≠ some g) → s.pageTable q ≠ some f →
      s.diskManager.pageBytes q = val q := by
    intro q hlive hne hqf
    refine h.absent q hlive ?_
    cases hq : s.pageTable q with
    | none => rfl
    | some g =>
        by_cases hg : g = f
        · exact absurd (hg ▸ hq) hqf
        · exact absurd hq (hne g hg)
  rcases hw.cases with ⟨rfl, hclean⟩ | ⟨hdirty, hwrote⟩
  · refine ⟨fun q g _ _ _ => hbytes q, fun q hlive hne => ?_⟩
    rw [hbytes]
    by_cases hqf : s.pageTable q = some f
    · refine h.clean q f hlive hqf ?_ (hold q hlive hqf)
      rw [hu] at hclean
      refine hclean.resolve_left ?_
      rw [(hinv.of_mapped hqf).2.2]
      exact hinv.valid q f hqf
    · exact hnone q hlive hne hqf
  · have hself := hwrote.self
    rw [hu] at hself hdirty
    have hother : ∀ q, q ≠ (s.pages f).id → d.pageBytes q = s.diskManager.pageBytes q := by
      intro q hq
      rw [hwrote.other huinj (by rw [hu]; exact hq), hbytes]
    refine ⟨?_, ?_⟩
    · intro q g hlive hg hq
      by_cases hid : q = (s.pages f).id
      · -- a dirty frame in no list would be mapped, and to this page only
        rcases ht.source with hfree | ⟨hfree, _⟩
        · have := hinv.valid q g hq
          rw [hid, hinv.free_id f hfree] at this
          exact absurd rfl this
        · have := (hinv.table q f).mpr ⟨ht.lt, hfree, hid.symm⟩
          exact absurd (Option.some.inj (hq.symm.trans this)) hg
      · exact hother q hid
    · intro q hlive hne
      by_cases hqf : s.pageTable q = some f
      · have hid := (hinv.of_mapped hqf).2.2
        rw [← hid, hself, h.cached q f hlive hqf, hid]
      · have hid : q ≠ (s.pages f).id := by
          intro hid
          rcases ht.source with hfree | ⟨hfree, _⟩
          · -- a free frame has no page number and is never written back
            have hbad := hwrote
            unfold Wrote DiskManager.writePage at hbad
            rw [hu, hinv.free_id f hfree] at hbad
            split at hbad
            · exact absurd hbad (by simp)
            · rw [if_pos (by decide)] at hbad
              exact absurd hbad (by simp)
          · exact hqf ((hinv.table q f).mpr ⟨ht.lt, hfree, hid.symm⟩)
        rw [hother q hid]
        exact hnone q hlive hne hqf

/-- **Bringing a page in** keeps what every page holds. -/
theorem install (hinv : PoolInv s) (h : s.Coherent live owed val) (ht : PoolInv.Taken s f t) (hp : s.pageTable p = none)
    {u : BufferPoolManager} (hu : u.pages = s.pages)
    (hbytes : ∀ q, u.diskManager.pageBytes q = s.diskManager.pageBytes q)
    (huinj : u.diskManager.FdsInjective) (hw : u.WritesOld f d)
    (hx : x = d.pageBytes p) : (t.install f p d x).Coherent live owed val := by
  obtain ⟨hkeep, hgone⟩ := h.evict hinv ht hu hbytes huinj hw
  have hpnone : live p → d.pageBytes p = val p := fun hlive =>
    hgone p hlive (fun g _ hc => absurd (hp.symm.trans hc) (by simp))
  have htab := fun q g => hinv.install_table (q := q) (g := g) (d := d) (x := x) ht hp
  have hself : (t.install f p d x).pages f = ⟨p, x, false, 1⟩ := Function.update_self ..
  -- the page that comes in is the one on disk; those that stay keep their frames
  refine ⟨?_, ?_, ?_, ?_, ?_⟩
  · intro q g hlive hq
    rcases (htab q g).mp hq with ⟨rfl, rfl⟩ | ⟨hg, hqg⟩
    · rw [hself, hx]
      exact hpnone hlive
    · rw [PoolInv.install_pages ht hg]
      exact h.cached q g hlive hqg
  · intro q g hlive hq hclean ho
    show d.pageBytes q = val q
    rcases (htab q g).mp hq with ⟨rfl, rfl⟩ | ⟨hg, hqg⟩
    · exact hpnone hlive
    · rw [PoolInv.install_pages ht hg] at hclean
      rw [hkeep q g hlive hg hqg]
      exact h.clean q g hlive hqg hclean ho
  · intro q hlive hq
    refine hgone q hlive (fun g hg hqg => ?_)
    have := (htab q g).mpr (.inr ⟨hg, hqg⟩)
    rw [hq] at this
    exact absurd this (by simp)
  · intro q g hlive hq
    rcases (htab q g).mp hq with ⟨rfl, rfl⟩ | ⟨hg, hqg⟩
    · rw [hself]
    · rw [PoolInv.install_pages ht hg]
      exact h.orphan q g hlive hqg
  · intro q hlive ho
    obtain ⟨g, hqg, hpos⟩ := h.pinned q hlive ho
    have hg := ht.ne_pinned hinv hqg hpos
    refine ⟨g, (htab q g).mpr (.inr ⟨hg, hqg⟩), ?_⟩
    rw [PoolInv.install_pages ht hg]
    exact hpos

/-- **Changing one mapped frame**: its new bytes become the page's contents, and the page
must stay pinned if a report about it is outstanding afterwards. -/
theorem setPage (hinv : PoolInv s) (h : s.Coherent live owed val) (hp : s.pageTable p = some f)
    {pg : Page} {r : LRUReplacer} {val' : PageId → PageData}
    (hval : ∀ q, q ≠ p → val' q = val q) (howed : ∀ q, q ≠ p → (owed' q ↔ owed q))
    (hdata : live p → pg.data = val' p)
    (hclean : live p → pg.isDirty = false → ¬ owed' p → s.diskManager.pageBytes p = val' p)
    (horphan : ¬ live p → pg.isDirty = false) (hpin : live p → owed' p → 0 < pg.pinCount) :
    ({ s.setPage f pg with replacer := r } : BufferPoolManager).Coherent live owed' val' := by
  have hne : ∀ q g, q ≠ p → s.pageTable q = some g → g ≠ f :=
    fun q g hq hqg => hinv.frame_ne hqg hp hq
  have hself : Function.update s.pages f pg f = pg := Function.update_self ..
  refine ⟨?_, ?_, ?_, ?_, ?_⟩
  · intro q g hlive hq
    show (Function.update s.pages f pg g).data = val' q
    by_cases hqp : q = p
    · subst hqp
      have : f = g := Option.some.inj (hp.symm.trans hq)
      subst this
      rw [hself, hdata hlive]
    · rw [Function.update_of_ne (hne q g hqp hq), hval q hqp]
      exact h.cached q g hlive hq
  · intro q g hlive hq hd ho
    change (Function.update s.pages f pg g).isDirty = false at hd
    show s.diskManager.pageBytes q = val' q
    by_cases hqp : q = p
    · subst hqp
      have : f = g := Option.some.inj (hp.symm.trans hq)
      subst this
      rw [hself] at hd
      exact hclean hlive hd ho
    · rw [Function.update_of_ne (hne q g hqp hq)] at hd
      rw [hval q hqp]
      exact h.clean q g hlive hq hd (fun hc => ho ((howed q hqp).mpr hc))
  · intro q hlive hq
    have hqp : q ≠ p := by
      rintro rfl
      exact absurd (hp.symm.trans hq) (by simp)
    rw [hval q hqp]
    exact h.absent q hlive hq
  · intro q g hlive hq
    show (Function.update s.pages f pg g).isDirty = false
    by_cases hqp : q = p
    · subst hqp
      have : f = g := Option.some.inj (hp.symm.trans hq)
      subst this
      rw [hself]
      exact horphan hlive
    · rw [Function.update_of_ne (hne q g hqp hq)]
      exact h.orphan q g hlive hq
  · intro q hlive ho
    by_cases hqp : q = p
    · subst hqp
      refine ⟨f, hp, ?_⟩
      show 0 < (Function.update s.pages f pg f).pinCount
      rw [hself]
      exact hpin hlive ho
    · obtain ⟨g, hqg, hpos⟩ := h.pinned q hlive ((howed q hqp).mp ho)
      refine ⟨g, hqg, ?_⟩
      show 0 < (Function.update s.pages f pg g).pinCount
      rw [Function.update_of_ne (hne q g hqp hqg)]
      exact hpos

theorem pinHit (hinv : PoolInv s) (h : s.Coherent live owed val) (hp : s.pageTable p = some f) :
    (s.pinHit f).Coherent live owed val := by
  refine h.setPage hinv hp (fun _ _ => rfl) (fun _ _ => Iff.rfl) (fun hl => h.cached p f hl hp)
    (fun hl hd ho => h.clean p f hl hp hd ho) (fun hl => h.orphan p f hl hp) (fun hl ho => ?_)
  obtain ⟨g, hg, hpos⟩ := h.pinned p hl ho
  have : f = g := Option.some.inj (hp.symm.trans hg)
  subst this
  show 0 < (s.pages f).pinCount + 1
  omega

/-- Writing a page out and marking it clean changes no logical contents. -/
theorem cleaned (hinv : PoolInv s) (hinj : s.diskManager.FdsInjective)
    (h : s.Coherent live owed val) (hp : s.pageTable p = some f) (hlive : live p)
    (hw : s.Wrote f d) : (s.cleaned f d).Coherent live owed val := by
  have hid := (hinv.of_mapped hp).2.2
  have hdata := h.cached p f hlive hp
  have hself : d.pageBytes p = val p := by rw [← hid, hw.self, hdata, hid]
  have hsame := (SameCache.refl s).cleaned (d := d) f
  refine ⟨?_, ?_, ?_, ?_, ?_⟩
  · intro q g hl hq
    rw [hsame.data]
    exact h.cached q g hl hq
  · intro q g hl hq hd ho
    show d.pageBytes q = val q
    by_cases hqp : q = p
    · rw [hqp]
      exact hself
    · rw [hw.other hinj (hid ▸ hqp)]
      refine h.clean q g hl hq ?_ ho
      have hgf : g ≠ f := by
        rintro rfl
        exact hqp ((hinv.of_mapped hq).2.2.symm.trans hid)
      change (Function.update s.pages f _ g).isDirty = false at hd
      rwa [Function.update_of_ne hgf] at hd
  · intro q hl hq
    refine hw.same hinj hid ?_ hdata
    exact h.absent q hl hq
  · intro q g hl hq
    show (Function.update s.pages f _ g).isDirty = false
    by_cases hg : g = f
    · subst hg
      rw [Function.update_self]
    · rw [Function.update_of_ne hg]
      exact h.orphan q g hl hq
  · intro q hl ho
    obtain ⟨g, hqg, hpos⟩ := h.pinned q hl ho
    exact ⟨g, hqg, by rw [hsame.pinCount]; exact hpos⟩

/-- A page deleted from the pool is on disk in its current form. -/
theorem freed (hinv : PoolInv s) (hinj : s.diskManager.FdsInjective)
    (h : s.Coherent live owed val) (hp : s.pageTable p = some f)
    (hz : (s.pages f).pinCount ≤ 0)
    (hw : if (s.pages f).isDirty then s.Wrote f d else d = s.diskManager) :
    (s.freed f p d).Coherent live owed val := by
  have hid := (hinv.of_mapped hp).2.2
  have hnot : live p → ¬ owed p := by
    intro hl ho
    obtain ⟨g, hg, hpos⟩ := h.pinned p hl ho
    have : f = g := Option.some.inj (hp.symm.trans hg)
    subst this
    omega
  -- a dirty page is written before it goes, a clean one is on disk already
  have hself : live p → d.pageBytes p = val p := by
    intro hl
    cases hd : (s.pages f).isDirty with
    | true =>
        rw [if_pos hd] at hw
        rw [← hid, hw.self, h.cached p f hl hp, hid]
    | false =>
        rw [if_neg (by simp [hd])] at hw
        rw [hw]
        exact h.clean p f hl hp hd (hnot hl)
  have hother : ∀ q, q ≠ p → d.pageBytes q = s.diskManager.pageBytes q := by
    intro q hq
    cases hd : (s.pages f).isDirty with
    | true =>
        rw [if_pos hd] at hw
        exact hw.other hinj (hid ▸ hq)
    | false =>
        rw [if_neg (by simp [hd])] at hw
        rw [hw]
  have htab := fun q g => hinv.freed_table (q := q) (g := g) (d := d) hp
  have hpg : ∀ g, g ≠ f → (s.freed f p d).pages g = s.pages g := by
    intro g hg
    exact Function.update_of_ne hg ..
  have hqp : ∀ q g, g ≠ f → s.pageTable q = some g → q ≠ p := by
    rintro q g hg hqg rfl
    exact hg (Option.some.inj (hqg.symm.trans hp))
  refine ⟨?_, ?_, ?_, ?_, ?_⟩
  · intro q g hl hq
    obtain ⟨hg, hqg⟩ := (htab q g).mp hq
    rw [hpg g hg]
    exact h.cached q g hl hqg
  · intro q g hl hq hd ho
    obtain ⟨hg, hqg⟩ := (htab q g).mp hq
    rw [hpg g hg] at hd
    show d.pageBytes q = val q
    rw [hother q (hqp q g hg hqg)]
    exact h.clean q g hl hqg hd ho
  · intro q hl hq
    show d.pageBytes q = val q
    by_cases hqp' : q = p
    · subst hqp'
      exact hself hl
    · rw [hother q hqp']
      refine h.absent q hl ?_
      change Function.update s.pageTable p none q = none at hq
      rwa [Function.update_of_ne hqp'] at hq
  · intro q g hl hq
    obtain ⟨hg, hqg⟩ := (htab q g).mp hq
    rw [hpg g hg]
    exact h.orphan q g hl hqg
  · intro q hl ho
    obtain ⟨g, hqg, hpos⟩ := h.pinned q hl ho
    have hg : g ≠ f := by
      rintro rfl
      omega
    exact ⟨g, (htab q g).mpr ⟨hg, hqg⟩, by rw [hpg g hg]; exact hpos⟩

end Coherent

/-- After `FlushAllPages` the cached pages of the file are clean, and the disk has their bytes. -/
theorem PoolInv.flushAll_clean {fd : Int} (hinv : PoolInv s) (hinj : s.diskManager.FdsInjective)
    (hrun : (flushAllPages fd).run s = .ok ⟨⟩ s') (hp : s'.pageTable p = some f) (hfd : p.fd = fd) :
    (s'.pages f).isDirty = false ∧ s'.diskManager.pageBytes p = (s'.pages f).data := by
  have hlt : f < s.poolSize := by
    have hsame := flushAllPages_sameCache hrun
    rw [hsame.pageTable] at hp
    exact (hinv.of_mapped hp).1
  unfold flushAllPages at hrun
  rw [run_get_bind] at hrun
  refine forM_establishes
    (I := fun t => PoolInv t ∧ t.diskManager.FdsInjective ∧ t.poolSize = s.poolSize)
    (P := fun i t => ∀ q, t.pageTable q = some i → q.fd = fd →
      (t.pages i).isDirty = false ∧ t.diskManager.pageBytes q = (t.pages i).data)
    _ ?_ ?_ ⟨hinv, hinj, rfl⟩ hrun f (List.mem_range.mpr hlt) p hp hfd
  · rintro i hi t u ⟨ht, htinj, hsize⟩ hu
    rcases flushFrame_ok hu with ⟨hno, rfl⟩ | ⟨d, _, hv, hw, rfl⟩
    · refine ⟨⟨ht, htinj, hsize⟩, ?_⟩
      intro q hq hqfd
      -- a frame of the file would not have been skipped
      have hid := (ht.of_mapped hq).2.2
      exact absurd ⟨hid ▸ hqfd, hid ▸ ht.valid q i hq⟩ hno
    · have hm := ht.mapped_of_valid (hsize ▸ List.mem_range.mp hi) hv
      have hpg : (t.cleaned i d).pages i = { t.pages i with isDirty := false } :=
        Function.update_self ..
      refine ⟨⟨ht.cleaned hm, hw.injective htinj, hsize⟩, ?_⟩
      intro q hq _
      have hid := (ht.of_mapped hq).2.2
      rw [hpg]
      exact ⟨rfl, hid ▸ hw.self⟩
  · rintro i hi j t u ⟨ht, htinj, hsize⟩ hP hu
    rcases flushFrame_ok hu with ⟨_, rfl⟩ | ⟨d, _, hv, hw, rfl⟩
    · exact hP
    · have hm := ht.mapped_of_valid (hsize ▸ List.mem_range.mp hi) hv
      intro q hq hqfd
      have hid := (ht.of_mapped hq).2.2
      by_cases hij : j = i
      · subst hij
        have hpg : (t.cleaned j d).pages j = { t.pages j with isDirty := false } :=
          Function.update_self ..
        rw [hpg]
        exact ⟨rfl, hid ▸ hw.self⟩
      · have hpg : (t.cleaned i d).pages j = t.pages j := Function.update_of_ne hij ..
        have hne : q ≠ (t.pages i).id := by
          rintro rfl
          exact hij (Option.some.inj (hq.symm.trans hm))
        rw [hpg]
        exact ⟨(hP q hq hqfd).1, (hw.other htinj hne).trans (hP q hq hqfd).2⟩

end Rucbase.BufferPoolManager
