import Rucbase.Storage.PoolInUse
import Rucbase.Storage.PageStore

/-!
# One file on the pool

The page store that the layers above work on is justified here. `Backs filename fd m w` says that
the pool in `w` serves the file `filename`, open under `fd`: it holds the pages that `m` gives it,
none of them can get lost, and a call on one of them returns. Other files may have the rest of the
pool, with pages that are dirty, pinned by their own clients, or left over from files now closed, but
for one frame. Seen through `pageStore`, the four things a client of the file does (fetch, create,
write, unpin) are those of a `PageStore` with frames enough, as long as the client gives back each
page before it asks for the next.

Page 0 is the file header. It is written and read past the pool, and never cached.
-/

namespace Rucbase

open Lib BufferPoolManager

namespace BufferPoolManager

/-- The bytes of a page, wherever they are. -/
def contents (s : BufferPoolManager) (p : PageId) : PageData :=
  match s.pageTable p with
  | some f => (s.pages f).data
  | none => s.diskManager.pageBytes p

/-- The pages of the file open under `fd`, as the layers above see them. -/
def pageStore (s : BufferPoolManager) (fd : Int) (pins : List Int) : PageStore PageData where
  pages := fun no =>
    if 1 ≤ no ∧ no < s.diskManager.fd2pageno fd then some (s.contents ⟨fd, no⟩) else none
  pins := pins
  nextPageNo := s.diskManager.fd2pageno fd
  frames := none

variable {s s' t : BufferPoolManager} {p q : PageId} {f g : Nat} {c : Call} {r : Ret} {fd : Int}

theorem pageStore_eq {pins : List Int} {st : PageStore PageData}
    (hpages : (s.pageStore fd pins).pages = st.pages) (hpins : st.pins = pins)
    (hnext : s.diskManager.fd2pageno fd = st.nextPageNo) (hframes : st.frames = none) :
    s.pageStore fd pins = st := by
  obtain ⟨pages, _, _, _⟩ := st
  subst hpins hnext hframes
  exact congrArg (fun q => (⟨q, _, _, none⟩ : PageStore PageData)) hpages

/-- The frame `FindVictimPage` would take is in one of the two lists. -/
theorem PoolInv.nextVictim_idle (hinv : PoolInv s) (hidle : FreeIdle s)
    (h : s.nextVictim = some f) : f < s.poolSize ∧ (s.pages f).pinCount = 0 := by
  unfold nextVictim at h
  split at h
  · rename_i g rest hfree
    obtain rfl : g = f := Option.some.inj h
    have hmem : g ∈ s.freeList := by
      rw [hfree]
      exact List.mem_cons_self
    exact ⟨hinv.free_lt g hmem, hidle g hmem⟩
  · have hvic : s.replacer.victim = (some f, s.replacer.victim.2) := Prod.ext h rfl
    obtain ⟨hlt, _, hz⟩ := (hinv.rep f).mp (LRUReplacer.victim_some hvic).1
    exact ⟨hlt, hz⟩

/-- A call changes no counter, but for the one `NewPage` counts up. -/
theorem Effect.counter (he : Effect s c r s') :
    s'.diskManager.fd2pageno = s.diskManager.fd2pageno ∨
      ∃ fd, c = .newPage fd ∧ s'.diskManager.fd2pageno
          = Function.update s.diskManager.fd2pageno fd (s.diskManager.fd2pageno fd + 1)
        ∧ (s'.pageTable ⟨fd, s.diskManager.fd2pageno fd⟩).isSome := by
  cases he with
  | fetchMiss _ ht hw _ =>
      rw [ht.frame] at hw
      exact .inl hw.frame.2
  | @newPage fd f t d ht hw =>
      refine .inr ⟨fd, rfl, hw.frame.2, ?_⟩
      show (Function.update (t.dropOld f) _ (some f) _).isSome
      rw [Function.update_self]
      rfl
  | flush _ hw => exact .inl (DiskManager.writePage_frame hw).2.1
  | delete _ _ hw =>
      split at hw
      · exact .inl (DiskManager.writePage_frame hw).2.1
      · exact .inl (congrArg _ hw)
  | flushAll hrun =>
      exact .inl (flushAllPages_invariant
        (I := fun t => t.diskManager.fd2pageno = s.diskManager.fd2pageno)
        (fun _ _ _ ht _ _ _ hw => (DiskManager.writePage_frame hw).2.1.trans ht) rfl hrun)
  | fetchHit | fetchNull | newNull | unpin | unpinRefused | flushMiss | deleteMiss | deletePinned =>
      exact .inl rfl

theorem Effect.poolSize (hinv : PoolInv s) (he : Effect s c r s') : s'.poolSize = s.poolSize := by
  cases he with
  | fetchMiss _ ht _ _ => exact (hinv.taken ht).poolSize
  | newPage ht _ => exact (hinv.taken ht).poolSize
  | flushAll hrun => exact (flushAllPages_sameCache hrun).poolSize
  | fetchHit | fetchNull | newNull | unpin | unpinRefused | flush | flushMiss | deleteMiss
    | deletePinned | delete => rfl

/-- After `FlushAllPages` the cached pages of the file are in it. -/
theorem PoolInv.flushAll_hasPage (hinv : PoolInv s) (hrun : (flushAllPages fd).run s = .ok ⟨⟩ s')
    (hp : s'.pageTable p = some f) (hfd : p.fd = fd) : s'.diskManager.HasPage p := by
  rw [(flushAllPages_sameCache hrun).pageTable] at hp
  have hlt := (hinv.of_mapped hp).1
  unfold flushAllPages at hrun
  rw [run_get_bind] at hrun
  refine forM_establishes (I := fun t => PoolInv t ∧ SameCache s t)
    (P := fun i t => ∀ q, s.pageTable q = some i → q.fd = fd → t.diskManager.HasPage q)
    _ ?_ ?_ ⟨hinv, .refl s⟩ hrun f (List.mem_range.mpr hlt) p hp hfd
  · rintro i hi t u ⟨ht, hsame⟩ hu
    rcases flushFrame_ok hu with ⟨hno, rfl⟩ | ⟨d, _, hv, hw, rfl⟩
    · refine ⟨⟨ht, hsame⟩, fun q hq hqfd => ?_⟩
      -- a frame of the file would not have been skipped
      have hid := (hinv.of_mapped hq).2.2
      rw [hsame.id, hid] at hno
      exact absurd ⟨hqfd, hinv.valid q i hq⟩ hno
    · have hm := ht.mapped_of_valid (hsame.poolSize ▸ List.mem_range.mp hi) hv
      refine ⟨⟨ht.cleaned hm, hsame.cleaned i⟩, fun q hq _ => ?_⟩
      rw [← (hinv.of_mapped hq).2.2, ← hsame.id]
      exact .page_of_write hw
  · rintro i hi j t u ⟨ht, hsame⟩ hP hu q hq hqfd
    rcases flushFrame_ok hu with ⟨_, rfl⟩ | ⟨d, _, _, hw, rfl⟩
    · exact hP q hq hqfd
    · exact (hP q hq hqfd).write hw

end BufferPoolManager

/-! ## The file behind the pool -/

/-- None of these pins is on a page of `fd`. -/
def Elsewhere (fd : Int) (pins : List Pin) : Prop := ∀ k ∈ pins, k.page.fd ≠ fd

/-- There is a frame whose pins, if any, are on pages of `fd`. -/
def HasRoom (w : World) (fd : Int) : Prop :=
  ∃ f, f < w.pool.poolSize ∧ ∀ k ∈ w.pins, k.frame = f → k.page.fd = fd

/-- **The pool serves the file `filename`, open under `fd`**, and `m` says what is in it. -/
structure Backs (filename : String) (fd : Int) (m : FileMap) (w : World) : Prop where
  good : Good m w
  inUse : InUse w.pool
  opened : w.pool.diskManager.openFds fd = some filename
  /-- `open` did not fail. -/
  valid : fd ≠ -1
  room : HasRoom w fd
  /-- The header page is not cached. -/
  data : ∀ p f, w.pool.pageTable p = some f → p.fd = fd → 1 ≤ p.pageNo
  /-- A page that is given up is in the file then. -/
  kept : ∀ p f, w.pool.pageTable p = some f → p.fd = fd →
    (w.pool.pages f).isDirty = true ∨ w.pool.diskManager.HasPage p ∨ w.Owed p
  had : ∀ no : Int, 1 ≤ no → no < w.pool.diskManager.fd2pageno fd → Safe w.pool ⟨fd, no⟩

/-- The calls a client makes, on pages the file has. -/
def Uses (s : BufferPoolManager) (fd : Int) : Call → Prop
  | .fetchPage p => p.fd = fd ∧ 1 ≤ p.pageNo ∧ p.pageNo < s.diskManager.fd2pageno fd
  | .newPage fd' => fd' = fd
  | .unpinPage p _ => p.fd = fd
  | _ => False

/-- A call on a page of `fd` pins no other page. -/
theorem HasRoom.call {w : World} {fd : Int} {c : Call} {r : Ret} {s : BufferPoolManager}
    (h : HasRoom w fd) (hinv : PoolInv w.pool) (hc : c.fd = fd) (hs : Step w.pool (c, r) s) :
    HasRoom (w.after 0 c r s) fd := by
  obtain ⟨f, hlt, hroom⟩ := h
  have hpins : ∀ k ∈ (w.after 0 c r s).pins, k ∈ w.pins ∨ k.page.fd = fd := by
    intro k hk
    cases hs.effect with
    | fetchHit | fetchMiss | newPage =>
        rcases List.mem_cons.mp hk with rfl | hk
        · exact .inr hc
        · exact .inl hk
    | unpin => exact .inl (List.mem_of_mem_eraseP hk)
    | fetchNull | newNull | unpinRefused | flush | flushMiss | deleteMiss | deletePinned | delete
      | flushAll => exact .inl hk
  refine ⟨f, ?_, fun k hk hkf => (hpins k hk).elim (hroom k · hkf) id⟩
  rw [World.after_pool, hs.effect.poolSize hinv]
  exact hlt

namespace Backs

variable {filename : String} {fd : Int} {m : FileMap} {w : World} {p : PageId} {f : Nat} {c : Call}
  {r : Ret} {s : BufferPoolManager} {x : PageData} {no : Int}

theorem live (h : Backs filename fd m w) (hp : p.fd = fd) : Live w.pool.diskManager p := by
  rw [Live, hp, h.opened]
  rfl

/-- What the file holds can be read off the pool and the disk. -/
theorem contents (h : Backs filename fd m w) (hp : p.fd = fd) : w.pool.contents p = m.page p := by
  unfold BufferPoolManager.contents
  cases hq : w.pool.pageTable p with
  | none => exact h.good.faithful.coherent.absent p (h.live hp) hq
  | some f => exact h.good.faithful.coherent.cached p f (h.live hp) hq

/-- The disk takes what is in the frames. -/
theorem alloc (h : Backs filename fd m w) :
    Allocated (fun fd => (w.pool.diskManager.openFds fd).isSome = true) w.pool :=
  h.good.allocated h.inUse

theorem uses_fd (hc : Uses s fd c) : c.fd = fd := by
  cases c with
  | fetchPage p => exact hc.1
  | newPage fd' => exact hc
  | unpinPage p b => exact hc
  | flushPage | deletePage | flushAllPages => exact hc.elim

/-- A call on a page of the file is a call on an open one. -/
theorem isOpen (h : Backs filename fd m w) (hc : Uses w.pool fd c) :
    (w.pool.diskManager.openFds c.fd).isSome = true := by
  rw [uses_fd hc, h.opened]
  rfl

/-- **A call on a page of the file loses none of them.** -/
theorem keeps (h : Backs filename fd m w) (hc : Uses w.pool fd c) (hp : w.pool.pageTable p = some f)
    (hfd : p.fd = fd) (hgives : w.pool.gives c = some f) : ¬ w.pool.Fleeting f := by
  have hinv := h.good.faithful.inv
  obtain rfl := (hinv.of_mapped hp).2.2
  -- the frame that is taken is not pinned
  have hz : (w.pool.pages f).pinCount = 0 := by
    cases c with
    | fetchPage q =>
        change (if (w.pool.pageTable q).isSome then none else w.pool.nextVictim) = some f at hgives
        split at hgives
        · exact absurd hgives (by simp)
        · exact (hinv.nextVictim_idle h.inUse.idle hgives).2
    | newPage fd' => exact (hinv.nextVictim_idle h.inUse.idle hgives).2
    | unpinPage => exact absurd hgives (by simp [gives])
    | flushPage | deletePage | flushAllPages => exact hc.elim
  rintro ⟨_, hclean, hno⟩
  rcases h.kept _ f hp hfd with hd | hin | ho
  · rw [hclean] at hd
    exact absurd hd (by simp)
  · exact hno hin
  · -- a report is outstanding, so the page is pinned
    obtain ⟨g, hg, hpos⟩ := h.good.faithful.coherent.pinned _ (h.live hfd) ho
    obtain rfl : f = g := Option.some.inj (hp.symm.trans hg)
    omega

/-- **A call on a page of the file returns.** -/
theorem returns (h : Backs filename fd m w) (hc : Uses w.pool fd c) :
    ∃ r s, Step w.pool (c, r) s := by
  refine h.alloc.returns (h.isOpen hc) ?_
  rintro ⟨pfd, pno⟩ rfl
  obtain ⟨rfl, h1, h2⟩ := hc
  exact (h.had pno h1 h2).imp_right .inl

/-- A page that is cached after a call is dirty, or in the file, or will be reported. -/
theorem kept_call (h : Backs filename fd m w) (hc : Uses w.pool fd c) (hk : w.Allowed 0 c)
    (hs : Step w.pool (c, r) s) :
    ∀ p f, (w.after 0 c r s).pool.pageTable p = some f → p.fd = fd →
      ((w.after 0 c r s).pool.pages f).isDirty = true
        ∨ (w.after 0 c r s).pool.diskManager.HasPage p ∨ (w.after 0 c r s).Owed p := by
  have hinv := h.good.faithful.inv
  have hfresh := (step_iff.mp hs).1
  have hfile : ∀ p, w.pool.diskManager.HasPage p → s.diskManager.HasPage p := fun p hp =>
    hs.effect.disk_invariant (I := fun d => d.HasPage p) (fun _ _ _ _ _ h hw => h.write hw)
      (fun _ _ h => h) hp
  rw [World.after_pool]
  intro p f hp hpfd
  cases hs.effect with
  | @fetchHit q g hq =>
      rcases h.kept p f hp hpfd with hd | hd | ho
      · left
        show (Function.update w.pool.pages g _ f).isDirty = true
        by_cases hfg : f = g
        · rw [hfg, Function.update_self]
          exact hfg ▸ hd
        · rwa [Function.update_of_ne hfg]
      · exact .inr (.inl hd)
      · exact .inr (.inr ho)
  | fetchNull | newNull | unpinRefused => exact h.kept p f hp hpfd
  | @fetchMiss q g t d hq ht _ hpos =>
      rcases (hinv.install_table (hinv.taken ht) hq).mp hp with ⟨rfl, _⟩ | ⟨hne, hp⟩
      · exact .inr (.inl hpos)
      · rw [PoolInv.install_pages (hinv.taken ht) hne]
        exact (h.kept p f hp hpfd).imp_right (Or.imp (hfile p) id)
  | @newPage fd' g t d ht hw =>
      rcases (hinv.install_table (hinv.taken ht) hfresh).mp hp with ⟨rfl, _⟩ | ⟨hne, hp⟩
      · exact .inr (.inr ⟨0, if_pos ⟨rfl, rfl⟩⟩)
      · rw [PoolInv.install_pages (hinv.taken ht) hne]
        refine (h.kept p f hp hpfd).imp_right (Or.imp (hfile p) ?_)
        rintro ⟨c', hc'⟩
        refine ⟨c', ?_⟩
        show w.owe 0 _ true c' p = true
        unfold World.owe
        split
        · rfl
        · exact hc'
  | @unpin q g b hq _ =>
      -- the dirty bit only ever goes up here
      have hdirty : (w.pool.pages f).isDirty = true →
          ((w.pool.unpinHit g b).pages f).isDirty = true := by
        intro hd
        show (Function.update w.pool.pages g _ f).isDirty = true
        by_cases hfg : f = g
        · rw [hfg, Function.update_self, ← hfg]
          show ((w.pool.pages f).isDirty || b) = true
          rw [hd, Bool.true_or]
        · rwa [Function.update_of_ne hfg]
      rcases h.kept p f hp hpfd with hd | hd | ⟨c', hc'⟩
      · exact .inl (hdirty hd)
      · exact .inr (.inl hd)
      · by_cases hself : c' = 0 ∧ p = q
        · -- the report that was outstanding is the one made here
          obtain ⟨rfl, rfl⟩ := hself
          obtain rfl : f = g := Option.some.inj (hp.symm.trans hq)
          left
          show (Function.update w.pool.pages f _ f).isDirty = true
          rw [Function.update_self]
          show ((w.pool.pages f).isDirty || b) = true
          rw [hk.2 hc', Bool.or_true]
        · refine .inr (.inr ⟨c', ?_⟩)
          show w.owe 0 q false c' p = true
          unfold World.owe
          rwa [if_neg hself]
  | flush | flushMiss | deleteMiss | deletePinned | delete | flushAll => exact hc.elim

/-- **A call on a page of the file keeps it.** -/
theorem call (h : Backs filename fd m w) (hc : Uses w.pool fd c) (hk : w.Allowed 0 c)
    (hs : Step w.pool (c, r) s) :
    Backs filename fd ((FileOp.page 0 (.call c)).written m r) (w.after 0 c r s) := by
  have hinv := h.good.faithful.inv
  have hcfd : c.fd = fd := uses_fd hc
  have hpool : (w.after 0 c r s).pool = s := World.after_pool
  have hcounter : 1 ≤ w.pool.diskManager.fd2pageno fd :=
    h.good.started fd (by rw [h.opened]; rfl)
  have hkept : ∀ p f, p.fd = fd → w.pool.pageTable p = some f → w.pool.gives c = some f →
      ¬ w.pool.Fleeting f := fun _ _ hp hf => h.keeps hc hf hp
  refine ⟨h.good.call ?_ hk (step_iff.mp hs).2, ?_, ?_, h.valid, h.room.call hinv hcfd hs, ?_,
    h.kept_call hc hk hs, ?_⟩
  · have hop : (Op.call c).fd = fd := by cases c <;> exact hcfd
    rw [hop, h.opened]
    rfl
  · rw [hpool]
    exact h.inUse.call hinv hs
  · rw [hpool]
    exact hs.effect.disk_invariant (I := fun d => d.openFds fd = some filename)
      (fun _ _ _ _ _ hd hw => (DiskManager.writePage_frame hw).1 ▸ hd) (fun _ _ hd => hd) h.opened
  · rw [hpool]
    intro p f hp hpfd
    rcases hinv.cached_from hs hp with ⟨hp, _⟩ | ⟨rfl, _, _⟩ | ⟨fd', rfl, rfl, _, _⟩
    · exact h.data p f hp hpfd
    · exact hc.2.1
    · obtain rfl : fd' = fd := hc
      show 1 ≤ (w.pool.diskManager.fd2pageno fd' : Int)
      omega
  · rw [hpool]
    intro no h1 h2
    rcases hs.effect.counter with hsame | ⟨fd', rfl, hnext, hcached⟩
    · rw [hsame] at h2
      exact (h.had no h1 h2).step hinv hs fun f => hkept _ f rfl
    · obtain rfl : fd' = fd := hc
      rw [hnext, Function.update_self] at h2
      by_cases hno : no = w.pool.diskManager.fd2pageno fd'
      · rw [hno]
        exact .inl (Option.isSome_iff_ne_none.mp hcached)
      · exact (h.had no h1 (by omega)).step hinv hs fun f => hkept _ f rfl

/-- **A write through a pointer keeps the file.** -/
theorem write (h : Backs filename fd m w) (hp : p.fd = fd) (hpin : (⟨0, p, f⟩ : Pin) ∈ w.pins)
    (x : PageData) :
    Backs filename fd (m.setPage p x)
      { w with pool := w.pool.overwrite f x, owes := w.owe 0 p true } := by
  refine ⟨h.good.write (h.live hp) hpin x, h.inUse.overwrite f x, h.opened, h.valid, h.room, h.data,
    ?_, h.had⟩
  intro q g hq hqfd
  rcases h.kept q g hq hqfd with hd | hq | ⟨c', hc'⟩
  · left
    show (Function.update w.pool.pages f _ g).isDirty = true
    by_cases hgf : g = f
    · rw [hgf, Function.update_self]
      exact hgf ▸ hd
    · rwa [Function.update_of_ne hgf]
  · exact .inr (.inl hq)
  · refine .inr (.inr ⟨c', ?_⟩)
    show w.owe 0 p true c' q = true
    unfold World.owe
    split
    · rfl
    · exact hc'

/-! ## What the client sees -/

/-- With no page of the file pinned there is a frame to take. -/
theorem not_allPinned (h : Backs filename fd m w) (hpins : Elsewhere fd w.pins) :
    ¬ w.pool.AllPinned := by
  intro hall
  obtain ⟨f, hlt, hroom⟩ := h.room
  have hpos := hall f hlt
  by_cases hfree : f ∈ w.pool.freeList
  · have := h.inUse.idle f hfree
    omega
  · -- a pin on the page in the frame would be one of the file's
    have hm := (h.good.faithful.inv.table _ f).mpr ⟨hlt, hfree, rfl⟩
    have hcount := h.good.faithful.count (w.pool.pages f).id
    rw [pinCountOf_some hm] at hcount
    rw [hcount, Int.natCast_pos, List.countP_pos_iff] at hpos
    obtain ⟨k, hk, hid⟩ := hpos
    have hheld := h.good.faithful.held k hk
    rw [of_decide_eq_true hid] at hheld
    exact hpins k hk (hroom k hk (Option.some.inj (hheld.symm.trans hm)))

/-- Nothing pinned, nothing to report. -/
theorem owes_nothing (h : Backs filename fd m w) (hpins : Elsewhere fd w.pins) (hp : p.fd = fd)
    (c : Nat) : w.owes c p = false := by
  rw [← Bool.not_eq_true]
  intro ho
  obtain ⟨k, hk, _, rfl⟩ := h.good.faithful.owing c p ho
  exact hpins k hk hp

/-- The page store is the file. -/
theorem pages_eq (h : Backs filename fd m w) (pins : List Int) :
    (w.pool.pageStore fd pins).pages = fun no : Int =>
      if 1 ≤ no ∧ no < w.pool.diskManager.fd2pageno fd then some (m.page ⟨fd, no⟩) else none := by
  funext no
  simp only [pageStore, h.contents (p := ⟨fd, no⟩) rfl]

theorem pages_some (h : Backs filename fd m w) {pins : List Int} :
    (w.pool.pageStore fd pins).pages no = some x ↔
      (1 ≤ no ∧ no < w.pool.diskManager.fd2pageno fd) ∧ m.page ⟨fd, no⟩ = x := by
  rw [h.pages_eq]
  dsimp only
  by_cases hno : 1 ≤ no ∧ no < w.pool.diskManager.fd2pageno fd
  · rw [if_pos hno, Option.some.injEq]
    exact (and_iff_right hno).symm
  · rw [if_neg hno]
    exact iff_of_false (by simp) (fun hc => hno hc.1)

/-- The same file behind the same counter is the same page store. -/
theorem pageStore_congr {w' : World} (h : Backs filename fd m w) (h' : Backs filename fd m w')
    (hcounter : w'.pool.diskManager.fd2pageno = w.pool.diskManager.fd2pageno) (pins : List Int) :
    w'.pool.pageStore fd pins = w.pool.pageStore fd pins := by
  have hpages := h'.pages_eq pins
  rw [hcounter, ← h.pages_eq pins] at hpages
  exact pageStore_eq hpages rfl (congrFun hcounter fd) rfl

/-- `FetchPage` of a page the file has. -/
theorem fetch (h : Backs filename fd m w) (hpins : Elsewhere fd w.pins) {pins : List Int}
    (hp : (w.pool.pageStore fd pins).pages no = some x) :
    ∃ f s, (fetchPage ⟨fd, no⟩).run w.pool = .ok (some f) s
      ∧ Backs filename fd m ⟨s, ⟨0, ⟨fd, no⟩, f⟩ :: w.pins, w.owes⟩
      ∧ ∀ pins', s.pageStore fd pins' = w.pool.pageStore fd pins' := by
  obtain ⟨hno, rfl⟩ := h.pages_some.mp hp
  have hc : Uses w.pool fd (.fetchPage ⟨fd, no⟩) := ⟨rfl, hno⟩
  obtain ⟨ret, s, hs⟩ := h.returns hc
  have hrun := (step_iff.mp hs).2
  obtain ⟨r, hfetch, rfl⟩ := bind_pure_eq_ok.mp hrun
  -- the pool refuses only when every frame is pinned
  obtain ⟨f, rfl⟩ : ∃ f, r = some f := by
    refine Option.ne_none_iff_exists'.mp fun hnone => h.not_allPinned hpins ?_
    exact (((h.good.faithful.inv.refuses h.inUse.idle).fetchPage _ _ _ hfetch).mp hnone).2
  have hback : Backs filename fd m ⟨s, ⟨0, ⟨fd, no⟩, f⟩ :: w.pins, w.owes⟩ := h.call hc trivial hs
  refine ⟨f, s, hfetch, hback, h.pageStore_congr hback ?_⟩
  rcases hs.effect.counter with hsame | ⟨_, hnew, _⟩
  · exact hsame
  · exact absurd hnew (by simp)

/-- `NewPage` on the file. -/
theorem create (h : Backs filename fd m w) (hpins : Elsewhere fd w.pins) :
    ∃ f s m', (newPage fd).run w.pool = .ok (some (f, ⟨fd, w.pool.diskManager.fd2pageno fd⟩)) s
      ∧ Backs filename fd m'
        ⟨s, ⟨0, ⟨fd, w.pool.diskManager.fd2pageno fd⟩, f⟩ :: w.pins,
          w.owe 0 ⟨fd, w.pool.diskManager.fd2pageno fd⟩ true⟩
      ∧ ∀ pins, (s.pageStore fd pins) = { w.pool.pageStore fd pins with
          pages := Function.update (w.pool.pageStore fd pins).pages
            (w.pool.diskManager.fd2pageno fd) (some zeroPage)
          nextPageNo := w.pool.diskManager.fd2pageno fd + 1 } := by
  have hc : Uses w.pool fd (.newPage fd) := rfl
  obtain ⟨ret, s, hs⟩ := h.returns hc
  have hrun := (step_iff.mp hs).2
  obtain ⟨r, hnew, rfl⟩ := bind_pure_eq_ok.mp hrun
  rcases newPage_ok hnew with ⟨_, hfree, hrep, _⟩ | ⟨f, u, d, rfl, _, hw, hu⟩
  · exact absurd ((h.good.faithful.inv.lists_empty_iff h.inUse.idle).mp ⟨hfree, hrep⟩)
      (h.not_allPinned hpins)
  · have hback : Backs filename fd (m.setPage ⟨fd, w.pool.diskManager.fd2pageno fd⟩ zeroPage)
        ⟨s, ⟨0, ⟨fd, w.pool.diskManager.fd2pageno fd⟩, f⟩ :: w.pins,
          w.owe 0 ⟨fd, w.pool.diskManager.fd2pageno fd⟩ true⟩ := h.call hc trivial hs
    have hpage := h.good.page_setPage (h.live (p := ⟨fd, w.pool.diskManager.fd2pageno fd⟩) rfl)
      zeroPage
    refine ⟨f, s, _, hnew, hback, fun pins => ?_⟩
    -- the counter is one further, and the new page is the last
    have hcounter : s.diskManager.fd2pageno fd = w.pool.diskManager.fd2pageno fd + 1 := by
      rw [hu]
      show d.fd2pageno fd = _
      rw [hw.frame.2]
      exact Function.update_self ..
    have hpos : 1 ≤ w.pool.diskManager.fd2pageno fd := h.good.started fd (by rw [h.opened]; rfl)
    refine pageStore_eq ?_ rfl hcounter rfl
    rw [hback.pages_eq, h.pages_eq, hpage]
    funext no
    dsimp only
    rw [hcounter]
    by_cases hno : no = w.pool.diskManager.fd2pageno fd
    · rw [hno, Function.update_self, Function.update_self, if_pos (by omega)]
    · have hne : (⟨fd, no⟩ : PageId) ≠ ⟨fd, w.pool.diskManager.fd2pageno fd⟩ :=
        fun he => hno (congrArg PageId.pageNo he)
      rw [Function.update_of_ne hno, Function.update_of_ne hne]
      exact if_congr (by omega) rfl rfl

/-- `UnpinPage`, with the report that is due. -/
theorem unpin {pins : List Pin} (h : Backs filename fd m w) (hpins : w.pins = ⟨0, p, f⟩ :: pins)
    (hp : p.fd = fd) {b : Bool} (hb : w.owes 0 p = true → b = true) :
    ∃ s, (unpinPage p b).run w.pool = .ok true s
      ∧ Backs filename fd m ⟨s, pins, w.owe 0 p false⟩
      ∧ ∀ pins, s.pageStore fd pins = w.pool.pageStore fd pins := by
  have hmem : (⟨0, p, f⟩ : Pin) ∈ w.pins := by
    rw [hpins]
    exact List.mem_cons_self
  have hk : w.Allowed 0 (.unpinPage p b) := ⟨List.any_eq_true.mpr ⟨_, hmem, by simp [World.holds]⟩, hb⟩
  rcases unpinPage_run w.pool p b with ⟨g, _, _, hrun⟩ | ⟨hno, _⟩
  · have hs : Step w.pool (.unpinPage p b, .bool true) (w.pool.unpinHit g b) :=
      step_iff.mpr ⟨trivial, bind_ok hrun⟩
    have hback : Backs filename fd m
        ⟨w.pool.unpinHit g b, w.pins.eraseP (World.holds 0 p), w.owe 0 p false⟩ :=
      h.call (c := .unpinPage p b) hp hk hs
    have herase : w.pins.eraseP (World.holds 0 p) = pins := by
      rw [hpins]
      exact List.eraseP_cons_of_pos (by simp [World.holds])
    rw [herase] at hback
    exact ⟨_, hrun, hback, h.pageStore_congr hback rfl⟩
  · -- the pin is the client's own
    have hpos := h.good.faithful.pinned hmem
    have := hno f (h.good.faithful.held _ hmem)
    dsimp only at hpos
    omega

/-- A page that is pinned is a page of the file. -/
theorem pinned_page (h : Backs filename fd m w) (hp : p.fd = fd)
    (hpin : (⟨0, p, f⟩ : Pin) ∈ w.pins) :
    p.fd = fd ∧ 1 ≤ p.pageNo ∧ p.pageNo < w.pool.diskManager.fd2pageno fd := by
  have hheld := h.good.faithful.held _ hpin
  have hlt := (h.alloc.cached p f hheld (h.live hp)).2
  exact ⟨hp, h.data p f hheld hp, hp ▸ hlt⟩

/-- A write through a pointer, in the page store. -/
theorem write_pageStore (h : Backs filename fd m w) (hp : p.fd = fd)
    (hpin : (⟨0, p, f⟩ : Pin) ∈ w.pins) (x : PageData) (pins : List Int) :
    (w.pool.overwrite f x).pageStore fd pins = (w.pool.pageStore fd pins).setPage p.pageNo x := by
  obtain ⟨_, h1, h2⟩ := h.pinned_page hp hpin
  refine pageStore_eq ?_ rfl rfl rfl
  rw [(h.write hp hpin x).pages_eq, h.good.page_setPage (h.live hp)]
  show _ = Function.update (w.pool.pageStore fd pins).pages p.pageNo (some x)
  rw [h.pages_eq]
  funext no
  dsimp only
  by_cases hno : no = p.pageNo
  · rw [hno, Function.update_self, if_pos ⟨h1, h2⟩, ← hp, Function.update_self]
  · have hne : (⟨fd, no⟩ : PageId) ≠ p := fun he => hno (congrArg PageId.pageNo he)
    rw [Function.update_of_ne hno, Function.update_of_ne hne]
    rfl

/-- The pointer shows what the page store has. -/
theorem pointer (h : Backs filename fd m w) (hp : p.fd = fd) (hpin : (⟨0, p, f⟩ : Pin) ∈ w.pins)
    (pins : List Int) :
    (w.pool.pages f).id = p
      ∧ (w.pool.pageStore fd pins).pages p.pageNo = some (w.pool.pages f).data := by
  have hheld := h.good.faithful.held _ hpin
  obtain ⟨_, hno⟩ := h.pinned_page hp hpin
  refine ⟨(h.good.faithful.inv.of_mapped hheld).2.2, h.pages_some.mpr ⟨hno, ?_⟩⟩
  rw [← hp]
  exact (h.good.faithful.shows hpin (h.live hp)).symm

end Backs

end Rucbase
