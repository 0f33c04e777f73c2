import Rucbase.Storage.PoolClients

/-!
# Flushing a file

`FlushAllPages` walks over all frames and writes out those of one file, dirty or not. The pages
of the file that are not in a frame were written when they lost it, so that afterwards the whole
file on disk is what its clients wrote. A page that is clean stays clean until an `UnpinPage`
reports it dirty, and a clean page costs no write when it loses its frame.
-/

namespace Rucbase.BufferPoolManager

open Lib

variable {s s' t : BufferPoolManager} {p q : PageId} {f g : Nat} {c : Call} {r : Ret} {fd : Int}

/-- The page is clean wherever it is cached. -/
def CleanPage (s : BufferPoolManager) (p : PageId) : Prop :=
  ∀ f, s.pageTable p = some f → (s.pages f).isDirty = false

/-! ## What stays clean -/

/-- Changing one frame, but not making it dirty. -/
theorem CleanPage.update (h : s.CleanPage p) (htab : t.pageTable = s.pageTable) {pg : Page}
    (hpages : t.pages = Function.update s.pages f pg)
    (hpg : s.pageTable p = some f → (s.pages f).isDirty = false → pg.isDirty = false) :
    t.CleanPage p := by
  intro g hg
  rw [htab] at hg
  rw [hpages]
  by_cases hgf : g = f
  · subst hgf
    rw [Function.update_self]
    exact hpg hg (h g hg)
  · rw [Function.update_of_ne hgf]
    exact h g hg

theorem CleanPage.install {d : DiskManager} {x : PageData} (hinv : PoolInv s) (h : s.CleanPage p)
    (ht : PoolInv.Taken s f t) (hq : s.pageTable q = none) : (t.install f q d x).CleanPage p := by
  intro g hg
  rcases (hinv.install_table ht hq).mp hg with ⟨_, rfl⟩ | ⟨hne, hp⟩
  · have hself : (t.install g q d x).pages g = ⟨q, x, false, 1⟩ := Function.update_self ..
    rw [hself]
  · rw [PoolInv.install_pages ht hne]
    exact h g hp

/-- **A clean page stays clean** until `UnpinPage` reports it dirty. -/
theorem CleanPage.step (hinv : PoolInv s) (h : s.CleanPage p) (hs : Step s (c, r) s')
    (hc : c ≠ .unpinPage p true) : s'.CleanPage p := by
  have hfresh := (step_iff.mp hs).1
  cases hs.effect with
  | fetchHit hq => exact h.update rfl rfl fun _ hclean => hclean
  | fetchMiss hq ht _ _ => exact h.install hinv (hinv.taken ht) hq
  | newPage ht _ => exact h.install hinv (hinv.taken ht) hfresh
  | @unpin q f b hq _ =>
      refine h.update rfl rfl fun hp hclean => ?_
      -- the frame is the page's own, so the report is not dirty
      have hqp : q = p := (hinv.of_mapped hq).2.2.symm.trans (hinv.of_mapped hp).2.2
      have hb : b = false := by
        rw [← Bool.not_eq_true]
        rintro rfl
        exact hc (by rw [hqp])
      rw [hclean, hb]
      rfl
  | flush _ _ => exact h.update rfl rfl fun _ _ => rfl
  | delete hq _ _ =>
      intro g hg
      obtain ⟨hne, hp⟩ := (hinv.freed_table hq).mp hg
      show (Function.update s.pages _ _ g).isDirty = false
      rw [Function.update_of_ne hne]
      exact h g hp
  | flushAll hrun =>
      exact flushAllPages_invariant (I := fun t => t.CleanPage p)
        (fun t g d ht _ _ _ _ => ht.update rfl rfl fun _ _ => rfl) h hrun
  | fetchNull | newNull | unpinRefused | flushMiss | deleteMiss | deletePinned => exact h

/-! ## What losing a frame costs -/

/-- A page that loses its frame to another one lost the frame that was taken. -/
theorem PoolInv.taken_of_dropped {d : DiskManager} {x : PageData} (hinv : PoolInv s)
    (ht : Taken s g t) (hq : s.pageTable q = none) (hp : s.pageTable p = some f)
    (hgone : (t.install g q d x).pageTable p ≠ some f) : f = g := by
  by_contra hne
  exact hgone ((hinv.install_table ht hq).mpr (.inr ⟨hne, hp⟩))

/-- **A clean page is dropped without a write.** -/
theorem PoolInv.drop_clean (hinv : PoolInv s) (hs : Step s (c, r) s') (hp : s.pageTable p = some f)
    (hclean : (s.pages f).isDirty = false) (hgone : s'.pageTable p ≠ some f) :
    s'.diskManager.files = s.diskManager.files := by
  have hfresh := (step_iff.mp hs).1
  cases hs.effect with
  | fetchMiss hq ht hw _ =>
      have htk := hinv.taken ht
      obtain rfl := hinv.taken_of_dropped htk hq hp hgone
      rcases hw.cases with ⟨rfl, _⟩ | ⟨hdirty, _⟩
      · show _ = s.diskManager.files
        rw [← htk.disk]
        rfl
      · rw [htk.pages, hclean] at hdirty
        exact absurd hdirty (by simp)
  | newPage ht hw =>
      have htk := hinv.taken ht
      obtain rfl := hinv.taken_of_dropped htk hfresh hp hgone
      rcases hw.cases with ⟨rfl, _⟩ | ⟨hdirty, _⟩
      · rfl
      · change (_ : Page).isDirty = true at hdirty
        rw [show _ = s.pages from htk.pages, hclean] at hdirty
        exact absurd hdirty (by simp)
  | @delete q g d hq _ hw =>
      obtain rfl : f = g := by
        by_contra hne
        exact hgone ((hinv.freed_table hq).mpr ⟨hne, hp⟩)
      rw [hclean] at hw
      exact congrArg DiskManager.files hw
  | flushAll hrun =>
      rw [(flushAllPages_sameCache hrun).pageTable] at hgone
      exact absurd hp hgone
  | fetchHit | fetchNull | newNull | unpin | unpinRefused | flush | flushMiss | deleteMiss
    | deletePinned => exact absurd hp hgone

/-! ## What a flush leaves alone -/

/-- `FlushAllPages` writes to one file and cleans its frames. -/
theorem flushAll_others (hinj : s.diskManager.FdsInjective)
    (hrun : (flushAllPages fd).run s = .ok ⟨⟩ s') :
    (∀ f, (s.pages f).id.fd ≠ fd → s'.pages f = s.pages f)
      ∧ ∀ fd', fd' ≠ fd → s'.diskManager.fileOf fd' = s.diskManager.fileOf fd' := by
  have hall : s'.diskManager.FdsInjective ∧ SameCache s s'
      ∧ (∀ f, (s.pages f).id.fd ≠ fd → s'.pages f = s.pages f)
      ∧ ∀ fd', fd' ≠ fd → s'.diskManager.fileOf fd' = s.diskManager.fileOf fd' := by
    refine flushAllPages_invariant (I := fun t => t.diskManager.FdsInjective ∧ SameCache s t
      ∧ (∀ f, (s.pages f).id.fd ≠ fd → t.pages f = s.pages f)
      ∧ ∀ fd', fd' ≠ fd → t.diskManager.fileOf fd' = s.diskManager.fileOf fd') ?_
      ⟨hinj, .refl s, fun _ _ => rfl, fun _ _ => rfl⟩ hrun
    intro t g d ⟨h1, h2, h3, h4⟩ _ hfd _ hw
    refine ⟨hw.injective h1, h2.cleaned g, ?_, ?_⟩
    · intro f hf
      have hne : f ≠ g := by
        rintro rfl
        exact hf (h2.id f ▸ hfd)
      exact (Function.update_of_ne hne ..).trans (h3 f hf)
    · intro fd' hne
      exact ((DiskManager.writePage_fileOf h1 hw).2.2 fd' (hfd ▸ hne)).trans (h4 fd' hne)
  exact hall.2.2

end Rucbase.BufferPoolManager

namespace Rucbase

open Lib BufferPoolManager

variable {w w' : World} {a : Nat × Op} {r : Ret} {fd : Int} {p : PageId} {f : Nat}
  {val : PageId → PageData} {live : PageId → Prop}

/-- What a flush of `fd` has to achieve when clients have written `val`. -/
structure World.Flushed (w : World) (val : PageId → PageData) (fd : Int) (w' : World) : Prop where
  /-- Cached, evicted or deleted: the file has what was written. -/
  onDisk : ∀ no, w'.pool.diskManager.pageBytes ⟨fd, no⟩ = val ⟨fd, no⟩
  cached : ∀ no f, w'.pool.pageTable ⟨fd, no⟩ = some f → (w'.pool.pages f).data = val ⟨fd, no⟩
  clean : ∀ no, w'.pool.CleanPage ⟨fd, no⟩
  frames : ∀ f, (w.pool.pages f).id.fd ≠ fd → w'.pool.pages f = w.pool.pages f
  files : ∀ fd', fd' ≠ fd → w'.pool.diskManager.fileOf fd' = w.pool.diskManager.fileOf fd'
  /-- Pin counts, mappings, free list, replacer and bytes. -/
  cache : SameCache w.pool w'.pool
  clients : w'.pins = w.pins ∧ w'.owes = w.owes

/-- **A flush achieves it.** -/
theorem Faithful.flushed {c : Nat} (h : Faithful (fun _ => True) w val)
    (hs : w.step (c, .call (.flushAllPages fd)) = some (r, w')) : w.Flushed val fd w' := by
  have h' := h.step (fun k hk => by cases hk; exact fun _ => trivial) hs
  rcases World.of_step hs with ⟨k, s, hk, _, hstep, rfl⟩ | ⟨p, f, x, hk, _⟩
  · cases hk
    cases hstep.effect with
    | flushAll hrun =>
        have hsame := flushAllPages_sameCache hrun
        obtain ⟨hframes, hfiles⟩ := flushAll_others h.inj hrun
        refine ⟨fun no => ?_, fun no f hp => h'.coherent.cached _ f trivial hp, fun no f hp => ?_,
          hframes, hfiles, hsame, rfl, rfl⟩
        · change s.diskManager.pageBytes ⟨fd, no⟩ = val ⟨fd, no⟩
          cases hp : s.pageTable ⟨fd, no⟩ with
          | none => exact h'.coherent.absent _ trivial hp
          | some f =>
              rw [(h.inv.flushAll_clean h.inj hrun hp rfl).2]
              exact h'.coherent.cached _ f trivial hp
        · exact (h.inv.flushAll_clean h.inj hrun hp rfl).1
  · exact absurd hk (by simp)

/-- A step does not make a clean page dirty, unless it reports the page dirty. -/
theorem Faithful.clean_step (h : Faithful live w val) (hclean : w.pool.CleanPage p)
    (hs : w.step a = some (r, w')) (ha : a.2 ≠ .call (.unpinPage p true)) :
    w'.pool.CleanPage p := by
  obtain ⟨c, op⟩ := a
  rcases World.of_step hs with ⟨k, s, rfl, _, hstep, rfl⟩ | ⟨q, f, x, rfl, _, _, rfl⟩
  · have hs' : s.CleanPage p := hclean.step h.inv hstep fun hk => ha (by rw [hk])
    rwa [World.after_pool]
  · exact hclean.update (t := w.pool.overwrite f x) rfl rfl fun _ hc => hc

/-- **The run lemma.** -/
theorem Faithful.clean_run {h : List ((Nat × Op) × Ret)} (hw : Faithful (fun _ => True) w val)
    (hclean : w.pool.CleanPage p) (hrun : Run (Run.Asks World.step) w h w')
    (hno : ∀ l ∈ h, l.1.2 ≠ .call (.unpinPage p true)) :
    (∃ val', Faithful (fun _ => True) w' val') ∧ w'.pool.CleanPage p := by
  have hkept := hrun.invariant_history
    (I := fun v h => (∃ val', Faithful (fun _ => True) v val')
      ∧ ((∀ l ∈ h, l.1.2 ≠ .call (.unpinPage p true)) → v.pool.CleanPage p))
    ⟨⟨val, hw⟩, fun _ => hclean⟩ ?_
  · exact ⟨hkept.1, hkept.2 hno⟩
  · intro v h l v' hv hstep
    obtain ⟨⟨val', hv⟩, hcl⟩ := hv
    refine ⟨⟨_, hv.step (fun k _ => by cases k <;> simp [Faithful.LiveCall]) hstep⟩, ?_⟩
    intro hall
    exact hv.clean_step (hcl fun l hl => hall l (List.mem_cons_of_mem _ hl)) hstep
      (hall l List.mem_cons_self)

/-- A step that takes the frame of a clean page writes nothing. -/
theorem Faithful.drop_step (h : Faithful live w val) (hclean : w.pool.CleanPage p)
    (hs : w.step a = some (r, w')) (hp : w.pool.pageTable p = some f)
    (hgone : w'.pool.pageTable p ≠ some f) :
    w'.pool.diskManager.files = w.pool.diskManager.files := by
  obtain ⟨c, op⟩ := a
  rcases World.of_step hs with ⟨k, s, rfl, _, hstep, rfl⟩ | ⟨q, f', x, rfl, _, _, rfl⟩
  · rw [World.after_pool] at hgone ⊢
    exact h.inv.drop_clean hstep hp (hclean f hp) hgone
  · exact absurd hp hgone

/-- **A flush makes the file on disk what its clients wrote, and touches nothing else.** In every
run after it a page of the file stays clean until an `UnpinPage` reports it dirty, and until then
it loses its frame without a write. -/
theorem flush_agrees {poolSize : Nat} {disk : DiskManager} {fd₀ : Int} (hinj : disk.FdsInjective)
    {h : List ((Nat × Op) × Ret)} {w w' : World} {c : Nat} {r : Ret} {fd : Int}
    (hrun : Run (Run.Asks World.step) (.new (.new poolSize disk fd₀)) h w)
    (hs : w.step (c, .call (.flushAllPages fd)) = some (r, w')) :
    w.Flushed (lastWritten disk h) fd w'
      ∧ ∀ h' w'' no, Run (Run.Asks World.step) w' h' w'' →
        (∀ l ∈ h', l.1.2 ≠ .call (.unpinPage ⟨fd, no⟩ true)) →
        w''.pool.CleanPage ⟨fd, no⟩
          ∧ ∀ a r v f, w''.step a = some (r, v) → w''.pool.pageTable ⟨fd, no⟩ = some f →
            v.pool.pageTable ⟨fd, no⟩ ≠ some f →
            v.pool.diskManager.files = w''.pool.diskManager.files := by
  have hw := faithful_of_run hinj hrun
  have hflushed := hw.flushed hs
  refine ⟨hflushed, ?_⟩
  intro h' w'' no hrun' hno
  have hw' : Faithful (fun _ => True) w' (lastWritten disk ((_, r) :: h)) :=
    faithful_of_run hinj (.step hrun hs)
  obtain ⟨⟨val, hw''⟩, hclean⟩ := hw'.clean_run (hflushed.clean no) hrun' hno
  exact ⟨hclean, fun a r v f ha hp hgone => hw''.drop_step hclean ha hp hgone⟩

/-- One frame: page 0 is created, written and released, the file is flushed, and page 1 takes the
frame. -/
theorem flush_agrees_one_frame : ∃ h w w' v r, Run (Run.Asks World.step) (.new (.new 1 openOn3 0)) h w
    ∧ w.step (0, .call (.flushAllPages 3)) = some (.unit, w')
    ∧ w'.pool.diskManager.pageBytes ⟨3, 0⟩ = lastWritten openOn3 h ⟨3, 0⟩
    ∧ w'.step (0, .call (.newPage 3)) = some (r, v) ∧ v.pool.pageTable ⟨3, 0⟩ = none
    ∧ v.pool.diskManager.files = w'.pool.diskManager.files := by
  have hrun := Run.of_replay World.step (s := .new (.new 1 openOn3 0))
    [(0, .call (.newPage 3)), (0, .write ⟨3, 0⟩ 0 (fun _ => 7)), (0, .call (.unpinPage ⟨3, 0⟩ true))]
    .nil rfl
  obtain ⟨hflushed, hlater⟩ := flush_agrees openOn3_injective hrun
    (show World.step _ (0, .call (.flushAllPages 3)) = _ from rfl)
  refine ⟨_, _, _, _, _, hrun, rfl, hflushed.onDisk 0, rfl, rfl, ?_⟩
  exact (hlater [] _ 0 .nil (by simp)).2 (0, .call (.newPage 3)) _ _ 0 rfl rfl
    (show (none : Option Nat) ≠ some 0 by decide)

end Rucbase
