import Rucbase.Storage.PoolContents

/-!
# Clients of the pool

A `World` is the pool together with what its clients know: the pins they hold, each with
the pointer it gave them, and which pages they still have to report as dirty. A client may
write through a pointer it holds, may unpin only what it has pinned, and must pass
`is_dirty = true` in the first `UnpinPage` after it created or wrote a page.

`Faithful` is the refinement: seen by such clients, the pool with its disk is a map from
page ids to bytes. It is kept by every operation on a page of a `live` file, whatever that
operation evicts, writes back or reads again.
-/

namespace Rucbase.BufferPoolManager

open Lib

/-! ## The pin count of every page, call by call -/

/-- How a call that returned `r` changes the pin count of `p`. -/
def pinDelta : Call → Ret → PageId → Int
  | .fetchPage q, .page (some _), p => if q = p then 1 else 0
  | .newPage _, .created (some (_, q)), p => if q = p then 1 else 0
  | .unpinPage q _, .bool true, p => if q = p then -1 else 0
  | _, _, _ => 0

variable {s s' t : BufferPoolManager} {p q : PageId} {f g : Nat} {d : DiskManager} {x : PageData}

theorem pinCountOf_some (hp : s.pageTable p = some f) : s.pinCountOf p = (s.pages f).pinCount := by
  rw [pinCountOf, hp]

theorem pinCountOf_none (hp : s.pageTable p = none) : s.pinCountOf p = 0 := by
  rw [pinCountOf, hp]

/-- The page that gives up its frame was not pinned, and the new one is pinned once. -/
theorem PoolInv.pinCountOf_install (h : PoolInv s) (ht : Taken s f t) (hp : s.pageTable p = none) :
    (t.install f p d x).pinCountOf q = s.pinCountOf q + if p = q then 1 else 0 := by
  have htab := fun q g => h.install_table (q := q) (g := g) (d := d) (x := x) ht hp
  by_cases hq : p = q
  · subst hq
    rw [pinCountOf_some ((htab p f).mpr (.inl ⟨rfl, rfl⟩)), pinCountOf_none hp, if_pos rfl]
    show (Function.update t.pages f ⟨p, x, false, 1⟩ f).pinCount = 0 + 1
    rw [Function.update_self]
    rfl
  · rw [if_neg hq, Int.add_zero]
    cases hs : s.pageTable q with
    | none =>
        have hn : (t.install f p d x).pageTable q = none := by
          cases hi : (t.install f p d x).pageTable q with
          | none => rfl
          | some g =>
              rcases (htab q g).mp hi with ⟨he, _⟩ | ⟨_, hg⟩
              · exact absurd he.symm hq
              · exact absurd (hs.symm.trans hg) (by simp)
        rw [pinCountOf_none hs, pinCountOf_none hn]
    | some g =>
        by_cases hg : g = f
        · -- `q` was evicted
          subst hg
          have hn : (t.install g p d x).pageTable q = none := by
            cases hi : (t.install g p d x).pageTable q with
            | none => rfl
            | some g' =>
                rcases (htab q g').mp hi with ⟨he, _⟩ | ⟨hne, hg'⟩
                · exact absurd he.symm hq
                · exact absurd (Option.some.inj (hs.symm.trans hg')).symm hne
          rw [pinCountOf_none hn, pinCountOf_some hs]
          by_cases hpos : 0 < (s.pages g).pinCount
          · exact absurd rfl (ht.ne_pinned h hs hpos)
          · have := h.pins g (h.of_mapped hs).1 (h.of_mapped hs).2.1
            omega
        · rw [pinCountOf_some ((htab q g).mpr (.inr ⟨hg, hs⟩)), pinCountOf_some hs,
            install_pages ht hg]

/-- Changing the pins of one mapped frame. -/
theorem PoolInv.pinCountOf_update (h : PoolInv s) (hp : s.pageTable p = some f) {pg : Page}
    (htab : t.pageTable = s.pageTable) (hpages : t.pages = Function.update s.pages f pg) :
    t.pinCountOf q = if p = q then pg.pinCount else s.pinCountOf q := by
  by_cases hq : p = q
  · subst hq
    rw [if_pos rfl, pinCountOf_some (htab ▸ hp), hpages, Function.update_self]
  · rw [if_neg hq]
    cases hs : s.pageTable q with
    | none => rw [pinCountOf_none hs, pinCountOf_none (htab ▸ hs)]
    | some g =>
        have hg : g ≠ f := h.frame_ne hs hp (Ne.symm hq)
        rw [pinCountOf_some hs, pinCountOf_some (htab ▸ hs), hpages, Function.update_of_ne hg]

theorem SameCache.pinCountOf (h : SameCache s s') : s'.pinCountOf p = s.pinCountOf p := by
  unfold BufferPoolManager.pinCountOf
  rw [h.pageTable]
  cases s.pageTable p with
  | none => rfl
  | some f => exact h.pinCount f

/-- **Every call moves every pin count by its delta.** -/
theorem PoolInv.pinCountOf_step {c : Call} {r : Ret} (h : PoolInv s) (hs : Step s (c, r) s')
    (p : PageId) : s'.pinCountOf p = s.pinCountOf p + pinDelta c r p := by
  have hfresh := (step_iff.mp hs).1
  cases hs.effect with
  | @fetchHit q f hq =>
      rw [h.pinCountOf_update (t := s.pinHit f) hq rfl rfl]
      show _ = _ + if q = p then 1 else 0
      split
      · rename_i he
        rw [← he, pinCountOf_some hq]
      · omega
  | fetchNull _ _ _ => exact (Int.add_zero _).symm
  | fetchMiss hq ht _ _ => exact h.pinCountOf_install (h.taken ht) hq
  | newNull _ _ => exact (Int.add_zero _).symm
  | newPage ht _ => exact h.pinCountOf_install (h.taken ht) hfresh
  | @unpin q f b hq _ =>
      rw [h.pinCountOf_update (t := s.unpinHit f b) hq rfl rfl]
      show _ = _ + if q = p then -1 else 0
      split
      · rename_i he
        rw [← he, pinCountOf_some hq]
        rfl
      · omega
  | unpinRefused _ => exact (Int.add_zero _).symm
  | @flush q f d _ _ =>
      rw [((SameCache.refl s).cleaned (d := d) f).pinCountOf]
      exact (Int.add_zero _).symm
  | flushMiss _ => exact (Int.add_zero _).symm
  | deleteMiss _ => exact (Int.add_zero _).symm
  | deletePinned _ _ => exact (Int.add_zero _).symm
  | @delete q f d hq hz _ =>
      refine Eq.trans ?_ (Int.add_zero _).symm
      have htab := fun q' g => h.freed_table (q := q') (g := g) (d := d) hq
      cases hp : (s.freed f q d).pageTable p with
      | some g =>
          obtain ⟨hg, hpg⟩ := (htab p g).mp hp
          rw [pinCountOf_some hp, pinCountOf_some hpg]
          show (Function.update s.pages f _ g).pinCount = _
          rw [Function.update_of_ne hg]
      | none =>
          rw [pinCountOf_none hp]
          cases hp' : s.pageTable p with
          | none => rw [pinCountOf_none hp']
          | some g =>
              by_cases hg : g = f
              · subst hg
                have := h.pins g (h.of_mapped hq).1 (h.of_mapped hq).2.1
                rw [pinCountOf_some hp']
                omega
              · have := (htab p g).mpr ⟨hg, hp'⟩
                exact absurd (hp.symm.trans this) (by simp)
  | flushAll hrun =>
      rw [(flushAllPages_sameCache hrun).pinCountOf]
      exact (Int.add_zero _).symm

/-! ## What clients do to the contents -/

variable {live owed owed' : PageId → Prop} {val val' : PageId → PageData}

/-- A write through a pointer, which leaves a report outstanding. -/
theorem Coherent.overwrite (hinv : PoolInv s) (h : s.Coherent live owed val)
    (hp : s.pageTable p = some f) (hpos : 0 < (s.pages f).pinCount) (howe : owed' p)
    (howed : ∀ q, q ≠ p → (owed' q ↔ owed q)) :
    (s.overwrite f x).Coherent live owed' (Function.update val p x) := by
  refine h.setPage hinv hp (r := s.replacer) (fun q hq => Function.update_of_ne hq ..) howed ?_
    (fun _ _ hno => absurd howe hno) (fun hl => h.orphan p f hl hp) (fun _ _ => hpos)
  intro _
  rw [Function.update_self]

/-- A page created with `NewPage`: brought in, and zeroed without a report. -/
theorem Coherent.create (hinv : PoolInv s) (h : s.Coherent live owed val)
    (ht : PoolInv.Taken s f t) (hp : s.pageTable p = none) (hv : p.pageNo ≠ invalidPageId)
    {u : BufferPoolManager} (hu : u.pages = s.pages)
    (hbytes : ∀ q, u.diskManager.pageBytes q = s.diskManager.pageBytes q)
    (huinj : u.diskManager.FdsInjective) (hw : u.WritesOld f d) (howe : owed' p)
    (howed : ∀ q, q ≠ p → (owed' q ↔ owed q)) :
    (t.install f p d zeroPage).Coherent live owed' (Function.update val p zeroPage) := by
  have hin := h.install hinv ht hp hu hbytes huinj hw rfl
  have hself : (t.install f p d (d.pageBytes p)).pages f = ⟨p, d.pageBytes p, false, 1⟩ :=
    Function.update_self ..
  have hzero : (t.install f p d (d.pageBytes p)).overwrite f zeroPage = t.install f p d zeroPage := by
    simp only [BufferPoolManager.install, relabel, BufferPoolManager.overwrite,
      BufferPoolManager.setPage, Function.update_self, Function.update_idem]
  rw [← hzero]
  refine hin.overwrite (hinv.install ht hp hv) ?_ ?_ howe howed
  · exact (hinv.install_table ht hp).mpr (.inl ⟨rfl, rfl⟩)
  · rw [hself]
    exact Int.one_pos

/-- Flushing a whole file changes no logical contents. -/
theorem Coherent.flushAll {fd : Int} (hinv : PoolInv s) (hinj : s.diskManager.FdsInjective)
    (h : s.Coherent live owed val) (hlive : ∀ n, live ⟨fd, n⟩)
    (hrun : (flushAllPages fd).run s = .ok ⟨⟩ s') : s'.Coherent live owed val := by
  have key : PoolInv s' ∧ s'.diskManager.FdsInjective ∧ s'.Coherent live owed val := by
    refine flushAllPages_invariant (I := fun t => PoolInv t ∧ t.diskManager.FdsInjective
      ∧ t.Coherent live owed val) ?_ ⟨hinv, hinj, h⟩ hrun
    rintro t g d ⟨h1, h2, h3⟩ hg hfd hv hw
    have hm := h1.mapped_of_valid hg hv
    have hl : live ⟨(t.pages g).id.fd, (t.pages g).id.pageNo⟩ := hfd.symm ▸ hlive _
    exact ⟨h1.cleaned hm, hw.injective h2, h3.cleaned h1 h2 hm hl hw⟩
  exact key.2.2

/-- **What page writes and allocation keep on disk, every call keeps.** -/
theorem Effect.disk_invariant {I : DiskManager → Prop} {c : Call} {r : Ret}
    (hw : ∀ d d' fd no (x : PageData), I d → d.writePage fd no x.toBuf pageSize = some d' → I d')
    (ha : ∀ d fd, I d → I (d.allocatePage fd).2) (he : Effect s c r s') (h : I s.diskManager) :
    I s'.diskManager := by
  cases he with
  | fetchMiss _ ht hold _ =>
      rw [ht.frame] at hold
      rcases hold.cases with ⟨rfl, _⟩ | ⟨_, hwrote⟩
      · exact h
      · exact hw _ _ _ _ _ h hwrote
  | newPage ht hold =>
      rcases hold.cases with ⟨rfl, _⟩ | ⟨_, hwrote⟩
      · exact ha _ _ h
      · exact hw _ _ _ _ _ (ha _ _ h) hwrote
  | flush _ hwrote => exact hw _ _ _ _ _ h hwrote
  | @delete q f d hq _ hwrote =>
      show I d
      split at hwrote
      · exact hw _ _ _ _ _ h hwrote
      · exact hwrote ▸ h
  | flushAll hrun =>
      exact flushAllPages_invariant (I := fun t => I t.diskManager)
        (fun t g d ht _ _ _ hwrote => hw _ _ _ _ _ ht hwrote) h hrun
  | fetchHit | fetchNull | newNull | unpin | unpinRefused | flushMiss | deleteMiss | deletePinned =>
      exact h

/-- No call opens a file a second time. -/
theorem Effect.injective {c : Call} {r : Ret} (he : Effect s c r s')
    (hinj : s.diskManager.FdsInjective) : s'.diskManager.FdsInjective := by
  refine he.disk_invariant (I := DiskManager.FdsInjective) ?_ (fun d fd hd => hd) hinj
  intro d d' fd no x hd hw
  unfold DiskManager.FdsInjective
  rw [(DiskManager.writePage_frame hw).1]
  exact hd

end Rucbase.BufferPoolManager

namespace Rucbase

open Lib BufferPoolManager

/-! ## The clients -/

/-- A pin a client holds, with the pointer it was given. -/
structure Pin where
  client : Nat
  page : PageId
  frame : Nat
deriving DecidableEq, Repr

/-- What a client does: a pool call, or a write through a pointer. -/
inductive Op where
  | call (c : Call)
  | write (p : PageId) (frame : Nat) (data : PageData)

/-- The pool and its clients. -/
structure World where
  pool : BufferPoolManager
  pins : List Pin
  /-- `owes c p`: client `c` created or wrote `p` and has not reported it yet. -/
  owes : Nat → PageId → Bool

namespace World

/-- Clients that have done nothing yet. -/
def new (pool : BufferPoolManager) : World := ⟨pool, [], fun _ _ => false⟩

def Owed (w : World) (p : PageId) : Prop := ∃ c, w.owes c p = true

/-- Client `c`'s debt for page `p` set to `b`. -/
def owe (w : World) (c : Nat) (p : PageId) (b : Bool) : Nat → PageId → Bool :=
  fun c' p' => if c' = c ∧ p' = p then b else w.owes c' p'

def holds (c : Nat) (p : PageId) (k : Pin) : Bool := k.client = c ∧ k.page = p

/-- The discipline: unpin only what is pinned, and report what was written. -/
def Allowed (w : World) (c : Nat) : Call → Prop
  | .unpinPage p b => w.pins.any (holds c p) = true ∧ (w.owes c p = true → b = true)
  | _ => True

instance (w : World) (c : Nat) : (k : Call) → Decidable (w.Allowed c k)
  | .unpinPage p b =>
      inferInstanceAs (Decidable (w.pins.any (holds c p) = true ∧ (w.owes c p = true → b = true)))
  | .newPage _ => isTrue trivial
  | .fetchPage _ => isTrue trivial
  | .flushPage _ => isTrue trivial
  | .deletePage _ => isTrue trivial
  | .flushAllPages _ => isTrue trivial

/-- What client `c` knows once its call `k` has returned `r`. -/
def after (w : World) (c : Nat) (k : Call) (r : Ret) (s : BufferPoolManager) : World :=
  match k, r with
  | .fetchPage p, .page (some f) => ⟨s, ⟨c, p, f⟩ :: w.pins, w.owes⟩
  | .newPage _, .created (some (f, p)) => ⟨s, ⟨c, p, f⟩ :: w.pins, w.owe c p true⟩
  | .unpinPage p _, .bool true => ⟨s, w.pins.eraseP (holds c p), w.owe c p false⟩
  | _, _ => { w with pool := s }

theorem after_pool {w : World} {c : Nat} {k : Call} {r : Ret} {s : BufferPoolManager} :
    (w.after c k r s).pool = s := by
  unfold World.after
  split <;> rfl

/-- Client `c` performs an operation; `none` when it may not, or when the call raises. -/
def exec (w : World) (c : Nat) : Op → Option (Ret × World)
  | .call k =>
      if w.Allowed c k then
        match (BufferPoolManager.exec k).run w.pool with
        | .ok r s => some (r, w.after c k r s)
        | .error _ _ => none
      else none
  | .write p f x =>
      if ⟨c, p, f⟩ ∈ w.pins then
        some (.unit, { w with pool := w.pool.overwrite f x, owes := w.owe c p true })
      else none

/-- `NewPage` is about to hand out a number that is not cached. -/
def Fresh (w : World) : Op → Prop
  | .call k => w.pool.FreshNumber k
  | .write _ _ _ => True

instance (w : World) : (op : Op) → Decidable (w.Fresh op)
  | .call k => inferInstanceAs (Decidable (w.pool.FreshNumber k))
  | .write _ _ _ => isTrue trivial

/-- One step of an interleaving: which client, and what it does. -/
def step (w : World) (a : Nat × Op) : Option (Ret × World) :=
  if w.Fresh a.2 then w.exec a.1 a.2 else none

/-- **What a step can be**: a pool call that is allowed and returns, or a write through a pointer
the client holds. -/
theorem of_step {w w' : World} {c : Nat} {op : Op} {r : Ret} (hs : w.step (c, op) = some (r, w')) :
    (∃ k s, op = .call k ∧ w.Allowed c k ∧ Step w.pool (k, r) s ∧ w' = w.after c k r s) ∨
    (∃ p f x, op = .write p f x ∧ r = .unit ∧ ⟨c, p, f⟩ ∈ w.pins
      ∧ w' = { w with pool := w.pool.overwrite f x, owes := w.owe c p true }) := by
  unfold World.step at hs
  split at hs
  · rename_i hfresh
    cases op with
    | write p f x =>
        simp only [World.exec] at hs
        split at hs
        · rename_i hk
          rw [Option.some.injEq, Prod.mk.injEq] at hs
          exact .inr ⟨p, f, x, rfl, hs.1.symm, hk, hs.2.symm⟩
        · exact absurd hs (by simp)
    | call k =>
        simp only [World.exec] at hs
        split at hs
        · rename_i hk
          split at hs
          · rename_i r' s he
            rw [Option.some.injEq, Prod.mk.injEq] at hs
            obtain ⟨rfl, rfl⟩ := hs
            exact .inl ⟨k, s, rfl, hk, step_iff.mpr ⟨hfresh, he⟩, rfl⟩
          · exact absurd hs (by simp)
        · exact absurd hs (by simp)
  · exact absurd hs (by simp)

end World

/-! ## The map the clients see -/

/-- What an operation does to the map from page ids to bytes. -/
def written (val : PageId → PageData) : Op → Ret → PageId → PageData
  | .write p _ x, _ => Function.update val p x
  | .call (.newPage _), .created (some (_, p)) => Function.update val p zeroPage
  | _, _ => val

/-- The bytes most recently written to each page: by a client, as the zeros of a new page, or
found on disk at the start. -/
def lastWritten (disk : DiskManager) : List ((Nat × Op) × Ret) → PageId → PageData
  | [] => disk.pageBytes
  | l :: h => written (lastWritten disk h) l.1.2 l.2

/-- **The pool is a faithful page store**: it holds the bytes `val`, and its pin counts are
the pins its clients hold. -/
structure Faithful (live : PageId → Prop) (w : World) (val : PageId → PageData) : Prop where
  inv : PoolInv w.pool
  inj : w.pool.diskManager.FdsInjective
  coherent : w.pool.Coherent live w.Owed val
  held : ∀ k ∈ w.pins, w.pool.pageTable k.page = some k.frame
  count : ∀ p, w.pool.pinCountOf p = w.pins.countP (fun k => k.page = p)
  owing : ∀ c p, w.owes c p = true → ∃ k ∈ w.pins, k.client = c ∧ k.page = p

namespace Faithful

variable {live : PageId → Prop} {w w' : World} {val : PageId → PageData} {c : Nat} {p : PageId}
  {f : Nat} {x : PageData} {s : BufferPoolManager} {k : Call} {r : Ret}

theorem init (n : Nat) {disk : DiskManager} (fd : Int) (hinj : disk.FdsInjective) :
    Faithful live (.new (.new n disk fd)) disk.pageBytes where
  inv := PoolInv.init n disk fd
  inj := hinj
  coherent := by
    refine ⟨?_, ?_, fun _ _ _ => rfl, ?_, ?_⟩
    · intro p f _ hp
      exact absurd hp (by simp [World.new, BufferPoolManager.new])
    · intro p f _ hp
      exact absurd hp (by simp [World.new, BufferPoolManager.new])
    · intro p f _ hp
      exact absurd hp (by simp [World.new, BufferPoolManager.new])
    · rintro p _ ⟨c, hc⟩
      exact absurd hc (by simp [World.new])
  held := by simp [World.new]
  count := fun _ => rfl
  owing := by simp [World.new]

/-- A pin keeps its page's count positive. -/
theorem pinned (h : Faithful live w val) {j : Pin} (hj : j ∈ w.pins) :
    0 < (w.pool.pages j.frame).pinCount := by
  rw [← pinCountOf_some (h.held j hj), h.count]
  have : 0 < w.pins.countP (fun i => i.page = j.page) :=
    List.countP_pos_iff.mpr ⟨j, hj, by simp⟩
  omega

/-- Pointers stay good while their pin is held. -/
theorem stays (h : Faithful live w val) (hs : Step w.pool (k, r) s) {j : Pin} (hj : j ∈ w.pins) :
    s.pageTable j.page = some j.frame :=
  (h.inv.pinned_stays hs (h.held j hj) (h.pinned hj)).1

/-- A call that concerns no pin. -/
theorem same (h : Faithful live w val) (hs : Step w.pool (k, r) s)
    (hcoh : s.Coherent live w.Owed val) (hdelta : ∀ p, pinDelta k r p = 0) :
    Faithful live { w with pool := s } val where
  inv := h.inv.step hs
  inj := hs.effect.injective h.inj
  coherent := hcoh
  held := fun _ hj => h.stays hs hj
  count := by
    intro p
    rw [h.inv.pinCountOf_step hs, hdelta, Int.add_zero]
    exact h.count p
  owing := h.owing

/-- A call that hands out a pin. -/
theorem pin (h : Faithful live w val) (hs : Step w.pool (k, r) s) {owes : Nat → PageId → Bool}
    {val' : PageId → PageData} (hp : s.pageTable p = some f)
    (hcoh : s.Coherent live (World.Owed ⟨s, ⟨c, p, f⟩ :: w.pins, owes⟩) val')
    (hdelta : ∀ q, pinDelta k r q = if p = q then 1 else 0)
    (howes : ∀ c' q, owes c' q = true → w.owes c' q = true ∨ (c' = c ∧ q = p)) :
    Faithful live ⟨s, ⟨c, p, f⟩ :: w.pins, owes⟩ val' where
  inv := h.inv.step hs
  inj := hs.effect.injective h.inj
  coherent := hcoh
  held := by
    intro j hj
    rcases List.mem_cons.mp hj with rfl | hj
    · exact hp
    · exact h.stays hs hj
  count := by
    intro q
    rw [h.inv.pinCountOf_step hs, hdelta, h.count, List.countP_cons]
    by_cases hq : p = q
    · simp [hq]
    · simp [hq]
  owing := by
    intro c' q hc
    rcases howes c' q hc with hc | ⟨rfl, rfl⟩
    · obtain ⟨j, hj, hjc⟩ := h.owing c' q hc
      exact ⟨j, List.mem_cons_of_mem _ hj, hjc⟩
    · exact ⟨_, List.mem_cons_self, rfl, rfl⟩

theorem owed_owe {b : Bool} {q : PageId} {pins : List Pin} (hq : q ≠ p) :
    World.Owed ⟨s, pins, w.owe c p b⟩ q ↔ w.Owed q := by
  unfold World.Owed World.owe
  simp [hq]

/-- `UnpinPage` by a client that holds the pin. -/
theorem unpin {b : Bool} (h : Faithful live w val) (hlive : live p)
    (hk : w.Allowed c (.unpinPage p b)) (hs : Step w.pool (.unpinPage p b, .bool true) s) :
    Faithful live ⟨s, w.pins.eraseP (World.holds c p), w.owe c p false⟩ val := by
  obtain ⟨hany, hreport⟩ := hk
  obtain ⟨j, hj, hheld⟩ := List.any_eq_true.mp hany
  obtain ⟨j, l₁, l₂, _, hjp, hsplit, herase⟩ := List.exists_of_eraseP hj hheld
  have hjpage : j.page = p := by
    have : j.client = c ∧ j.page = p := by simpa [World.holds] using hjp
    exact this.2
  -- a pin of another client survives
  have hkept : ∀ i ∈ w.pins, ¬ (i.client = c ∧ i.page = p) → i ∈ w.pins.eraseP (World.holds c p) := by
    intro i hi hne
    exact (List.mem_eraseP_of_neg (by simpa [World.holds] using hne)).mpr hi
  have howing : ∀ c' q, w.owe c p false c' q = true →
      ∃ i ∈ w.pins.eraseP (World.holds c p), i.client = c' ∧ i.page = q := by
    intro c' q hc
    unfold World.owe at hc
    split at hc
    · exact absurd hc (by simp)
    · rename_i hne
      obtain ⟨i, hi, rfl, rfl⟩ := h.owing c' q hc
      exact ⟨i, hkept i hi hne, rfl, rfl⟩
  have hcount : ∀ q, s.pinCountOf q
      = (w.pins.eraseP (World.holds c p)).countP (fun i => i.page = q) := by
    intro q
    rw [h.inv.pinCountOf_step hs, h.count, herase, hsplit]
    show _ + (if p = q then (-1 : Int) else 0) = _
    rw [List.countP_append, List.countP_append, List.countP_cons, hjpage]
    by_cases hq : p = q
    · simp only [hq, decide_true, if_true]
      omega
    · simp [hq]
  refine ⟨h.inv.step hs, hs.effect.injective h.inj, ?_, ?_, hcount, howing⟩
  · cases hs.effect with
    | @unpin _ f _ hq hpos =>
        have hf : (w.pool.unpinHit f b).pageTable p = some f := hq
        refine h.coherent.setPage h.inv hq (fun _ _ => rfl) (fun q hq => owed_owe hq)
          (fun hl => h.coherent.cached p f hl hq) ?_ (fun hl => absurd hlive hl) ?_
        · intro hl hd ho
          have hd' : (w.pool.pages f).isDirty = false ∧ b = false := by
            simpa using hd
          -- nothing was owed by this client, so nothing was owed at all
          refine h.coherent.clean p f hl hq hd'.1 ?_
          rintro ⟨c', hc'⟩
          refine ho ⟨c', ?_⟩
          show w.owe c p false c' p = true
          unfold World.owe
          rw [if_neg, hc']
          rintro ⟨rfl, _⟩
          exact absurd (hreport hc') (by simp [hd'.2])
        · rintro _ ⟨c', hc'⟩
          obtain ⟨i, hi, _, hip⟩ := howing c' p hc'
          have hpc := hcount p
          rw [pinCountOf_some hf] at hpc
          have hpos' : 0 < (w.pins.eraseP (World.holds c p)).countP (fun i => i.page = p) :=
            List.countP_pos_iff.mpr ⟨i, hi, by simpa using hip⟩
          have hself : (w.pool.unpinHit f b).pages f = _ := Function.update_self ..
          rw [hself] at hpc
          show 0 < (w.pool.pages f).pinCount - 1
          dsimp only at hpc
          omega
  · intro i hi
    exact h.stays hs (List.mem_of_mem_eraseP hi)

/-- A write through a pointer. -/
theorem write (h : Faithful live w val) (hk : (⟨c, p, f⟩ : Pin) ∈ w.pins) (x : PageData) :
    Faithful live { w with pool := w.pool.overwrite f x, owes := w.owe c p true }
      (Function.update val p x) := by
  have hp := h.held _ hk
  have howe : w.owe c p true c p = true := by
    unfold World.owe
    rw [if_pos ⟨rfl, rfl⟩]
  refine ⟨h.inv.overwrite ⟨p, hp⟩ x, h.inj, ?_, h.held, ?_, ?_⟩
  · exact h.coherent.overwrite h.inv hp (h.pinned hk) ⟨c, howe⟩ (fun q hq => owed_owe hq)
  · intro q
    rw [h.inv.pinCountOf_update (t := w.pool.overwrite f x) hp rfl rfl]
    split
    · rename_i hq
      rw [← h.count, ← hq, pinCountOf_some hp]
    · exact h.count q
  · intro c' q hc
    show ∃ i ∈ w.pins, _
    change w.owe c p true c' q = true at hc
    unfold World.owe at hc
    split at hc
    · rename_i he
      exact ⟨_, hk, he.1.symm, he.2.symm⟩
    · exact h.owing c' q hc

/-- The pages a call may write out or mark dirty are of a live file. -/
def LiveCall (live : PageId → Prop) : Call → Prop
  | .unpinPage p _ => live p
  | .flushPage p => live p
  | .flushAllPages fd => ∀ n, live ⟨fd, n⟩
  | _ => True

/-- **Every call keeps the refinement.** -/
theorem call (h : Faithful live w val) (hk : w.Allowed c k) (hlive : LiveCall live k)
    (hs : Step w.pool (k, r) s) : Faithful live (w.after c k r s) (written val (.call k) r) := by
  have hfresh := (step_iff.mp hs).1
  have heff := hs.effect
  cases heff with
  | @fetchHit p f hp =>
      exact h.pin hs hp (h.coherent.pinHit h.inv hp) (fun _ => rfl) (fun _ _ hc => .inl hc)
  | fetchNull _ _ _ => exact h.same hs h.coherent (fun _ => rfl)
  | @fetchMiss p f t d hp ht hw _ =>
      have htk := h.inv.taken ht
      refine h.pin hs ((h.inv.install_table htk hp).mpr (.inl ⟨rfl, rfl⟩)) ?_ (fun _ => rfl)
        (fun _ _ hc => .inl hc)
      exact h.coherent.install h.inv htk hp htk.pages (fun q => by rw [htk.disk])
        (htk.disk ▸ h.inj) hw rfl
  | newNull _ _ => exact h.same hs h.coherent (fun _ => rfl)
  -- the new page is owed a report, by the client that made it
  | @newPage fd f t d ht hw =>
      have htk := h.inv.taken ht
      refine h.pin hs ((h.inv.install_table htk hfresh).mpr (.inl ⟨rfl, rfl⟩)) ?_ (fun _ => rfl) ?_
      · refine h.coherent.create
          (u := { t with diskManager := (w.pool.diskManager.allocatePage fd).2 }) h.inv htk hfresh ?_
          htk.pages (fun q => rfl) h.inj hw ?_ (fun q hq => owed_owe hq)
        · show ((w.pool.diskManager.fd2pageno fd : Nat) : Int) ≠ -1
          omega
        · exact ⟨c, if_pos ⟨rfl, rfl⟩⟩
      · intro c' q hc
        change w.owe c _ true c' q = true at hc
        unfold World.owe at hc
        split at hc
        · rename_i he
          exact .inr he
        · exact .inl hc
  | unpin _ _ => exact h.unpin hlive hk hs
  | unpinRefused _ => exact h.same hs h.coherent (fun _ => rfl)
  | flush hp hw =>
      exact h.same hs (h.coherent.cleaned h.inv h.inj hp hlive hw) (fun _ => rfl)
  | flushMiss _ => exact h.same hs h.coherent (fun _ => rfl)
  | deleteMiss _ => exact h.same hs h.coherent (fun _ => rfl)
  | deletePinned _ _ => exact h.same hs h.coherent (fun _ => rfl)
  | delete hp hz hw => exact h.same hs (h.coherent.freed h.inv h.inj hp hz hw) (fun _ => rfl)
  | flushAll hrun => exact h.same hs (h.coherent.flushAll h.inv h.inj hlive hrun) (fun _ => rfl)

/-- **Every step of an interleaving keeps the refinement.** -/
theorem step {a : Nat × Op} (h : Faithful live w val)
    (hlive : ∀ k, a.2 = .call k → LiveCall live k) (hs : w.step a = some (r, w')) :
    Faithful live w' (written val a.2 r) := by
  obtain ⟨c, op⟩ := a
  rcases World.of_step hs with ⟨k, s, rfl, hk, hstep, rfl⟩ | ⟨p, f, x, rfl, rfl, hk, rfl⟩
  · exact h.call hk (hlive k rfl) hstep
  · exact h.write hk x

/-- A pointer shows the bytes of its page. -/
theorem shows (h : Faithful live w val) {j : Pin} (hj : j ∈ w.pins) (hlive : live j.page) :
    (w.pool.pages j.frame).data = val j.page :=
  h.coherent.cached _ _ hlive (h.held j hj)

end Faithful

theorem faithful_of_run {poolSize : Nat} {disk : DiskManager} {fd : Int} (hinj : disk.FdsInjective)
    {h : List ((Nat × Op) × Ret)} {w : World}
    (hrun : Run (Run.Asks World.step) (.new (.new poolSize disk fd)) h w) :
    Faithful (fun _ => True) w (lastWritten disk h) := by
  refine hrun.invariant_history (I := fun w h => Faithful _ w (lastWritten disk h)) ?_ ?_
  · exact Faithful.init poolSize fd hinj
  · intro w h l w' hw hs
    refine hw.step ?_ hs
    rintro k -
    cases k <;> simp [Faithful.LiveCall]

/-- The pointer a `FetchPage` returns is a pin of the state it leads to. -/
theorem World.step_fetch {w w' : World} {c : Nat} {p : PageId} {f : Nat}
    (hs : w.step (c, .call (.fetchPage p)) = some (.page (some f), w')) :
    (⟨c, p, f⟩ : Pin) ∈ w'.pins := by
  unfold World.step World.exec at hs
  rw [if_pos (show w.Fresh (.call (.fetchPage p)) from trivial)] at hs
  dsimp only at hs
  rw [if_pos (show w.Allowed c (.fetchPage p) from trivial)] at hs
  split at hs
  · rw [Option.some.injEq, Prod.mk.injEq] at hs
    obtain ⟨rfl, rfl⟩ := hs
    exact List.mem_cons_self
  · exact absurd hs (by simp)

/-- **No lost update.** After any interleaving of clients on a new pool, the pointer returned
by `FetchPage` shows the bytes most recently written to that page, and so does every other
pointer a client holds. -/
theorem fetch_shows_lastWritten {poolSize : Nat} {disk : DiskManager} {fd : Int}
    (hinj : disk.FdsInjective) {h : List ((Nat × Op) × Ret)} {w : World}
    (hrun : Run (Run.Asks World.step) (.new (.new poolSize disk fd)) h w) :
    (∀ c p f w', w.step (c, .call (.fetchPage p)) = some (.page (some f), w') →
      (w'.pool.pages f).data = lastWritten disk h p)
    ∧ ∀ j ∈ w.pins, (w.pool.pages j.frame).data = lastWritten disk h j.page := by
  refine ⟨?_, ?_⟩
  · intro c p f w' hs
    have hrun' := Run.step hrun (show Run.Asks World.step w ((c, .call (.fetchPage p)), _) w' from hs)
    exact (faithful_of_run hinj hrun').shows (World.step_fetch hs) trivial
  · intro j hj
    exact (faithful_of_run hinj hrun).shows hj trivial

/-- Every path names an empty file, and descriptor 3 is open on one of them. -/
def openOn3 : DiskManager :=
  { DiskManager.new (fun _ => some .empty) with
    openFds := fun fd => if fd = 3 then some "t" else none }

theorem openOn3_injective : openOn3.FdsInjective := by
  intro a b path ha hb
  dsimp only [openOn3] at ha hb
  split at ha
  · split at hb
    · rename_i h1 h2
      rw [h1, h2]
    · exact absurd hb (by simp)
  · exact absurd ha (by simp)

/-- One frame, two clients: page 0 is created, written and released by client 0, evicted by
client 1's page 1, and read back. -/
theorem fetch_shows_lastWritten_evicted :
    ∃ h w w', Run (Run.Asks World.step) (.new (.new 1 { DiskManager.new (fun _ => some .empty) with
          openFds := fun fd => if fd = 3 then some "t" else none } 0)) h w
      ∧ w.pool.pageTable ⟨3, 0⟩ = none
      ∧ w.step (1, .call (.fetchPage ⟨3, 0⟩)) = some (.page (some 0), w')
      ∧ (w'.pool.pages 0).data = fun _ => 7 := by
  have hrun := Run.of_replay World.step (s := .new (.new 1 openOn3 0))
    [(0, .call (.newPage 3)), (0, .write ⟨3, 0⟩ 0 (fun _ => 7)), (0, .call (.unpinPage ⟨3, 0⟩ true)),
      (1, .call (.newPage 3)), (1, .call (.unpinPage ⟨3, 1⟩ true))] .nil rfl
  refine ⟨_, _, _, hrun, rfl, rfl, ?_⟩
  exact (fetch_shows_lastWritten openOn3_injective hrun).1 1 ⟨3, 0⟩ 0 _ rfl

end Rucbase
