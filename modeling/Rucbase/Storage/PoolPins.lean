import Rucbase.Storage.PoolInvariant

/-!
# Pins

Clients keep raw pointers into frames between their calls, so everything rests on the
pin count: it must count exactly, and a positive count must keep the page where it is.

A run here is an interleaving of any number of clients: pool calls, and in-place writes
through a pointer into a frame that is pinned. Each event of the history records the
state the pool was in when it happened, which is what "since the page entered the pool"
refers to.
-/

namespace Rucbase.BufferPoolManager

open Lib

/-- What a client can do: call the pool, or overwrite the bytes of a pinned frame. -/
inductive Action where
  | call (c : Call)
  | write (frame : Nat) (data : PageData)

/-- One entry of the history. -/
structure Event where
  before : BufferPoolManager
  action : Action
  ret : Ret

/-- The bytes of frame `f` overwritten in place. -/
def overwrite (s : BufferPoolManager) (f : Nat) (x : PageData) : BufferPoolManager :=
  s.setPage f { s.pages f with data := x }

/-- One event of an interleaving. -/
def ClientStep (s : BufferPoolManager) (e : Event) (s' : BufferPoolManager) : Prop :=
  e.before = s ∧
    match e.action with
    | .call c => Step s (c, e.ret) s'
    | .write f x => s.Mapped f ∧ 0 < (s.pages f).pinCount ∧ s' = s.overwrite f x

/-- The pin count of page `p`; 0 when it is not cached. -/
def pinCountOf (s : BufferPoolManager) (p : PageId) : Int :=
  match s.pageTable p with
  | none => 0
  | some f => (s.pages f).pinCount

/-- Successful `FetchPage`/`NewPage` calls minus successful `UnpinPage` calls for `p`, since
`p` last entered the pool. -/
def pinBalance (p : PageId) : List Event → Int
  | [] => 0
  | e :: h =>
      match e.action, e.ret with
      | .call (.fetchPage q), .page (some _) =>
          if q = p then (if (e.before.pageTable p).isNone then 1 else pinBalance p h + 1)
          else pinBalance p h
      | .call (.newPage _), .created (some (_, q)) =>
          if q = p then (if (e.before.pageTable p).isNone then 1 else pinBalance p h + 1)
          else pinBalance p h
      | .call (.unpinPage q _), .bool true =>
          if q = p then pinBalance p h - 1 else pinBalance p h
      | _, _ => pinBalance p h

variable {s s' t : BufferPoolManager} {p q : PageId} {f g : Nat}

/-! ## One event -/

theorem PoolInv.overwrite (h : PoolInv s) (hm : s.Mapped f) (x : PageData) :
    PoolInv (s.overwrite f x) := by
  obtain ⟨p, hp⟩ := hm
  obtain ⟨hlt, hfree, hlab⟩ := h.of_mapped hp
  refine h.setPage (d := s.diskManager) hp hlab (h.pins f hlt hfree) rfl ?_ (fun _ _ => Iff.rfl)
  show f ∈ s.replacer.frames ↔ (s.pages f).pinCount = 0
  rw [h.rep]
  simp [hlt, hfree]

theorem PoolInv.clientStep {e : Event} (h : PoolInv s) (hs : ClientStep s e s') : PoolInv s' := by
  obtain ⟨before, action, ret⟩ := e
  obtain ⟨_, hs⟩ := hs
  cases action with
  | call c => exact h.step hs
  | write f x =>
      obtain ⟨hm, _, rfl⟩ := hs
      exact h.overwrite hm x

/-- Flushing leaves every mapping, label, pin count and byte of the pool alone. -/
structure SameCache (s s' : BufferPoolManager) : Prop where
  poolSize : s'.poolSize = s.poolSize
  pageTable : s'.pageTable = s.pageTable
  freeList : s'.freeList = s.freeList
  replacer : s'.replacer = s.replacer
  id : ∀ f, (s'.pages f).id = (s.pages f).id
  data : ∀ f, (s'.pages f).data = (s.pages f).data
  pinCount : ∀ f, (s'.pages f).pinCount = (s.pages f).pinCount

theorem SameCache.refl (s : BufferPoolManager) : SameCache s s :=
  ⟨rfl, rfl, rfl, rfl, fun _ => rfl, fun _ => rfl, fun _ => rfl⟩

theorem SameCache.cleaned {d : DiskManager} (h : SameCache s t) (f : Nat) :
    SameCache s (t.cleaned f d) := by
  have hpg : ∀ g, ((t.cleaned f d).pages g).id = (t.pages g).id
      ∧ ((t.cleaned f d).pages g).data = (t.pages g).data
      ∧ ((t.cleaned f d).pages g).pinCount = (t.pages g).pinCount := by
    intro g
    show (Function.update t.pages f _ g).id = _ ∧ (Function.update t.pages f _ g).data = _
      ∧ (Function.update t.pages f _ g).pinCount = _
    by_cases hg : g = f
    · subst hg
      rw [Function.update_self]
      exact ⟨rfl, rfl, rfl⟩
    · rw [Function.update_of_ne hg]
      exact ⟨rfl, rfl, rfl⟩
  exact ⟨h.poolSize, h.pageTable, h.freeList, h.replacer, fun g => (hpg g).1.trans (h.id g),
    fun g => (hpg g).2.1.trans (h.data g), fun g => (hpg g).2.2.trans (h.pinCount g)⟩

theorem flushAllPages_sameCache {fd : Int} (h : (flushAllPages fd).run s = .ok ⟨⟩ s') :
    SameCache s s' :=
  flushAllPages_invariant (fun _ g _ ht _ _ _ _ => ht.cleaned g) (SameCache.refl s) h

/-- **A pinned page stays in its frame with its bytes.** -/
theorem PoolInv.pinned_stays {c : Call} {r : Ret} (h : PoolInv s) (hs : Step s (c, r) s')
    (hp : s.pageTable p = some f) (hpin : 0 < (s.pages f).pinCount) :
    s'.pageTable p = some f ∧ (s'.pages f).id = p ∧ (s'.pages f).data = (s.pages f).data := by
  have hid := (h.of_mapped hp).2.2
  -- a change of one frame that keeps page and bytes
  have hupd : ∀ {g : Nat} {pg : Page}, pg.id = (s.pages g).id → pg.data = (s.pages g).data →
      (Function.update s.pages g pg f).id = p
        ∧ (Function.update s.pages g pg f).data = (s.pages f).data := by
    intro g pg h1 h2
    by_cases hg : f = g
    · subst hg
      rw [Function.update_self]
      exact ⟨h1.trans hid, h2⟩
    · rw [Function.update_of_ne hg]
      exact ⟨hid, rfl⟩
  cases hs.effect with
  | fetchHit _ => exact ⟨hp, hupd rfl rfl⟩
  | fetchNull _ _ _ => exact ⟨hp, hid, rfl⟩
  | fetchMiss hq ht _ _ =>
      have htk := h.taken ht
      have hne := htk.ne_pinned h hp hpin
      rw [PoolInv.install_pages htk hne]
      exact ⟨(h.install_table htk hq).mpr (.inr ⟨hne, hp⟩), hid, rfl⟩
  | newNull _ _ => exact ⟨hp, hid, rfl⟩
  | newPage ht _ =>
      have htk := h.taken ht
      have hne := htk.ne_pinned h hp hpin
      rw [PoolInv.install_pages htk hne]
      exact ⟨(h.install_table htk (step_iff.mp hs).1).mpr (.inr ⟨hne, hp⟩), hid, rfl⟩
  | unpin _ _ => exact ⟨hp, hupd rfl rfl⟩
  | unpinRefused _ => exact ⟨hp, hid, rfl⟩
  | flush _ _ => exact ⟨hp, hupd rfl rfl⟩
  | flushMiss _ => exact ⟨hp, hid, rfl⟩
  | deleteMiss _ => exact ⟨hp, hid, rfl⟩
  | deletePinned _ _ => exact ⟨hp, hid, rfl⟩
  | @delete q g d hq hz _ =>
      have hne : f ≠ g := by
        rintro rfl
        omega
      refine ⟨(h.freed_table hq).mpr ⟨hne, hp⟩, ?_⟩
      show (Function.update s.pages _ _ f).id = p ∧ (Function.update s.pages _ _ f).data = _
      rw [Function.update_of_ne hne]
      exact ⟨hid, rfl⟩
  | flushAll hrun =>
      have hsame := flushAllPages_sameCache hrun
      rw [hsame.pageTable, hsame.id, hsame.data]
      exact ⟨hp, hid, rfl⟩

/-- `DeletePage` refuses a pinned page and changes nothing. -/
theorem delete_pinned {r : Ret} (hs : Step s (.deletePage p, r) s')
    (hp : s.pageTable p = some f) (hpin : 0 < (s.pages f).pinCount) : r = .bool false ∧ s' = s := by
  cases hs.effect with
  | deleteMiss hq => exact absurd (hp.symm.trans hq) (by simp)
  | deletePinned _ _ => exact ⟨rfl, rfl⟩
  | delete hq hz _ =>
      have := Option.some.inj (hp.symm.trans hq)
      subst this
      omega

/-- A pinned frame is never the victim. -/
theorem PoolInv.victim_ne (h : PoolInv s) (hp : s.pageTable p = some f)
    (hpin : 0 < (s.pages f).pinCount) (hv : findVictimPage.run s = .ok (some g) t) : g ≠ f := by
  exact ((h.taken (findVictimPage_some hv)).ne_pinned h hp hpin).symm

/-- `UnpinPage` refuses exactly when there is no pin to take back, and then changes
nothing. -/
theorem PoolInv.unpin_refuses (h : PoolInv s) (p : PageId) (b : Bool) :
    ∃ r s', (unpinPage p b).run s = .ok r s' ∧ (r = false → s' = s)
      ∧ (r = false ↔ s.pageTable p = none ∨ ∃ f, s.pageTable p = some f ∧ (s.pages f).pinCount = 0) := by
  rcases unpinPage_run s p b with ⟨f, hp, hpos, he⟩ | ⟨hno, he⟩
  · refine ⟨true, _, he, by simp, ?_⟩
    simp only [Bool.true_eq_false, false_iff, not_or, not_exists, not_and]
    refine ⟨by simp [hp], fun g hg => ?_⟩
    have := Option.some.inj (hp.symm.trans hg)
    subst this
    omega
  · refine ⟨false, s, he, fun _ => rfl, ?_⟩
    simp only [true_iff]
    cases hp : s.pageTable p with
    | none => exact .inl rfl
    | some f =>
        obtain ⟨hlt, hfree, _⟩ := h.of_mapped hp
        have := h.pins f hlt hfree
        have := hno f hp
        exact .inr ⟨f, rfl, by omega⟩

/-! ## Pins are counted exactly -/

/-- What the history says about the pins in the pool. -/
def PinsCounted (s : BufferPoolManager) (h : List Event) : Prop :=
  ∀ p f, s.pageTable p = some f → (s.pages f).pinCount = pinBalance p h

/-- An event that concerns no page's pins and moves no page. -/
theorem PinsCounted.of_same {h : List Event} {e : Event} (hc : PinsCounted s h)
    (htab : ∀ p f, s'.pageTable p = some f → s.pageTable p = some f
      ∧ (s'.pages f).pinCount = (s.pages f).pinCount)
    (hbal : ∀ p, pinBalance p (e :: h) = pinBalance p h) : PinsCounted s' (e :: h) := by
  intro p f hp
  obtain ⟨h1, h2⟩ := htab p f hp
  rw [h2, hbal, hc p f h1]

/-- A page entering the pool starts again at one pin. -/
theorem PinsCounted.install {h : List Event} {e : Event} {d : DiskManager} {x : PageData}
    (hinv : PoolInv s) (hc : PinsCounted s h) (ht : PoolInv.Taken s f t)
    (hq : s.pageTable q = none) (hself : pinBalance q (e :: h) = 1)
    (hother : ∀ p, p ≠ q → pinBalance p (e :: h) = pinBalance p h) :
    PinsCounted (t.install f q d x) (e :: h) := by
  intro p g hp
  rcases (hinv.install_table ht hq).mp hp with ⟨rfl, rfl⟩ | ⟨hg, hpg⟩
  · rw [hself]
    show (Function.update t.pages g ⟨p, x, false, 1⟩ g).pinCount = 1
    rw [Function.update_self]
  · have hne : p ≠ q := by
      rintro rfl
      rw [hq] at hpg
      exact absurd hpg (by simp)
    rw [PoolInv.install_pages ht hg, hother p hne, hc p g hpg]

theorem PinsCounted.step {h : List Event} {e : Event} (hinv : PoolInv s) (hc : PinsCounted s h)
    (hs : ClientStep s e s') : PinsCounted s' (e :: h) := by
  obtain ⟨before, action, ret⟩ := e
  obtain ⟨hbefore, hs⟩ := hs
  cases action with
  | write f x =>
      obtain ⟨_, _, rfl⟩ := hs
      refine hc.of_same (fun p g hp => ⟨hp, ?_⟩) (fun p => rfl)
      show (Function.update s.pages f _ g).pinCount = _
      by_cases hg : g = f
      · subst hg
        rw [Function.update_self]
      · rw [Function.update_of_ne hg]
  | call c =>
      have hfresh := (step_iff.mp hs).1
      dsimp only at hbefore hs
      subst hbefore
      cases hs.effect with
      | @fetchHit q f hq =>
          intro p g hp
          show (Function.update before.pages f _ g).pinCount = if q = p then _ else _
          by_cases hqp : q = p
          · subst hqp
            have hfg : f = g := Option.some.inj (hq.symm.trans hp)
            subst hfg
            rw [Function.update_self, if_pos rfl, if_neg (by simp [hq]), hc q f hq]
          · have hne : g ≠ f := hinv.frame_ne hp hq (Ne.symm hqp)
            rw [Function.update_of_ne hne, if_neg hqp, hc p g hp]
      | fetchNull _ _ _ => exact hc.of_same (fun p g hp => ⟨hp, rfl⟩) (fun p => rfl)
      | @fetchMiss q f u d hq ht _ _ =>
          refine PinsCounted.install hinv hc (hinv.taken ht) hq ?_ ?_
          · show (if q = q then (if (before.pageTable q).isNone then (1 : Int) else _) else _) = 1
            rw [if_pos rfl, if_pos (by simp [hq])]
          · intro p hp
            exact if_neg (Ne.symm hp)
      | newNull _ _ => exact hc.of_same (fun p g hp => ⟨hp, rfl⟩) (fun p => rfl)
      | @newPage fd f u d ht _ =>
          refine PinsCounted.install hinv hc (hinv.taken ht) hfresh ?_ ?_
          · show (if _ = _ then (if (before.pageTable _).isNone then (1 : Int) else _) else _) = 1
            rw [if_pos rfl, if_pos (Option.isNone_iff_eq_none.mpr hfresh)]
          · intro p hp
            exact if_neg (Ne.symm hp)
      | @unpin q f b hq _ =>
          intro p g hp
          show (Function.update before.pages f _ g).pinCount = if q = p then _ else _
          by_cases hqp : q = p
          · subst hqp
            have hfg : f = g := Option.some.inj (hq.symm.trans hp)
            subst hfg
            rw [Function.update_self, if_pos rfl, ← hc q f hq]
          · have hne : g ≠ f := hinv.frame_ne hp hq (Ne.symm hqp)
            rw [Function.update_of_ne hne, if_neg hqp, hc p g hp]
      | unpinRefused _ => exact hc.of_same (fun p g hp => ⟨hp, rfl⟩) (fun p => rfl)
      | @flush q f d _ _ =>
          have hsame := (SameCache.refl before).cleaned (d := d) f
          exact hc.of_same (fun p g hp => ⟨hp, hsame.pinCount g⟩) (fun p => rfl)
      | flushMiss _ => exact hc.of_same (fun p g hp => ⟨hp, rfl⟩) (fun p => rfl)
      | deleteMiss _ => exact hc.of_same (fun p g hp => ⟨hp, rfl⟩) (fun p => rfl)
      | deletePinned _ _ => exact hc.of_same (fun p g hp => ⟨hp, rfl⟩) (fun p => rfl)
      | delete hq _ _ =>
          refine hc.of_same (fun p g hp => ?_) (fun p => rfl)
          obtain ⟨hne, hpg⟩ := (hinv.freed_table hq).mp hp
          refine ⟨hpg, ?_⟩
          show (Function.update before.pages _ _ g).pinCount = _
          rw [Function.update_of_ne hne]
      | flushAll hrun =>
          have hsame := flushAllPages_sameCache hrun
          exact hc.of_same (fun p g hp => ⟨hsame.pageTable ▸ hp, hsame.pinCount g⟩) (fun p => rfl)

/-! ## Whole interleavings -/

theorem pins_of_run {poolSize : Nat} {disk : DiskManager} {fd : Int} {h : List Event}
    (hrun : Run ClientStep (.new poolSize disk fd) h s) : PoolInv s ∧ PinsCounted s h := by
  refine hrun.invariant_history (I := fun t hs => PoolInv t ∧ PinsCounted t hs) ?_ ?_
  · exact ⟨PoolInv.init poolSize disk fd, fun p f hp => absurd hp (by simp [new])⟩
  · intro t hs e t' ht hst
    exact ⟨ht.1.clientStep hst, ht.2.step ht.1 hst⟩

/-- While its count stays positive, a page keeps its frame. -/
theorem PoolInv.keeps_frame {h : List Event} (hinv : PoolInv s) (hp : s.pageTable p = some f)
    (hrun : Run ClientStep s h s') (hpinned : ∀ e ∈ h, 0 < e.before.pinCountOf p) :
    s'.pageTable p = some f ∧ (s'.pages f).id = p := by
  have key : PoolInv s' ∧ ((∀ e ∈ h, 0 < e.before.pinCountOf p) →
      s'.pageTable p = some f ∧ (s'.pages f).id = p) := by
    refine hrun.invariant_history (I := fun t hs => PoolInv t ∧
      ((∀ e ∈ hs, 0 < e.before.pinCountOf p) → t.pageTable p = some f ∧ (t.pages f).id = p)) ?_ ?_
    · exact ⟨hinv, fun _ => ⟨hp, (hinv.of_mapped hp).2.2⟩⟩
    · rintro t hs e t' ⟨ht, hkeep⟩ hst
      refine ⟨ht.clientStep hst, fun hall => ?_⟩
      obtain ⟨htp, hid⟩ := hkeep (fun e' he' => hall e' (List.mem_cons_of_mem _ he'))
      have hpos := hall e List.mem_cons_self
      obtain ⟨before, action, ret⟩ := e
      obtain ⟨rfl, hst⟩ := hst
      dsimp only at htp hpos
      rw [pinCountOf, htp] at hpos
      cases action with
      | call c =>
          obtain ⟨h1, h2, _⟩ := ht.pinned_stays hst htp hpos
          exact ⟨h1, h2⟩
      | write g x =>
          obtain ⟨_, _, rfl⟩ := hst
          refine ⟨htp, ?_⟩
          show (Function.update before.pages g _ f).id = p
          by_cases hg : f = g
          · subst hg
            rw [Function.update_self]
            exact hid
          · rw [Function.update_of_ne hg]
            exact hid
  exact key.2 hpinned

/-- **Pins are counted exactly and protect a page**, in every interleaving of clients. -/
theorem pins_protect {poolSize : Nat} {disk : DiskManager} {fd : Int} {h : List Event}
    {s : BufferPoolManager} (hrun : Run ClientStep (.new poolSize disk fd) h s) :
    -- the count of a cached page is what the history says
    (∀ p f, s.pageTable p = some f → (s.pages f).pinCount = pinBalance p h)
    -- from now until its count returns to zero, a pinned page stays in its frame
    ∧ (∀ p f, s.pageTable p = some f → 0 < (s.pages f).pinCount →
        ∀ h' s', Run ClientStep s h' s' → (∀ e ∈ h', 0 < e.before.pinCountOf p) →
          s'.pageTable p = some f ∧ (s'.pages f).id = p)
    -- no pool call moves it, relabels it or changes its bytes
    ∧ (∀ p f, s.pageTable p = some f → 0 < (s.pages f).pinCount →
        ∀ c r s', Step s (c, r) s' → s'.pageTable p = some f ∧ (s'.pages f).id = p
          ∧ (s'.pages f).data = (s.pages f).data)
    -- `DeletePage` on it returns false and changes nothing; it is never the victim
    ∧ (∀ p f, s.pageTable p = some f → 0 < (s.pages f).pinCount →
        (∀ r s', Step s (.deletePage p, r) s' → r = .bool false ∧ s' = s)
          ∧ ∀ g t, findVictimPage.run s = .ok (some g) t → g ≠ f)
    -- `UnpinPage` refuses exactly when the page is not cached or its count is zero
    ∧ (∀ p b, ∃ r s', (unpinPage p b).run s = .ok r s' ∧ (r = false → s' = s)
        ∧ (r = false ↔ s.pageTable p = none ∨
            ∃ f, s.pageTable p = some f ∧ (s.pages f).pinCount = 0)) := by
  obtain ⟨hinv, hcount⟩ := pins_of_run hrun
  refine ⟨hcount, ?_, ?_, ?_, ?_⟩
  · intro p f hp _ h' s' hrun' hall
    exact hinv.keeps_frame hp hrun' hall
  · intro p f hp hpin c r s' hs
    exact hinv.pinned_stays hs hp hpin
  · intro p f hp hpin
    exact ⟨fun r s' hs => delete_pinned hs hp hpin, fun g t hv => hinv.victim_ne hp hpin hv⟩
  · intro p b
    exact hinv.unpin_refuses p b

/-- The state in which `x` leaves the pool. -/
def stateAfter {α : Type} (x : PoolM α) (s : BufferPoolManager) : BufferPoolManager :=
  match x.run s with
  | .ok _ t => t
  | .error _ t => t

/-- A pool of two frames, on which a page was created and fetched once more. -/
def pinnedTwice : BufferPoolManager :=
  stateAfter (do let _ ← newPage 3; let _ ← fetchPage ⟨3, 0⟩) (.new 2 (.new fun _ => none) 0)

/-- A page created and fetched once more has two pins. Then a second page is created and unpinned,
and a third takes its frame; the first stays where it is, and cannot be deleted. -/
theorem pins_protect_evicted_beside :
    ∃ h h' s, Run ClientStep (.new 2 (.new fun _ => none) 0) h pinnedTwice
      ∧ (pinnedTwice.pages 0).pinCount = pinBalance ⟨3, 0⟩ h ∧ pinBalance ⟨3, 0⟩ h = 2
      ∧ Run ClientStep pinnedTwice h' s
      ∧ (∃ e ∈ h', e.before.pageTable ⟨3, 1⟩ = some 1) ∧ s.pageTable ⟨3, 1⟩ = none
      ∧ s.pageTable ⟨3, 2⟩ = some 1 ∧ s.pageTable ⟨3, 0⟩ = some 0 ∧ (s.pages 0).id = ⟨3, 0⟩
      ∧ ∀ r t, Step s (.deletePage ⟨3, 0⟩, r) t → r = .bool false ∧ t = s := by
  have hrun : Run ClientStep (.new 2 (.new fun _ => none) 0)
      [⟨_, .call (.fetchPage ⟨3, 0⟩), .page (some 0)⟩,
        ⟨_, .call (.newPage 3), .created (some (0, ⟨3, 0⟩))⟩] pinnedTwice :=
    .step (.step .nil ⟨rfl, rfl⟩) ⟨rfl, rfl⟩
  have hrun' : Run ClientStep pinnedTwice
      [⟨_, .call (.newPage 3), .created (some (1, ⟨3, 2⟩))⟩,
        ⟨_, .call (.unpinPage ⟨3, 1⟩ false), .bool true⟩,
        ⟨_, .call (.newPage 3), .created (some (1, ⟨3, 1⟩))⟩] _ :=
    .step (.step (.step .nil ⟨rfl, rfl⟩) ⟨rfl, rfl⟩) ⟨rfl, rfl⟩
  obtain ⟨hcount, hstays, _⟩ := pins_protect hrun
  have hafter := hstays ⟨3, 0⟩ 0 rfl (by decide) _ _ hrun' (by decide)
  have hdelete := ((pins_protect (hrun.append hrun')).2.2.2.1 ⟨3, 0⟩ 0 hafter.1 (by decide)).1
  exact ⟨_, _, _, hrun, hcount ⟨3, 0⟩ 0 rfl, rfl, hrun', ⟨_, .tail _ (.head _), rfl⟩, rfl, rfl, hafter.1, hafter.2,
    hdelete⟩

end Rucbase.BufferPoolManager
