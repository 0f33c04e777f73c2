import Rucbase.Common.RwLatch
import Mathlib.Tactic.Common

/-!
# Who has the latch

The invariant of the latch, by what the three kinds of places mean for its two fields:
`reader_count_` counts the threads that read, `writer_entered_` says that one thread is past the
first loop of `WLock`, and that thread writes only when nobody reads.
-/

namespace Rucbase

open Lib

namespace ReaderWriterLatch

variable {T : Type} {s s' : ReaderWriterLatch T} {t u : T} {p : Place}

/-! ## Places -/

section

variable [DecidableEq T]

@[simp] theorem go_readerCount : (s.go t p).readerCount = s.readerCount := rfl

@[simp] theorem go_writerEntered : (s.go t p).writerEntered = s.writerEntered := rfl

@[simp] theorem go_place_self : (s.go t p).place t = p := Function.update_self ..

theorem go_place_ne (h : u ≠ t) : (s.go t p).place u = s.place u := Function.update_of_ne h ..

end

section

variable [Fintype T]

theorem mem_readers : t ∈ s.readers ↔ s.place t = .reading := by simp [readers]

/-- Who reads does not depend on the fields of the latch. -/
theorem readers_congr (h : ∀ u, s'.place u = .reading ↔ s.place u = .reading) :
    s'.readers = s.readers := by
  ext u
  rw [mem_readers, mem_readers, h u]

/-! ## The invariant -/

/-- **Who has the latch.** -/
structure Inv (s : ReaderWriterLatch T) : Prop where
  count : s.readerCount.toNat = s.readers.card
  entered : ∀ t, (s.place t).entered = true → s.writerEntered = true
  someone : s.writerEntered = true → ∃ t, (s.place t).entered = true
  unique : ∀ t u, (s.place t).entered = true → (s.place u).entered = true → t = u
  alone : ∀ t, s.place t = .writing → s.readers = ∅
  waits : ∀ t, s.place t = .awaitDrain → s.readers.Nonempty

theorem inv_init : Inv (init : ReaderWriterLatch T) where
  count := by simp [init, readers]
  entered t h := by simp [init, Place.entered] at h
  someone h := by simp [init] at h
  unique t u h := by simp [init, Place.entered] at h
  alone t h := by simp [init] at h
  waits t h := by simp [init] at h

/-- A place that has nothing to do with the fields of the latch. -/
def Quiet (p : Place) : Prop := p.entered = false ∧ p ≠ .reading

theorem Inv.none_entered (h : Inv s) (he : s.writerEntered = false) :
    ∀ t, (s.place t).entered = false := by
  intro t
  cases ht : (s.place t).entered with
  | false => rfl
  | true => rw [h.entered t ht] at he; exact absurd he (by simp)

theorem Inv.count_pos (h : Inv s) : 0 < s.readerCount ↔ s.readers.Nonempty := by
  rw [UInt32.lt_iff_toNat_lt, h.count, ← Finset.card_pos]
  rfl

/-- As long as the same threads have entered, the rest can be looked at by itself. -/
theorem Inv.recast (h : Inv s) (he : s'.writerEntered = s.writerEntered)
    (hentered : ∀ u, (s'.place u).entered = (s.place u).entered)
    (hcount : s'.readerCount.toNat = s'.readers.card)
    (halone : ∀ u, s'.place u = .writing → s'.readers = ∅)
    (hwaits : ∀ u, s'.place u = .awaitDrain → s'.readers.Nonempty) : Inv s' where
  count := hcount
  entered t ht := by
    rw [he]
    exact h.entered t (by rwa [hentered] at ht)
  someone hw := by
    obtain ⟨t, ht⟩ := h.someone (by rwa [he] at hw)
    exact ⟨t, by rwa [hentered]⟩
  unique t u ht hu := by
    rw [hentered] at ht hu
    exact h.unique t u ht hu
  alone := halone
  waits := hwaits

/-- Moves between quiet places do not matter. -/
theorem Inv.quiet (h : Inv s) (hc : s'.readerCount = s.readerCount)
    (he : s'.writerEntered = s.writerEntered)
    (hp : ∀ u, s'.place u = s.place u ∨ Quiet (s.place u) ∧ Quiet (s'.place u)) : Inv s' := by
  have hsame : ∀ u q, ¬ Quiet q → (s'.place u = q ↔ s.place u = q) := by
    intro u q hq
    rcases hp u with hu | ⟨hu, hu'⟩
    · rw [hu]
    · exact ⟨fun e => absurd (e ▸ hu') hq, fun e => absurd (e ▸ hu) hq⟩
  have hreaders : s'.readers = s.readers := readers_congr fun u => hsame u _ (by simp [Quiet])
  refine h.recast he (fun u => ?_) (by rw [hc, hreaders, h.count]) ?_ ?_
  · rcases hp u with hu | ⟨hu, hu'⟩
    · rw [hu]
    · rw [hu.1, hu'.1]
  · intro t ht
    rw [hreaders]
    exact h.alone t ((hsame t _ (by simp [Quiet, Place.entered])).mp ht)
  · intro t ht
    rw [hreaders]
    exact h.waits t ((hsame t _ (by simp [Quiet, Place.entered])).mp ht)

/-- A thread that sleeps on `reader_` is quiet, and so it is when it wakes up. -/
theorem quiet_of_sleeps (h : p.sleepsOn = some .reader) : Quiet p ∧ Quiet p.woken := by
  cases p <;> simp_all [Place.sleepsOn, Place.woken, Quiet, Place.entered]

theorem Inv.notifyAll (h : Inv s) : Inv (s.notifyAll .reader) := by
  refine h.quiet rfl rfl fun u => ?_
  by_cases hu : (s.place u).sleepsOn = some .reader
  · refine .inr ⟨(quiet_of_sleeps hu).1, ?_⟩
    simpa only [ReaderWriterLatch.notifyAll, if_pos hu] using (quiet_of_sleeps hu).2
  · exact .inl (by simp only [ReaderWriterLatch.notifyAll, if_neg hu])

end

variable [Fintype T] [DecidableEq T]

theorem readers_go_reading : (s.go t .reading).readers = insert t s.readers := by
  ext u
  rw [Finset.mem_insert, mem_readers, mem_readers]
  by_cases h : u = t
  · simp [h]
  · simp [go_place_ne h, h]

theorem readers_go (hp : p ≠ .reading) : (s.go t p).readers = s.readers.erase t := by
  ext u
  rw [Finset.mem_erase, mem_readers, mem_readers]
  by_cases h : u = t
  · simp [h, hp]
  · simp [go_place_ne h, h]

theorem Inv.go_quiet (h : Inv s) (ht : Quiet (s.place t)) (hp : Quiet p) : Inv (s.go t p) := by
  refine h.quiet rfl rfl fun u => ?_
  by_cases hu : u = t
  · subst hu
    exact .inr ⟨ht, by rwa [go_place_self]⟩
  · exact .inl (go_place_ne hu)

/-! ## The calls -/

/-- The thread that has entered tests `reader_count_`. -/
theorem Inv.testReaders (hcount : s.readerCount.toNat = s.readers.card)
    (hent : s.writerEntered = true) (hr : s.place t ≠ .reading)
    (hothers : ∀ u, u ≠ t → (s.place u).entered = false) : Inv (s.testReaders t) := by
  have hnot : t ∉ s.readers := fun h => hr (mem_readers.mp h)
  have key : ∀ p : Place, p.entered = true → p ≠ .reading →
      (p = .writing → s.readers = ∅) → (p = .awaitDrain → s.readers.Nonempty) →
      Inv (s.go t p) := by
    intro p hp hpr hwriting hawait
    have hreaders : (s.go t p).readers = s.readers := by
      rw [readers_go hpr, Finset.erase_eq_of_notMem hnot]
    have honly : ∀ u, ((s.go t p).place u).entered = true → u = t := by
      intro u hu
      by_contra hne
      rw [go_place_ne hne, hothers u hne] at hu
      exact absurd hu (by simp)
    refine ⟨by rw [hreaders]; exact hcount, fun _ _ => hent, fun _ => ⟨t, by simpa using hp⟩, ?_, ?_, ?_⟩
    · intro u v hu hv
      rw [honly u hu, honly v hv]
    · intro u hu
      have : u = t := honly u (by rw [hu]; rfl)
      subst this
      rw [hreaders]
      exact hwriting (by simpa using hu)
    · intro u hu
      have : u = t := honly u (by rw [hu]; rfl)
      subst this
      rw [hreaders]
      exact hawait (by simpa using hu)
  unfold ReaderWriterLatch.testReaders
  split
  · next hpos =>
      refine key _ rfl (by simp) (by simp) fun _ => ?_
      rw [UInt32.lt_iff_toNat_lt, hcount] at hpos
      exact Finset.card_pos.mp hpos
  · next hzero =>
      refine key _ rfl (by simp) (fun _ => ?_) (by simp)
      rw [UInt32.lt_iff_toNat_lt, hcount] at hzero
      exact Finset.card_eq_zero.mp (Nat.eq_zero_of_not_pos hzero)

theorem Inv.wLock (h : Inv s) (ht : Quiet (s.place t)) : Inv (s.wLock t) := by
  unfold ReaderWriterLatch.wLock
  split
  · exact h.go_quiet ht ⟨rfl, by simp⟩
  · next he =>
      have hnone := h.none_entered (by simpa using he)
      exact Inv.testReaders (s := { s with writerEntered := true }) h.count rfl ht.2
        fun u _ => hnone u

theorem Inv.drain (h : Inv s) (ht : s.place t = .drain) : Inv (s.testReaders t) := by
  have hent : (s.place t).entered = true := by rw [ht]; rfl
  refine Inv.testReaders h.count (h.entered t hent) (by simp [ht]) fun u hu => ?_
  by_contra hne
  exact hu (h.unique u t (by simpa using hne) hent)

theorem toNat_maxReaders : maxReaders.toNat = 4294967295 := rfl

theorem Inv.rLock (h : Inv s) (ht : Quiet (s.place t)) : Inv (s.rLock t) := by
  unfold ReaderWriterLatch.rLock
  split
  · exact h.go_quiet ht ⟨rfl, by simp⟩
  · next hcond =>
      simp only [Bool.or_eq_true, beq_iff_eq, not_or, Bool.not_eq_true] at hcond
      obtain ⟨he, hmax⟩ := hcond
      have hnone := h.none_entered he
      have hnot : t ∉ s.readers := fun hm => ht.2 (mem_readers.mp hm)
      have hentered : ∀ u, ((s.go t .reading).place u).entered = false := by
        intro u
        by_cases hu : u = t
        · subst hu; rw [go_place_self]; rfl
        · rw [go_place_ne hu, hnone u]
      refine ⟨?_, ?_, ?_, ?_, ?_, ?_⟩
      · have hlt : s.readerCount.toNat < 4294967295 := by
          have hle := s.readerCount.toNat_lt
          have hne : s.readerCount.toNat ≠ 4294967295 := fun hc =>
            hmax (UInt32.toNat_inj.mp (by rw [hc, toNat_maxReaders]))
          omega
        change (s.readerCount + 1).toNat = (s.go t .reading).readers.card
        rw [readers_go_reading, Finset.card_insert_of_notMem hnot, ← h.count, UInt32.toNat_add]
        exact Nat.mod_eq_of_lt (by change _ + 1 < _; omega)
      · intro u hu
        exact absurd hu (by simp only [hentered u]; simp)
      · intro hw
        rw [show s.writerEntered = true from hw] at he
        exact absurd he (by simp)
      · intro u v hu
        exact absurd hu (by simp only [hentered u]; simp)
      · intro u hu
        exact absurd (hentered u) (by rw [show (s.go t .reading).place u = .writing from hu]; simp [Place.entered])
      · intro u hu
        exact absurd (hentered u)
          (by rw [show (s.go t .reading).place u = .awaitDrain from hu]; simp [Place.entered])

theorem sleeps_writer (h : p.sleepsOn = some .writer) : p = .awaitDrain := by
  cases p <;> simp_all [Place.sleepsOn]

theorem Inv.wUnlock (h : Inv s) (ht : s.place t = .writing) : Inv (s.wUnlock t) := by
  have hreaders : s.readers = ∅ := h.alone t ht
  have hreaders' : (s.go t .outside).readers = ∅ := by
    rw [readers_go (by simp), hreaders, Finset.erase_empty]
  have hnone : ∀ u, ((s.go t .outside).place u).entered = false := by
    intro u
    by_cases hu : u = t
    · subst hu; rw [go_place_self]; rfl
    · rw [go_place_ne hu]
      by_contra hne
      exact hu (h.unique u t (by simpa using hne) (by rw [ht]; rfl))
  refine Inv.notifyAll (s := { s.go t .outside with writerEntered := false }) ⟨?_, ?_, ?_, ?_, ?_, ?_⟩
  · change s.readerCount.toNat = (s.go t .outside).readers.card
    rw [h.count, hreaders, hreaders']
  · intro u hu
    exact absurd hu (by simp only [hnone u]; simp)
  · intro hw
    exact absurd hw (by simp)
  · intro u v hu
    exact absurd hu (by simp only [hnone u]; simp)
  · intro u _
    exact hreaders'
  · intro u hu
    exact absurd (hnone u)
      (by rw [show (s.go t .outside).place u = .awaitDrain from hu]; simp [Place.entered])

theorem Inv.go_drain (h : Inv s) (ht : s.place t = .awaitDrain) : Inv (s.go t .drain) := by
  have hnot : t ∉ s.readers := fun hm => by rw [mem_readers, ht] at hm; exact absurd hm (by simp)
  have hreaders : (s.go t .drain).readers = s.readers := by
    rw [readers_go (by simp), Finset.erase_eq_of_notMem hnot]
  refine h.recast rfl (fun u => ?_) (by rw [hreaders]; exact h.count) ?_ ?_
  · by_cases hu : u = t
    · subst hu; rw [go_place_self, ht]; rfl
    · rw [go_place_ne hu]
  · intro u hu
    by_cases hut : u = t
    · subst hut; rw [go_place_self] at hu; exact absurd hu (by simp)
    · rw [hreaders]
      exact h.alone u (by rwa [go_place_ne hut] at hu)
  · intro u hu
    by_cases hut : u = t
    · subst hut; rw [go_place_self] at hu; exact absurd hu (by simp)
    · rw [hreaders]
      exact h.waits u (by rwa [go_place_ne hut] at hu)

/-- What `notify_one` may do. -/
theorem notifyOne_cases {c : CondVar} {woken : Option T} (h : s.notifyOne c woken = some s') :
    (s' = s ∧ ∀ u, (s.place u).sleepsOn ≠ some c)
    ∨ ∃ u, (s.place u).sleepsOn = some c ∧ s' = s.go u (s.place u).woken := by
  cases woken with
  | none =>
      simp only [notifyOne] at h
      split at h
      · exact absurd h (by simp)
      · next hnone => exact .inl ⟨(Option.some.inj h).symm, by simpa using hnone⟩
  | some u =>
      simp only [notifyOne] at h
      split at h
      · next hu => exact .inr ⟨u, hu, (Option.some.inj h).symm⟩
      · exact absurd h (by simp)

/-- The latch when a reader has gone, before it notifies anyone. -/
def left (s : ReaderWriterLatch T) (t : T) : ReaderWriterLatch T :=
  { s.go t .outside with readerCount := s.readerCount - 1 }

theorem readers_left : (s.left t).readers = s.readers.erase t := readers_go (by simp)

theorem Inv.left_count (h : Inv s) (ht : s.place t = .reading) :
    (s.left t).readerCount.toNat + 1 = s.readerCount.toNat := by
  have hpos : 0 < s.readers.card := Finset.card_pos.mpr ⟨t, mem_readers.mpr ht⟩
  rw [← h.count] at hpos
  have hone : (1 : UInt32) ≤ s.readerCount := UInt32.le_iff_toNat_le.mpr hpos
  change (s.readerCount - 1).toNat + 1 = _
  rw [UInt32.toNat_sub_of_le _ _ hone]
  exact Nat.succ_pred_eq_of_pos hpos

theorem Inv.left_card (h : Inv s) (ht : s.place t = .reading) :
    (s.left t).readerCount.toNat = (s.left t).readers.card := by
  have hcard := Finset.card_erase_add_one (mem_readers.mpr ht)
  have hcount := h.left_count ht
  rw [readers_left]
  rw [h.count] at hcount
  omega

omit [Fintype T] in
theorem left_entered (ht : s.place t = .reading) (u : T) :
    ((s.left t).place u).entered = (s.place u).entered := by
  by_cases hu : u = t
  · subst hu
    change ((s.go u .outside).place u).entered = _
    rw [go_place_self, ht]
    rfl
  · exact congrArg Place.entered (go_place_ne hu)

theorem Inv.left_not_writing (h : Inv s) (ht : s.place t = .reading) (u : T) :
    (s.left t).place u ≠ .writing := by
  intro hu
  have hne : u ≠ t := by
    rintro rfl
    rw [show (s.left u).place u = .outside from go_place_self] at hu
    exact absurd hu (by simp)
  have hempty := h.alone u (by rw [← hu]; exact (go_place_ne hne).symm)
  exact absurd (mem_readers.mpr ht) (by simp [hempty])

/-- A reader goes, and no writer waits for it alone. -/
theorem Inv.leave (h : Inv s) (ht : s.place t = .reading)
    (hw : ∀ u, (s.left t).place u = .awaitDrain → (s.left t).readers.Nonempty) : Inv (s.left t) :=
  h.recast rfl (left_entered ht) (h.left_card ht) (fun u hu => absurd hu (h.left_not_writing ht u)) hw

theorem Inv.rUnlock {woken : Option T} (h : Inv s) (ht : s.place t = .reading)
    (hs : s.rUnlock t woken = some s') : Inv s' := by
  change (if (s.left t).writerEntered then
      if (s.left t).readerCount = 0 then (s.left t).notifyOne .writer woken else some (s.left t)
    else
      if (s.left t).readerCount = maxReaders - 1 then (s.left t).notifyOne .reader woken
      else some (s.left t)) = some s' at hs
  split at hs
  · split at hs
    · -- the last reader wakes the writer that waits, if one does
      rcases notifyOne_cases hs with ⟨rfl, hnone⟩ | ⟨u, hu, rfl⟩
      · refine h.leave ht fun v hv => absurd ?_ (hnone v)
        rw [hv]
        rfl
      · have hdrain := sleeps_writer hu
        have hut : u ≠ t := by
          rintro rfl
          exact absurd (go_place_self.symm.trans hdrain) (by simp)
        have hu' : s.place u = .awaitDrain := (go_place_ne hut).symm.trans hdrain
        have hswap : (s.left t).go u .drain = (s.go u .drain).left t := by
          simp only [left, go, Function.update_comm hut]
        rw [hdrain]
        change Inv ((s.left t).go u .drain)
        rw [hswap]
        have ht' : (s.go u .drain).place t = .reading := by rw [go_place_ne hut.symm, ht]
        refine (h.go_drain hu').leave ht' fun v hv => absurd ?_ (show Place.drain ≠ .awaitDrain by simp)
        have hvu : v = u := by
          refine (h.go_drain hu').unique v u ?_ (by rw [go_place_self]; rfl)
          rw [← left_entered ht', hv]
          rfl
        rw [← hv, hvu]
        exact (go_place_self.symm.trans (go_place_ne hut).symm)
    · next hne =>
        refine Option.some.inj hs ▸ h.leave ht fun _ _ => Finset.card_pos.mp ?_
        rw [← h.left_card ht]
        exact Nat.pos_of_ne_zero fun hz => hne (UInt32.toNat_inj.mp hz)
  · next hent =>
      have hleave : Inv (s.left t) := by
        refine h.leave ht fun u hu => absurd ?_ hent
        exact h.entered u (by rw [← left_entered ht, hu]; rfl)
      split at hs
      · rcases notifyOne_cases hs with ⟨rfl, -⟩ | ⟨u, hu, rfl⟩
        · exact hleave
        · exact hleave.go_quiet (quiet_of_sleeps hu).1 (quiet_of_sleeps hu).2
      · exact Option.some.inj hs ▸ hleave

/-! ## Runs -/

theorem Inv.resume (h : Inv s) (hs : s.resume t = some s') : Inv s' := by
  unfold ReaderWriterLatch.resume at hs
  split at hs
  · next ht => exact Option.some.inj hs ▸ h.wLock (by rw [ht]; exact ⟨rfl, by simp⟩)
  · next ht => exact Option.some.inj hs ▸ h.drain ht
  · next ht => exact Option.some.inj hs ▸ h.rLock (by rw [ht]; exact ⟨rfl, by simp⟩)
  · exact absurd hs (by simp)

theorem Inv.wakeUp (h : Inv s) (ht : (s.place t).sleepsOn.isSome) :
    Inv (s.go t (s.place t).woken) := by
  obtain ⟨c, hc⟩ := Option.isSome_iff_exists.mp ht
  cases c with
  | reader => exact h.go_quiet (quiet_of_sleeps hc).1 (quiet_of_sleeps hc).2
  | writer =>
      have hd := sleeps_writer hc
      rw [hd]
      exact h.go_drain hd

theorem step_wLock : Step s (.wLock t) s' ↔ s.place t = .outside ∧ s.wLock t = s' := by
  simp [Step, ReaderWriterLatch.step]

theorem step_wUnlock : Step s (.wUnlock t) s' ↔ s.place t = .writing ∧ s.wUnlock t = s' := by
  simp [Step, ReaderWriterLatch.step]

theorem step_rLock : Step s (.rLock t) s' ↔ s.place t = .outside ∧ s.rLock t = s' := by
  simp [Step, ReaderWriterLatch.step]

theorem step_rUnlock {woken : Option T} :
    Step s (.rUnlock t woken) s' ↔ s.place t = .reading ∧ s.rUnlock t woken = some s' := by
  simp [Step, ReaderWriterLatch.step]

theorem step_wakeUp :
    Step s (.wakeUp t) s' ↔ (s.place t).sleepsOn.isSome ∧ s.go t (s.place t).woken = s' := by
  simp [Step, ReaderWriterLatch.step]

/-- **A step keeps the invariant.** -/
theorem Inv.step {a : Act T} (h : Inv s) (hs : Step s a s') : Inv s' := by
  cases a with
  | wLock t =>
      obtain ⟨ht, rfl⟩ := step_wLock.mp hs
      exact h.wLock (by rw [ht]; exact ⟨rfl, by simp⟩)
  | wUnlock t =>
      obtain ⟨ht, rfl⟩ := step_wUnlock.mp hs
      exact h.wUnlock ht
  | rLock t =>
      obtain ⟨ht, rfl⟩ := step_rLock.mp hs
      exact h.rLock (by rw [ht]; exact ⟨rfl, by simp⟩)
  | rUnlock t woken =>
      obtain ⟨ht, hs⟩ := step_rUnlock.mp hs
      exact h.rUnlock ht hs
  | resume t => exact h.resume hs
  | wakeUp t =>
      obtain ⟨ht, rfl⟩ := step_wakeUp.mp hs
      exact h.wakeUp ht

theorem inv_run {h : List (Act T)} (hrun : Run Step init h s) : Inv s :=
  hrun.invariant inv_init fun _ _ _ hI hs => hI.step hs

/-- **The latch excludes.** In every run of any number of threads, a thread that writes is the only
one that has the latch, and `reader_count_` is the number of threads that read. -/
theorem latch_excludes {h : List (Act T)} (hrun : Run Step init h s) :
    (∀ t u, s.place t = .writing → (s.place u).holds = true → u = t)
    ∧ s.readerCount.toNat = s.readers.card := by
  have hinv := inv_run hrun
  refine ⟨fun t u ht hu => ?_, hinv.count⟩
  cases hp : s.place u with
  | writing => exact hinv.unique u t (by rw [hp]; rfl) (by rw [ht]; rfl)
  | reading => exact absurd (mem_readers.mpr hp) (by simp [hinv.alone t ht])
  | _ => rw [hp] at hu; exact absurd hu (by simp [Place.holds])

/-- Thread 1 asked for the latch while thread 0 read, and thread 0 has left. -/
def handover : ReaderWriterLatch (Fin 2) := (((init.rLock 0).wLock 1).left 0).go 1 .drain

theorem run_handover : Run Step init [.rUnlock 0 (some 1), .wLock 1, .rLock 0] handover := by
  have h₁ : Step (init : ReaderWriterLatch (Fin 2)) (.rLock 0) (init.rLock 0) := rfl
  have h₂ : Step (init.rLock (0 : Fin 2)) (.wLock 1) ((init.rLock 0).wLock 1) := rfl
  have h₃ : Step ((init.rLock (0 : Fin 2)).wLock 1) (.rUnlock 0 (some 1)) handover := rfl
  exact ((Run.nil.step h₁).step h₂).step h₃

theorem latch_excludes_handover :
    (∀ t u, (handover.go 1 .writing).place t = .writing →
      ((handover.go 1 .writing).place u).holds = true → u = t)
    ∧ (handover.go 1 .writing).readerCount.toNat = (handover.go 1 .writing).readers.card :=
  latch_excludes (run_handover.step (show Step handover (.resume 1) (handover.go 1 .writing) from rfl))

end ReaderWriterLatch

end Rucbase
