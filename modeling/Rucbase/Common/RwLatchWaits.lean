import Rucbase.Common.RwLatchProof

/-!
# Waiting for the latch

Two questions about the threads that wait. Is a thread told when it may go on? A writer always is.
A reader is told only as long as there are at most `MAX_READERS + 1` threads: beyond that several
readers may sleep because `reader_count_` is at its maximum, `RUnlock` notifies one of them when the
count leaves the maximum, and nobody the others. And is a writer that has entered overtaken? It is
not, by readers or by writers: it waits for those who read when it entered.
-/

namespace Rucbase

open Lib

/-- In the second loop of `WLock`. -/
def Place.Draining (p : Place) : Prop := p = .drain ∨ p = .awaitDrain

theorem Place.Draining.entered {p : Place} (h : p.Draining) : p.entered = true := by
  rcases h with rfl | rfl <;> rfl

namespace ReaderWriterLatch

variable {T : Type} {s s' : ReaderWriterLatch T} {t u : T} {p : Place}

/-! ## A writer that has entered -/

section

variable [Fintype T] [DecidableEq T]

theorem readers_go_quiet (ht : s.place t ≠ .reading) (hp : p ≠ .reading) :
    (s.go t p).readers = s.readers := by
  rw [readers_go hp, Finset.erase_eq_of_notMem fun hm => ht (mem_readers.mp hm)]

theorem readers_notifyOne {c : CondVar} {woken : Option T} (h : s.notifyOne c woken = some s') :
    s'.readers = s.readers := by
  rcases notifyOne_cases h with ⟨rfl, -⟩ | ⟨u, hu, rfl⟩
  · rfl
  · refine readers_go_quiet (fun hr => ?_) (fun hr => ?_)
    · rw [hr] at hu
      exact absurd hu (by simp [Place.sleepsOn])
    · cases hp : s.place u <;> rw [hp] at hu hr <;> simp_all [Place.sleepsOn, Place.woken]

theorem readers_rUnlock {woken : Option T} (h : s.rUnlock t woken = some s') :
    s'.readers = s.readers.erase t := by
  change (if (s.left t).writerEntered then
      if (s.left t).readerCount = 0 then (s.left t).notifyOne .writer woken else some (s.left t)
    else
      if (s.left t).readerCount = maxReaders - 1 then (s.left t).notifyOne .reader woken
      else some (s.left t)) = some s' at h
  rw [← readers_left]
  split at h <;> split at h
  · exact readers_notifyOne h
  · rw [Option.some.inj h]
  · exact readers_notifyOne h
  · rw [Option.some.inj h]

/-- A step of `RUnlock`. -/
def Act.leaves : Act T → Bool
  | .rUnlock _ _ => true
  | _ => false

/-- **While a writer waits for the readers**, readers only go, and nobody gets past it. -/
theorem Inv.draining_step {a : Act T} (hinv : Inv s) (ht : (s.place t).Draining)
    (hs : Step s a s') (ht' : (s'.place t).Draining) :
    s'.readers ⊆ s.readers
    ∧ s'.readers.card + (if a.leaves then 1 else 0) = s.readers.card := by
  have hent : s.writerEntered = true := hinv.entered t ht.entered
  have hkeep : ∀ u p, s.place u ≠ .reading → p ≠ Place.reading → s' = s.go u p →
      s'.readers ⊆ s.readers ∧ s'.readers.card = s.readers.card := by
    rintro u p hu hp rfl
    rw [readers_go_quiet hu hp]
    exact ⟨Finset.Subset.refl _, rfl⟩
  cases a with
  | wLock u =>
      obtain ⟨hu, rfl⟩ := step_wLock.mp hs
      exact hkeep u .awaitEntry (by simp [hu]) (by simp) (by simp [ReaderWriterLatch.wLock, hent])
  | wUnlock u =>
      obtain ⟨hu, -⟩ := step_wUnlock.mp hs
      obtain rfl := hinv.unique u t (by rw [hu]; rfl) ht.entered
      rcases ht with ht | ht <;> rw [ht] at hu <;> exact absurd hu (by simp)
  | rLock u =>
      obtain ⟨hu, rfl⟩ := step_rLock.mp hs
      exact hkeep u .awaitRead (by simp [hu]) (by simp) (by simp [ReaderWriterLatch.rLock, hent])
  | rUnlock u woken =>
      obtain ⟨hu, hs⟩ := step_rUnlock.mp hs
      rw [readers_rUnlock hs]
      exact ⟨Finset.erase_subset _ _, Finset.card_erase_add_one (mem_readers.mpr hu)⟩
  | resume u =>
      change s.resume u = some s' at hs
      unfold ReaderWriterLatch.resume at hs
      split at hs
      · next hu =>
          obtain rfl := Option.some.inj hs
          exact hkeep u .awaitEntry (by simp [hu]) (by simp)
            (by simp [ReaderWriterLatch.wLock, hent])
      · next hu =>
          obtain rfl := Option.some.inj hs
          obtain rfl := hinv.unique u t (by rw [hu]; rfl) ht.entered
          unfold ReaderWriterLatch.testReaders at ht' hkeep ⊢
          split at ht'
          · next hpos => exact hkeep u .awaitDrain (by simp [hu]) (by simp) (if_pos hpos)
          · rw [go_place_self] at ht'
            exact absurd ht' (by simp [Place.Draining])
      · next hu =>
          obtain rfl := Option.some.inj hs
          exact hkeep u .awaitRead (by simp [hu]) (by simp) (by simp [ReaderWriterLatch.rLock, hent])
      · exact absurd hs (by simp)
  | wakeUp u =>
      obtain ⟨hu, rfl⟩ := step_wakeUp.mp hs
      refine hkeep u _ (fun hr => ?_) (fun hr => ?_) rfl
      · rw [hr] at hu
        exact absurd hu (by simp [Place.sleepsOn])
      · cases hp : s.place u <;> rw [hp] at hu hr <;> simp_all [Place.sleepsOn, Place.woken]

/-- A step during which thread `t` stays in the second loop of `WLock`. -/
def StepBefore (t : T) (s : ReaderWriterLatch T) (a : Act T) (s' : ReaderWriterLatch T) : Prop :=
  Step s a s' ∧ (s'.place t).Draining

/-- **A writer that has entered is not overtaken.** As long as it waits, nobody writes and nobody
begins to read: it waits for the threads that read when it entered, one `RUnlock` each. When they
are gone it is awake, and has the latch as soon as it gets the mutex. -/
theorem latch_not_overtaken {h h' : List (Act T)} (hrun : Run Step init h s)
    (ht : (s.place t).Draining) (hrun' : Run (StepBefore t) s h' s') :
    s'.readers ⊆ s.readers
    ∧ s'.readers.card + h'.countP Act.leaves = s.readers.card
    ∧ (∀ u, s'.place u ≠ .writing)
    ∧ (s'.readers = ∅ → ∃ s'', Step s' (.resume t) s'' ∧ s''.place t = .writing) := by
  have hinv := inv_run hrun
  obtain ⟨hinv', ht', hsub, hcard⟩ : Inv s' ∧ (s'.place t).Draining ∧ s'.readers ⊆ s.readers
      ∧ s'.readers.card + h'.countP Act.leaves = s.readers.card := by
    refine hrun'.invariant_history
      (I := fun r hs => Inv r ∧ (r.place t).Draining ∧ r.readers ⊆ s.readers
        ∧ r.readers.card + hs.countP Act.leaves = s.readers.card)
      ⟨hinv, ht, Finset.Subset.refl _, by simp⟩ ?_
    rintro r hs a r' ⟨hr, htr, hsub, hcard⟩ ⟨hstep, htr'⟩
    obtain ⟨hfewer, hone⟩ := hr.draining_step htr hstep htr'
    refine ⟨hr.step hstep, htr', Finset.Subset.trans hfewer hsub, ?_⟩
    rw [List.countP_cons]
    omega
  refine ⟨hsub, hcard, fun u hu => ?_, fun hempty => ?_⟩
  · obtain rfl := hinv'.unique u t (by rw [hu]; rfl) ht'.entered
    rcases ht' with ht' | ht' <;> rw [ht'] at hu <;> exact absurd hu (by simp)
  · rcases ht' with ht' | ht'
    · have hzero : ¬ 0 < s'.readerCount := by
        rw [hinv'.count_pos, hempty]
        simp
      exact ⟨s'.go t .writing, by simp [Step, step, resume, ht', testReaders, hzero], go_place_self⟩
    · exact absurd (hinv'.waits t ht') (by simp [hempty])

theorem latch_not_overtaken_handover :
    handover.readers ⊆ ((init.rLock (0 : Fin 2)).wLock 1).readers
    ∧ handover.readers.card + [Act.rUnlock (0 : Fin 2) (some 1)].countP Act.leaves
      = ((init.rLock (0 : Fin 2)).wLock 1).readers.card
    ∧ (∀ u, handover.place u ≠ .writing)
    ∧ (handover.readers = ∅ → ∃ s'', Step handover (.resume 1) s'' ∧ s''.place 1 = .writing) := by
  have h₁ : Step (init : ReaderWriterLatch (Fin 2)) (.rLock 0) (init.rLock 0) := rfl
  have h₂ : Step (init.rLock (0 : Fin 2)) (.wLock 1) ((init.rLock 0).wLock 1) := rfl
  have h₃ : Step ((init.rLock (0 : Fin 2)).wLock 1) (.rUnlock 0 (some 1)) handover := rfl
  exact latch_not_overtaken (t := 1) ((Run.nil.step h₁).step h₂) (.inr rfl)
    (Run.nil.step ⟨h₃, .inl rfl⟩)

end

/-! ## Wake-ups -/

/-- The condition of the loop that a sleeping thread is in. -/
def loops (s : ReaderWriterLatch T) : Place → Prop
  | .awaitEntry => s.writerEntered = true
  | .awaitRead => s.writerEntered = true ∨ s.readerCount = maxReaders
  | .awaitDrain => 0 < s.readerCount
  | _ => True

/-- Every thread that sleeps would go to sleep again if it woke up. -/
def NoneForgotten (s : ReaderWriterLatch T) : Prop := ∀ t, s.loops (s.place t)

/-- The same of `reader_` alone. -/
def Told (s : ReaderWriterLatch T) : Prop :=
  ∀ t, (s.place t).sleepsOn = some .reader → s.loops (s.place t)

theorem Inv.noneForgotten [Fintype T] (hinv : Inv s) (h : Told s) : NoneForgotten s := by
  intro t
  cases hp : s.place t with
  | awaitEntry => exact hp ▸ h t (by rw [hp]; rfl)
  | awaitRead => exact hp ▸ h t (by rw [hp]; rfl)
  | awaitDrain => exact hinv.count_pos.mpr (hinv.waits t hp)
  | _ => trivial

theorem told_of_entered (he : s.writerEntered = true) : Told s := by
  intro t ht
  cases hp : s.place t with
  | awaitEntry => exact he
  | awaitRead => exact .inl he
  | _ => rw [hp] at ht; exact absurd ht (by simp [Place.sleepsOn])

theorem told_of_none (h : ∀ t, (s.place t).sleepsOn ≠ some .reader) : Told s :=
  fun t ht => absurd ht (h t)

/-- Nobody sleeps on `reader_` when a reader may enter. -/
theorem Told.none (h : Told s) (he : s.writerEntered = false) (hmax : s.readerCount ≠ maxReaders) :
    ∀ t, (s.place t).sleepsOn ≠ some .reader := by
  intro t ht
  have hloops := h t ht
  cases hp : s.place t with
  | awaitEntry =>
      rw [hp] at hloops
      exact absurd (he.symm.trans hloops) (by simp)
  | awaitRead =>
      rw [hp] at hloops
      rcases hloops with h | h
      · exact absurd (he.symm.trans h) (by simp)
      · exact hmax h
  | _ => rw [hp] at ht; exact absurd ht (by simp [Place.sleepsOn])

section

variable [DecidableEq T]

theorem Told.go (h : Told s) (hp : p.sleepsOn = some .reader → s.loops p) : Told (s.go t p) := by
  intro u hu
  by_cases hut : u = t
  · subst hut
    rw [go_place_self] at hu ⊢
    exact hp hu
  · rw [go_place_ne hut] at hu ⊢
    exact h u hu

theorem testReaders_writerEntered : (s.testReaders t).writerEntered = s.writerEntered := by
  unfold testReaders
  split <;> rfl

theorem wLock_writerEntered : (s.wLock t).writerEntered = true := by
  unfold wLock
  split
  · next he => exact he
  · exact testReaders_writerEntered

theorem Told.rLock (h : Told s) : Told (s.rLock t) := by
  unfold ReaderWriterLatch.rLock
  split
  · next hcond => exact h.go fun _ => by simpa [loops] using hcond
  · next hcond =>
      simp only [Bool.or_eq_true, beq_iff_eq, not_or, Bool.not_eq_true] at hcond
      refine told_of_none fun u hu => ?_
      by_cases hut : u = t
      · subst hut
        rw [show (s.go u .reading).place u = .reading from go_place_self] at hu
        exact absurd hu (by simp [Place.sleepsOn])
      · exact h.none hcond.1 hcond.2 u (by rwa [← go_place_ne hut])

theorem told_wUnlock : Told (s.wUnlock t) := by
  refine told_of_none fun u hu => ?_
  simp only [wUnlock, notifyAll] at hu
  split at hu
  · next hs =>
      cases hp : (s.go t .outside).place u <;> rw [hp] at hu hs <;>
        simp_all [Place.sleepsOn, Place.woken]
  · next hs => exact hs hu

theorem Told.left (h : Told s) (he : s.writerEntered = false) (hmax : s.readerCount ≠ maxReaders) :
    Told (s.left t) := by
  refine told_of_none fun u hu => ?_
  by_cases hut : u = t
  · subst hut
    rw [show (s.left u).place u = .outside from go_place_self] at hu
    exact absurd hu (by simp [Place.sleepsOn])
  · exact h.none he hmax u (by rwa [← go_place_ne hut])

end

variable [Fintype T] [DecidableEq T]

/-- Two threads that do not read. -/
theorem card_readers_add_two {u v : T} (huv : u ≠ v) (hu : s.place u ≠ .reading)
    (hv : s.place v ≠ .reading) : s.readers.card + 2 ≤ Fintype.card T := by
  have hsub : s.readers ⊆ Finset.univ \ {u, v} := by
    intro w hw
    have hr := mem_readers.mp hw
    simp only [Finset.mem_sdiff, Finset.mem_univ, true_and, Finset.mem_insert,
      Finset.mem_singleton, not_or]
    exact ⟨fun e => hu (e ▸ hr), fun e => hv (e ▸ hr)⟩
  have hcard := Finset.card_sdiff_add_card_eq_card (Finset.subset_univ ({u, v} : Finset T))
  rw [Finset.card_pair huv, Finset.card_univ] at hcard
  have := Finset.card_le_card hsub
  omega

theorem sleeps_not_reading {c : CondVar} (h : p.sleepsOn = some c) : p ≠ .reading := by
  rintro rfl
  exact absurd h (by simp [Place.sleepsOn])

theorem sub_one_eq_max {n : UInt32} (hpos : 0 < n.toNat) (h : n - 1 = maxReaders - 1) :
    n = maxReaders := by
  have hone : (1 : UInt32) ≤ n := UInt32.le_iff_toNat_le.mpr hpos
  have h' := congrArg UInt32.toNat h
  rw [UInt32.toNat_sub_of_le _ _ hone] at h'
  refine UInt32.toNat_inj.mp ?_
  rw [toNat_maxReaders]
  change n.toNat - 1 = 4294967294 at h'
  omega

theorem Told.rUnlock {woken : Option T} (hfew : Fintype.card T ≤ UInt32.size) (hinv : Inv s)
    (h : Told s) (ht : s.place t = .reading) (hs : s.rUnlock t woken = some s') : Told s' := by
  have hpos : 0 < s.readerCount.toNat := by
    rw [hinv.count]
    exact Finset.card_pos.mpr ⟨t, mem_readers.mpr ht⟩
  change (if s.writerEntered then
      if (s.left t).readerCount = 0 then (s.left t).notifyOne .writer woken else some (s.left t)
    else
      if (s.left t).readerCount = maxReaders - 1 then (s.left t).notifyOne .reader woken
      else some (s.left t)) = some s' at hs
  split at hs
  · next he =>
      refine told_of_entered ?_
      split at hs
      · rcases notifyOne_cases hs with ⟨rfl, -⟩ | ⟨u, -, rfl⟩
        · exact he
        · exact he
      · exact Option.some.inj hs ▸ he
  · next he =>
      rw [Bool.not_eq_true] at he
      split at hs
      · next hcount =>
          have hmax := sub_one_eq_max hpos hcount
          rcases notifyOne_cases hs with ⟨rfl, hnone⟩ | ⟨u, hu, rfl⟩
          · exact told_of_none hnone
          · -- all threads but two read, so there is no second sleeper
            refine told_of_none fun v hv => ?_
            by_cases hvu : v = u
            · subst hvu
              rw [go_place_self] at hv
              cases hp : (s.left t).place v <;> rw [hp] at hu hv <;>
                simp_all [Place.sleepsOn, Place.woken]
            · rw [go_place_ne hvu] at hv
              have hasleep : ∀ w c, ((s.left t).place w).sleepsOn = some c →
                  s.place w ≠ .reading := by
                intro w c hw
                have hwt : w ≠ t := by
                  rintro rfl
                  rw [show (s.left w).place w = .outside from go_place_self] at hw
                  exact absurd hw (by simp [Place.sleepsOn])
                rw [show (s.left t).place w = s.place w from go_place_ne hwt] at hw
                exact sleeps_not_reading hw
              have hcard := card_readers_add_two hvu (hasleep v _ hv) (hasleep u _ hu)
              rw [← hinv.count, hmax, toNat_maxReaders] at hcard
              rw [UInt32.size] at hfew
              omega
      · next hcount =>
          refine Option.some.inj hs ▸ h.left he fun hmax => hcount ?_
          change s.readerCount - 1 = _
          rw [hmax]

/-- **With at most `MAX_READERS + 1` threads, a step forgets nobody.** -/
theorem Told.step {a : Act T} (hfew : Fintype.card T ≤ UInt32.size) (hinv : Inv s) (h : Told s)
    (hs : Step s a s') : Told s' := by
  cases a with
  | wLock t =>
      obtain ⟨-, rfl⟩ := step_wLock.mp hs
      exact told_of_entered wLock_writerEntered
  | wUnlock t =>
      obtain ⟨-, rfl⟩ := step_wUnlock.mp hs
      exact told_wUnlock
  | rLock t =>
      obtain ⟨-, rfl⟩ := step_rLock.mp hs
      exact h.rLock
  | rUnlock t woken =>
      obtain ⟨ht, hs⟩ := step_rUnlock.mp hs
      exact h.rUnlock hfew hinv ht hs
  | resume t =>
      change s.resume t = some s' at hs
      unfold resume at hs
      split at hs
      · exact Option.some.inj hs ▸ told_of_entered wLock_writerEntered
      · next ht =>
          refine Option.some.inj hs ▸ told_of_entered ?_
          rw [testReaders_writerEntered]
          exact hinv.entered t (by rw [ht]; rfl)
      · exact Option.some.inj hs ▸ h.rLock
      · exact absurd hs (by simp)
  | wakeUp t =>
      obtain ⟨ht, rfl⟩ := step_wakeUp.mp hs
      refine h.go fun hp => absurd hp ?_
      cases hp : s.place t <;> simp [Place.sleepsOn, Place.woken]

theorem told_run {h : List (Act T)} (hfew : Fintype.card T ≤ UInt32.size) (hrun : Run Step init h s) :
    Inv s ∧ Told s := by
  refine hrun.invariant (I := fun s => Inv s ∧ Told s)
    ⟨inv_init, fun t ht => absurd ht (by simp [init, Place.sleepsOn])⟩ ?_
  rintro s a s' ⟨hinv, htold⟩ hs
  exact ⟨hinv.step hs, htold.step hfew hinv hs⟩

/-- **Somebody gets the latch.** With at most `MAX_READERS + 1` threads, whenever nobody has the
latch and a thread is in a call for it, some thread is awake and has the latch as soon as it gets
the mutex. -/
theorem latch_progress {h : List (Act T)} (hfew : Fintype.card T ≤ UInt32.size)
    (hrun : Run Step init h s) (hfree : ∀ t, (s.place t).holds = false)
    (hwants : ∃ t, s.place t ≠ .outside) :
    ∃ t s', Step s (.resume t) s' ∧ (s'.place t).holds = true := by
  obtain ⟨hinv, htold⟩ := told_run hfew hrun
  have hempty : s.readers = ∅ := by
    refine Finset.eq_empty_of_forall_notMem fun t ht => ?_
    have := hfree t
    rw [mem_readers.mp ht] at this
    exact absurd this (by simp [Place.holds])
  have hzero : s.readerCount = 0 := by
    have hc := hinv.count
    rw [hempty, Finset.card_empty] at hc
    exact UInt32.toNat_inj.mp hc
  have hnot : ¬ 0 < s.readerCount := by rw [hzero]; simp
  have hmax : s.readerCount ≠ maxReaders := by rw [hzero]; decide
  cases he : s.writerEntered with
  | true =>
      -- the writer that has entered waits for nobody
      obtain ⟨t, ht⟩ := hinv.someone he
      have hdrain : s.place t = .drain := by
        cases hp : s.place t with
        | drain => rfl
        | awaitDrain => exact absurd (hinv.waits t hp) (by simp [hempty])
        | writing => have := hfree t; rw [hp] at this; exact absurd this (by simp [Place.holds])
        | _ => rw [hp] at ht; exact absurd ht (by simp [Place.entered])
      refine ⟨t, s.go t .writing, by simp [Step, step, resume, hdrain, testReaders, hnot], ?_⟩
      rw [go_place_self]
      rfl
  | false =>
      obtain ⟨t, ht⟩ := hwants
      have hnone := htold.none he hmax t
      have hent := hinv.none_entered he t
      have hfree := hfree t
      cases hp : s.place t with
      | outside => exact absurd hp ht
      | enterWrite =>
          refine ⟨t, ({ s with writerEntered := true } : ReaderWriterLatch T).go t .writing,
            by simp [Step, step, resume, hp, wLock, he, testReaders, hnot], ?_⟩
          rw [go_place_self]
          rfl
      | enterRead =>
          refine ⟨t, { s.go t .reading with readerCount := s.readerCount + 1 },
            by simp [Step, step, resume, hp, rLock, he, hmax], ?_⟩
          rw [show (s.go t .reading).place t = .reading from go_place_self]
          rfl
      | awaitEntry => rw [hp] at hnone; exact absurd rfl hnone
      | awaitRead => rw [hp] at hnone; exact absurd rfl hnone
      | drain => rw [hp] at hent; exact absurd hent (by simp [Place.entered])
      | awaitDrain => rw [hp] at hent; exact absurd hent (by simp [Place.entered])
      | writing => rw [hp] at hfree; exact absurd hfree (by simp [Place.holds])
      | reading => rw [hp] at hfree; exact absurd hfree (by simp [Place.holds])

theorem latch_progress_handover :
    ∃ t s', Step handover (.resume t) s' ∧ (s'.place t).holds = true :=
  latch_progress (by simp [UInt32.size]) run_handover (by decide) ⟨1, by decide⟩

/-! ## Too many threads -/

/-- The threads of a list read, and nobody else is there. -/
def readBy (l : List T) : ReaderWriterLatch T :=
  ⟨UInt32.ofNat l.length, false, fun t => if t ∈ l then .reading else .outside⟩

theorem toNat_length {α : Type} {l : List α} (h : l.length ≤ 4294967295) :
    (UInt32.ofNat l.length).toNat = l.length := by
  rw [UInt32.toNat_ofNat']
  exact Nat.mod_eq_of_lt (by omega)

theorem run_readBy : ∀ {l : List T}, l.Nodup → l.length ≤ 4294967295 →
    ∃ h, Run Step init h (readBy l)
  | [], _, _ => ⟨[], by
      have : (readBy [] : ReaderWriterLatch T) = init := by simp [readBy, init]
      rw [this]
      exact .nil⟩
  | t :: l, hnodup, hlen => by
      rw [List.length_cons] at hlen
      obtain ⟨h, hrun⟩ := run_readBy hnodup.of_cons (by omega)
      have hnot : t ∉ l := (List.nodup_cons.mp hnodup).1
      have hcount := toNat_length (l := l) (by omega)
      have hmax : UInt32.ofNat l.length ≠ maxReaders := by
        intro he
        rw [he, toNat_maxReaders] at hcount
        omega
      refine ⟨.rLock t :: h, hrun.step (step_rLock.mpr ⟨by simp [readBy, hnot], ?_⟩)⟩
      have hplace : Function.update (readBy l).place t .reading = (readBy (t :: l)).place := by
        funext u
        by_cases hu : u = t
        · simp [hu, readBy]
        · simp [hu, readBy]
      have hlen' : UInt32.ofNat l.length + 1 = UInt32.ofNat (l.length + 1) := by
        rw [UInt32.ofNat_add]
        rfl
      simp only [rLock, readBy, Bool.false_or, beq_iff_eq, hmax, if_false, go, List.length_cons] at hplace ⊢
      rw [hplace, hlen']

/-- Two readers that find the latch full go to sleep; when two others leave, the second sleeper is
forgotten. -/
theorem forgotten_of_full {h : List (Act T)} (hrun : Run Step init h s)
    (hcount : s.readerCount = maxReaders) (he : s.writerEntered = false) {u v a b : T}
    (hu : s.place u = .outside) (hv : s.place v = .outside) (ha : s.place a = .reading)
    (hb : s.place b = .reading) (huv : v ≠ u) (hab : b ≠ a) :
    ∃ h, ∃ s' : ReaderWriterLatch T, Run Step init h s' ∧ ¬ NoneForgotten s' := by
  have hau : a ≠ u := fun e => by rw [e, hu] at ha; exact absurd ha (by simp)
  have hav : a ≠ v := fun e => by rw [e, hv] at ha; exact absurd ha (by simp)
  have hbu : b ≠ u := fun e => by rw [e, hu] at hb; exact absurd hb (by simp)
  have hbv : b ≠ v := fun e => by rw [e, hv] at hb; exact absurd hb (by simp)
  let s₂ := (s.go u .awaitRead).go v .awaitRead
  let s₃ := (s₂.left a).go u .enterRead
  have h₁ : Step s (.rLock u) (s.go u .awaitRead) := step_rLock.mpr ⟨hu, by simp [rLock, hcount]⟩
  have h₂ : Step (s.go u .awaitRead) (.rLock v) s₂ :=
    step_rLock.mpr ⟨by rw [go_place_ne huv, hv], by simp [rLock, hcount, s₂]⟩
  -- `a` wakes `u`
  have h₃ : Step s₂ (.rUnlock a (some u)) s₃ := by
    refine step_rUnlock.mpr ⟨by rw [go_place_ne hav, go_place_ne hau, ha], ?_⟩
    have hsleep : (s₂.left a).place u = .awaitRead := by
      simp [s₂, left, go, hau.symm, huv.symm]
    have hc : (s₂.left a).readerCount = maxReaders - 1 := by
      simp only [left, s₂, go_readerCount, hcount]
    change (if s.writerEntered then _ else if (s₂.left a).readerCount = maxReaders - 1 then
      (s₂.left a).notifyOne .reader (some u) else some (s₂.left a)) = some s₃
    rw [he, hc, if_neg (by simp), if_pos rfl]
    simp [notifyOne, hsleep, Place.sleepsOn, Place.woken, s₃]
  -- `b` wakes nobody
  have hc : (s₃.left b).readerCount = maxReaders - 1 - 1 := by
    simp only [left, s₃, s₂, go_readerCount, hcount]
  have h₄ : Step s₃ (.rUnlock b none) (s₃.left b) := by
    refine step_rUnlock.mpr ⟨by simp [s₃, s₂, left, go, hbu, hbv, hab, hb], ?_⟩
    change (if s.writerEntered then _ else if (s₃.left b).readerCount = maxReaders - 1 then
      (s₃.left b).notifyOne .reader none else some (s₃.left b)) = some (s₃.left b)
    rw [he, hc, if_neg (by simp), if_neg (by decide)]
  refine ⟨_, _, (((hrun.step h₁).step h₂).step h₃).step h₄, fun hforgot => ?_⟩
  have hloops := hforgot v
  rw [show (s₃.left b).place v = .awaitRead by
    simp [s₃, s₂, left, go, hbv.symm, huv, hav.symm]] at hloops
  rcases hloops with hent | hmax
  · exact absurd (he.symm.trans hent) (by simp)
  · rw [hc] at hmax
    exact absurd hmax (by decide)

theorem forgotten_run (hmany : UInt32.size < Fintype.card T) :
    ∃ h, ∃ s : ReaderWriterLatch T, Run Step init h s ∧ ¬ NoneForgotten s := by
  rw [UInt32.size] at hmany
  obtain ⟨l, hnodup, hlen⟩ : ∃ l : List T, l.Nodup ∧ 4294967297 ≤ l.length :=
    ⟨Finset.univ.toList, Finset.nodup_toList _, by rw [Finset.length_toList, Finset.card_univ]; omega⟩
  obtain ⟨u, v, rest, rfl⟩ : ∃ u v rest, l = u :: v :: rest := by
    match l, hlen with
    | u :: v :: rest, _ => exact ⟨u, v, rest, rfl⟩
  simp only [List.length_cons] at hlen
  have hfull : (rest.take 4294967295).length = 4294967295 := by
    rw [List.length_take]
    omega
  obtain ⟨a, b, few, hfew⟩ : ∃ a b few, rest.take 4294967295 = a :: b :: few := by
    match hl : rest.take 4294967295, (show 2 ≤ (rest.take 4294967295).length by omega) with
    | a :: b :: few, _ => exact ⟨a, b, few, rfl⟩
  have hsub : (a :: b :: few).Sublist rest := hfew ▸ List.take_sublist _ _
  rw [hfew] at hfull
  obtain ⟨hu, hnodup⟩ := List.nodup_cons.mp hnodup
  obtain ⟨hv, hnodup⟩ := List.nodup_cons.mp hnodup
  have hnodup := hnodup.sublist hsub
  obtain ⟨h, hrun⟩ := run_readBy hnodup (Nat.le_of_eq hfull)
  refine forgotten_of_full hrun (UInt32.toNat_inj.mp ?_) rfl (u := u) (v := v) (a := a) (b := b)
    (if_neg fun hm => hu (List.mem_cons_of_mem _ (hsub.subset hm)))
    (if_neg fun hm => hv (hsub.subset hm)) (if_pos List.mem_cons_self)
    (if_pos (List.mem_cons_of_mem _ List.mem_cons_self)) (fun e => hu (e ▸ List.mem_cons_self))
    fun e => (List.nodup_cons.mp hnodup).1 (e ▸ List.mem_cons_self)
  rw [toNat_maxReaders]
  exact (toNat_length (Nat.le_of_eq hfull)).trans hfull

/-- **Nobody is forgotten, up to `MAX_READERS + 1` threads.** No run leaves a thread asleep that
could go on, exactly if there are at most `UInt32.size` threads. -/
theorem latch_forgets_nobody_iff :
    (∀ h, ∀ s : ReaderWriterLatch T, Run Step init h s → NoneForgotten s)
      ↔ Fintype.card T ≤ UInt32.size := by
  constructor
  · intro hall
    by_contra hmany
    obtain ⟨h, s, hrun, hforgot⟩ := forgotten_run (T := T) (Nat.lt_of_not_le hmany)
    exact hforgot (hall h s hrun)
  · intro hfew h s hrun
    obtain ⟨hinv, htold⟩ := told_run hfew hrun
    exact hinv.noneForgotten htold

end ReaderWriterLatch

end Rucbase
