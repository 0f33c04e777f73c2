import Rucbase.Lib.Run
import Mathlib.Data.Fintype.Card
import Mathlib.Data.Finset.Card

/-!
# The reader-writer latch

`common/rwlatch.cpp`: the latch every `Page` carries. Any finite number of threads call `WLock`,
`WUnlock`, `RLock` and `RUnlock`, in any order. `mutex_` is held from the start of a call, or from
a wake-up, to the next `wait` or to the end of the call, so what happens between them is one step.
A `wait` gives the mutex back; a thread that was woken, by a notification or for no reason, tests
its condition again when it gets the mutex.
-/

namespace Rucbase

open Lib

/-- `MAX_READERS`, that is `UINT_MAX`. -/
def maxReaders : UInt32 := 4294967295

/-- The condition variables `reader_` and `writer_`. -/
inductive CondVar where
  | reader
  | writer
deriving DecidableEq, Repr

/-- Where a thread is. -/
inductive Place where
  | outside
  /-- In `WLock`, before the test of `writer_entered_`. -/
  | enterWrite
  /-- In `WLock`, asleep on `reader_`. -/
  | awaitEntry
  /-- In `WLock`, before the test of `reader_count_`. -/
  | drain
  /-- In `WLock`, asleep on `writer_`. -/
  | awaitDrain
  | writing
  /-- In `RLock`, before its test. -/
  | enterRead
  /-- In `RLock`, asleep on `reader_`. -/
  | awaitRead
  | reading
deriving DecidableEq, Repr

namespace Place

/-- The condition variable a thread sleeps on. -/
def sleepsOn : Place → Option CondVar
  | awaitEntry => some .reader
  | awaitRead => some .reader
  | awaitDrain => some .writer
  | _ => none

/-- Where a sleeping thread goes on. -/
def woken : Place → Place
  | awaitEntry => enterWrite
  | awaitRead => enterRead
  | awaitDrain => drain
  | p => p

/-- Past the first loop of `WLock`, and not yet in `WUnlock`. -/
def entered : Place → Bool
  | drain | awaitDrain | writing => true
  | _ => false

/-- The thread has the latch. -/
def holds : Place → Bool
  | writing | reading => true
  | _ => false

end Place

/-- `ReaderWriterLatch`, and the threads that use it. -/
structure ReaderWriterLatch (T : Type) where
  readerCount : UInt32
  writerEntered : Bool
  place : T → Place

namespace ReaderWriterLatch

variable {T : Type} [Fintype T] [DecidableEq T]

/-- A latch as it is constructed. -/
def init : ReaderWriterLatch T := ⟨0, false, fun _ => .outside⟩

variable (s : ReaderWriterLatch T)

/-- Thread `t` is at `p` now. -/
def go (t : T) (p : Place) : ReaderWriterLatch T := { s with place := Function.update s.place t p }

/-- `notify_all`. -/
def notifyAll (c : CondVar) : ReaderWriterLatch T :=
  { s with place := fun t => if (s.place t).sleepsOn = some c then (s.place t).woken else s.place t }

/-- `notify_one`, when it is thread `u` that wakes up; it wakes one if one sleeps. -/
def notifyOne (c : CondVar) : Option T → Option (ReaderWriterLatch T)
  | none => if ∃ u, (s.place u).sleepsOn = some c then none else some s
  | some u => if (s.place u).sleepsOn = some c then some (s.go u (s.place u).woken) else none

/-- `WLock`, from the second loop on. -/
def testReaders (t : T) : ReaderWriterLatch T :=
  if 0 < s.readerCount then s.go t .awaitDrain else s.go t .writing

/-- `WLock`. -/
def wLock (t : T) : ReaderWriterLatch T :=
  if s.writerEntered then s.go t .awaitEntry else testReaders { s with writerEntered := true } t

/-- `WUnlock`. -/
def wUnlock (t : T) : ReaderWriterLatch T :=
  notifyAll { s.go t .outside with writerEntered := false } .reader

/-- `RLock`. -/
def rLock (t : T) : ReaderWriterLatch T :=
  if s.writerEntered || s.readerCount == maxReaders then s.go t .awaitRead
  else { s.go t .reading with readerCount := s.readerCount + 1 }

/-- `RUnlock`. -/
def rUnlock (t : T) (woken : Option T) : Option (ReaderWriterLatch T) :=
  let s' := { s.go t .outside with readerCount := s.readerCount - 1 }
  if s'.writerEntered then
    if s'.readerCount = 0 then s'.notifyOne .writer woken else some s'
  else
    if s'.readerCount = maxReaders - 1 then s'.notifyOne .reader woken else some s'

/-- A woken thread has the mutex again. -/
def resume (t : T) : Option (ReaderWriterLatch T) :=
  match s.place t with
  | .enterWrite => some (s.wLock t)
  | .drain => some (s.testReaders t)
  | .enterRead => some (s.rLock t)
  | _ => none

/-- What a thread may do next. -/
inductive Act (T : Type) where
  | wLock (t : T)
  | wUnlock (t : T)
  | rLock (t : T)
  /-- With the thread that `notify_one` wakes. -/
  | rUnlock (t : T) (woken : Option T)
  | resume (t : T)
  /-- A `wait` returns for no reason. -/
  | wakeUp (t : T)
deriving DecidableEq, Repr

/-- A step. A thread calls `WLock` and `RLock` only when it is outside, `WUnlock` only when it has
the latch as a writer, and `RUnlock` as a reader. -/
def step : Act T → Option (ReaderWriterLatch T)
  | .wLock t => if s.place t = .outside then some (s.wLock t) else none
  | .wUnlock t => if s.place t = .writing then some (s.wUnlock t) else none
  | .rLock t => if s.place t = .outside then some (s.rLock t) else none
  | .rUnlock t woken => if s.place t = .reading then s.rUnlock t woken else none
  | .resume t => s.resume t
  | .wakeUp t => if (s.place t).sleepsOn.isSome then some (s.go t (s.place t).woken) else none

/-- The step relation. -/
def Step (s : ReaderWriterLatch T) (a : Act T) (s' : ReaderWriterLatch T) : Prop :=
  s.step a = some s'

/-- The threads that read. -/
def readers : Finset T := Finset.univ.filter fun t => s.place t = .reading

end ReaderWriterLatch

end Rucbase
