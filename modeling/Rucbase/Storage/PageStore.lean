import Rucbase.Storage.Page
import Mathlib.Data.List.Dedup

/-!
# A page store

What the buffer pool is for the code above it: pages by number, pins, and a counter from
which new pages get their numbers. `Backs` shows it to be what the pool and its disk are to the
one file they serve; `frames` keeps the one thing a client can notice of the pool behind
it, that it runs out when every frame is pinned. `none` stands for enough frames.

The contents of a page are a parameter: bytes for record files, nodes for indexes.
-/

namespace Rucbase

structure PageStore (α : Type) where
  /-- The pages the file has. -/
  pages : Int → Option α
  /-- The pages pinned, one entry for every pin. -/
  pins : List Int
  /-- `fd2pageno_[fd]`. -/
  nextPageNo : Nat
  /-- How many frames there are for this file's pages. -/
  frames : Option Nat

namespace PageStore

variable {α : Type} {s : PageStore α} {no no' : Int} {x : α}

/-- Every frame is pinned. -/
def exhausted (s : PageStore α) : Bool :=
  match s.frames with
  | none => false
  | some n => n ≤ s.pins.dedup.length

/-- `FetchPage`: `none` for `nullptr`; a page past the end of the file raises. What a call that
raises leaves in the pool, a page mapped without having been read and a frame that is lost, is not
kept here: what is said over a page store about later calls assumes that none has raised. -/
def fetchPage (s : PageStore α) (no : Int) : Except RedBaseError (Option (PageStore α)) :=
  if s.exhausted ∧ no ∉ s.pins then .ok none
  else
    match s.pages no with
    | none => .error .unixError
    | some _ => .ok (some { s with pins := no :: s.pins })

/-- `NewPage`: the number of the new page, with the contents of a zeroed frame. -/
def newPage (s : PageStore α) (blank : α) : Option (Int × PageStore α) :=
  if s.exhausted then none
  else some (s.nextPageNo,
    { s with
      pages := Function.update s.pages s.nextPageNo (some blank)
      pins := (s.nextPageNo : Int) :: s.pins
      nextPageNo := s.nextPageNo + 1 })

/-- `UnpinPage`. What it reports as dirty is the pool's business. -/
def unpinPage (s : PageStore α) (no : Int) : PageStore α := { s with pins := s.pins.erase no }

/-- `DeletePage`: the page leaves the pool, and what it held is written back to the file. -/
def deletePage (s : PageStore α) (_ : Int) : PageStore α := s

/-- A write through the pointer to a page. -/
def setPage (s : PageStore α) (no : Int) (x : α) : PageStore α :=
  { s with pages := Function.update s.pages no (some x) }

/-- `FetchPage` returns the null page. -/
def Refuses (s : PageStore α) (no : Int) : Prop := s.exhausted = true ∧ no ∉ s.pins

instance : Decidable (s.Refuses no) := inferInstanceAs (Decidable (_ ∧ _))

theorem fetchPage_refuses (h : s.Refuses no) : s.fetchPage no = .ok none := if_pos h

theorem fetchPage_missing (h : ¬ s.Refuses no) (hp : s.pages no = none) :
    s.fetchPage no = .error .unixError := by
  unfold Refuses at h
  rw [fetchPage, if_neg h, hp]

theorem fetchPage_some (h : ¬ s.Refuses no) (hp : s.pages no = some x) :
    s.fetchPage no = .ok (some { s with pins := no :: s.pins }) := by
  unfold Refuses at h
  rw [fetchPage, if_neg h, hp]

theorem exhausted_none (h : s.frames = none) : s.exhausted = false := by
  rw [exhausted, h]

theorem not_refuses (h : s.frames = none) : ¬ s.Refuses no := by
  unfold Refuses
  rw [exhausted_none h]
  simp

/-- The same pages and pins, and frames enough. -/
def unlimited (s : PageStore α) : PageStore α := { s with frames := none }

theorem newPage_refused (h : s.exhausted = true) (blank : α) : s.newPage blank = none := if_pos h

theorem newPage_some (h : s.exhausted = false) (blank : α) :
    s.newPage blank = some ((s.nextPageNo : Int),
      { s with
        pages := Function.update s.pages s.nextPageNo (some blank)
        pins := (s.nextPageNo : Int) :: s.pins
        nextPageNo := s.nextPageNo + 1 }) := by
  rw [newPage, if_neg (by simp [h])]

theorem newPage_enough (h : s.frames = none) (blank : α) :
    s.newPage blank = some ((s.nextPageNo : Int),
      { s with
        pages := Function.update s.pages s.nextPageNo (some blank)
        pins := (s.nextPageNo : Int) :: s.pins
        nextPageNo := s.nextPageNo + 1 }) := newPage_some (exhausted_none h) blank

theorem of_fetchPage {t : PageStore α} (h : s.fetchPage no = .ok (some t)) :
    (s.pages no).isSome ∧ t = { s with pins := no :: s.pins } := by
  unfold fetchPage at h
  split at h
  · exact absurd h (by simp)
  · split at h
    · exact absurd h (by simp)
    · next hp =>
        rw [Except.ok.injEq, Option.some.injEq] at h
        exact ⟨by rw [hp]; rfl, h.symm⟩

theorem of_newPage {blank : α} {t : PageStore α} (h : s.newPage blank = some (no, t)) :
    no = s.nextPageNo ∧ t = { s with
      pages := Function.update s.pages s.nextPageNo (some blank)
      pins := (s.nextPageNo : Int) :: s.pins
      nextPageNo := s.nextPageNo + 1 } := by
  unfold newPage at h
  split at h
  · exact absurd h (by simp)
  · rw [Option.some.injEq, Prod.mk.injEq] at h
    exact ⟨h.1.symm, h.2.symm⟩

end PageStore

end Rucbase
