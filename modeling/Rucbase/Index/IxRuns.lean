import Rucbase.Lib.Run
import Rucbase.Index.IxMirror

/-!
# Runs of an index

Sequences of calls on an index that was just created and opened, beside the map they amount to.
-/

namespace Rucbase

open Lib

/-- An index, and the map from keys to rids that the calls made so far amount to. -/
structure IxWorld (κ : Type) where
  index : IxIndexHandle κ
  entries : κ → Option Rid

namespace IxWorld

variable {κ : Type}

/-- `create_index` of the given order, then `open_index`. -/
def created (order : Nat) (hdr : IxFileHdr) (page0 junk : IxNode κ) : IxWorld κ :=
  ⟨IxIndexHandle.opened order hdr page0 junk, fun _ => none⟩

/-- A new index is a single empty leaf. -/
theorem created_single (horder : 3 ≤ order) :
    (created order hdr page0 junk).index.core.Single (IxIndexHandle.emptyLeaf junk ixLeafHeaderPage) := by
  refine ⟨rfl, rfl, rfl, ⟨rfl, rfl⟩, ⟨_, rfl, rfl, rfl⟩, ⟨?_, ?_⟩, ⟨rfl, rfl⟩, rfl, ?_, ?_⟩
  · show (2 : Int) ≤ 2
    omega
  · show (2 : Int) < 3
    omega
  · show (3 : Int) ≤ order
    omega
  · show ((0 : Nat) : Int) ≤ order
    omega

variable [LinearOrder κ] [Inhabited κ]

/-- One call on the index and on the map, under a condition on the state before it. -/
def Step (P : IxWorld κ → IxOp κ → Prop) (w : IxWorld κ) (l : IxOp κ × IxRet) (w' : IxWorld κ) :
    Prop :=
  P w l.1 ∧ l.1.Returns w.index l.2 w'.index ∧ w'.entries = l.1.after w.entries

/-- The call does not delete the last key. -/
def Spared (w : IxWorld κ) (op : IxOp κ) : Prop := op.Spares w.entries

/-- In every inner node that the search for the key comes to, `upper_bound` is 0. -/
def OnLeft (w : IxWorld κ) (op : IxOp κ) : Prop :=
  w.index.core.Leftward op.key w.index.core.hdr.rootPage

/-- The call returns, and its answer goes with the map. -/
def Served (w : IxWorld κ) (op : IxOp κ) : Prop :=
  ∃ ret t, op.Returns w.index ret t ∧ op.Right w.entries ret

/-- Tree and map agree, and the pool has frames enough. -/
structure Agrees (w : IxWorld κ) : Prop where
  mirrors : w.index.core.Mirrors w.entries
  frames : w.index.store.frames = none

variable {order : Nat} {hdr : IxFileHdr} {page0 junk : IxNode κ} {w w' : IxWorld κ} {op : IxOp κ}
  {ret : IxRet} {history : List (IxOp κ × IxRet)}

theorem created_agrees (horder : 3 ≤ order) : Agrees (created order hdr page0 junk) := by
  have hs : (created order hdr page0 junk).index.core.Single _ := created_single horder
  have hempty : (IxIndexHandle.emptyLeaf junk ixLeafHeaderPage).entries = [] := rfl
  refine ⟨⟨0, _, hs.wellFormed (by rw [hempty]; exact .nil), fun k v => ?_⟩, rfl⟩
  rw [hs.stored, hempty]
  simp [created]

/-- **A call on the left edge**, as a step of the world. -/
theorem Agrees.exec (ha : Agrees w) (hspared : Spared w op) (hleft : OnLeft w op) :
    ∃ ret t, op.Returns w.index ret t ∧ op.Right w.entries ret ∧ Agrees ⟨t, op.after w.entries⟩ := by
  obtain ⟨rounds, hrun⟩ := ha.mirrors.exec hspared hleft
  obtain ⟨ret, t, c', hok, ht, ⟨hright, hm⟩, _⟩ := hrun rounds (Nat.le_refl _) w.index
    ⟨rfl, ha.frames⟩
  refine ⟨ret, t, ⟨rounds, hok⟩, hright, ?_, ht.2⟩
  rw [← ht.1] at hm
  exact hm

theorem Agrees.step (ha : Agrees w) (hstep : Step (fun w op => Spared w op ∧ OnLeft w op) w
    (op, ret) w') : Agrees w' := by
  obtain ⟨⟨hspared, hleft⟩, hreturns, hentries⟩ := hstep
  obtain ⟨ret', t, hreturns', _, ha'⟩ := ha.exec hspared hleft
  obtain ⟨_, ht⟩ := hreturns.unique hreturns'
  obtain ⟨index, entries⟩ := w'
  simp only at ht hentries
  rw [ht, hentries]
  exact ha'

/-- **An index is a map** as long as every search stays on the left edge: every call returns, and
`GetValue` and `delete_entry` answer by the map. -/
theorem index_refines_map (horder : 3 ≤ order)
    (hrun : Run (Step fun w op => Spared w op ∧ OnLeft w op) (created order hdr page0 junk) history w)
    (hspared : Spared w op) (hleft : OnLeft w op) : Served w op := by
  have ha : Agrees w := hrun.invariant (created_agrees horder)
    (fun _ _ _ h hstep => h.step hstep)
  obtain ⟨ret, t, hreturns, hright, _⟩ := ha.exec hspared hleft
  exact ⟨ret, t, hreturns, hright⟩

/-! ## Runs by hand -/

/-- A call with a number of rounds. -/
def step (fuel : Nat) (w : IxWorld κ) (op : IxOp κ) : Option (IxRet × IxWorld κ) :=
  match (op.exec fuel).run w.index with
  | .ok ret t => some (ret, ⟨t, op.after w.entries⟩)
  | .error _ _ => none

theorem Step.of_step {P : IxWorld κ → IxOp κ → Prop} {fuel : Nat}
    (h : step fuel w op = some (ret, w')) (hP : P w op) : Step P w (op, ret) w' := by
  unfold step at h
  split at h
  · next hrun =>
      rw [Option.some.injEq, Prod.mk.injEq] at h
      obtain ⟨rfl, rfl⟩ := h
      exact ⟨hP, ⟨fuel, hrun⟩, rfl⟩
  · exact absurd h (by simp)

/-- A new index of order 3. -/
def small : IxWorld Nat := created 3 ⟨ixNoPage, 0, 0, 0, 4, 0, 0, 0, 0⟩ .blank .blank

/-- The keys inserted one after the other. -/
def grown (keys : List Nat) : IxWorld Nat :=
  keys.foldl (fun w k => ((w.step 4 (.insert k ⟨1, k⟩)).map Prod.snd).getD w) small

theorem grown_step {P : IxWorld Nat → IxOp Nat → Prop} {keys : List Nat} {k : Nat}
    (h : ((grown keys).step 4 (.insert k ⟨1, k⟩)).map Prod.fst = some (.flag true))
    (hP : P (grown keys) (.insert k ⟨1, k⟩)) :
    Step P (grown keys) (.insert k ⟨1, k⟩, .flag true) (grown (keys ++ [k])) := by
  obtain ⟨⟨ret, w'⟩, hstep, hret⟩ := Option.map_eq_some_iff.mp h
  have hw : grown (keys ++ [k]) = w' := by
    unfold grown
    rw [List.foldl_append]
    show ((step 4 (grown keys) _).map Prod.snd).getD _ = w'
    rw [hstep]
    rfl
  rw [hw, ← hret]
  exact .of_step hstep hP

/-- Descending keys stay on the left edge, also when the root is no leaf any more. -/
theorem index_refines_map_descending : ∃ history,
    Run (Step fun w op => Spared w op ∧ OnLeft w op) small history (grown [40, 30, 20, 10, 5])
      ∧ Served (grown [40, 30, 20, 10, 5]) (.get 5) := by
  have hleaf : ∀ {keys : List Nat} {op : IxOp Nat}, ((grown keys).index.core.node
      (grown keys).index.core.hdr.rootPage).isLeaf = true → OnLeft (grown keys) op :=
    fun h => .of_leaf h
  have h1 : Step (fun w op => Spared w op ∧ OnLeft w op) (grown []) (.insert 40 ⟨1, 40⟩, .flag true)
      (grown [40]) := grown_step (by decide +kernel) ⟨trivial, hleaf (by decide +kernel)⟩
  have h2 : Step (fun w op => Spared w op ∧ OnLeft w op) (grown [40])
      (.insert 30 ⟨1, 30⟩, .flag true) (grown [40, 30]) :=
    grown_step (by decide +kernel) ⟨trivial, hleaf (by decide +kernel)⟩
  have h3 : Step (fun w op => Spared w op ∧ OnLeft w op) (grown [40, 30])
      (.insert 20 ⟨1, 20⟩, .flag true) (grown [40, 30, 20]) :=
    grown_step (by decide +kernel) ⟨trivial, hleaf (by decide +kernel)⟩
  have h4 : Step (fun w op => Spared w op ∧ OnLeft w op) (grown [40, 30, 20])
      (.insert 10 ⟨1, 10⟩, .flag true) (grown [40, 30, 20, 10]) :=
    grown_step (by decide +kernel) ⟨trivial, hleaf (by decide +kernel)⟩
  have hinner : ∀ {keys : List Nat}, ((grown keys).index.core.node
      (grown keys).index.core.hdr.rootPage).upperBound 5 = 0 →
      ((grown keys).index.core.node (((grown keys).index.core.node
        (grown keys).index.core.hdr.rootPage).rids 0).pageNo).isLeaf = true →
      (grown keys).index.core.Leftward 5 (grown keys).index.core.hdr.rootPage :=
    fun h h' => .of_child h (.of_leaf h')
  have h5 : Step (fun w op => Spared w op ∧ OnLeft w op) (grown [40, 30, 20, 10])
      (.insert 5 ⟨1, 5⟩, .flag true) (grown [40, 30, 20, 10, 5]) :=
    grown_step (by decide +kernel)
      ⟨trivial, hinner (by decide +kernel) (by decide +kernel)⟩
  refine ⟨_, .step (.step (.step (.step (.step .nil h1) h2) h3) h4) h5, ?_⟩
  exact index_refines_map (by decide)
    (.step (.step (.step (.step (.step .nil h1) h2) h3) h4) h5) trivial
    (hinner (by decide +kernel) (by decide +kernel))

/-- **A key that was inserted is not found**: 1 among the keys `1 2 3 4`. -/
theorem grown_loses_key : ∃ history, Run (Step Spared) small history (grown [1, 2, 3, 4])
    ∧ Spared (grown [1, 2, 3, 4]) (.get 1) ∧ ¬ Served (grown [1, 2, 3, 4]) (.get 1) := by
  have h1 : Step Spared (grown []) (.insert 1 ⟨1, 1⟩, .flag true) (grown [1]) :=
    grown_step (by decide +kernel) trivial
  have h2 : Step Spared (grown [1]) (.insert 2 ⟨1, 2⟩, .flag true) (grown [1, 2]) :=
    grown_step (by decide +kernel) trivial
  have h3 : Step Spared (grown [1, 2]) (.insert 3 ⟨1, 3⟩, .flag true) (grown [1, 2, 3]) :=
    grown_step (by decide +kernel) trivial
  have h4 : Step Spared (grown [1, 2, 3]) (.insert 4 ⟨1, 4⟩, .flag true) (grown [1, 2, 3, 4]) :=
    grown_step (by decide +kernel) trivial
  refine ⟨_, .step (.step (.step (.step .nil h1) h2) h3) h4, trivial, ?_⟩
  rintro ⟨ret, t, hreturns, hright⟩
  have hget : ((grown [1, 2, 3, 4]).step 4 (.get 1)).map Prod.fst = some (.found none) := by
    decide +kernel
  obtain ⟨⟨ret', w'⟩, hstep, hret'⟩ := Option.map_eq_some_iff.mp hget
  obtain ⟨-, hreturns', -⟩ := Step.of_step (P := Spared) hstep trivial
  have hnone : ret = .found none := (hreturns.unique hreturns').1.trans hret'
  have hsome : ret = .found (some ⟨1, 1⟩) := hright.trans (by decide +kernel)
  rw [hnone] at hsome
  exact absurd hsome (by decide)

end IxWorld

end Rucbase
