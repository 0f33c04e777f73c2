import Rucbase.Index.IxRemove

/-!
# Well-formed trees

`WellFormed` says in terms of subtrees what a B+ tree is: entries increasing from leaf to leaf,
and the keys of an inner node between the entries of neighbouring children. It is the same as
`Sound` with the blocks of the leaves separated, which is what the proofs about insertion and
deletion are about. The two are brought together layer by layer: the nodes of a layer are the
blocks of their subtrees, grouped by their parents.
-/

namespace Rucbase

open Lib

namespace IxCore

variable {κ : Type}

/-- The entries under a node of layer `j`, from left to right. -/
def under (c : IxCore κ) : Nat → Int → List (κ × Rid)
  | 0, x => c.cont x
  | j + 1, x => (c.kids x).flatMap fun e => c.under j e.2

/-- All entries, from leaf to leaf. -/
def stored (c : IxCore κ) (lay : Nat → List (κ × Int)) : List (κ × Rid) :=
  (lay 0).flatMap fun e => c.cont e.2

/-- The key of `f` separates what is under `e` from what is under `f`. -/
def Separates [LinearOrder κ] (c : IxCore κ) (j : Nat) (e f : κ × Int) : Prop :=
  (∀ a ∈ c.under j e.2, a.1 < f.1) ∧ ∀ a ∈ c.under j f.2, f.1 ≤ a.1

/-- A B+ tree of height `h` with the nodes `lay j` in layer `j`. Its pages are pages of the
file, the two header pages apart. -/
structure WellFormed [LinearOrder κ] [Inhabited κ] (c : IxCore κ) (h : Nat)
    (lay : Nat → List (κ × Int)) : Prop where
  tree : Tree c h lay
  sizes : Sizes c h lay []
  sorted : Increasing (c.stored lay)
  separators : ∀ j, j < h → ∀ y ∈ names (lay (j + 1)), (c.kids y).IsChain (c.Separates j)
  ring : LeafRing c (names (lay 0))
  first : (names (lay 0)).head? = some c.hdr.firstLeaf
  last : (names (lay 0)).getLast? = some c.hdr.lastLeaf
  count : c.hdr.numPages = nodes h lay + 2

/-- The subtrees of a layer as blocks. -/
def blocksAt (c : IxCore κ) (lay : Nat → List (κ × Int)) (j : Nat) : List (κ × List (κ × Rid)) :=
  (lay j).map fun e => (e.1, c.under j e.2)

/-- The subtrees of layer `j`, grouped by the nodes of layer `j + 1`. -/
def groups (c : IxCore κ) (lay : Nat → List (κ × Int)) (j : Nat) :
    List (κ × List (κ × List (κ × Rid))) :=
  (lay (j + 1)).map fun e => (e.1, (c.kids e.2).map fun f => (f.1, c.under j f.2))

variable {c : IxCore κ} {h j : Nat} {lay : Nat → List (κ × Int)} {x y : Int} {n : IxNode κ}

theorem entriesOf_blocks : entriesOf (c.blocks lay) = c.stored lay := by
  unfold entriesOf blocks stored
  rw [List.flatMap_map]

theorem entriesOf_kids : entriesOf ((c.kids x).map fun f => (f.1, c.under j f.2))
    = c.under (j + 1) x := by
  unfold entriesOf
  rw [List.flatMap_map]
  rfl

theorem coarse_groups : coarse (c.groups lay j) = c.blocksAt lay (j + 1) := by
  unfold coarse groups blocksAt
  rw [List.map_map]
  refine List.map_congr_left (fun e _ => ?_)
  show (e.1, entriesOf _) = _
  rw [entriesOf_kids]

theorem flatten_groups (hl : Layered c.kids c.par c.hdr.rootPage h lay) (hj : j < h) :
    (c.groups lay j).flatMap Prod.snd = c.blocksAt lay j := by
  unfold groups blocksAt
  rw [List.flatMap_map, hl.down j hj, List.map_flatMap]

/-- Read at any layer, the entries are the same. -/
theorem entriesOf_blocksAt (hl : Layered c.kids c.par c.hdr.rootPage h lay) (hj : j ≤ h) :
    entriesOf (c.blocksAt lay j) = c.stored lay := by
  induction j with
  | zero => exact entriesOf_blocks
  | succ j ih => rw [← coarse_groups, entriesOf_coarse, flatten_groups hl (by omega), ih (by omega)]

/-- What is under a node is a stretch of the entries. -/
theorem under_sublist (hl : Layered c.kids c.par c.hdr.rootPage h lay) (hj : j ≤ h)
    (hx : x ∈ names (lay j)) : List.Sublist (c.under j x) (c.stored lay) := by
  obtain ⟨e, he, rfl⟩ := List.mem_map.mp hx
  rw [← entriesOf_blocksAt hl hj, entriesOf, blocksAt, List.flatMap_map, List.flatMap_def]
  exact List.sublist_flatten_of_mem (List.mem_map_of_mem he)

/-- All entries are under the root. -/
theorem under_root (hl : Layered c.kids c.par c.hdr.rootPage h lay) :
    c.under h c.hdr.rootPage = c.stored lay := by
  obtain ⟨k, htop⟩ := hl.top_eq
  have hent := entriesOf_blocksAt hl (Nat.le_refl _)
  unfold blocksAt at hent
  rw [htop] at hent
  simpa [entriesOf] using hent

section

variable (ht : Tree c h lay) (hs : Sizes c h lay [])

include ht

include hs

/-- An inner node has at least two children. -/
theorem Tree.two_kids (hj : j < h) (hy : y ∈ names (lay (j + 1))) : 2 ≤ (c.kids y).length := by
  obtain ⟨v, hv, hl⟩ := ht.kind (j + 1) (by omega) y hy
  have hok := hs.2 (j + 1) (by omega) y hy (by simp)
  have h3 := hs.1
  unfold SizeOk IxFileHdr.minSize IxFileHdr.maxSize at hok
  rw [size_eq_kids hv (by rw [hl]; simp)] at hok
  by_cases hroot : y = c.hdr.rootPage
  · exact hok.2.2 hroot (by omega)
  · have := hok.2.1 hroot
    omega

/-- No subtree below the root is empty. -/
theorem Tree.under_ne_nil (hj : j < h) (hx : x ∈ names (lay j)) : c.under j x ≠ [] := by
  induction j generalizing x with
  | zero =>
      obtain ⟨v, hv, hl⟩ := ht.kind 0 (by omega) x hx
      have hok := (hs.2 0 (by omega) x hx (by simp)).2.1 (ht.layered.ne_root hj hx)
      have h3 := hs.1
      unfold IxFileHdr.minSize IxFileHdr.maxSize at hok
      rw [size_of_view hv] at hok
      show c.cont x ≠ []
      rw [cont_of_leaf hv hl]
      intro hnil
      rw [hnil] at hok
      simp at hok
      omega
  | succ j ih =>
      have h2 := ht.two_kids hs (by omega) hx
      show (c.kids x).flatMap _ ≠ []
      cases hk : c.kids x with
      | nil =>
          rw [hk] at h2
          simp at h2
      | cons e l =>
          have := ih (x := e.2) (by omega) (ht.layered.kid_mem (by omega) hx (by rw [hk]; simp))
          rw [List.flatMap_cons]
          exact fun hnil => this (List.append_eq_nil_iff.mp hnil).1

theorem Tree.grouped (hj : j < h) : Grouped (c.groups lay j) := by
  constructor
  · intro g hg
    obtain ⟨e, he, rfl⟩ := List.mem_map.mp hg
    have h2 := ht.two_kids hs hj (List.mem_map_of_mem he)
    intro hnil
    rw [List.map_eq_nil_iff] at hnil
    rw [hnil] at h2
    simp at h2
  · intro g hg b hb
    obtain ⟨e, he, rfl⟩ := List.mem_map.mp hg
    obtain ⟨f, hf, rfl⟩ := List.mem_map.mp hb
    exact ht.under_ne_nil hs hj (ht.layered.kid_mem hj (List.mem_map_of_mem he)
      (List.mem_map_of_mem hf))
  · intro g hg
    unfold groups at hg
    rw [← List.map_tail] at hg
    obtain ⟨e, he, rfl⟩ := List.mem_map.mp hg
    rcases Nat.lt_or_ge (j + 1) h with hlt | hge
    · have hlabel := ht.labels (j + 1) (by omega) hlt e (List.mem_of_mem_tail he)
      show ((c.kids e.2).map _).head?.map _ = _
      rw [List.head?_map, Option.map_map]
      exact hlabel
    · -- the root has nothing beside it
      obtain ⟨k, htop⟩ := ht.layered.top_eq
      rw [show j + 1 = h by omega, htop] at he
      simp at he

/-- What separates the children of a node, as blocks. -/
theorem Tree.separated_kids [LinearOrder κ] (hj : j < h) (hy : y ∈ names (lay (j + 1)))
    (hsep : (c.kids y).IsChain (c.Separates j)) (hsorted : Increasing (c.under (j + 1) y)) :
    Separated ((c.kids y).map fun f => (f.1, c.under j f.2)) := by
  refine ⟨pairwise_before_of_chain (fun b hb => ?_) ?_, fun b hb => ?_⟩
  · obtain ⟨f, hf, rfl⟩ := List.mem_map.mp hb
    exact ht.under_ne_nil hs hj (ht.layered.kid_mem hj hy (List.mem_map_of_mem hf))
  · rw [List.isChain_map]
    exact hsep
  · obtain ⟨f, hf, rfl⟩ := List.mem_map.mp hb
    refine hsorted.sublist ?_
    show List.Sublist (c.under j f.2) ((c.kids y).flatMap _)
    rw [List.flatMap_def]
    exact List.sublist_flatten_of_mem (List.mem_map_of_mem hf)

end

variable [LinearOrder κ] [Inhabited κ]

/-- **A well-formed tree is sound, with its leaves separated.** -/
theorem WellFormed.separatedAt (hw : WellFormed c h lay) (hj : j ≤ h) :
    Separated (c.blocksAt lay j) := by
  -- downwards from the root
  obtain ⟨d, hd⟩ : ∃ d, j + d = h := ⟨h - j, by omega⟩
  induction d generalizing j with
  | zero =>
      obtain rfl : j = h := by omega
      obtain ⟨k, htop⟩ := hw.tree.layered.top_eq
      unfold blocksAt
      rw [htop, List.map_singleton, Separated.singleton_iff, under_root hw.tree.layered]
      exact hw.sorted
  | succ d ih =>
      have hup := ih (j := j + 1) (by omega) (by omega)
      rw [← flatten_groups hw.tree.layered (by omega)]
      refine Separated.refine (hw.tree.grouped hw.sizes (by omega)) (by rw [coarse_groups]; exact hup) ?_
      intro g hg
      obtain ⟨e, he, rfl⟩ := List.mem_map.mp hg
      refine hw.tree.separated_kids hw.sizes (by omega) (List.mem_map_of_mem he)
        (hw.separators j (by omega) e.2 (List.mem_map_of_mem he)) ?_
      exact hup.sorted (e.1, c.under (j + 1) e.2) (List.mem_map_of_mem he)

theorem WellFormed.sound (hw : WellFormed c h lay) : Sound c h lay :=
  ⟨hw.tree, hw.sizes, hw.ring, hw.first, hw.last, hw.count⟩

theorem WellFormed.separated (hw : WellFormed c h lay) : Separated (c.blocks lay) :=
  hw.separatedAt (Nat.zero_le _)

theorem Sound.separatedAt (hs : Sound c h lay) (hsep : Separated (c.blocks lay)) (hj : j ≤ h) :
    Separated (c.blocksAt lay j) := by
  induction j with
  | zero => exact hsep
  | succ j ih =>
      have hlow := ih (by omega)
      rw [← flatten_groups hs.tree.layered (by omega)] at hlow
      rw [← coarse_groups]
      exact (Separated.coarsen (hs.tree.grouped hs.sizes (by omega)) hlow).1

/-- **A sound index with separated leaves is well-formed.** -/
theorem Sound.wellFormed (hs : Sound c h lay) (hsep : Separated (c.blocks lay)) :
    WellFormed c h lay := by
  refine ⟨hs.tree, hs.sizes, ?_, fun j hj y hy => ?_, hs.ring, hs.first, hs.last, hs.count⟩
  · rw [← entriesOf_blocks]
    exact hsep.increasing
  · have hlow := hs.separatedAt hsep (j := j) (by omega)
    rw [← flatten_groups hs.tree.layered hj] at hlow
    obtain ⟨e, he, rfl⟩ := List.mem_map.mp hy
    have hin := (Separated.coarsen (hs.tree.grouped hs.sizes hj) hlow).2 _ (List.mem_map_of_mem he)
    have := hin.apart.isChain
    rwa [List.isChain_map] at this

end IxCore

end Rucbase
