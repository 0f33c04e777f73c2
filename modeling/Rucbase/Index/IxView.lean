import Rucbase.Lib.Layers
import Rucbase.Index.IxCalls

/-!
# The tree in the pages

What the shape of the tree depends on: of every node its entries in use, whether it is a leaf,
and its parent. Links between leaves are apart from that. Each function of the code is read
here as a change of these views.
-/

namespace Rucbase

open Lib

/-- The part of a node that the tree is made of. -/
structure NodeView (κ : Type) where
  entries : List (κ × Rid)
  isLeaf : Bool
  parent : Int

namespace NodeView

variable {κ : Type}

/-- The children that entries name, each with the key its entry has; those of a leaf name none. -/
def kidsOf (leaf : Bool) (es : List (κ × Rid)) : List (κ × Int) :=
  if leaf then [] else es.map fun e => (e.1, e.2.pageNo)

/-- The children of a node. -/
def kids (v : NodeView κ) : List (κ × Int) := kidsOf v.isLeaf v.entries

/-- The same node under another parent. -/
def under (v : NodeView κ) (parent : Int) : NodeView κ := { v with parent := parent }

theorem kidsOf_append {leaf : Bool} {es fs : List (κ × Rid)} :
    kidsOf leaf (es ++ fs) = kidsOf leaf es ++ kidsOf leaf fs := by
  unfold kidsOf
  cases leaf with
  | true => rfl
  | false => exact List.map_append

theorem kidsOf_cons {leaf : Bool} {e : κ × Rid} {es : List (κ × Rid)} :
    kidsOf leaf (e :: es) = kidsOf leaf [e] ++ kidsOf leaf es :=
  (kidsOf_append : kidsOf leaf ([e] ++ es) = _)

theorem kids_under (v : NodeView κ) (p : Int) : (v.under p).kids = v.kids := rfl

theorem kids_of_leaf {v : NodeView κ} (h : v.isLeaf = true) : v.kids = [] := if_pos h

theorem kids_of_inner {v : NodeView κ} (h : v.isLeaf = false) :
    v.kids = v.entries.map fun e => (e.1, e.2.pageNo) := if_neg (by rw [h]; simp)

end NodeView

/-- The view of a node. -/
def IxNode.view {κ : Type} (n : IxNode κ) : NodeView κ := ⟨n.entries, n.isLeaf, n.parent⟩

/-- The first child is entered under the first key. -/
theorem IxNode.kids_head {κ : Type} {n : IxNode κ} (hleaf : n.isLeaf = false) (h : 0 < n.numKey) :
    n.view.kids.head?.map Prod.fst = some (n.keys 0) := by
  rw [NodeView.kids_of_inner hleaf, List.head?_map]
  show Option.map _ (Option.map _ n.entries.head?) = _
  rw [IxNode.entries_head h]
  rfl

namespace IxCore

variable {κ : Type}

/-- The view of a page. -/
def view (c : IxCore κ) (w : Int) : Option (NodeView κ) := (c.pages w).map IxNode.view

/-- The children of a page. -/
def kids (c : IxCore κ) (w : Int) : List (κ × Int) := ((c.view w).map NodeView.kids).getD []

/-- The parent of a page. -/
def par (c : IxCore κ) (w : Int) : Int := ((c.view w).map NodeView.parent).getD ixNoPage

/-- The number of entries of a page. -/
def size (c : IxCore κ) (w : Int) : Nat := ((c.view w).map fun v => v.entries.length).getD 0

/-- The entries of a leaf. -/
def cont (c : IxCore κ) (w : Int) : List (κ × Rid) :=
  ((c.view w).map fun v => if v.isLeaf then v.entries else []).getD []

/-- The leaf a leaf is followed by. -/
def nxt [Inhabited κ] (c : IxCore κ) (w : Int) : Int := (c.node w).nextLeaf

/-- The leaf a leaf follows. -/
def prv [Inhabited κ] (c : IxCore κ) (w : Int) : Int := (c.node w).prevLeaf

variable {c c' : IxCore κ} {w no x z nx : Int} {n : IxNode κ} {v : NodeView κ}

theorem view_of_pages (h : c.pages w = some n) : c.view w = some n.view := by
  rw [view, h]
  rfl

theorem pages_of_view (h : c.view w = some v) : ∃ n, c.pages w = some n ∧ n.view = v :=
  Option.map_eq_some_iff.mp h

theorem kids_of_view (h : c.view w = some v) : c.kids w = v.kids := by
  rw [kids, h]
  rfl

theorem par_of_view (h : c.view w = some v) : c.par w = v.parent := by
  rw [par, h]
  rfl

theorem size_of_view (h : c.view w = some v) : c.size w = v.entries.length := by
  rw [size, h]
  rfl

theorem cont_of_leaf (h : c.view w = some v) (hleaf : v.isLeaf = true) : c.cont w = v.entries := by
  rw [cont, h, Option.map_some, Option.getD_some, if_pos hleaf]

/-- The same node, perhaps under another parent. -/
structure Agree (c c' : IxCore κ) (w : Int) : Prop where
  kids : c'.kids w = c.kids w
  cont : c'.cont w = c.cont w
  size : c'.size w = c.size w

namespace Agree

theorem of_view (h : c'.view w = c.view w) : Agree c c' w := by
  constructor
  · rw [IxCore.kids, h, ← IxCore.kids]
  · rw [IxCore.cont, h, ← IxCore.cont]
  · rw [IxCore.size, h, ← IxCore.size]

theorem of_under {p : Int} (h : c'.view w = (c.view w).map (·.under p)) : Agree c c' w := by
  constructor
  · rw [IxCore.kids, h, Option.map_map]
    rfl
  · rw [IxCore.cont, h, Option.map_map]
    rfl
  · rw [IxCore.size, h, Option.map_map]
    rfl

theorem trans {c'' : IxCore κ} (h : Agree c c' w) (h' : Agree c' c'' w) : Agree c c'' w :=
  ⟨h'.kids.trans h.kids, h'.cont.trans h.cont, h'.size.trans h.size⟩

end Agree

theorem view_setNode : (c.setNode no n).view w = if w = no then some n.view else c.view w := by
  unfold view
  by_cases h : w = no
  · rw [if_pos h, h, setNode_pages_self]
    rfl
  · rw [if_neg h, setNode_pages_of_ne h]

/-- Overwriting a node without changing its view. -/
theorem view_setNode_same (hp : c.pages no = some n) {m : IxNode κ} (hm : m.view = n.view) :
    (c.setNode no m).view = c.view := by
  funext w
  rw [view_setNode]
  by_cases h : w = no
  · rw [if_pos h, h, hm, view_of_pages hp]
  · rw [if_neg h]

theorem view_extend [Inhabited κ] :
    c.extend.view w = if w = c.nextPageNo then some (IxNode.blank (κ := κ)).view else c.view w := by
  unfold view extend
  by_cases h : w = c.nextPageNo
  · rw [if_pos h, h]
    dsimp only
    rw [Function.update_self]
    rfl
  · rw [if_neg h]
    dsimp only
    rw [Function.update_of_ne h]

theorem view_adopt {l : List Int} : (c.adopt no l).view w
    = if w ∈ l then (c.view w).map (·.under no) else c.view w := by
  unfold view adopt
  dsimp only
  split
  · rw [Option.map_map, Option.map_map]
    rfl
  · rfl

theorem isSome_adopt {l : List Int} (h : (c.pages w).isSome) : ((c.adopt no l).pages w).isSome := by
  unfold adopt
  dsimp only
  split
  · rw [Option.isSome_map]
    exact h
  · exact h

variable [Inhabited κ]

/-- Linking leaves does not touch the tree. -/
theorem view_linkLeaf (hx : (c.pages x).isSome) (hz : (c.pages z).isSome)
    (hnx : nx ≠ ixNoPage → (c.pages nx).isSome) : (c.linkLeaf x z nx).view = c.view := by
  unfold linkLeaf
  dsimp only
  have h1 : (c.setNode z (((c.node z).setNextLeaf nx).setPrevLeaf x)).view = c.view :=
    view_setNode_same (pages_of_isSome hz) rfl
  by_cases hne : nx ≠ ixNoPage
  · rw [if_pos hne]
    refine Eq.trans (view_setNode_same (pages_of_isSome (isSome_setNode (isSome_setNode hx))) rfl) ?_
    exact Eq.trans (view_setNode_same (pages_of_isSome (isSome_setNode (hnx hne))) rfl) h1
  · rw [if_neg hne]
    exact Eq.trans (view_setNode_same (pages_of_isSome (isSome_setNode hx)) rfl) h1

theorem view_unlinkLeaf (hprev : (c.pages (c.node x).prevLeaf).isSome)
    (hnext : (c.pages (c.node x).nextLeaf).isSome) : (c.unlinkLeaf x).view = c.view := by
  unfold unlinkLeaf
  dsimp only
  refine Eq.trans (view_setNode_same (pages_of_isSome (isSome_setNode hnext)) rfl) ?_
  exact view_setNode_same (pages_of_isSome hprev) rfl

theorem hdr_linkLeaf : (c.linkLeaf x z nx).hdr = c.hdr
    ∧ (c.linkLeaf x z nx).nextPageNo = c.nextPageNo := by
  unfold linkLeaf
  dsimp only
  split <;> exact ⟨rfl, rfl⟩

theorem hdr_split : (c.split x).hdr = { c.hdr with numPages := c.hdr.numPages + 1 }
    ∧ (c.split x).nextPageNo = c.nextPageNo + 1 := by
  unfold split
  split
  · rw [hdr_linkLeaf.1, hdr_linkLeaf.2]
    exact ⟨rfl, rfl⟩
  · exact ⟨rfl, rfl⟩

/-! ## Leaf links -/

theorem node_setNode : (c.setNode no n).node w = if w = no then n else c.node w := by
  unfold node
  by_cases hw : w = no
  · rw [if_pos hw, hw, setNode_pages_self]
    rfl
  · rw [if_neg hw, setNode_pages_of_ne hw]

theorem node_extend (hw : w ≠ c.nextPageNo) : c.extend.node w = c.node w :=
  congrArg (fun o => Option.getD o IxNode.blank) (Function.update_of_ne hw ..)

theorem nxt_setNode : (c.setNode no n).nxt w = if w = no then n.nextLeaf else c.nxt w := by
  unfold nxt
  rw [node_setNode]
  split <;> rfl

theorem prv_setNode : (c.setNode no n).prv w = if w = no then n.prevLeaf else c.prv w := by
  unfold prv
  rw [node_setNode]
  split <;> rfl

theorem nxt_adopt {l : List Int} : (c.adopt no l).nxt w = c.nxt w := by
  unfold nxt node adopt
  dsimp only
  split
  · cases c.pages w <;> rfl
  · rfl

theorem prv_adopt {l : List Int} : (c.adopt no l).prv w = c.prv w := by
  unfold prv node adopt
  dsimp only
  split
  · cases c.pages w <;> rfl
  · rfl

theorem nxt_halved (hw : w ≠ c.nextPageNo) : (c.halved x).nxt w = c.nxt w := by
  rw [halved, nxt_setNode, nxt_setNode, if_neg hw]
  split
  · next h => rw [h]; rfl
  · rw [nxt, node_extend hw]
    rfl

theorem prv_halved (hw : w ≠ c.nextPageNo) : (c.halved x).prv w = c.prv w := by
  rw [halved, prv_setNode, prv_setNode, if_neg hw]
  split
  · next h => rw [h]; rfl
  · rw [prv, node_extend hw]
    rfl

/-- Linking a leaf behind another, seen from its pointers. -/
theorem nxt_linkLeaf : (c.linkLeaf x z nx).nxt w
    = if w = x then z else if w = z then nx else c.nxt w := by
  unfold linkLeaf
  dsimp only
  rw [nxt_setNode]
  by_cases hw : w = x
  · rw [if_pos hw, if_pos hw]
    rfl
  · rw [if_neg hw, if_neg hw]
    split
    · rw [nxt_setNode, node_setNode]
      by_cases hnx : w = nx
      · rw [if_pos hnx, ← hnx]
        split <;> rfl
      · rw [if_neg hnx, nxt_setNode]
        rfl
    · rw [nxt_setNode]
      rfl

theorem prv_linkLeaf (hxz : x ≠ z) (hnz : nx ≠ z) (hne : nx ≠ ixNoPage) :
    (c.linkLeaf x z nx).prv w = if w = z then x else if w = nx then z else c.prv w := by
  unfold linkLeaf
  dsimp only
  rw [if_pos hne, prv_setNode]
  by_cases hw : w = x
  · rw [if_pos hw, hw, if_neg hxz]
    show prv _ x = _
    rw [prv_setNode, prv_setNode, if_neg hxz]
    rfl
  · rw [if_neg hw, prv_setNode, prv_setNode]
    by_cases hwz : w = z
    · rw [if_neg (fun heq => hnz (heq.symm.trans hwz)), if_pos hwz, if_pos hwz]
      rfl
    · rw [if_neg hwz, if_neg hwz]
      rfl

theorem nxt_unlinkLeaf : (c.unlinkLeaf x).nxt w = if w = c.prv x then c.nxt x else c.nxt w := by
  have h1 : ∀ u, (c.setNode (c.prv x) ((c.node (c.prv x)).setNextLeaf (c.nxt x))).nxt u
      = if u = c.prv x then c.nxt x else c.nxt u := fun u => nxt_setNode
  show (IxCore.setNode _ (c.nxt x) _).nxt w = _
  rw [nxt_setNode]
  by_cases h : w = c.nxt x
  · rw [if_pos h, h]
    exact h1 (c.nxt x)
  · rw [if_neg h]
    exact h1 w

theorem prv_unlinkLeaf : (c.unlinkLeaf x).prv w = if w = c.nxt x then c.prv x else c.prv w := by
  show (IxCore.setNode _ (c.nxt x) _).prv w = _
  rw [prv_setNode]
  by_cases h : w = c.nxt x
  · rw [if_pos h, if_pos h]
    rfl
  · rw [if_neg h, if_neg h]
    show (IxCore.setNode c (c.prv x) _).prv w = _
    rw [prv_setNode]
    by_cases h' : w = c.prv x
    · rw [if_pos h', h']
      rfl
    · rw [if_neg h']

theorem isSome_extend (h : (c.pages w).isSome) : (c.extend.pages w).isSome := by
  unfold extend
  dsimp only
  by_cases hw : w = (c.nextPageNo : Int)
  · rw [hw, Function.update_self]
    rfl
  · rw [Function.update_of_ne hw]
    exact h

/-! ## Splitting -/

/-- Where `Split` cuts. -/
def mid (v : NodeView κ) : Nat := (v.entries.length + 1) / 2

/-- What stays. -/
def lower (v : NodeView κ) : NodeView κ := { v with entries := v.entries.take (mid v) }

/-- What goes to the new node. -/
def upper (v : NodeView κ) : NodeView κ := { v with entries := v.entries.drop (mid v) }

theorem view_upperHalf : (upperHalf n).view = upper n.view := by
  have hpairs := IxNode.pairs_drop (n := n)
    (show (n.numKey + 1) / 2 + (n.numKey - (n.numKey + 1) / 2) = n.numKey by omega)
  have hent : (upperHalf n).entries = n.entries.drop ((n.numKey + 1) / 2) := by
    rw [upperHalf, IxNode.entries_insertPairs (Nat.zero_le _), hpairs]
    exact List.append_nil _
  unfold upper mid IxNode.view
  rw [hent, IxNode.length_entries]
  rfl

omit [Inhabited κ] in
theorem view_setSize_mid : (n.setSize ((n.numKey + 1) / 2)).view = lower n.view := by
  have hent := IxNode.entries_truncate (show (n.numKey + 1) / 2 ≤ n.numKey by omega)
  unfold lower mid IxNode.view
  rw [IxNode.length_entries]
  exact congrArg (fun es => (⟨es, n.isLeaf, n.parent⟩ : NodeView κ)) hent

theorem view_halved (hx : c.pages x = some n) :
    (c.halved x).view w = if w = x then some (lower n.view)
      else if w = c.nextPageNo then some (upper n.view) else c.view w := by
  rw [halved, node_of_some hx, view_setNode, view_setNode, view_extend, view_setSize_mid,
    view_upperHalf]
  by_cases h1 : w = x
  · rw [if_pos h1, if_pos h1]
  · rw [if_neg h1, if_neg h1]
    by_cases h2 : w = c.nextPageNo
    · rw [if_pos h2, if_pos h2]
    · rw [if_neg h2, if_neg h2, if_neg h2]

/-- What a split needs of the pages: the leaf to the right is there, no node is its own child,
and the next page number is unused. -/
structure CanSplit (c : IxCore κ) (x : Int) (n : IxNode κ) : Prop where
  here : c.pages x = some n
  lt : x < c.nextPageNo
  next : n.isLeaf = true → (c.pages n.nextLeaf).isSome
  kids : ∀ u ∈ names n.view.kids, (c.pages u).isSome ∧ u ≠ x ∧ u < c.nextPageNo

theorem isSome_halved (hw : (c.pages w).isSome) : ((c.halved x).pages w).isSome := isSome_setNode (isSome_setNode (isSome_extend hw))

/-- **`Split` as a change of views.** -/
theorem view_split (h : CanSplit c x n) :
    (c.split x).view w = if w = x then some (lower n.view)
      else if w = c.nextPageNo then some (upper n.view)
      else if w ∈ names (upper n.view).kids then (c.view w).map (·.under c.nextPageNo)
      else c.view w := by
  have hne : x ≠ (c.nextPageNo : Int) := by
    have := h.lt
    omega
  have hsub : ∀ u ∈ names (upper n.view).kids, u ∈ names n.view.kids := by
    intro u hu
    unfold NodeView.kids NodeView.kidsOf upper at hu
    unfold NodeView.kids NodeView.kidsOf
    cases hleaf : n.view.isLeaf with
    | true => simp [hleaf] at hu
    | false =>
        simp only [hleaf] at hu ⊢
        simp only [Bool.false_eq_true, if_false, names, List.map_map, List.mem_map] at hu ⊢
        obtain ⟨e, he, rfl⟩ := hu
        exact ⟨e, List.mem_of_mem_drop he, rfl⟩
  unfold split
  rw [node_of_some h.here]
  cases hleaf : n.isLeaf with
  | true =>
      have hnone : (upper n.view).kids = [] := NodeView.kids_of_leaf hleaf
      rw [if_pos rfl, view_linkLeaf (isSome_halved (by rw [h.here]; rfl)) ?_
        (fun _ => isSome_halved (h.next hleaf)), view_halved h.here, hnone]
      · simp
      · refine isSome_setNode ?_
        rw [setNode_pages_self]
        rfl
  | false =>
      have hmoved : (upperHalf n).entries.map (·.2.pageNo) = names (upper n.view).kids := by
        have hent : (upperHalf n).entries = (upper n.view).entries :=
          congrArg NodeView.entries view_upperHalf
        rw [hent, NodeView.kids_of_inner (v := upper n.view) hleaf, names, List.map_map]
        rfl
      rw [if_neg (by simp), hmoved, view_adopt, view_halved h.here]
      by_cases hw : w ∈ names (upper n.view).kids
      · obtain ⟨_, h1, h2⟩ := h.kids w (hsub w hw)
        rw [if_pos hw, if_neg h1, if_neg (by omega), if_neg h1, if_neg (by omega), if_pos hw]
      · rw [if_neg hw]
        by_cases h1 : w = x
        · rw [if_pos h1, if_pos h1]
        · rw [if_neg h1, if_neg h1]
          by_cases h2 : w = c.nextPageNo
          · rw [if_pos h2, if_pos h2]
          · rw [if_neg h2, if_neg h2, if_neg hw]

/-! ## Leaf links after a split -/

theorem nxt_split_inner (hleaf : (c.node x).isLeaf = false) (hw : w ≠ c.nextPageNo) :
    (c.split x).nxt w = c.nxt w := by
  unfold split
  rw [hleaf, if_neg (by simp), nxt_adopt, nxt_halved hw]

theorem prv_split_inner (hleaf : (c.node x).isLeaf = false) (hw : w ≠ c.nextPageNo) :
    (c.split x).prv w = c.prv w := by
  unfold split
  rw [hleaf, if_neg (by simp), prv_adopt, prv_halved hw]

theorem nxt_split_leaf (hleaf : (c.node x).isLeaf = true) :
    (c.split x).nxt w
      = if w = x then (c.nextPageNo : Int) else if w = c.nextPageNo then c.nxt x else c.nxt w := by
  unfold split
  rw [hleaf, if_pos rfl, nxt_linkLeaf]
  by_cases hwz : w = c.nextPageNo
  · rw [if_pos hwz, if_pos hwz]
    rfl
  · rw [if_neg hwz, if_neg hwz, nxt_halved hwz]

theorem prv_split_leaf (hleaf : (c.node x).isLeaf = true) (hxz : x ≠ c.nextPageNo)
    (hnz : c.nxt x ≠ c.nextPageNo) (hne : c.nxt x ≠ ixNoPage) :
    (c.split x).prv w
      = if w = c.nextPageNo then x else if w = c.nxt x then (c.nextPageNo : Int) else c.prv w := by
  unfold split
  rw [hleaf, if_pos rfl]
  show ((c.halved x).linkLeaf x c.nextPageNo (c.nxt x)).prv w = _
  rw [prv_linkLeaf hxz hnz hne]
  by_cases hwz : w = c.nextPageNo
  · rw [if_pos hwz, if_pos hwz]
  · rw [if_neg hwz, if_neg hwz, prv_halved hwz]

end IxCore

end Rucbase
