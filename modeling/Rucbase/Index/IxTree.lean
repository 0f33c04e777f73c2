import Mathlib.Algebra.BigOperators.Group.Finset.Piecewise
import Rucbase.Lib.Blocks
import Rucbase.Lib.Ring
import Rucbase.Index.IxView

/-!
# The shape of the tree

`Tree c h lay`: the pages of `c` hold a tree of height `h` whose layers are `lay`, with parents
that match, all leaves at the same depth, and the key of every entry that names an inner node
equal to that node's first key. Nothing is said about the order of keys: the shape is the same
whichever leaf a key was put into.

`Sizes` bounds the number of entries. While an insert or a delete is under way one node is
exempt from it. `LeafRing` is the circle of leaves and their header page, `nodes` counts the
nodes.
-/

namespace Rucbase

open Lib

/-- A header that differs from `h` in the root and the number of pages only. -/
def IxFileHdr.Alike (h h' : IxFileHdr) : Prop :=
  h' = { h with rootPage := h'.rootPage, numPages := h'.numPages }

theorem IxFileHdr.Alike.trans {h h' h'' : IxFileHdr} (h₁ : h.Alike h') (h₂ : h'.Alike h'') :
    h.Alike h'' := by
  obtain ⟨⟩ := h
  obtain ⟨⟩ := h'
  obtain ⟨⟩ := h''
  simp only [Alike, IxFileHdr.mk.injEq] at h₁ h₂ ⊢
  simp_all

theorem IxFileHdr.Alike.same {h h' : IxFileHdr} (ha : h.Alike h') : h'.btreeOrder = h.btreeOrder
    ∧ h'.firstLeaf = h.firstLeaf ∧ h'.lastLeaf = h.lastLeaf := by
  unfold Alike at ha
  rw [ha]
  exact ⟨rfl, rfl, rfl⟩

namespace IxCore

variable {κ : Type}

structure Tree (c : IxCore κ) (h : Nat) (lay : Nat → List (κ × Int)) : Prop where
  layered : Layered c.kids c.par c.hdr.rootPage h lay
  kind : ∀ j, j ≤ h → ∀ x ∈ names (lay j), ∃ v, c.view x = some v ∧ v.isLeaf = decide (j = 0)
  range : ∀ j, j ≤ h → ∀ x ∈ names (lay j), 2 ≤ x ∧ x < c.nextPageNo
  rootPar : c.par c.hdr.rootPage = ixNoPage
  labels : ∀ j, 1 ≤ j → j < h → ∀ e ∈ lay j, (c.kids e.2).head?.map Prod.fst = some e.1

/-- The leaves with their entries, each under the key of the entry that names it. -/
def blocks (c : IxCore κ) (lay : Nat → List (κ × Int)) : List (κ × List (κ × Rid)) :=
  (lay 0).map fun e => (e.1, c.cont e.2)

/-- A node of `size` entries is within bounds; the root may have fewer. -/
def SizeOk (c : IxCore κ) (j : Nat) (x : Int) : Prop :=
  (c.size x : Int) ≤ c.hdr.btreeOrder
    ∧ (x ≠ c.hdr.rootPage → c.hdr.minSize ≤ c.size x)
    ∧ (x = c.hdr.rootPage → 1 ≤ j → 2 ≤ c.size x)

/-- All nodes but those in `exempt` are within bounds. -/
def Sizes (c : IxCore κ) (h : Nat) (lay : Nat → List (κ × Int)) (exempt : List Int) : Prop :=
  3 ≤ c.hdr.btreeOrder ∧ ∀ j, j ≤ h → ∀ x ∈ names (lay j), x ∉ exempt → c.SizeOk j x

/-- The leaves `l` and the header page are linked in a circle. -/
structure LeafRing [Inhabited κ] (c : IxCore κ) (l : List Int) : Prop where
  header : (c.pages ixLeafHeaderPage).isSome
  ring : Ring c.nxt c.prv ixLeafHeaderPage l

/-- The number of nodes. -/
def nodes (h : Nat) (lay : Nat → List (κ × Int)) : Nat :=
  ∑ j ∈ Finset.range (h + 1), (lay j).length

variable {c c' : IxCore κ} {h j : Nat} {lay : Nat → List (κ × Int)} {x y p : Int}
  {P Q K₁ K₂ W W' : List (κ × Int)} {k : κ} {moved : List Int} {n : IxNode κ}

namespace Tree

theorem view_some (ht : Tree c h lay) (hj : j ≤ h) (hx : x ∈ names (lay j)) :
    ∃ n, c.pages x = some n ∧ n.isLeaf = decide (j = 0) := by
  obtain ⟨v, hv, hleaf⟩ := ht.kind j hj x hx
  obtain ⟨n, hn, rfl⟩ := pages_of_view hv
  exact ⟨n, hn, hleaf⟩

/-- A node above the leaves has its entries as children. -/
theorem kids_eq (ht : Tree c h lay) (hj : j < h) (hx : x ∈ names (lay (j + 1)))
    (hn : c.pages x = some n) : c.kids x = n.entries.map fun e => (e.1, e.2.pageNo) := by
  obtain ⟨v, hv, hleaf⟩ := ht.kind (j + 1) (by omega) x hx
  rw [view_of_pages hn, Option.some.injEq] at hv
  rw [kids_of_view (view_of_pages hn), NodeView.kids_of_inner]
  · rfl
  · rw [hv, hleaf]
    simp

/-- The nodes of the tree are those of the layers. -/
theorem mem_of_inTree (ht : Tree c h lay) (hx : c.InTree x) :
    ∃ j, j ≤ h ∧ x ∈ names (lay j) := by
  induction hx with
  | root _ => exact ⟨h, Nat.le_refl _, ht.layered.root_mem⟩
  | @child x n i _ hn hleaf hi ih =>
      obtain ⟨j, hj, hmem⟩ := ih
      obtain ⟨m, hm, hml⟩ := ht.view_some hj hmem
      rw [hn, Option.some.injEq] at hm
      rw [← hm, hleaf] at hml
      obtain ⟨l, rfl⟩ : ∃ l, j = l + 1 := ⟨j - 1, by simp at hml; omega⟩
      refine ⟨l, by omega, ht.layered.kid_mem (by omega) hmem ?_⟩
      rw [ht.kids_eq (by omega) hmem hn, names, List.map_map, List.mem_map]
      exact ⟨(n.keys i, n.rids i), List.mem_map.mpr ⟨i, List.mem_range.mpr hi, rfl⟩, rfl⟩

theorem below (ht : Tree c h lay) : c.Below := by
  obtain ⟨h1, h2⟩ := ht.range h (Nat.le_refl _) _ ht.layered.root_mem
  refine ⟨by omega, fun x hx => ?_⟩
  obtain ⟨j, hj, hmem⟩ := ht.mem_of_inTree hx
  exact (ht.range j hj x hmem).2

/-- Only the root has no parent. -/
theorem par_eq_noPage (ht : Tree c h lay) (hj : j ≤ h) (hx : x ∈ names (lay j)) :
    c.par x = ixNoPage ↔ j = h := by
  constructor
  · intro hpar
    by_contra hne
    obtain ⟨P, ky, Q, K₁, kx, K₂, hPQ, _⟩ := ht.layered.locate (by omega) hx
    have hmem : c.par x ∈ names (lay (j + 1)) := by
      rw [hPQ]
      simp
    have := (ht.range (j + 1) (by omega) _ hmem).1
    rw [hpar] at this
    exact absurd this (by decide)
  · rintro rfl
    rw [ht.layered.eq_root hx]
    exact ht.rootPar

theorem kids_mem (ht : Tree c h lay) (hj : j ≤ h) (hx : x ∈ names (lay j)) {u : Int}
    (hu : u ∈ names (c.kids x)) : ∃ i, i < h ∧ j = i + 1 ∧ u ∈ names (lay i) := by
  rcases Nat.eq_zero_or_pos j with h0 | hpos
  · rw [ht.layered.leaf x (h0 ▸ hx)] at hu
    exact absurd hu (by simp)
  · obtain ⟨i, rfl⟩ : ∃ i, j = i + 1 := ⟨j - 1, by omega⟩
    exact ⟨i, by omega, rfl, ht.layered.kid_mem (by omega) hx hu⟩

theorem isSome (ht : Tree c h lay) (hj : j ≤ h) (hx : x ∈ names (lay j)) :
    (c.pages x).isSome := by
  obtain ⟨n, hn, _⟩ := ht.view_some hj hx
  rw [hn]
  rfl

/-- A change of header fields that the tree does not depend on. -/
theorem congr_hdr (ht : Tree c h lay) (hpages : c'.pages = c.pages)
    (hroot : c'.hdr.rootPage = c.hdr.rootPage) (hnext : c'.nextPageNo = c.nextPageNo) :
    Tree c' h lay := by
  obtain ⟨hdr, pages, next⟩ := c
  obtain ⟨hdr', pages', next'⟩ := c'
  simp only at hpages hroot hnext
  subst hpages hnext
  exact ⟨hroot ▸ ht.layered, ht.kind, ht.range, hroot ▸ ht.rootPar, ht.labels⟩

end Tree

/-- The number of nodes after a layer was replaced. -/
theorem nodes_update (lay : Nat → List (κ × Int)) (hj : j ≤ h) (l : List (κ × Int)) :
    nodes h (Function.update lay j l) + (lay j).length = nodes h lay + l.length := by
  have hmem : j ∈ Finset.range (h + 1) := Finset.mem_range.mpr (by omega)
  have hcomp : (fun i => (Function.update lay j l i).length)
      = Function.update (fun i => (lay i).length) j l.length := by
    funext i
    by_cases hi : i = j
    · rw [hi, Function.update_self, Function.update_self]
    · rw [Function.update_of_ne hi, Function.update_of_ne hi]
  unfold nodes
  rw [hcomp, Finset.sum_update_of_mem hmem, Finset.sdiff_singleton_eq_erase,
    ← Finset.add_sum_erase _ _ hmem]
  omega

theorem nodes_succ (lay : Nat → List (κ × Int)) (h : Nat) : nodes (h + 1) lay = nodes h lay + (lay (h + 1)).length :=
  Finset.sum_range_succ ..

theorem nodes_congr {lay' : Nat → List (κ × Int)} (hl : ∀ i, i ≤ h → (lay' i).length = (lay i).length) :
    nodes h lay' = nodes h lay :=
  Finset.sum_congr rfl (fun i hi => hl i (by rw [Finset.mem_range] at hi; omega))

/-- A change of the pages that rewrites the window `W` among the children of `y` to `W'`; the
pages in `moved` get the parent `p`. -/
structure Reshapes (c c' : IxCore κ) (h : Nat) (lay : Nat → List (κ × Int)) (j : Nat) (y : Int)
    (K₁ K₂ W W' : List (κ × Int)) (moved : List Int) (p : Int) : Prop where
  root : c'.hdr.rootPage = c.hdr.rootPage
  next : c.nextPageNo ≤ c'.nextPageNo
  parent : ∃ v, c'.view y = some v ∧ v.isLeaf = false ∧ v.kids = K₁ ++ W' ++ K₂
    ∧ v.parent = c.par y
  nodes : ∀ w ∈ names W', (∃ v, c'.view w = some v ∧ v.isLeaf = decide (j = 0) ∧ v.parent = y)
    ∧ 2 ≤ w ∧ w < c'.nextPageNo
  other : ∀ i, i ≤ h → ∀ w ∈ names (lay i), w ≠ y → w ∉ names W' →
    c'.view w = if w ∈ moved then (c.view w).map (·.under p) else c.view w
  same : Lib.below c'.kids W' = Lib.below c.kids W
  nodup : (names W').Nodup
  fresh : ∀ w ∈ names W', w ∈ names W ∨ ∀ i, i ≤ h → w ∉ names (lay i)
  moved_below : ∀ u ∈ moved, u ∈ names (Lib.below c.kids W)
  adopted : ∀ w ∈ names W', ∀ u ∈ names (c'.kids w), if u ∈ moved then p = w else c.par u = w
  head : W'.head?.map Prod.fst = W.head?.map Prod.fst
  labels : 1 ≤ j → ∀ e ∈ W', (c'.kids e.2).head?.map Prod.fst = some e.1

namespace Reshapes

variable (hr : Reshapes c c' h lay j y K₁ K₂ W W' moved p)

include hr

theorem agree_other {i : Nat} (hi : i ≤ h) (hx : x ∈ names (lay i)) (hxy : x ≠ y)
    (hxW : x ∉ names W') : Agree c c' x := by
  have hview := hr.other i hi x hx hxy hxW
  by_cases hm : x ∈ moved
  · rw [if_pos hm] at hview
    exact .of_under hview
  · rw [if_neg hm] at hview
    exact .of_view hview

theorem par_other {i : Nat} (hi : i ≤ h) (hx : x ∈ names (lay i)) (hxy : x ≠ y)
    (hxW : x ∉ names W') (hm : x ∉ moved) : c'.par x = c.par x := by
  unfold par
  rw [hr.other i hi x hx hxy hxW, if_neg hm]

theorem par_moved {i : Nat} (hi : i ≤ h) (hx : x ∈ names (lay i)) (hxy : x ≠ y)
    (hxW : x ∉ names W') (hm : x ∈ moved) (hv : (c.view x).isSome) : c'.par x = p := by
  obtain ⟨v, hv⟩ := Option.isSome_iff_exists.mp hv
  unfold par
  rw [hr.other i hi x hx hxy hxW, if_pos hm, hv]
  rfl

end Reshapes

section

variable (ht : Tree c h lay) (hj : j < h) (hy : lay (j + 1) = P ++ (k, y) :: Q)
  (hK : c.kids y = K₁ ++ W ++ K₂) (hr : Reshapes c c' h lay j y K₁ K₂ W W' moved p)

include ht hj hy hK hr

/-- The change, as one of children and parents only. -/
theorem Reshapes.rewrites : Rewrites c.kids c'.kids c.par c'.par h lay y W W' := by
  have hymem : y ∈ names (lay (j + 1)) := by
    rw [hy]
    simp
  have hWj : ∀ w ∈ names W, w ∈ names (lay j) := by
    intro w hw
    refine ht.layered.kid_mem hj hymem ?_
    rw [hK, Layered.mem_rewritten]
    exact .inl hw
  have hold : ∀ i, i ≤ h → ∀ w ∈ names (lay i), w ∈ names W' → i = j := by
    intro i hi w hw hw'
    have hwW := (hr.fresh w hw').resolve_right (fun hn => hn i hi hw)
    exact ht.layered.apart i j hi (by omega) w hw (hWj w hwW)
  constructor
  case other => exact fun i hi w hw hwy _ hw' => (hr.agree_other hi hw hwy hw').kids
  case same => exact hr.same
  case nodup => exact hr.nodup
  case fresh => exact hr.fresh
  case hung =>
    intro w hw
    obtain ⟨⟨v, hv, _, hpar⟩, _⟩ := hr.nodes w hw
    rw [par_of_view hv, hpar]
  case adopted =>
    intro w hw u hu
    have hbelow : u ∈ names (Lib.below c.kids W) := by
      rw [← hr.same]
      exact mem_names_below.mpr ⟨w, hw, hu⟩
    -- `u` is one layer below the window, so it is neither in it nor above it
    obtain ⟨w₀, hw₀, hu₀⟩ := mem_names_below.mp hbelow
    rcases Nat.eq_zero_or_pos j with h0 | hpos
    · rw [ht.layered.leaf w₀ (h0 ▸ hWj w₀ hw₀)] at hu₀
      exact absurd hu₀ (by simp)
    · obtain ⟨m, rfl⟩ : ∃ m, j = m + 1 := ⟨j - 1, by omega⟩
      have hum : u ∈ names (lay m) := ht.layered.kid_mem (by omega) (hWj w₀ hw₀) hu₀
      have huy : u ≠ y := ht.layered.ne_of_lt (by omega) (by omega) hum hymem
      have huW : u ∉ names W' := by
        intro hmem
        have := hold m (by omega) u hum hmem
        omega
      have hadopted := hr.adopted w hw u hu
      by_cases hm : u ∈ moved
      · rw [if_pos hm] at hadopted
        obtain ⟨v, hv, _⟩ := ht.kind m (by omega) u hum
        rw [hr.par_moved (by omega) hum huy huW hm (by rw [hv]; rfl), hadopted]
      · rw [if_neg hm] at hadopted
        rw [hr.par_other (by omega) hum huy huW hm, hadopted]
  case kept =>
    intro i hi w hw hwW hbelow
    by_cases hwy : w = y
    · obtain ⟨v, hv, _, _, hpar⟩ := hr.parent
      rw [hwy, par_of_view hv, hpar]
    · refine hr.par_other hi hw hwy hwW (fun hm => hbelow ?_)
      rw [hr.same]
      exact hr.moved_below w hm

omit hK in
theorem Reshapes.kind_kept {i : Nat} (hi : i ≤ h) (hx : x ∈ names (lay i)) (hxW : x ∉ names W') :
    ∃ v, c'.view x = some v ∧ v.isLeaf = decide (i = 0) := by
  by_cases hxy : x = y
  · obtain ⟨v, hv, hleaf, _⟩ := hr.parent
    have hij : i = j + 1 := by
      refine ht.layered.apart i (j + 1) hi (by omega) x hx ?_
      rw [hxy, hy]
      simp
    refine ⟨v, by rw [hxy, hv], ?_⟩
    rw [hleaf, hij]
    simp
  · obtain ⟨v, hv, hleaf⟩ := ht.kind i hi x hx
    rw [hr.other i hi x hx hxy hxW, hv]
    split
    · exact ⟨v.under p, rfl, hleaf⟩
    · exact ⟨v, rfl, hleaf⟩

/-- An entry of the new layers is in the window, or it is an old one that is not. -/
theorem Reshapes.entry_cases {i : Nat} {e : κ × Int} (hi : i ≤ h) (he : e ∈ Function.update lay j
      ((Lib.below c.kids P ++ K₁) ++ W' ++ (K₂ ++ Lib.below c.kids Q)) i) :
    (i = j ∧ e ∈ W') ∨ (e ∈ lay i ∧ e.2 ∉ names W') := by
  have hrw := hr.rewrites ht hj hy hK
  have hcut : lay j = (Lib.below c.kids P ++ K₁) ++ W ++ (K₂ ++ Lib.below c.kids Q) :=
    ht.layered.layer_cut hj hy hK
  by_cases hij : i = j
  · rw [hij, Function.update_self, List.mem_append, List.mem_append] at he
    rcases he with (he | he) | he
    · refine .inr ⟨?_, fun hW => ?_⟩
      · rw [hij, hcut]
        exact List.mem_append_left _ (List.mem_append_left _ he)
      · exact (ht.layered.window_disjoint hrw (by omega) hcut hW).1 (List.mem_map_of_mem he)
    · exact .inl ⟨hij, he⟩
    · refine .inr ⟨?_, fun hW => ?_⟩
      · rw [hij, hcut]
        exact List.mem_append_right _ he
      · exact (ht.layered.window_disjoint hrw (by omega) hcut hW).2 (List.mem_map_of_mem he)
  · rw [Function.update_of_ne hij] at he
    refine .inr ⟨he, fun hW => ?_⟩
    have hmem : e.2 ∈ names (lay i) := List.mem_map_of_mem he
    have hold := hrw.old hi hmem hW
    exact hij (ht.layered.apart i j hi (by omega) e.2 hmem
      ((Layered.mem_cut hcut).mpr (.inr (.inl hold))))

/-- **The tree after a window was rewritten.** -/
theorem Tree.reshape : Tree c' h
    (Function.update lay j ((Lib.below c.kids P ++ K₁) ++ W' ++ (K₂ ++ Lib.below c.kids Q))) := by
  have hrw := hr.rewrites ht hj hy hK
  obtain ⟨vy, hvy, hyleaf, hykids, hypar⟩ := hr.parent
  have hcut : lay j = (Lib.below c.kids P ++ K₁) ++ W ++ (K₂ ++ Lib.below c.kids Q) :=
    ht.layered.layer_cut hj hy hK
  have hymem : y ∈ names (lay (j + 1)) := by
    rw [hy]
    simp
  have hwhere := fun i (hi : i ≤ h) e he => hr.entry_cases ht hj hy hK (i := i) (e := e) hi he
  -- a node of the new layers is in the window or is an old one outside it
  have hnode : ∀ i, i ≤ h → ∀ x ∈ names (Function.update lay j
      ((Lib.below c.kids P ++ K₁) ++ W' ++ (K₂ ++ Lib.below c.kids Q)) i),
      (i = j ∧ x ∈ names W') ∨ (x ∈ names (lay i) ∧ x ∉ names W') := by
    intro i hi x hx
    obtain ⟨e, he, rfl⟩ := List.mem_map.mp hx
    rcases hwhere i hi e he with ⟨h1, h2⟩ | ⟨h1, h2⟩
    · exact .inl ⟨h1, List.mem_map_of_mem h2⟩
    · exact .inr ⟨List.mem_map_of_mem h1, h2⟩
  constructor
  case layered =>
    rw [hr.root]
    exact ht.layered.window hj hy hK (by rw [kids_of_view hvy, hykids]) hrw
  case kind =>
    intro i hi x hx
    rcases hnode i hi x hx with ⟨rfl, hW⟩ | ⟨hmem, hW⟩
    · obtain ⟨⟨v, hv, hleaf, _⟩, _⟩ := hr.nodes x hW
      exact ⟨v, hv, hleaf⟩
    · exact hr.kind_kept ht hj hy hi hmem hW
  case range =>
    intro i hi x hx
    rcases hnode i hi x hx with ⟨rfl, hW⟩ | ⟨hmem, _⟩
    · exact (hr.nodes x hW).2
    · have h1 := ht.range i hi x hmem
      have h2 := hr.next
      omega
  case rootPar =>
    rw [hr.root, ← ht.rootPar]
    have hroot := ht.layered.root_mem
    have hrW : c.hdr.rootPage ∉ names W' := by
      intro hmem
      have hW := hrw.old (Nat.le_refl _) hroot hmem
      have := ht.layered.apart h j (Nat.le_refl _) (by omega) _ hroot
        ((Layered.mem_cut hcut).mpr (.inr (.inl hW)))
      omega
    by_cases hroot_y : c.hdr.rootPage = y
    · rw [hroot_y, par_of_view hvy, hypar]
    · refine hr.par_other (Nat.le_refl _) hroot hroot_y hrW (fun hm => ?_)
      have := ht.layered.below_window_level (by omega) hcut (Nat.le_refl _) hroot
        (hr.moved_below _ hm)
      omega
  case labels =>
    intro i h1 hi e he
    rcases hwhere i (by omega) e he with ⟨rfl, hW⟩ | ⟨hmem, hW⟩
    · exact hr.labels h1 e hW
    · have hlabel := ht.labels i h1 hi e hmem
      by_cases hey : e.2 = y
      · rw [hey, kids_of_view hvy, hykids]
        rw [hey, hK] at hlabel
        rw [← hlabel]
        -- the first child keeps its key, in the window or before it
        cases K₁ with
        | cons a K₁ => rfl
        | nil =>
            have hhead := hr.head
            cases W' with
            | cons a W' =>
                cases W with
                | cons b W => exact hhead
                | nil => exact absurd hhead (by simp)
            | nil =>
                cases W with
                | cons b W => exact absurd hhead (by simp)
                | nil => rfl
      · rw [(hr.agree_other (by omega) (List.mem_map_of_mem hmem) hey hW).kids, hlabel]

/-- Among the leaves, it rewrites a window of the blocks. -/
theorem Reshapes.blocks_zero (h0 : j = 0) : c'.blocks (Function.update lay j
    ((Lib.below c.kids P ++ K₁) ++ W' ++ (K₂ ++ Lib.below c.kids Q)))
      = (Lib.below c.kids P ++ K₁).map (fun e => (e.1, c.cont e.2))
        ++ W'.map (fun e => (e.1, c'.cont e.2))
        ++ (K₂ ++ Lib.below c.kids Q).map (fun e => (e.1, c.cont e.2)) := by
  have hrw := hr.rewrites ht hj hy hK
  have hcut : lay j = (Lib.below c.kids P ++ K₁) ++ W ++ (K₂ ++ Lib.below c.kids Q) :=
    ht.layered.layer_cut hj hy hK
  have hyj : y ∉ names (lay j) := by
    intro hmem
    exact ht.layered.ne_of_lt (Nat.lt_succ_self j) (by omega) hmem (by rw [hy]; simp) rfl
  -- beside the window the leaves are as they were
  have hside : ∀ e, (e ∈ Lib.below c.kids P ++ K₁ ∨ e ∈ K₂ ++ Lib.below c.kids Q) →
      (e.1, c'.cont e.2) = (e.1, c.cont e.2) := by
    intro e he
    have hmem : e.2 ∈ names (lay j) := by
      rw [Layered.mem_cut hcut]
      exact he.elim (fun h => .inl (List.mem_map_of_mem h))
        (fun h => .inr (.inr (List.mem_map_of_mem h)))
    have hW : e.2 ∉ names W' := by
      intro hW
      obtain ⟨hA, hB⟩ := ht.layered.window_disjoint hrw (by omega) hcut hW
      exact he.elim (fun h => hA (List.mem_map_of_mem h)) (fun h => hB (List.mem_map_of_mem h))
    rw [(hr.agree_other (by omega) hmem (fun heq => hyj (heq ▸ hmem)) hW).cont]
  subst h0
  unfold blocks
  rw [Function.update_self, List.map_append, List.map_append,
    List.map_congr_left (fun e he => hside e (.inl he)),
    List.map_congr_left (l := K₂ ++ _) (fun e he => hside e (.inr he))]

omit hr in
theorem blocks_cut (h0 : j = 0) : c.blocks lay
    = (Lib.below c.kids P ++ K₁).map (fun e => (e.1, c.cont e.2))
      ++ W.map (fun e => (e.1, c.cont e.2))
      ++ (K₂ ++ Lib.below c.kids Q).map (fun e => (e.1, c.cont e.2)) := by
  have hcut : lay j = (Lib.below c.kids P ++ K₁) ++ W ++ (K₂ ++ Lib.below c.kids Q) :=
    ht.layered.layer_cut hj hy hK
  subst h0
  unfold blocks
  rw [hcut, List.map_append, List.map_append]

/-- **The sizes after a window was rewritten.** -/
theorem Sizes.reshape {exempt exempt' : List Int} (hs : Sizes c h lay exempt)
    (horder : c'.hdr.btreeOrder = c.hdr.btreeOrder)
    (hW : ∀ w ∈ names W', w ∉ exempt' → c'.SizeOk j w)
    (hy' : y ∉ exempt' → c'.SizeOk (j + 1) y)
    (hexempt : ∀ w ∈ exempt, w ∈ names W' ∨ w = y ∨ w ∈ exempt' ∨ ∀ i, i ≤ h → w ∉ names
      (Function.update lay j
        ((Lib.below c.kids P ++ K₁) ++ W' ++ (K₂ ++ Lib.below c.kids Q)) i)) :
    Sizes c' h (Function.update lay j
      ((Lib.below c.kids P ++ K₁) ++ W' ++ (K₂ ++ Lib.below c.kids Q))) exempt' := by
  refine ⟨horder ▸ hs.1, fun i hi x hx hxe => ?_⟩
  obtain ⟨e, he, rfl⟩ := List.mem_map.mp hx
  rcases hr.entry_cases ht hj hy hK hi he with ⟨rfl, heW⟩ | ⟨hmem, heW⟩
  · exact hW e.2 (List.mem_map_of_mem heW) hxe
  · have hmem' : e.2 ∈ names (lay i) := List.mem_map_of_mem hmem
    by_cases hey : e.2 = y
    · have hij : i = j + 1 := by
        refine ht.layered.apart i (j + 1) hi (by omega) e.2 hmem' ?_
        rw [hey, hy]
        simp
      rw [hey, hij]
      exact hy' (hey ▸ hxe)
    · have hnot : e.2 ∉ exempt := by
        intro hin
        rcases hexempt e.2 hin with h1 | h1 | h1 | h1
        · exact heW h1
        · exact hey h1
        · exact hxe h1
        · exact h1 i hi hx
      have hold := hs.2 i hi e.2 hmem' hnot
      unfold SizeOk IxFileHdr.minSize IxFileHdr.maxSize at hold ⊢
      rw [(hr.agree_other hi hmem' hey heW).size, hr.root, horder]
      exact hold

end

end IxCore

end Rucbase
