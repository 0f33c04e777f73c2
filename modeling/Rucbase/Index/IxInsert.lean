import Rucbase.Index.IxTree

/-!
# Splitting keeps the tree

`Split` and `InsertIntoParent`. A node with one entry too many is cut in two, and its upper half
is hung behind it: below the same parent, or below a new root. Then the parent may have one
entry too many. Which keys there are, and where, plays no role.
-/

namespace Rucbase

open Lib

namespace IxCore

variable {κ : Type}

/-- The new node `z` entered in `y` behind the entry at `idx`, with `y` as its parent. -/
def linkUp [Inhabited κ] (c : IxCore κ) (y : Int) (idx : Nat) (key : κ) (z : Int) : IxCore κ :=
  (c.setNode y ((c.node y).insertPair (idx + 1) key ⟨z, -1⟩)).setNode z ((c.node z).setParent y)

variable {c : IxCore κ} {h j : Nat} {lay : Nat → List (κ × Int)} {x y : Int}
  {P Q K₁ K₂ : List (κ × Int)} {kx ky key : κ} {n : IxNode κ}

theorem Tree.canSplit [Inhabited κ] (ht : Tree c h lay) (hj : j ≤ h) (hx : x ∈ names (lay j))
    (hn : c.pages x = some n) (hnext : j = 0 → (c.pages (c.nxt x)).isSome) : CanSplit c x n := by
  obtain ⟨m, hm, hleaf⟩ := ht.view_some hj hx
  rw [hn, Option.some.injEq] at hm
  rw [← hm] at hleaf
  refine ⟨hn, (ht.range j hj x hx).2, ?_, ?_⟩
  · intro hl
    rw [hl] at hleaf
    have := hnext (by simpa using hleaf.symm)
    rwa [nxt, node_of_some hn] at this
  · intro u hu
    rw [← kids_of_view (view_of_pages hn)] at hu
    obtain ⟨i, hi, rfl, hmem⟩ := ht.kids_mem hj hx hu
    exact ⟨ht.isSome (by omega) hmem, ht.layered.ne_of_lt (Nat.lt_succ_self i) hj hmem hx,
      (ht.range i (by omega) u hmem).2⟩

/-- The two halves are the node. -/
theorem kids_halves (v : NodeView κ) : (lower v).kids ++ (upper v).kids = v.kids := by
  show NodeView.kidsOf v.isLeaf (v.entries.take _) ++ NodeView.kidsOf v.isLeaf (v.entries.drop _) = _
  rw [← NodeView.kidsOf_append, List.take_append_drop]
  rfl

theorem entries_halves (v : NodeView κ) : (lower v).entries ++ (upper v).entries = v.entries :=
  List.take_append_drop _ _

/-- The children after an entry was put behind the one at `K₁.length`. -/
theorem kids_insertPair {ny : IxNode κ} {z : Int} (hleaf : ny.isLeaf = false)
    (hkids : ny.view.kids = K₁ ++ [(kx, x)] ++ K₂) :
    (ny.insertPair (K₁.length + 1) key ⟨z, -1⟩).view.kids = K₁ ++ [(kx, x), (key, z)] ++ K₂ := by
  have hleaf' : (ny.insertPair (K₁.length + 1) key ⟨z, -1⟩).view.isLeaf = false := hleaf
  rw [NodeView.kids_of_inner hleaf] at hkids
  have hlen : ny.numKey = K₁.length + 1 + K₂.length := by
    have := congrArg List.length hkids
    simp only [List.length_map, List.length_append, List.length_singleton] at this
    rw [← IxNode.length_entries]
    exact this
  have hent : (ny.insertPair (K₁.length + 1) key ⟨z, -1⟩).view.entries
      = ny.entries.take (K₁.length + 1) ++ (key, ⟨z, -1⟩) :: ny.entries.drop (K₁.length + 1) :=
    IxNode.entries_insertPair (by omega)
  have hkids' : ny.entries.map (fun e => (e.1, e.2.pageNo)) = (K₁ ++ [(kx, x)]) ++ K₂ := hkids
  rw [NodeView.kids_of_inner hleaf', hent, List.map_append, List.map_cons, List.map_take,
    List.map_drop, hkids', List.take_left' (by simp), List.drop_left' (by simp)]
  simp

/-- The first child of a node is the first child of its lower half. -/
theorem lower_head {v : NodeView κ} (hbig : 1 ≤ v.entries.length) :
    (lower v).kids.head? = v.kids.head? := by
  unfold NodeView.kids NodeView.kidsOf lower mid
  cases v.isLeaf with
  | true => rfl
  | false =>
      simp only [Bool.false_eq_true, if_false, List.head?_map]
      rw [List.head?_take, if_neg (by omega)]

/-- The keys of the two halves are those of their first children. -/
theorem head_halves {m : IxNode κ} {v : NodeView κ} (hm : m.view = v) (hsize : 0 < v.entries.length)
    (hleaf : v.isLeaf = false) : v.kids.head?.map Prod.fst = some (m.keys 0) := by
  subst hm
  exact IxNode.kids_head hleaf (lt_of_lt_of_eq hsize IxNode.length_entries)

theorem length_lower {v : NodeView κ} :
    (lower v).entries.length = (v.entries.length + 1) / 2 := by
  show (v.entries.take ((v.entries.length + 1) / 2)).length = _
  rw [List.length_take]
  omega

theorem length_upper {v : NodeView κ} :
    (upper v).entries.length = v.entries.length - (v.entries.length + 1) / 2 :=
  List.length_drop ..

/-- Both halves of a node with one entry too many are within bounds. -/
theorem sizeOk_halves {c' : IxCore κ} {v v' : NodeView κ} {w z : Int}
    (hfull : (n.numKey : Int) = c.hdr.btreeOrder + 1) (horder : 3 ≤ c.hdr.btreeOrder) (hhdr : c'.hdr.btreeOrder = c.hdr.btreeOrder)
    (hw : c'.view w = some v) (hv : v.entries = (lower n.view).entries)
    (hz : c'.view z = some v') (hv' : v'.entries = (upper n.view).entries)
    (hwr : w ≠ c'.hdr.rootPage) (hzr : z ≠ c'.hdr.rootPage) :
    c'.SizeOk j w ∧ c'.SizeOk j z := by
  have hlen : n.view.entries.length = n.numKey := IxNode.length_entries
  unfold SizeOk IxFileHdr.minSize IxFileHdr.maxSize
  rw [size_of_view hw, size_of_view hz, hv, hv', length_lower, length_upper, hlen, hhdr]
  refine ⟨⟨by omega, fun _ => by omega, fun h => absurd h hwr⟩,
    by omega, fun _ => by omega, fun h => absurd h hzr⟩

/-- The parent is within bounds: nothing is exempt any more. -/
theorem Sizes.settle (hs : Sizes c h lay [y]) (hy : ∀ i, i ≤ h → y ∈ names (lay i) → c.SizeOk i y) :
    Sizes c h lay [] := by
  refine ⟨hs.1, fun i hi w hw _ => ?_⟩
  by_cases hwy : w = y
  · rw [hwy] at hw ⊢
    exact hy i hi hw
  · exact hs.2 i hi w hw (by simpa using hwy)

/-- Nodes with the same entries have the same size. -/
theorem size_eq_numKey (hn : c.pages x = some n) : c.size x = n.numKey := by
  rw [size_of_view (view_of_pages hn)]
  exact IxNode.length_entries

/-- The slot at which a parent has a child. -/
theorem findChild_kids {ny : IxNode κ} (hleaf : ny.isLeaf = false)
    (hK : ny.view.kids = K₁ ++ (kx, x) :: K₂) (hnd : (names ny.view.kids).Nodup) :
    ny.findChild x = some K₁.length := by
  rw [hK, names, List.map_append, List.nodup_append] at hnd
  rw [NodeView.kids_of_inner hleaf] at hK
  obtain ⟨L₁, L, hL, hL₁, hL'⟩ := List.map_eq_append_iff.mp hK
  obtain ⟨e, L₂, rfl, he, _⟩ := List.map_eq_cons_iff.mp hL'
  rw [← hL₁, List.length_map]
  refine IxNode.findChild_eq hL (congrArg Prod.snd he) (fun f hf heq => ?_)
  refine hnd.2.2 x ?_ x (by simp) rfl
  rw [← hL₁, List.map_map, List.mem_map]
  exact ⟨f, hf, heq⟩

variable [Inhabited κ]

/-- After a split everything in the tree is still below the counter. -/
theorem Tree.below_split (ht : Tree c h lay) (hj : j ≤ h) (hx : x ∈ names (lay j))
    (hcs : CanSplit c x n) : (c.split x).Below := by
  have hn := hcs.here
  have hroot : (c.split x).hdr.rootPage = c.hdr.rootPage := by
    rw [hdr_split.1]
  have hxk : ∀ u ∈ names n.view.kids, ∃ i, i ≤ h ∧ u ∈ names (lay i) := by
    intro u hu
    rw [← kids_of_view (view_of_pages hn)] at hu
    obtain ⟨i, hi, _, hmem⟩ := ht.kids_mem hj hx hu
    exact ⟨i, by omega, hmem⟩
  have hlow : ∀ u ∈ names (lower n.view).kids, u ∈ names n.view.kids := by
    intro u hu
    rw [← kids_halves n.view, names, List.map_append]
    exact List.mem_append_left _ hu
  have hupp : ∀ u ∈ names (upper n.view).kids, u ∈ names n.view.kids := by
    intro u hu
    rw [← kids_halves n.view, names, List.map_append]
    exact List.mem_append_right _ hu
  -- the nodes reached are old ones or the new one
  have hreach : ∀ w, (c.split x).InTree w →
      (∃ i, i ≤ h ∧ w ∈ names (lay i)) ∨ w = c.nextPageNo := by
    intro w hw
    induction hw with
    | root _ =>
        rw [hroot]
        exact .inl ⟨h, Nat.le_refl _, ht.layered.root_mem⟩
    | @child w m i _ hm hleaf hi ih =>
        have hmk : (m.rids i).pageNo ∈ names m.view.kids := by
          rw [NodeView.kids_of_inner hleaf, names, List.map_map, List.mem_map]
          exact ⟨(m.keys i, m.rids i), List.mem_map.mpr ⟨i, List.mem_range.mpr hi, rfl⟩, rfl⟩
        have hv := view_of_pages hm
        rw [view_split hcs] at hv
        by_cases h1 : w = x
        · rw [if_pos h1, Option.some.injEq] at hv
          rw [← hv] at hmk
          exact .inl (hxk _ (hlow _ hmk))
        · rw [if_neg h1] at hv
          by_cases h2 : w = c.nextPageNo
          · rw [if_pos h2, Option.some.injEq] at hv
            rw [← hv] at hmk
            exact .inl (hxk _ (hupp _ hmk))
          · rw [if_neg h2] at hv
            obtain ⟨i', hi', hmem⟩ := ih.resolve_right h2
            have hkids : m.view.kids = c.kids w := by
              unfold kids
              split at hv
              · obtain ⟨v, hv', hvm⟩ := Option.map_eq_some_iff.mp hv
                rw [hv', ← hvm]
                rfl
              · rw [hv]
                rfl
            rw [hkids] at hmk
            obtain ⟨l, hl, _, hmem'⟩ := ht.kids_mem hi' hmem hmk
            exact .inl ⟨l, by omega, hmem'⟩
  have h2 := ht.below.1
  refine ⟨by rw [hdr_split.2]; omega, fun w hw => ?_⟩
  rw [hdr_split.2]
  rcases hreach w hw with ⟨i, hi, hmem⟩ | rfl
  · have := (ht.range i hi w hmem).2
    push_cast
    omega
  · push_cast
    omega

/-! ## The upper half below the same parent -/

theorem view_linkUp {ny nz : IxNode κ} {z w : Int} (idx : Nat) (key : κ)
    (hy : c.pages y = some ny) (hz : c.pages z = some nz) : (c.linkUp y idx key z).view w
      = if w = z then some (nz.view.under y)
        else if w = y then some (ny.insertPair (idx + 1) key ⟨z, -1⟩).view else c.view w := by
  rw [linkUp, node_of_some hy, node_of_some hz, view_setNode, view_setNode]
  rfl

theorem nxt_linkUp {w z : Int} {idx : Nat} :
    (c.linkUp y idx key z).nxt w = c.nxt w := by
  rw [linkUp, nxt_setNode]
  split
  · next h => rw [h]; rfl
  · rw [nxt_setNode]
    split
    · next h => rw [h]; rfl
    · rfl

theorem prv_linkUp {w z : Int} {idx : Nat} :
    (c.linkUp y idx key z).prv w = c.prv w := by
  rw [linkUp, prv_setNode]
  split
  · next h => rw [h]; rfl
  · rw [prv_setNode]
    split
    · next h => rw [h]; rfl
    · rfl

/-- The first key of the upper half is the key that goes into the parent. -/
theorem upper_head (hcs : CanSplit c x n) (hbig : 2 ≤ n.numKey) :
    ∃ nz, (c.split x).pages c.nextPageNo = some nz ∧ nz.view = upper n.view
      ∧ (upper n.view).entries.head? = some (nz.keys 0, nz.rids 0) := by
  have hne : (c.nextPageNo : Int) ≠ x := by
    have := hcs.lt
    omega
  obtain ⟨nz, hnz, hview⟩ := pages_of_view (c := c.split x) (w := c.nextPageNo)
    (v := upper n.view) (by rw [view_split hcs, if_neg hne, if_pos rfl])
  refine ⟨nz, hnz, hview, ?_⟩
  rw [← hview]
  refine IxNode.entries_head ?_
  rw [← IxNode.length_entries, show nz.entries = (upper n.view).entries from
    congrArg NodeView.entries hview]
  unfold upper mid
  rw [List.length_drop]
  show 0 < n.entries.length - (n.entries.length + 1) / 2
  rw [IxNode.length_entries]
  omega

/-- The key the new node is entered under. -/
def newKey (c : IxCore κ) (x : Int) : κ := ((c.split x).node c.nextPageNo).keys 0

/-- `x` split, and the new node entered in `y` behind it. -/
def hang (c : IxCore κ) (x y : Int) (idx : Nat) : IxCore κ :=
  (c.split x).linkUp y idx (c.newKey x) c.nextPageNo

section

variable (ht : Tree c h lay) (hj : j < h) (hy : lay (j + 1) = P ++ (ky, y) :: Q)
  (hK : c.kids y = K₁ ++ [(kx, x)] ++ K₂) (hcs : CanSplit c x n)

include ht hj hy hK hcs

omit [Inhabited κ] in
/-- Where the split node, its parent and the page to come are. -/
theorem Tree.site : y ∈ names (lay (j + 1)) ∧ x ∈ names (lay j) ∧ y ≠ x ∧ x ≠ c.nextPageNo
    ∧ y ≠ c.nextPageNo ∧ y ∉ names (upper n.view).kids ∧ n.parent = y
    ∧ n.isLeaf = decide (j = 0) := by
  have hn := hcs.here
  have hymem : y ∈ names (lay (j + 1)) := by
    rw [hy]
    simp
  have hxy : x ∈ names (c.kids y) := by
    rw [hK]
    simp
  have hxmem : x ∈ names (lay j) := ht.layered.kid_mem hj hymem hxy
  obtain ⟨m, hm, hleaf⟩ := ht.view_some (by omega) hxmem
  obtain rfl : n = m := Option.some.inj (hn.symm.trans hm)
  have hyrange := ht.range (j + 1) (by omega) y hymem
  have hxrange := ht.range j (by omega) x hxmem
  refine ⟨hymem, hxmem, ?_, by omega, by omega, ?_, ?_, hleaf⟩
  · exact (ht.layered.ne_of_lt (Nat.lt_succ_self j) hj hxmem hymem).symm
  · intro hu
    have hu' : y ∈ names (c.kids x) := by
      rw [kids_of_view (view_of_pages hn), ← kids_halves n.view, names, List.map_append]
      exact List.mem_append_right _ hu
    obtain ⟨i, hi, hji, hmem⟩ := ht.kids_mem (by omega) hxmem hu'
    exact ht.layered.ne_of_lt (by omega) hj hmem hymem rfl
  · rw [← ht.layered.parent j hj y hymem x hxy, par_of_view (view_of_pages hn)]
    rfl

/-- The two halves and their parent. -/
theorem Tree.view_hang (hbig : 2 ≤ n.numKey) :
    (c.hang x y K₁.length).view x = some (lower n.view)
      ∧ (c.hang x y K₁.length).view c.nextPageNo = some ((upper n.view).under y)
      ∧ ∃ v, (c.hang x y K₁.length).view y = some v ∧ v.isLeaf = false
        ∧ v.kids = K₁ ++ [(kx, x), (c.newKey x, (c.nextPageNo : Int))] ++ K₂
        ∧ v.parent = c.par y := by
  obtain ⟨hymem, hxmem, hyx, hxz, hyz, hym, hparx, hleaf⟩ := ht.site hj hy hK hcs
  obtain ⟨nz, hnz, hzview, _⟩ := upper_head hcs hbig
  obtain ⟨ny₀, hny₀, hyleaf₀⟩ := ht.view_some (by omega) hymem
  obtain ⟨ny, hny, hyview⟩ := pages_of_view (c := c.split x) (w := y) (v := ny₀.view) (by
    rw [view_split hcs, if_neg hyx, if_neg hyz, if_neg hym, view_of_pages hny₀])
  have hyleaf : ny.isLeaf = false := by
    have : ny.isLeaf = ny₀.isLeaf := congrArg NodeView.isLeaf hyview
    rw [this, hyleaf₀]
    simp
  have hykids : ny.view.kids = K₁ ++ [(kx, x)] ++ K₂ := by
    rw [hyview, ← kids_of_view (view_of_pages hny₀), hK]
  have hview := fun w => view_linkUp (w := w) K₁.length (c.newKey x) hny hnz
  unfold hang
  refine ⟨?_, ?_, _, ?_, hyleaf, kids_insertPair hyleaf hykids, ?_⟩
  · rw [hview x, if_neg hxz, if_neg (Ne.symm hyx), view_split hcs, if_pos rfl]
  · rw [hview, if_pos rfl, hzview]
  · rw [hview y, if_neg hyz, if_pos rfl]
  · have : ny.parent = ny₀.parent := congrArg NodeView.parent hyview
    rw [par_of_view (view_of_pages hny₀)]
    exact this

/-- **A split as a change of the tree.** -/
theorem Tree.reshapes_split (hbig : 2 ≤ n.numKey) :
    Reshapes c (c.hang x y K₁.length) h lay j y K₁ K₂ [(kx, x)]
      [(kx, x), (c.newKey x, (c.nextPageNo : Int))] (names (upper n.view).kids)
      c.nextPageNo := by
  have hn := hcs.here
  obtain ⟨hymem, hxmem, hyx, hxz, hyz, hym, hparx, hleaf⟩ := ht.site hj hy hK hcs
  obtain ⟨hvx, hvz, hvy⟩ := ht.view_hang hj hy hK hcs hbig
  have hkids_x := kids_of_view hvx
  have hkids_z := kids_of_view hvz
  have hkx : c.kids x = n.view.kids := kids_of_view (view_of_pages hn)
  have hnew : ∀ i, i ≤ h → (c.nextPageNo : Int) ∉ names (lay i) := by
    intro i hi hmem
    have := (ht.range i hi _ hmem).2
    omega
  have hxrange := ht.range j (by omega) x hxmem
  -- the children that move are one layer further down
  have hmoved : ∀ u ∈ names (upper n.view).kids, u ∈ names (c.kids x) := by
    intro u hu
    rw [hkx, ← kids_halves n.view, names, List.map_append]
    exact List.mem_append_right _ hu
  constructor
  case root =>
    show (c.split x).hdr.rootPage = _
    rw [hdr_split.1]
  case next => exact (Nat.le_succ _).trans (le_of_eq hdr_split.2.symm)
  case parent => exact hvy
  case nodes =>
    have hnx : (c.hang x y K₁.length).nextPageNo = c.nextPageNo + 1 := hdr_split.2
    intro w hw
    rw [hnx]
    rcases List.mem_cons.mp hw with rfl | hw
    · exact ⟨⟨_, hvx, hleaf, hparx⟩, hxrange.1, by push_cast; omega⟩
    · rw [List.mem_singleton.mp hw]
      exact ⟨⟨_, hvz, hleaf, rfl⟩, by omega, by push_cast; omega⟩
  case other =>
    intro i hi w hw hwy hwW
    have hwx : w ≠ x := fun heq => hwW (by simp [heq])
    have hwz : w ≠ c.nextPageNo := fun heq => hwW (by simp [heq])
    show (IxCore.setNode _ _ _).view w = _
    rw [view_setNode, if_neg hwz, view_setNode, if_neg hwy, view_split hcs, if_neg hwx, if_neg hwz]
  case same =>
    rw [below_pair, below_singleton, hkids_x, hkids_z, hkx, NodeView.kids_under, kids_halves]
  case nodup => simpa using hxz
  case fresh =>
    intro w hw
    rcases List.mem_cons.mp hw with rfl | hw
    · exact .inl (by simp)
    · rw [List.mem_singleton.mp hw]
      exact .inr hnew
  case moved_below =>
    intro u hu
    rw [below_singleton]
    exact hmoved u hu
  case adopted =>
    intro w hw u hu
    rcases List.mem_cons.mp hw with rfl | hw
    · -- what stays was not moved
      rw [hkids_x] at hu
      have hmem : u ∈ names (c.kids w) := by
        rw [hkx, ← kids_halves n.view, names, List.map_append]
        exact List.mem_append_left _ hu
      obtain ⟨i, hi, rfl, _⟩ := ht.kids_mem (by omega) hxmem hmem
      have hnd := ht.layered.kids_nodup (by omega) hxmem
      rw [hkx, ← kids_halves n.view, names, List.map_append, List.nodup_append] at hnd
      rw [if_neg (fun hu' => hnd.2.2 u hu u hu' rfl)]
      exact ht.layered.parent i (by omega) w hxmem u hmem
    · rw [List.mem_singleton.mp hw] at hu ⊢
      rw [hkids_z, NodeView.kids_under] at hu
      rw [if_pos hu]
  case head => rfl
  case labels =>
    intro h1 e he
    rcases List.mem_cons.mp he with rfl | he
    · have hlabel := ht.labels j h1 hj (kx, x) (by
        rw [ht.layered.layer_eq hj hy, hK]
        simp)
      rw [hkids_x, lower_head, ← hkx, hlabel]
      show 1 ≤ n.entries.length
      rw [IxNode.length_entries]
      omega
    · obtain ⟨nz, hnz, hzview, hzhead⟩ := upper_head hcs hbig
      have hinner : (upper n.view).isLeaf = false := by
        show n.isLeaf = false
        rw [hleaf]
        simp
        omega
      rw [List.mem_singleton.mp he, hkids_z, NodeView.kids_under, NodeView.kids_of_inner hinner,
        List.head?_map, hzhead, newKey, node_of_some hnz]
      rfl

end

/-! ## A new root -/

theorem entries_twoChildren {k k' : κ} {z : Int} :
    (twoChildren k x k' z).entries = [(k, ⟨x, -1⟩), (k', ⟨z, -1⟩)] := by
  unfold twoChildren
  rw [IxNode.entries_insertPair (by exact Nat.le_refl 1),
    IxNode.entries_insertPair (Nat.zero_le _)]
  rfl

theorem view_growRoot {nx nz : IxNode κ} {z w : Int} (key : κ)
    (hx : c.pages x = some nx) (hz : c.pages z = some nz) : (c.growRoot x key z).view w
      = if w = z then some (nz.view.under c.nextPageNo)
        else if w = x then some (nx.view.under c.nextPageNo)
        else if w = c.nextPageNo then some (twoChildren (nx.keys 0) x key z).view
        else c.view w := by
  show (IxCore.setNode _ _ _).view w = _
  rw [view_setNode, view_setNode, view_setNode, view_extend, node_of_some hx, node_of_some hz]
  by_cases h1 : w = z
  · rw [if_pos h1, if_pos h1]
    rfl
  · rw [if_neg h1, if_neg h1]
    by_cases h2 : w = x
    · rw [if_pos h2, if_pos h2]
      rfl
    · rw [if_neg h2, if_neg h2]
      by_cases h3 : w = c.nextPageNo
      · rw [if_pos h3, if_pos h3]
      · rw [if_neg h3, if_neg h3, if_neg h3]

theorem nxt_growRoot {w z : Int} (hw : w ≠ c.nextPageNo) :
    (c.growRoot x key z).nxt w = c.nxt w := by
  show (IxCore.setNode _ _ _).nxt w = _
  rw [nxt_setNode, nxt_setNode, nxt_setNode, if_neg hw]
  split
  · next h => rw [h]; rfl
  · split
    · next h => rw [h]; rfl
    · rw [nxt, node_extend hw]
      rfl

theorem prv_growRoot {w z : Int} (hw : w ≠ c.nextPageNo) :
    (c.growRoot x key z).prv w = c.prv w := by
  show (IxCore.setNode _ _ _).prv w = _
  rw [prv_setNode, prv_setNode, prv_setNode, if_neg hw]
  split
  · next h => rw [h]; rfl
  · split
    · next h => rw [h]; rfl
    · rw [prv, node_extend hw]
      rfl

/-- A new root over the two halves of the old one, as far as the nodes of the tree are seen. -/
structure RootSplit (c : IxCore κ) (h : Nat) (lay : Nat → List (κ × Int)) (n : IxNode κ) (kx kz : κ)
    (c' : IxCore κ) : Prop where
  left : c'.view c.hdr.rootPage = some ((lower n.view).under ((c.nextPageNo + 1 : Nat) : Int))
  right : c'.view c.nextPageNo = some ((upper n.view).under ((c.nextPageNo + 1 : Nat) : Int))
  above : c'.view ((c.nextPageNo + 1 : Nat) : Int)
    = some (twoChildren kx c.hdr.rootPage kz c.nextPageNo).view
  other : ∀ i, i ≤ h → ∀ w ∈ names (lay i), w ≠ c.hdr.rootPage →
    c'.view w = if w ∈ names (upper n.view).kids then (c.view w).map (·.under c.nextPageNo)
      else c.view w
  root : c'.hdr.rootPage = ((c.nextPageNo + 1 : Nat) : Int)
  next : c'.nextPageNo = c.nextPageNo + 2

theorem Tree.rootSplit (ht : Tree c h lay) (hcs : CanSplit c c.hdr.rootPage n)
    {nx nz : IxNode κ} (hnx : (c.split c.hdr.rootPage).pages c.hdr.rootPage = some nx)
    (hnz : (c.split c.hdr.rootPage).pages c.nextPageNo = some nz)
    (hxview : nx.view = lower n.view) (hzview : nz.view = upper n.view) :
    RootSplit c h lay n (nx.keys 0) (nz.keys 0)
      ((c.split c.hdr.rootPage).growRoot c.hdr.rootPage (nz.keys 0) c.nextPageNo) := by
  have hnext : (c.split c.hdr.rootPage).nextPageNo = c.nextPageNo + 1 := hdr_split.2
  have hlt := hcs.lt
  have hview := fun w => view_growRoot (w := w) (nz.keys 0) hnx hnz
  rw [hnext] at hview
  constructor
  case left => rw [hview, if_neg (by omega), if_pos rfl, hxview]
  case right => rw [hview, if_pos rfl, hzview]
  case above => rw [hview, if_neg (by push_cast; omega), if_neg (by push_cast; omega), if_pos rfl]
  case other =>
    intro i hi w hw hwx
    have := ht.range i hi w hw
    rw [hview w, if_neg (by omega), if_neg hwx, if_neg (by push_cast; omega), view_split hcs,
      if_neg hwx, if_neg (by omega)]
  case root => exact congrArg Nat.cast hnext
  case next =>
    show (c.split c.hdr.rootPage).nextPageNo + 1 = _
    rw [hnext]

namespace RootSplit

variable {c' : IxCore κ} {kz : κ} {w u : Int} {i : Nat}

theorem kids_left (hg : RootSplit c h lay n kx kz c') :
    c'.kids c.hdr.rootPage = (lower n.view).kids := by
  rw [kids_of_view hg.left, NodeView.kids_under]

theorem kids_right (hg : RootSplit c h lay n kx kz c') :
    c'.kids c.nextPageNo = (upper n.view).kids := by
  rw [kids_of_view hg.right, NodeView.kids_under]

theorem kids_above (hg : RootSplit c h lay n kx kz c') :
    c'.kids ((c.nextPageNo + 1 : Nat) : Int)
      = [(kx, c.hdr.rootPage), (kz, (c.nextPageNo : Int))] := by
  rw [kids_of_view hg.above, NodeView.kids_of_inner rfl]
  show List.map _ (twoChildren _ _ _ _).entries = _
  rw [entries_twoChildren]
  rfl

/-- The other nodes keep their children, whoever their parent is now. -/
theorem kids_other (hg : RootSplit c h lay n kx kz c') (hi : i ≤ h) (hw : w ∈ names (lay i))
    (hwx : w ≠ c.hdr.rootPage) : c'.kids w = c.kids w := by
  unfold kids
  rw [hg.other i hi w hw hwx]
  split
  · rw [Option.map_map]
    rfl
  · rfl

/-- Both halves together have the children of the old root. -/
theorem same (hg : RootSplit c h lay n kx kz c') (ht : Tree c h lay)
    (hn : c.pages c.hdr.rootPage = some n) :
    Lib.below c'.kids [(kx, c.hdr.rootPage), (kz, (c.nextPageNo : Int))]
      = Lib.below c.kids (lay h) := by
  obtain ⟨k, hk⟩ := ht.layered.top_eq
  rw [below_pair, hg.kids_left, hg.kids_right, kids_halves, hk, below_singleton,
    kids_of_view (view_of_pages hn)]

omit [Inhabited κ] in
/-- A child that stays with the left half is none of those that move. -/
theorem not_moved (ht : Tree c h lay) (hn : c.pages c.hdr.rootPage = some n) (hi : i + 1 = h)
    (hu : u ∈ names (lower n.view).kids) : u ∉ names (upper n.view).kids := by
  have hnd := ht.layered.kids_nodup (show i < h by omega) (hi ▸ ht.layered.root_mem)
  rw [kids_of_view (view_of_pages hn), ← kids_halves n.view, names, List.map_append,
    List.nodup_append] at hnd
  exact fun hu' => hnd.2.2 u hu u hu' rfl

/-- The children of both halves name the half they are under. -/
theorem adopted (hg : RootSplit c h lay n kx kz c') (ht : Tree c h lay)
    (hn : c.pages c.hdr.rootPage = some n)
    (hw : w ∈ names [(kx, c.hdr.rootPage), (kz, (c.nextPageNo : Int))])
    (hu : u ∈ names (c'.kids w)) : c'.par u = w := by
  have hroot := ht.layered.root_mem
  -- the children are one layer further down
  have huk : u ∈ names (c.kids c.hdr.rootPage) := by
    obtain ⟨k, hk⟩ := ht.layered.top_eq
    have hbelow := mem_names_below.mpr ⟨w, hw, hu⟩
    rwa [hg.same ht hn, hk, below_singleton] at hbelow
  obtain ⟨i, hi, hhi, hmem⟩ := ht.kids_mem (Nat.le_refl _) hroot huk
  have huview := hg.other i (by omega) u hmem (ht.layered.ne_root (by omega) hmem)
  rcases List.mem_cons.mp hw with rfl | hw
  · rw [hg.kids_left] at hu
    rw [if_neg (not_moved ht hn hhi.symm hu)] at huview
    unfold par
    rw [huview]
    exact ht.layered.parent i hi _ (hhi ▸ hroot) u huk
  · obtain ⟨vu, hvu, _⟩ := ht.kind i (by omega) u hmem
    rw [List.mem_singleton.mp hw] at hu ⊢
    rw [hg.kids_right] at hu
    rw [if_pos hu, hvu] at huview
    rw [par_of_view huview]
    rfl

omit [Inhabited κ] in
/-- No node of the tree has a page yet to be taken. -/
theorem not_mem_new (ht : Tree c h lay) (hw : (c.nextPageNo : Int) ≤ w) :
    ∀ i, i ≤ h → w ∉ names (lay i) := by
  intro i hi hmem
  have := (ht.range i hi w hmem).2
  omega

theorem rewrites (hg : RootSplit c h lay n kx kz c') (ht : Tree c h lay)
    (hn : c.pages c.hdr.rootPage = some n) (hlt : c.hdr.rootPage < c.nextPageNo) :
    Rewrites c.kids c'.kids c.par c'.par h lay ((c.nextPageNo + 1 : Nat) : Int) (lay h)
      [(kx, c.hdr.rootPage), (kz, (c.nextPageNo : Int))] := by
  have hroot := ht.layered.root_mem
  constructor
  case other =>
    intro i hi v hv _ hvW _
    refine hg.kids_other hi hv ?_
    rintro rfl
    exact hvW hroot
  case same => exact hg.same ht hn
  case nodup =>
    have : c.hdr.rootPage ≠ (c.nextPageNo : Int) := by omega
    simpa using this
  case fresh =>
    intro v hv
    rcases List.mem_cons.mp hv with rfl | hv
    · exact .inl hroot
    · rw [List.mem_singleton.mp hv]
      exact .inr (not_mem_new ht (Int.le_refl _))
  case hung =>
    intro v hv
    rcases List.mem_cons.mp hv with rfl | hv
    · rw [par_of_view hg.left]
      rfl
    · rw [List.mem_singleton.mp hv, par_of_view hg.right]
      rfl
  case adopted => exact fun v hv u hu => hg.adopted ht hn hv hu
  case kept =>
    intro i hi v hv hvW hvb
    have hvx : v ≠ c.hdr.rootPage := fun heq => hvW (by simp [heq])
    unfold par
    rw [hg.other i hi v hv hvx, if_neg]
    intro hm
    -- what moved is below the right half
    refine hvb (mem_names_below.mpr ⟨c.nextPageNo, by simp, ?_⟩)
    rwa [hg.kids_right]

/-- The leaves are still the lowest layer. -/
theorem kind (hg : RootSplit c h lay n kx kz c') (ht : Tree c h lay)
    (hleaf : n.isLeaf = decide (h = 0)) {e : κ × Int} {k : κ} (hi : i ≤ h + 1)
    (he : e ∈ Function.update (Function.update lay h
      [(kx, c.hdr.rootPage), (kz, (c.nextPageNo : Int))]) (h + 1)
      [(k, ((c.nextPageNo + 1 : Nat) : Int))] i) :
    ∃ v, c'.view e.2 = some v ∧ v.isLeaf = decide (i = 0) := by
  rcases Layered.mem_grown hi he with ⟨h1, h2⟩ | ⟨rfl, h2⟩ | ⟨rfl, rfl⟩
  · have hmem : e.2 ∈ names (lay i) := List.mem_map_of_mem h2
    obtain ⟨v, hv, hvl⟩ := ht.kind i (by omega) e.2 hmem
    rw [hg.other i (by omega) e.2 hmem (ht.layered.ne_root h1 hmem), hv]
    split
    · exact ⟨_, rfl, hvl⟩
    · exact ⟨_, rfl, hvl⟩
  · rcases List.mem_cons.mp h2 with rfl | h2
    · exact ⟨_, hg.left, hleaf⟩
    · rw [List.mem_singleton.mp h2]
      exact ⟨_, hg.right, hleaf⟩
  · exact ⟨_, hg.above, by simp; rfl⟩

end RootSplit

/-- **The root split and a new one above.** -/
theorem Tree.grown [LinearOrder κ] (ht : Tree c h lay) (hcs : CanSplit c c.hdr.rootPage n)
    (hbig : 2 ≤ n.numKey)
    {nx nz : IxNode κ} (hnx : (c.split c.hdr.rootPage).pages c.hdr.rootPage = some nx)
    (hnz : (c.split c.hdr.rootPage).pages c.nextPageNo = some nz)
    (hxview : nx.view = lower n.view) (hzview : nz.view = upper n.view) :
    Tree ((c.split c.hdr.rootPage).growRoot c.hdr.rootPage (nz.keys 0) c.nextPageNo) (h + 1)
      (Function.update (Function.update lay h
        [(nx.keys 0, c.hdr.rootPage), (nz.keys 0, (c.nextPageNo : Int))]) (h + 1)
        [(nx.keys 0, ((c.nextPageNo + 1 : Nat) : Int))]) := by
  have hn := hcs.here
  have hlt := hcs.lt
  have hroot := ht.layered.root_mem
  have hg := ht.rootSplit hcs hnx hnz hxview hzview
  obtain ⟨m, hm, hleaf⟩ := ht.view_some (Nat.le_refl _) hroot
  obtain rfl : n = m := Option.some.inj (hn.symm.trans hm)
  constructor
  case layered =>
    rw [hg.root]
    refine ht.layered.grow (RootSplit.not_mem_new ht (by push_cast; omega)) ?_ hg.kids_above
      (hg.rewrites ht hn hlt)
    simp only [names, List.map_cons, List.map_nil, List.mem_cons, List.not_mem_nil, or_false, not_or]
    push_cast
    omega
  case kind =>
    intro i hi v hv
    obtain ⟨e, he, rfl⟩ := List.mem_map.mp hv
    exact hg.kind ht hleaf hi he
  case range =>
    intro i hi v hv
    rw [hg.next]
    obtain ⟨e, he, rfl⟩ := List.mem_map.mp hv
    have hxrange := ht.range h (Nat.le_refl _) _ hroot
    rcases Layered.mem_grown hi he with ⟨h1, h2⟩ | ⟨_, h2⟩ | ⟨_, rfl⟩
    · have := ht.range i (by omega) e.2 (List.mem_map_of_mem h2)
      push_cast
      omega
    · rcases List.mem_cons.mp h2 with rfl | h2
      · push_cast
        omega
      · rw [List.mem_singleton.mp h2]
        push_cast
        omega
    · push_cast
      omega
  case rootPar =>
    rw [hg.root, par_of_view hg.above]
    rfl
  case labels =>
    have hnlen : n.view.entries.length = n.numKey := IxNode.length_entries
    have hinner : 1 ≤ h → n.view.isLeaf = false := by
      intro h1
      rw [show n.view.isLeaf = n.isLeaf from rfl, hleaf]
      simp
      omega
    intro i h1 hi e he
    rcases Layered.mem_grown (by omega) he with ⟨h2, h3⟩ | ⟨rfl, h2⟩ | ⟨h2, _⟩
    · have hmem : e.2 ∈ names (lay i) := List.mem_map_of_mem h3
      rw [hg.kids_other (by omega) hmem (ht.layered.ne_root h2 hmem)]
      exact ht.labels i h1 h2 e h3
    · rcases List.mem_cons.mp h2 with rfl | h2
      · rw [hg.kids_left]
        refine head_halves hxview ?_ (hinner h1)
        rw [lower, mid, List.length_take, hnlen]
        omega
      · rw [List.mem_singleton.mp h2, hg.kids_right]
        refine head_halves hzview ?_ (hinner h1)
        rw [upper, mid, List.length_drop, hnlen]
        omega
    · omega

/-! ## The whole climb -/

/-- What `InsertIntoParent` makes of the tree `c` in which `x`, of layer `j`, was split: the new
node stands behind `x`, the layers up to `j` are otherwise those of the split, and what changed
above is a tree again. -/
structure Hung (c : IxCore κ) (h : Nat) (lay : Nat → List (κ × Int)) (j : Nat) (x : Int)
    (c' : IxCore κ) : Prop where
  tree : ∃ h' lay', Tree c' h' lay' ∧ Sizes c' h' lay' []
    ∧ (∀ i, i < j → lay' i = lay i)
    ∧ (∃ A kx kx' B, lay j = A ++ [(kx, x)] ++ B
      ∧ lay' j = A ++ [(kx', x), (c.newKey x, (c.nextPageNo : Int))] ++ B
      ∧ (j < h → kx' = kx))
    ∧ (∀ i, i ≤ j → ∀ w ∈ names (lay' i), Agree (c.split x) c' w)
    ∧ c'.hdr.numPages - nodes h' lay' = c.hdr.numPages - nodes h lay
  hdr : c.hdr.Alike c'.hdr
  next : c.nextPageNo < c'.nextPageNo
  nxt : ∀ w : Int, w ≤ c.nextPageNo → c'.nxt w = (c.split x).nxt w
  prv : ∀ w : Int, w ≤ c.nextPageNo → c'.prv w = (c.split x).prv w
  pages : ∀ w, ((c.split x).pages w).isSome → (c'.pages w).isSome

/-- Hanging the new node up changes the children of its parent only. -/
theorem agree_linkUp {z w : Int} {idx : Nat} (hy : (c.pages y).isSome) (hz : (c.pages z).isSome)
    (hw : w ≠ y) : Agree c (c.linkUp y idx key z) w := by
  have hview := view_linkUp (w := w) idx key (pages_of_isSome hy)
    (pages_of_isSome hz)
  by_cases hwz : w = z
  · rw [if_pos hwz] at hview
    refine .of_under (p := y) ?_
    rw [hview, hwz, view_of_pages (pages_of_isSome hz)]
    rfl
  · rw [if_neg hwz, if_neg hw] at hview
    exact .of_view hview

/-- A split leaves the nodes alone that are not halves. -/
theorem agree_split (hcs : CanSplit c x n) {w : Int} (hwx : w ≠ x) (hwz : w ≠ c.nextPageNo) :
    Agree c (c.split x) w := by
  have hview := view_split (w := w) hcs
  rw [if_neg hwx, if_neg hwz] at hview
  by_cases hm : w ∈ names (upper n.view).kids
  · rw [if_pos hm] at hview
    exact .of_under hview
  · rw [if_neg hm] at hview
    exact .of_view hview

theorem isSome_split (hcs : CanSplit c x n) {w : Int} (hw : (c.pages w).isSome) :
    ((c.split x).pages w).isSome := by
  obtain ⟨v, hv⟩ : ∃ v, (c.split x).view w = some v := by
    rw [view_split hcs]
    have hv := view_of_pages (pages_of_isSome hw)
    split
    · exact ⟨_, rfl⟩
    · split
      · exact ⟨_, rfl⟩
      · rw [hv]
        split
        · exact ⟨_, rfl⟩
        · exact ⟨_, rfl⟩
  obtain ⟨m, hm, _⟩ := pages_of_view hv
  rw [hm]
  rfl

theorem isSome_linkUp {z w : Int} {idx : Nat} (hw : (c.pages w).isSome) :
    ((c.linkUp y idx key z).pages w).isSome :=
  isSome_setNode (isSome_setNode hw)

section

variable (ht : Tree c h lay) (hj : j < h) (hy : lay (j + 1) = P ++ (ky, y) :: Q)
  (hK : c.kids y = K₁ ++ [(kx, x)] ++ K₂) (hcs : CanSplit c x n)
  (hs : Sizes c h lay [x]) (hfull : (n.numKey : Int) = c.hdr.btreeOrder + 1)

include ht hj hy hK hcs hs hfull

/-- The layers once the new node hangs below `y`. -/
theorem Tree.hang : Tree (c.hang x y K₁.length) h (Function.update lay j
    ((Lib.below c.kids P ++ K₁) ++ [(kx, x), (c.newKey x, (c.nextPageNo : Int))]
      ++ (K₂ ++ Lib.below c.kids Q))) := by
  have hbig : 2 ≤ n.numKey := by
    have := hs.1
    omega
  exact ht.reshape hj hy hK (ht.reshapes_split hj hy hK hcs hbig)

/-- Only the parent may have one entry too many now. -/
theorem Tree.sizes_hang : (c.hang x y K₁.length).size y = c.size y + 1
    ∧ Sizes (c.hang x y K₁.length) h (Function.update lay j
      ((Lib.below c.kids P ++ K₁) ++ [(kx, x), (c.newKey x, (c.nextPageNo : Int))]
        ++ (K₂ ++ Lib.below c.kids Q))) [y] := by
  have hbig : 2 ≤ n.numKey := by
    have := hs.1
    omega
  obtain ⟨hymem, hxmem, hyx, hxz, hyz, hym, hparx, hleaf⟩ := ht.site hj hy hK hcs
  obtain ⟨hvx, hvz, vy, hvy, hyleaf, hykids, _⟩ := ht.view_hang hj hy hK hcs hbig
  have hr := ht.reshapes_split hj hy hK hcs hbig
  have horder : (c.hang x y K₁.length).hdr.btreeOrder = c.hdr.btreeOrder := by
    show (c.split x).hdr.btreeOrder = _
    rw [hdr_split.1]
  have hxroot : x ≠ (c.hang x y K₁.length).hdr.rootPage := by
    rw [hr.root]
    exact ht.layered.ne_root hj hxmem
  have hzroot : (c.nextPageNo : Int) ≠ (c.hang x y K₁.length).hdr.rootPage := by
    rw [hr.root]
    intro heq
    have := (ht.range h (Nat.le_refl _) _ ht.layered.root_mem).2
    omega
  -- the halves are nodes of their own, and neither is the root
  have hhalves := sizeOk_halves (j := j) hfull hs.1 horder hvx rfl hvz rfl hxroot hzroot
  constructor
  · obtain ⟨v, hv, hvl⟩ := ht.kind (j + 1) (by omega) y hymem
    have hvl' : v.isLeaf = false := by
      rw [hvl]
      simp
    rw [kids_of_view hv, NodeView.kids_of_inner hvl'] at hK
    rw [NodeView.kids_of_inner hyleaf] at hykids
    have h1 := congrArg List.length hK
    have h2 := congrArg List.length hykids
    simp only [List.length_map, List.length_append, List.length_cons, List.length_nil] at h1 h2
    rw [size_of_view hvy, size_of_view hv]
    omega
  · refine hs.reshape ht hj hy hK hr horder ?_ (fun hne => absurd (List.mem_singleton_self y) hne) ?_
    · intro w hw _
      rcases List.mem_cons.mp hw with rfl | hw
      · exact hhalves.1
      · rw [List.mem_singleton.mp hw]
        exact hhalves.2
    · intro w hw
      rw [List.mem_singleton.mp hw]
      exact .inl (by simp)

/-- What is done above layer `j` does not touch what a split did there. -/
theorem Tree.hung_of {c' : IxCore κ} {h' : Nat} {lay' : Nat → List (κ × Int)}
    (ht' : Tree c' h' lay') (hs' : Sizes c' h' lay' [])
    (hlay : ∀ i, i ≤ j → lay' i = Function.update lay j
      ((Lib.below c.kids P ++ K₁) ++ [(kx, x), (c.newKey x, (c.nextPageNo : Int))]
        ++ (K₂ ++ Lib.below c.kids Q)) i)
    (hagree : ∀ i, i ≤ j → ∀ w ∈ names (lay' i), Agree (c.hang x y K₁.length) c' w)
    (hcount : c'.hdr.numPages - nodes h' lay' = (c.hang x y K₁.length).hdr.numPages
      - nodes h (Function.update lay j
        ((Lib.below c.kids P ++ K₁) ++ [(kx, x), (c.newKey x, (c.nextPageNo : Int))]
          ++ (K₂ ++ Lib.below c.kids Q))))
    (hhdr : (c.hang x y K₁.length).hdr.Alike c'.hdr)
    (hnext : (c.hang x y K₁.length).nextPageNo ≤ c'.nextPageNo)
    (hnxt : ∀ w : Int, w ≤ c.nextPageNo → c'.nxt w = (c.hang x y K₁.length).nxt w)
    (hprv : ∀ w : Int, w ≤ c.nextPageNo → c'.prv w = (c.hang x y K₁.length).prv w)
    (hpages : ∀ w, ((c.hang x y K₁.length).pages w).isSome → (c'.pages w).isSome) :
    Hung c h lay j x c' := by
  obtain ⟨hymem, hxmem, hyx, hxz, hyz, _⟩ := ht.site hj hy hK hcs
  have hcut : lay j = (Lib.below c.kids P ++ K₁) ++ [(kx, x)] ++ (K₂ ++ Lib.below c.kids Q) :=
    ht.layered.layer_cut hj hy hK
  have hysome : ((c.split x).pages y).isSome := isSome_split hcs (ht.isSome (by omega) hymem)
  have hzsome : ((c.split x).pages c.nextPageNo).isSome := by
    have hbig : 2 ≤ n.numKey := by
      have := hs.1
      omega
    obtain ⟨nz, hnz, _⟩ := upper_head hcs hbig
    rw [hnz]
    rfl
  -- `y` is in the layer above
  have hyne : ∀ i, i ≤ j → ∀ w ∈ names (lay' i), w ≠ y := by
    intro i hi w hw
    rw [hlay i hi] at hw
    exact (ht.hang hj hy hK hcs hs hfull).layered.ne_of_lt (by omega) hj hw
      (by rw [Function.update_of_ne (by omega)]; exact hymem)
  constructor
  case tree =>
    refine ⟨h', lay', ht', hs', ?_, ?_, ?_, ?_⟩
    · intro i hi
      rw [hlay i (by omega), Function.update_of_ne (by omega)]
    · refine ⟨_, kx, kx, _, hcut, ?_, fun _ => rfl⟩
      rw [hlay j (Nat.le_refl _), Function.update_self]
    · intro i hi w hw
      exact (agree_linkUp hysome hzsome (hyne i hi w hw)).trans (hagree i hi w hw)
    · have hpages : (c.hang x y K₁.length).hdr.numPages = c.hdr.numPages + 1 := by
        show (c.split x).hdr.numPages = _
        rw [hdr_split.1]
      have hnodes := nodes_update lay (show j ≤ h by omega)
        ((Lib.below c.kids P ++ K₁) ++ [(kx, x), (c.newKey x, (c.nextPageNo : Int))]
          ++ (K₂ ++ Lib.below c.kids Q))
      have hlen := congrArg List.length hcut
      simp only [List.length_append, List.length_cons, List.length_nil] at hnodes hlen
      rw [hcount, hpages]
      omega
  case hdr =>
    have hsplit : (c.hang x y K₁.length).hdr = { c.hdr with numPages := c.hdr.numPages + 1 } :=
      hdr_split.1
    refine IxFileHdr.Alike.trans ?_ hhdr
    rw [hsplit]
    rfl
  case next =>
    have : (c.hang x y K₁.length).nextPageNo = c.nextPageNo + 1 := hdr_split.2
    omega
  case nxt =>
    intro w hw
    rw [hnxt w hw]
    exact nxt_linkUp
  case prv =>
    intro w hw
    rw [hprv w hw]
    exact prv_linkUp
  case pages => exact fun w hw => hpages w (isSome_linkUp hw)

end

section

variable (ht : Tree c h lay) (hj : j < h) (hy : lay (j + 1) = P ++ (ky, y) :: Q)
  (hK : c.kids y = K₁ ++ [(kx, x)] ++ K₂) (hcs : CanSplit c x n)
  (hs : Sizes c h lay [x]) (hfull : (n.numKey : Int) = c.hdr.btreeOrder + 1)

include ht hj hy hK hcs hs hfull

/-- The parent has room: the climb ends. -/
theorem Tree.hung_stop (hroom : ((c.hang x y K₁.length).size y : Int) ≠ c.hdr.btreeOrder + 1) :
    Hung c h lay j x (c.hang x y K₁.length) := by
  obtain ⟨hymem, hxmem, hyx, _⟩ := ht.site hj hy hK hcs
  obtain ⟨hsize, hsizes⟩ := ht.sizes_hang hj hy hK hcs hs hfull
  have hhdr : (c.hang x y K₁.length).hdr = { c.hdr with numPages := c.hdr.numPages + 1 } :=
    hdr_split.1
  refine ht.hung_of hj hy hK hcs hs hfull (ht.hang hj hy hK hcs hs hfull) (hsizes.settle ?_)
    (fun _ _ => rfl) (fun _ _ _ _ => .of_view rfl) rfl rfl (Nat.le_refl _)
    (fun _ _ => rfl) (fun _ _ => rfl) (fun _ hw => hw)
  intro i hi hmem
  have hi' : i = j + 1 := by
    refine (ht.hang hj hy hK hcs hs hfull).layered.apart i (j + 1) hi (by omega) y hmem ?_
    rw [Function.update_of_ne (by omega)]
    exact hymem
  -- before, `y` was within bounds
  have hold := hs.2 (j + 1) (by omega) y hymem (by simpa using hyx)
  unfold SizeOk IxFileHdr.minSize IxFileHdr.maxSize at hold ⊢
  rw [hi', hsize, hhdr]
  rw [hsize] at hroom
  dsimp only at hold ⊢
  refine ⟨by omega, fun hne => ?_, fun heq _ => ?_⟩
  · have := hold.2.1 hne
    omega
  · have := hold.2.2 heq (by omega)
    omega

/-- The parent is split in turn. -/
theorem Tree.hung_climb {c' : IxCore κ} {ny : IxNode κ}
    (hcsy : CanSplit (c.hang x y K₁.length) y ny)
    (hup : Hung (c.hang x y K₁.length) h (Function.update lay j
      ((Lib.below c.kids P ++ K₁) ++ [(kx, x), (c.newKey x, (c.nextPageNo : Int))]
        ++ (K₂ ++ Lib.below c.kids Q))) (j + 1) y c') : Hung c h lay j x c' := by
  obtain ⟨hymem, hxmem, hyx, _⟩ := ht.site hj hy hK hcs
  obtain ⟨h', lay', ht', hs', hlow, _, hagree, hcount⟩ := hup.tree
  have hnext : (c.hang x y K₁.length).nextPageNo = c.nextPageNo + 1 := hdr_split.2
  have hinner : ((c.hang x y K₁.length).node y).isLeaf = false := by
    obtain ⟨v, hv, hvl, _⟩ := (ht.view_hang hj hy hK hcs (by have := hs.1; omega)).2.2
    obtain ⟨m, hm, rfl⟩ := pages_of_view hv
    rw [node_of_some hm]
    exact hvl
  refine ht.hung_of hj hy hK hcs hs hfull ht' hs' (fun i hi => hlow i (by omega)) ?_ hcount
    hup.hdr (Nat.le_of_lt hup.next) ?_ ?_ (fun w hw => hup.pages w (isSome_split hcsy hw))
  · intro i hi w hw
    refine Agree.trans (agree_split hcsy ?_ ?_) (hagree i (by omega) w hw)
    · rw [hlow i (by omega)] at hw
      exact (ht.hang hj hy hK hcs hs hfull).layered.ne_of_lt (by omega) hj hw
        (by rw [Function.update_of_ne (by omega)]; exact hymem)
    · rw [hlow i (by omega)] at hw
      have := ((ht.hang hj hy hK hcs hs hfull).range i (by omega) w hw).2
      omega
  · intro w hw
    rw [hup.nxt w (by rw [hnext]; omega), nxt_split_inner hinner]
    rw [hnext]
    push_cast
    omega
  · intro w hw
    rw [hup.prv w (by rw [hnext]; omega), prv_split_inner hinner]
    rw [hnext]
    push_cast
    omega

end

variable [LinearOrder κ]

/-- The root was split: there is a new one. -/
theorem Tree.hung_root (ht : Tree c h lay) (hcs : CanSplit c c.hdr.rootPage n)
    (hs : Sizes c h lay [c.hdr.rootPage]) (hfull : (n.numKey : Int) = c.hdr.btreeOrder + 1) :
    Hung c h lay h c.hdr.rootPage ((c.split c.hdr.rootPage).growRoot c.hdr.rootPage
      (c.newKey c.hdr.rootPage) c.nextPageNo) := by
  have horder := hs.1
  have hbig : 2 ≤ n.numKey := by omega
  have hxz : c.hdr.rootPage ≠ (c.nextPageNo : Int) := by
    have := hcs.lt
    omega
  obtain ⟨nz, hnz, hzview, _⟩ := upper_head hcs hbig
  obtain ⟨nx, hnx, hxview⟩ := pages_of_view (c := c.split c.hdr.rootPage) (w := c.hdr.rootPage)
    (v := lower n.view) (by rw [view_split hcs, if_pos rfl])
  have hkey : c.newKey c.hdr.rootPage = nz.keys 0 := by
    rw [newKey, node_of_some hnz]
  have htree := ht.grown hcs hbig hnx hnz hxview hzview
  rw [← hkey] at htree
  have hnext : (c.split c.hdr.rootPage).nextPageNo = c.nextPageNo + 1 := hdr_split.2
  have hview := fun w => view_growRoot (w := w) (c.newKey c.hdr.rootPage) hnx hnz
  rw [hnext] at hview
  obtain ⟨k, hk⟩ := ht.layered.top_eq
  generalize hxe : c.hdr.rootPage = x at *
  have hrange := ht.range
  have hxr : x ≠ ((c.nextPageNo + 1 : Nat) : Int) := by
    have := hcs.lt
    push_cast
    omega
  have hvz := hview c.nextPageNo
  rw [if_pos rfl, hzview] at hvz
  have hvx := hview x
  rw [if_neg hxz, if_pos rfl, hxview] at hvx
  have hvr := hview ((c.nextPageNo + 1 : Nat) : Int)
  rw [if_neg (by push_cast; omega), if_neg (Ne.symm hxr), if_pos rfl] at hvr
  have hroot : ((c.split x).growRoot x (c.newKey x) c.nextPageNo).hdr.rootPage
      = ((c.nextPageNo + 1 : Nat) : Int) := congrArg Nat.cast hnext
  have hhdr : ((c.split x).growRoot x (c.newKey x) c.nextPageNo).hdr
      = { c.hdr with
        rootPage := ((c.nextPageNo + 1 : Nat) : Int), numPages := c.hdr.numPages + 1 + 1 } := by
    show { (c.split x).hdr with
      rootPage := ((c.split x).nextPageNo : Int), numPages := (c.split x).hdr.numPages + 1 } = _
    rw [hnext, hdr_split.1]
  have hhalves := sizeOk_halves (j := h) hfull horder (by rw [hhdr]) hvx rfl hvz rfl
    (by rw [hroot]; exact hxr) (by rw [hroot]; push_cast; omega)
  -- every node but the halves and the new root is as the split left it
  have hagree : ∀ w, w ≠ ((c.nextPageNo + 1 : Nat) : Int) →
      Agree (c.split x) ((c.split x).growRoot x (c.newKey x) c.nextPageNo) w := by
    intro w hw
    by_cases h1 : w = c.nextPageNo
    · refine .of_under (p := ((c.nextPageNo + 1 : Nat) : Int)) ?_
      rw [h1, hvz, view_of_pages hnz, hzview]
      rfl
    · by_cases h2 : w = x
      · refine .of_under (p := ((c.nextPageNo + 1 : Nat) : Int)) ?_
        rw [h2, hvx, view_of_pages hnx, hxview]
        rfl
      · refine .of_view ?_
        rw [hview w, if_neg h1, if_neg h2, if_neg hw]
  constructor
  case tree =>
    refine ⟨h + 1, _, htree, ⟨by rw [hhdr]; exact horder, ?_⟩, ?_, ?_, ?_, ?_⟩
    · intro i hi w hw _
      by_cases h1 : i = h + 1
      · rw [h1, Function.update_self] at hw
        rw [List.mem_singleton.mp hw, h1]
        have hlen : (twoChildren (nx.keys 0) x (c.newKey x) (c.nextPageNo : Int)).view.entries.length
            = 2 := congrArg List.length entries_twoChildren
        unfold SizeOk
        rw [size_of_view hvr, hlen, hhdr]
        exact ⟨by dsimp only; omega, fun hne => absurd rfl hne, fun _ _ => Nat.le_refl _⟩
      · rw [Function.update_of_ne h1] at hw
        by_cases h2 : i = h
        · rw [h2, Function.update_self] at hw
          rw [h2]
          rcases List.mem_cons.mp hw with rfl | hw
          · exact hhalves.1
          · rw [List.mem_singleton.mp hw]
            exact hhalves.2
        · rw [Function.update_of_ne h2] at hw
          have hwr := hrange i (by omega) w hw
          have hwx : w ≠ x := by
            rw [← hxe]
            exact ht.layered.ne_root (by omega) hw
          have hold := hs.2 i (by omega) w hw (by simpa using hwx)
          have hsize := ((agree_split hcs hwx (by omega)).trans
            (hagree w (by push_cast; omega))).size
          unfold SizeOk IxFileHdr.minSize IxFileHdr.maxSize at hold ⊢
          rw [hsize, hhdr]
          rw [hxe] at hold
          exact ⟨hold.1, fun _ => hold.2.1 hwx, fun heq => by push_cast at heq; omega⟩
    · intro i hi
      rw [Function.update_of_ne (by omega), Function.update_of_ne (by omega)]
    · refine ⟨[], k, nx.keys 0, [], by rw [hk]; rfl, ?_, fun hlt => absurd hlt (Nat.lt_irrefl _)⟩
      rw [Function.update_of_ne (by omega), Function.update_self]
      rfl
    · intro i hi w hw
      exact hagree w (htree.layered.ne_of_lt (by omega) (Nat.le_refl _) hw
        (by rw [Function.update_self]; simp))
    · have h1 := nodes_update lay (Nat.le_refl h)
        [(nx.keys 0, x), (c.newKey x, (c.nextPageNo : Int))]
      rw [nodes_succ, nodes_congr
          (fun i hi => by rw [Function.update_of_ne (by omega)]), Function.update_self, hhdr]
      rw [hk] at h1
      simp only [List.length_cons, List.length_nil] at h1 ⊢
      omega
  case hdr =>
    rw [hhdr]
    rfl
  case next =>
    show c.nextPageNo < (c.split x).nextPageNo + 1
    omega
  case nxt => exact fun w hw => nxt_growRoot (by rw [hnext]; push_cast; omega)
  case prv => exact fun w hw => prv_growRoot (by rw [hnext]; push_cast; omega)
  case pages =>
    intro w hw
    exact isSome_setNode (isSome_setNode (isSome_setNode (isSome_extend hw)))

end IxCore

namespace IxIndexHandle

variable {κ : Type} [LinearOrder κ] [Inhabited κ]

open IxCore

/-- **`InsertIntoParent`**, from the state in which `x` was split. -/
theorem yields_insertIntoParent {fuel : Nat} {c : IxCore κ} {h j : Nat}
    {lay : Nat → List (κ × Int)} {x : Int} {n : IxNode κ} (ht : Tree c h lay) (hj : j ≤ h)
    (hx : x ∈ names (lay j)) (hcs : CanSplit c x n) (hs : Sizes c h lay [x])
    (hfull : (n.numKey : Int) = c.hdr.btreeOrder + 1) (hfuel : h < fuel + j) :
    Yields (insertIntoParent fuel x (c.newKey x) c.nextPageNo) (c.split x)
      (fun _ c' => Hung c h lay j x c') := by
  induction fuel generalizing c j lay x n with
  | zero => omega
  | succ fuel ih =>
      have horder := hs.1
      have hbig : 2 ≤ n.numKey := by omega
      obtain ⟨nz, hnz, hzview, _⟩ := upper_head hcs hbig
      obtain ⟨nx, hnx, hxview⟩ := pages_of_view (c := c.split x) (w := x)
        (v := lower n.view) (by rw [view_split hcs, if_pos rfl])
      have hxz : x ≠ (c.nextPageNo : Int) := by
        have := hcs.lt
        omega
      have hpar : nx.parent = c.par x := by
        rw [par_of_view (view_of_pages hcs.here)]
        exact congrArg NodeView.parent hxview
      have hnext : (c.split x).nextPageNo = c.nextPageNo + 1 := hdr_split.2
      unfold insertIntoParent
      refine Yields.get_bind (fun s hsat => ?_)
      rw [hsat.node, node_of_some hnx, hpar]
      rcases Nat.lt_or_ge j h with hlt | hge
      · -- below the root
        rw [if_neg (fun hno => by have := (ht.par_eq_noPage hj hx).mp hno; omega)]
        obtain ⟨P, ky, Q, K₁, kx, K₂, hy, hK⟩ := ht.layered.locate hlt hx
        generalize c.par x = y at *
        have hK' : c.kids y = K₁ ++ [(kx, x)] ++ K₂ := by
          rw [hK, List.append_assoc]
          rfl
        obtain ⟨hymem, _, hyx, _, hyz, hym, _⟩ := ht.site hlt hy hK' hcs
        obtain ⟨ny₀, hny₀, hyleaf₀⟩ := ht.view_some (by omega) hymem
        obtain ⟨ny, hny, hyview⟩ := pages_of_view (c := c.split x) (w := y) (v := ny₀.view) (by
          rw [view_split hcs, if_neg hyx, if_neg hyz, if_neg hym, view_of_pages hny₀])
        have hyleaf : ny.isLeaf = false := by
          have : ny.isLeaf = ny₀.isLeaf := congrArg NodeView.isLeaf hyview
          rw [this, hyleaf₀]
          simp
        have hfind : ny.findChild x = some K₁.length := by
          have hyk : ny.view.kids = c.kids y := by
            rw [hyview, kids_of_view (view_of_pages hny₀)]
          refine findChild_kids hyleaf (hyk.trans hK) ?_
          rw [hyk]
          exact ht.layered.kids_nodup hlt hymem
        refine (yields_fetchNode hny).then_at ?_
        refine (yields_findChild hny hfind).then_at ?_
        refine (yields_modifyNode hny).then_do ?_
        refine (yields_modifyNode ((setNode_pages_of_ne (Ne.symm hyz)).trans hnz)).then_do ?_
        -- the state of the model is the tree the lemmas are about
        have hhang : ((c.split x).setNode y (ny.insertPair (K₁.length + 1) (c.newKey x)
            ⟨(c.nextPageNo : Int), -1⟩)).setNode c.nextPageNo (nz.setParent y)
            = c.hang x y K₁.length := by
          rw [IxCore.hang, linkUp, node_of_some hny, node_of_some hnz]
        rw [hhang]
        refine Yields.get_bind (fun s' hs' => ?_)
        obtain ⟨hsize, hsizes⟩ := ht.sizes_hang hlt hy hK' hcs hs hfull
        have hthang := ht.hang hlt hy hK' hcs hs hfull
        have hylay : y ∈ names (Function.update lay j ((Lib.below c.kids P ++ K₁)
            ++ [(kx, x), (c.newKey x, (c.nextPageNo : Int))] ++ (K₂ ++ Lib.below c.kids Q))
            (j + 1)) := by
          rw [Function.update_of_ne (by omega)]
          exact hymem
        obtain ⟨my, hmy, hmyleaf⟩ := hthang.view_some (by omega) hylay
        have hmax : s'.fileHdr.maxSize = c.hdr.btreeOrder + 1 := by
          rw [hs'.fileHdr]
          show (c.split x).hdr.maxSize = _
          rw [hdr_split.1]
          rfl
        rw [hs'.node, node_of_some hmy, hmax]
        rw [size_eq_numKey hmy] at hsize
        by_cases hmore : (my.numKey : Int) = c.hdr.btreeOrder + 1
        · -- the parent is full: split it, and go on above
          rw [onlyIf_pos hmore]
          have hcsy := hthang.canSplit (by omega) hylay hmy (fun h0 => by omega)
          have hordh : (c.hang x y K₁.length).hdr.btreeOrder = c.hdr.btreeOrder := by
            show (c.split x).hdr.btreeOrder = _
            rw [hdr_split.1]
          have hkidsy : my.isLeaf = false → ∀ i, i < my.numKey →
              ((c.hang x y K₁.length).pages (my.rids i).pageNo).isSome := by
            intro hl i hi
            refine (hcsy.kids _ ?_).1
            rw [NodeView.kids_of_inner hl, names, List.map_map, List.mem_map]
            exact ⟨_, List.mem_map.mpr ⟨i, List.mem_range.mpr hi, rfl⟩, rfl⟩
          rw [bind_assoc]
          refine (yields_split hthang.below hmy hcsy.lt hcsy.next hkidsy).then_at ?_
          rw [bind_assoc]
          refine Yields.get_bind (fun s'' hs'' => ?_)
          rw [bind_assoc, hs''.node]
          refine (ih hthang (by omega) hylay hcsy hsizes (by rw [hordh]; exact hmore)
            (by omega)).bind (fun _ c' hup => ?_)
          refine yields_unpinPage.then_do (yields_unpinPage.mono ?_)
          rintro _ _ rfl
          exact ht.hung_climb hlt hy hK' hcs hs hfull hcsy hup
        · rw [onlyIf_neg hmore, pure_bind]
          refine yields_unpinPage.mono ?_
          rintro _ _ rfl
          refine ht.hung_stop hlt hy hK' hcs hs hfull ?_
          rw [size_eq_numKey hmy]
          exact hmore
      · -- the root itself
        obtain rfl : j = h := by omega
        obtain rfl : x = c.hdr.rootPage := ht.layered.eq_root hx
        rw [if_pos ht.rootPar]
        have hb := ht.below_split (Nat.le_refl _) hx hcs
        refine (yields_growRoot hb _ (by rw [hnx]; rfl) ?_ (by rw [hnz]; rfl) ?_ hxz).mono ?_
        · have := hcs.lt
          rw [hnext]
          push_cast
          omega
        · rw [hnext]
          push_cast
          omega
        · rintro _ _ rfl
          exact ht.hung_root hcs hs hfull

end IxIndexHandle

end Rucbase
