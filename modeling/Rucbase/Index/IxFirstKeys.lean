import Rucbase.Index.IxEntries

/-!
# Separators and first keys

`check_tree` asserts that every entry of an inner node, the first one apart, has the first key of
its child. Above the leaves this is part of the tree; at the leaves it is not, since a separator
may be below the keys it stands for. A deletion keeps it unless the leaf loses its first key and
nothing repairs the parent, or a node next to the leaves loses its place as the first of its
entries: what was the unchecked entry of a node then becomes a checked one.
-/

namespace Rucbase

open Lib

namespace IxCore

variable {κ : Type}

/-- What `check_tree` asserts of the separators. -/
def Checked [Inhabited κ] (c : IxCore κ) : Prop :=
  ∀ y n, InTree c y → c.pages y = some n → n.isLeaf = false →
    ∀ i, 1 ≤ i → i < n.numKey → n.keys i = (c.node (n.rids i).pageNo).keys 0

/-- The leaves below a node, each under the key of its entry. -/
def fan (c : IxCore κ) (y : Int) : List (κ × List (κ × Rid)) :=
  (c.kids y).map fun e => (e.1, c.cont e.2)

/-- The condition at the nodes next to the leaves. -/
def Fits (c : IxCore κ) (h : Nat) (lay : Nat → List (κ × Int)) : Prop :=
  1 ≤ h → ∀ y ∈ names (lay 1), Fit (c.fan y)

/-- The child `CoalesceOrRedistribute` pairs `x` with. -/
def neighbor [Inhabited κ] (c : IxCore κ) (x : Int) : Int :=
  let parent := c.node (c.par x)
  match parent.findChild x with
  | some idx => (parent.rids (if idx > 0 then idx - 1 else idx + 1)).pageNo
  | none => ixNoPage

/-- The right one of the two. -/
def rightOne [Inhabited κ] (c : IxCore κ) (x : Int) : Int :=
  if (c.node (c.par x)).findChild x = some 0 then c.neighbor x else x

/-- Removing an entry makes the leaf `x` and its parent too small, one after the other. -/
def Cascades [Inhabited κ] (c : IxCore κ) (x : Int) : Prop :=
  (c.size x : Int) ≤ c.hdr.minSize ∧ (c.size x + c.size (c.neighbor x) : Int) ≤ c.hdr.minSize * 2
    ∧ c.par x ≠ c.hdr.rootPage ∧ (c.size (c.par x) : Int) ≤ c.hdr.minSize

/-- When removing `k` from the leaf `x` keeps the separators equal to the first keys. A leaf that
stays large enough is its parent's first child or keeps its first key; if the parent becomes too
small, the right one of it and its neighbour has, as the key of its first entry, the least key but
`k` of its first leaf. -/
def KeepsFirst [LinearOrder κ] [Inhabited κ] (c : IxCore κ) (x : Int) (k : κ) : Prop :=
  x ≠ c.hdr.rootPage →
    (c.hdr.minSize < (c.size x : Int) → (c.node x).keys 0 = k →
      (c.node (c.par x)).findChild x = some 0)
    ∧ (c.Cascades x → (c.node (c.rightOne (c.par x))).keys 0
      = (c.node ((c.node (c.rightOne (c.par x))).rids 0).pageNo).firstBut k)

variable {c c' : IxCore κ} {h h' j : Nat} {lay lay' : Nat → List (κ × Int)} {x y z w a b : Int}
  {n m : IxNode κ} {k ka kb kb' ky : κ} {P Q K₁ K₂ W W' : List (κ × Int)} {moved : List Int} {p : Int}

/-! ## The condition at the leaves -/

theorem Tree.mem_tail_kids (ht : Tree c h lay) (hj : j + 1 ≤ h) (hy : y ∈ names (lay (j + 1)))
    (hn : c.pages y = some n) {e : κ × Int} : e ∈ (c.kids y).tail
      ↔ ∃ i, 1 ≤ i ∧ i < n.numKey ∧ e = (n.keys i, (n.rids i).pageNo) := by
  rw [ht.kids_eq (by omega) hy hn, List.mem_iff_getElem?]
  constructor
  · rintro ⟨i, hi⟩
    rw [List.getElem?_tail, List.getElem?_map] at hi
    obtain ⟨f, hf, rfl⟩ := Option.map_eq_some_iff.mp hi
    have hlt : i + 1 < n.numKey := by
      obtain ⟨hlt, _⟩ := List.getElem?_eq_some_iff.mp hf
      rwa [IxNode.length_entries] at hlt
    rw [IxNode.getElem?_entries hlt, Option.some.injEq] at hf
    exact ⟨i + 1, by omega, hlt, by rw [← hf]⟩
  · rintro ⟨i, h1, hlt, rfl⟩
    obtain ⟨i, rfl⟩ : ∃ i', i = i' + 1 := ⟨i - 1, by omega⟩
    refine ⟨i, ?_⟩
    rw [List.getElem?_tail, List.getElem?_map, IxNode.getElem?_entries hlt]
    rfl

/-- The first key of a leaf, and of an inner node. -/
theorem first_leaf (hn : c.pages x = some n) (hleaf : n.isLeaf = true) (h1 : 1 ≤ n.numKey) :
    (c.cont x).head?.map Prod.fst = some (n.keys 0) := by
  rw [cont_of_leaf (view_of_pages hn) hleaf]
  show n.entries.head?.map _ = _
  rw [IxNode.entries_head h1]
  rfl

theorem first_inner (hn : c.pages x = some n) (hleaf : n.isLeaf = false) (h1 : 1 ≤ n.numKey) :
    (c.kids x).head? = some (n.keys 0, (n.rids 0).pageNo) := by
  rw [kids_of_view (view_of_pages hn), NodeView.kids_of_inner hleaf, List.head?_map]
  show n.entries.head?.map _ = _
  rw [IxNode.entries_head h1]
  rfl

/-- A node below the root has entries. -/
theorem Sizes.pos (hs : Sizes c h lay []) (ht : Tree c h lay) (hj : j < h) (hx : x ∈ names (lay j))
    (hn : c.pages x = some n) : 2 ≤ n.numKey := by
  have hok := (hs.2 j (by omega) x hx (by simp)).2.1 (ht.layered.ne_root hj hx)
  have h3 := hs.1
  rw [size_eq_numKey hn] at hok
  unfold IxFileHdr.minSize IxFileHdr.maxSize at hok
  omega

/-- **Only the nodes next to the leaves have to be looked at.** -/
theorem Tree.checked_iff [Inhabited κ] (ht : Tree c h lay) (hs : Sizes c h lay []) :
    Checked c ↔ Fits c h lay := by
  constructor
  · intro hc h1 y hy b hb
    obtain ⟨n, hn, hl⟩ := ht.view_some h1 hy
    unfold fan at hb
    rw [← List.map_tail] at hb
    obtain ⟨e, he, rfl⟩ := List.mem_map.mp hb
    obtain ⟨i, hi, hlt, rfl⟩ := (ht.mem_tail_kids h1 hy hn).mp he
    have hu : (n.rids i).pageNo ∈ names (lay 0) :=
      ht.layered.kid_mem (by omega) hy (List.mem_map_of_mem (List.mem_of_mem_tail he))
    obtain ⟨m, hm, hml⟩ := ht.view_some (Nat.zero_le _) hu
    unfold Labelled
    rw [first_leaf hm hml (by have := hs.pos ht (by omega) hu hm; omega),
      hc y n (ht.inTree h1 hy) hn (by rw [hl]; rfl) i hi hlt, node_of_some hm]
  · intro hf y n hy hn hl i hi hlt
    obtain ⟨j, hj, hmem⟩ := ht.mem_of_inTree hy
    obtain ⟨n', hn', hl'⟩ := ht.view_some hj hmem
    obtain rfl : n = n' := Option.some.inj (hn.symm.trans hn')
    cases j with
    | zero =>
        rw [hl] at hl'
        exact absurd hl' (by simp)
    | succ j =>
        have he := (ht.mem_tail_kids hj hmem hn).mpr ⟨i, hi, hlt, rfl⟩
        have hu : (n.rids i).pageNo ∈ names (lay j) :=
          ht.layered.kid_mem (by omega) hmem (List.mem_map_of_mem (List.mem_of_mem_tail he))
        obtain ⟨m, hm, hml⟩ := ht.view_some (by omega) hu
        have hpos := hs.pos ht (by omega) hu hm
        rw [node_of_some hm]
        cases j with
        | zero =>
            have := hf (by omega) y hmem (n.keys i, c.cont (n.rids i).pageNo) (by
              unfold fan
              rw [← List.map_tail]
              exact List.mem_map_of_mem he)
            rw [Labelled, first_leaf hm hml (by omega)] at this
            exact (Option.some.inj this).symm
        | succ j =>
            -- above the leaves the labels of the tree say it
            have hlabel := ht.labels (j + 1) (by omega) (by omega) (n.keys i, (n.rids i).pageNo) (by
              rw [ht.layered.down (j + 1) (by omega)]
              obtain ⟨e, hemem, rfl⟩ := List.mem_map.mp hmem
              exact List.mem_flatMap.mpr ⟨e, hemem, List.mem_of_mem_tail he⟩)
            rw [first_inner hm (by rw [hml]; simp) (by omega)] at hlabel
            exact (Option.some.inj hlabel).symm

/-! ## Fans under a change of the tree -/

theorem fan_congr (hkids : c'.kids w = c.kids w)
    (hcont : ∀ u ∈ names (c.kids w), c'.cont u = c.cont u) : c'.fan w = c.fan w := by
  unfold fan
  rw [hkids]
  refine List.map_congr_left (fun e he => ?_)
  rw [hcont e.2 (List.mem_map_of_mem he)]

/-- Nodes that agree in the two lowest layers have the same fans. -/
theorem fits_congr (ht : Tree c h lay) (h1 : 1 ≤ h) (hh : 1 ≤ h') (hlay : lay' 1 = lay 1)
    (hone : ∀ w ∈ names (lay 1), Agree c c' w) (hzero : ∀ w ∈ names (lay 0), Agree c c' w) :
    Fits c' h' lay' ↔ Fits c h lay := by
  have hfan : ∀ w ∈ names (lay 1), c'.fan w = c.fan w := fun w hw =>
    fan_congr (hone w hw).kids
      (fun u hu => (hzero u (ht.layered.kid_mem (by omega) hw hu)).cont)
  unfold Fits
  rw [hlay]
  constructor
  · intro hf _ w hw
    rw [← hfan w hw]
    exact hf hh w hw
  · intro hf _ w hw
    rw [hfan w hw]
    exact hf h1 w hw

section

variable (ht : Tree c h lay) (hj : 0 < h) (hy : lay 1 = P ++ (ky, y) :: Q)
  (hK : c.kids y = K₁ ++ W ++ K₂) (hr : Reshapes c c' h lay 0 y K₁ K₂ W W' moved p)
  (hsub : ∀ w ∈ names W', w ∈ names W)

include ht hj hy hr hsub

/-- The leaves outside the window stay. -/
theorem Reshapes.cont_other {u : Int} (hu : u ∈ names (lay 0)) (huW : u ∉ names W) :
    c'.cont u = c.cont u := by
  refine (hr.agree_other (Nat.zero_le _) hu ?_ (fun h => huW (hsub u h))).cont
  exact ht.layered.ne_of_lt Nat.zero_lt_one hj hu (by rw [hy]; simp)

include hK

/-- Rewriting some leaves below `y` changes the fan of `y` only. -/
theorem Reshapes.fan_other (hw : w ∈ names (lay 1)) (hwy : w ≠ y) : c'.fan w = c.fan w := by
  have hymem : y ∈ names (lay 1) := by
    rw [hy]
    simp
  have hWy : ∀ u ∈ names W, u ∈ names (c.kids y) := by
    intro u hu
    rw [hK, names, List.map_append, List.map_append]
    exact List.mem_append_left _ (List.mem_append_right _ hu)
  refine fan_congr (hr.agree_other hj hw hwy (fun hmem => ?_)).kids (fun u hu => ?_)
  · exact ht.layered.ne_of_lt Nat.zero_lt_one hj
      (ht.layered.kid_mem hj hymem (hWy w (hsub w hmem))) hw rfl
  · refine hr.cont_other ht hj hy hsub (ht.layered.kid_mem hj hw hu) (fun huW => hwy ?_)
    rw [← ht.layered.parent 0 hj w hw u hu]
    exact ht.layered.parent 0 hj y hymem u (hWy u huW)

theorem Reshapes.fan_self : c'.fan y = K₁.map (fun e => (e.1, c.cont e.2))
    ++ W'.map (fun e => (e.1, c'.cont e.2)) ++ K₂.map (fun e => (e.1, c.cont e.2)) := by
  have hymem : y ∈ names (lay 1) := by
    rw [hy]
    simp
  obtain ⟨v, hv, _, hkids, _⟩ := hr.parent
  have hnd := ht.layered.kids_nodup hj hymem
  rw [hK, names, List.map_append, List.map_append, List.nodup_append, List.nodup_append] at hnd
  have hside : ∀ e, e ∈ K₁ ∨ e ∈ K₂ → c'.cont e.2 = c.cont e.2 := by
    intro e he
    have hmem : e.2 ∈ names (c.kids y) := by
      rw [hK, names, List.map_append, List.map_append]
      rcases he with he | he
      · exact List.mem_append_left _ (List.mem_append_left _ (List.mem_map_of_mem he))
      · exact List.mem_append_right _ (List.mem_map_of_mem he)
    refine hr.cont_other ht hj hy hsub (ht.layered.kid_mem hj hymem hmem) (fun huW => ?_)
    rcases he with he | he
    · exact hnd.1.2.2 _ (List.mem_map_of_mem he) _ huW rfl
    · exact hnd.2.2 _ (List.mem_append_right _ huW) _ (List.mem_map_of_mem he) rfl
  unfold fan
  rw [kids_of_view hv, hkids, List.map_append, List.map_append,
    List.map_congr_left (fun e he => by rw [hside e (.inl he)]),
    List.map_congr_left (l := K₂) (fun e he => by rw [hside e (.inr he)])]

/-- So only `y` has to be looked at. -/
theorem Reshapes.fits (hold : ∀ w ∈ names (lay 1), w ≠ y → Fit (c.fan w))
    (hself : Fit (c'.fan y)) :
    Fits c' h (Function.update lay 0 ((Lib.below c.kids P ++ K₁) ++ W'
      ++ (K₂ ++ Lib.below c.kids Q))) := by
  intro _ w hw
  rw [Function.update_of_ne (by omega)] at hw
  by_cases hwy : w = y
  · rw [hwy]
    exact hself
  · rw [hr.fan_other ht hj hy hK hsub hw hwy]
    exact hold w hw hwy

end

/-! ## Next to the leaves -/

section

variable (ht : Tree c h lay) (hj : 1 < h) (hz : lay 2 = P ++ (ky, z) :: Q)
  (hK : c.kids z = K₁ ++ [(ka, a), (kb, b)] ++ K₂)
  (hr : Reshapes c c' h lay 1 z K₁ K₂ [(ka, a), (kb, b)] W' moved p) (hf : Fits c h lay)

include ht hj hz hK hr hf

/-- **Rebalancing next to the leaves.** The two nodes are cut anew, so the first entry of the
right one is looked at now. -/
theorem Reshapes.fits_one (hcut : W' = [(ka, a)]
      ∨ ∃ kb', W' = [(ka, a), (kb', b)] ∧ (c'.kids a).length ≠ (c.kids a).length ∧ c'.kids a ≠ [])
    (hka : c.kids a ≠ []) {e : κ × Int} (hkb : (c.kids b).head? = some e) :
    Fits c' h (Function.update lay 1 ((Lib.below c.kids P ++ K₁) ++ W'
      ++ (K₂ ++ Lib.below c.kids Q))) ↔ Labelled (e.1, c.cont e.2) := by
  obtain ⟨hzmem, ha, hb, hab, haz, hbz⟩ := ht.pair_site hj hz hK
  have hzero : ∀ u ∈ names (lay 0), c'.cont u = c.cont u := fun u hu =>
    (hr.agree_below ht hj hz hK (by omega) hu).cont
  have hcont : ∀ w ∈ names (lay 1), ∀ u ∈ names (c.kids w), c'.cont u = c.cont u :=
    fun w hw u hu => hzero u (ht.layered.kid_mem (by omega) hw hu)
  -- the leaves below the two, in the old cut and in the new one
  have hbelow := hr.same
  have hmap : (Lib.below c'.kids W').map (fun e => (e.1, c'.cont e.2))
      = c.fan a ++ c.fan b := by
    rw [hbelow, Lib.below_pair, List.map_append]
    unfold fan
    congr 1
    · exact List.map_congr_left (fun e he => by rw [hcont a ha e.2 (List.mem_map_of_mem he)])
    · exact List.map_congr_left (fun e he => by rw [hcont b hb e.2 (List.mem_map_of_mem he)])
  obtain ⟨es, hes⟩ : ∃ es, c.kids b = e :: es := by
    cases hcb : c.kids b with
    | nil =>
        rw [hcb] at hkb
        exact absurd hkb (by simp)
    | cons f fs =>
        rw [hcb] at hkb
        exact ⟨fs, by rw [Option.some.inj hkb]⟩
  have hfanb : c.fan b = (e.1, c.cont e.2) :: es.map (fun e => (e.1, c.cont e.2)) := by
    unfold fan
    rw [hes]
    rfl
  have hfa := hf (by omega) a ha
  have hfb := hf (by omega) b hb
  rw [hfanb] at hfb hmap
  have hfana : c.fan a ≠ [] := by
    unfold fan
    simpa using hka
  have hother : ∀ w ∈ names (lay 1), w ∉ names W' → w ≠ z → Fit (c'.fan w) := by
    intro w hw hwW hwz
    rw [fan_congr (hr.agree_other (by omega) hw hwz hwW).kids (hcont w hw)]
    exact hf (by omega) w hw
  have hne : ∀ w ∈ names (lay 1), w ≠ z :=
    fun w hw => ht.layered.ne_of_lt (by omega) (by omega) hw hzmem
  -- what is to be shown of the nodes in the window
  have hiff : Fits c' h (Function.update lay 1 ((Lib.below c.kids P ++ K₁) ++ W'
      ++ (K₂ ++ Lib.below c.kids Q))) ↔ ∀ w ∈ names W', Fit (c'.fan w) := by
    constructor
    · intro hfit w hw
      refine hfit (by omega) w ?_
      rw [Function.update_self, names, List.map_append, List.map_append]
      exact List.mem_append_left _ (List.mem_append_right _ hw)
    · intro hfit _ w hw
      obtain ⟨f, hfm, rfl⟩ := List.mem_map.mp hw
      rcases hr.entry_cases ht hj hz hK (by omega) hfm with ⟨_, hin⟩ | ⟨hin, hout⟩
      · exact hfit f.2 (List.mem_map_of_mem hin)
      · have hmem : f.2 ∈ names (lay 1) := List.mem_map_of_mem hin
        exact hother f.2 hmem hout (hne f.2 hmem)
  rw [hiff]
  rcases hcut with rfl | ⟨kb', rfl, hlen, hpos⟩
  · -- merged
    rw [Lib.below_singleton] at hmap
    have hreg := Fit.regroup (A := c'.fan a) (B := []) hfana ?_ ?_ ?_ hfa hfb
    · rw [← hreg]
      simp [Fit]
    · intro hnil
      rw [fan] at hnil
      rw [hnil] at hmap
      exact absurd hmap (by simp)
    · rw [List.append_nil]
      exact hmap
    · have := congrArg List.length hmap
      unfold fan at this ⊢
      simp at this ⊢
      omega
  · -- dealt out anew
    rw [Lib.below_pair, List.map_append] at hmap
    have hreg := Fit.regroup (A := c'.fan a) (B := c'.fan b) hfana ?_ hmap ?_ hfa hfb
    · rw [← hreg]
      simp
    · unfold fan
      simpa using hpos
    · unfold fan
      simpa using hlen

end

variable [Inhabited κ]

theorem neighbor_of {idx : Nat} (hfind : (c.node (c.par x)).findChild x = some idx) :
    c.neighbor x = ((c.node (c.par x)).rids (if idx > 0 then idx - 1 else idx + 1)).pageNo := by
  unfold neighbor
  dsimp only
  rw [hfind]

/-- The neighbour, and the right one of the two, as the code finds them. -/
theorem Neighbours.found {na nb : IxNode κ} (hnb : Neighbours c lay j x y a b P Q K₁ K₂ ky ka kb na nb)
    (ht : Tree c h lay) (hj : j < h) : c.par x = y ∧ c.rightOne x = b
      ∧ (x = a ∧ c.neighbor x = b ∨ x = b ∧ c.neighbor x = a) := by
  obtain ⟨hymem, _, _, hab, _, _⟩ := ht.pair_site hj hnb.above hnb.kids
  obtain ⟨_, _, ny, hny, hyl, hyk, _⟩ := ht.pair_pages hj hnb.above hnb.kids hnb.left hnb.right
  obtain ⟨hslota, hslotb, _⟩ := IxIndexHandle.pair_slots ht hj hnb.above hnb.kids hnb.left hnb.right hny
  have hyk' : ny.view.kids = K₁ ++ (ka, a) :: (kb, b) :: K₂ := by
    rw [hyk]
    simp
  have hrida : (ny.rids K₁.length).pageNo = a := rids_of_kids hyl hyk'
  have hridb : (ny.rids (K₁.length + 1)).pageNo = b := by
    have := rids_of_kids hyl hyk
    rwa [show (K₁ ++ [(ka, a)]).length = K₁.length + 1 by simp] at this
  have hpar : c.par x = y := by
    refine ht.layered.parent j hj y hymem x ?_
    rw [hnb.kids]
    rcases hnb.here with ⟨rfl, _⟩ | rfl
    · simp
    · simp
  have hnode : c.node (c.par x) = ny := by
    rw [hpar, node_of_some hny]
  rcases hnb.here with ⟨rfl, rfl⟩ | rfl
  · have hnext := neighbor_of (hnode ▸ hslota)
    rw [hnode] at hnext
    refine ⟨hpar, ?_, .inl ⟨rfl, hnext.trans hridb⟩⟩
    rw [rightOne, hnode, hslota]
    exact hnext.trans hridb
  · have hprev := neighbor_of (hnode ▸ hslotb)
    rw [hnode, if_pos (by omega), Nat.add_sub_cancel, hrida] at hprev
    refine ⟨hpar, ?_, .inr ⟨rfl, hprev⟩⟩
    rw [rightOne, hnode, hslotb, if_neg (by simp)]

/-! ## At the leaves -/

section

variable {na nb : IxNode κ} (hnb : Neighbours c lay 0 x y a b P Q K₁ K₂ ky ka kb na nb)
  (ht : Tree c h lay) (hj : 0 < h)
  (hf : ∀ w ∈ names (lay 1), ∀ e ∈ (c.kids w).tail, e.2 ≠ x → Labelled (e.1, c.cont e.2))

include hnb ht hj hf

/-- **Rewriting two leaves below `y`.** All separators are right again, if those of the two are. -/
theorem Neighbours.fits_rewritten
    (hr : Reshapes c c' h lay 0 y K₁ K₂ [(ka, a), (kb, b)] W' moved p)
    (hsub : ∀ w ∈ names W', w ∈ names [(ka, a), (kb, b)]) (hne : W' ≠ [])
    (htail : ∀ e ∈ W'.tail, Labelled (e.1, c'.cont e.2))
    (hall : K₁ ≠ [] → Labelled (ka, na.entries) → ∀ e ∈ W', Labelled (e.1, c'.cont e.2)) :
    Fits c' h (c.relaid lay 0 P K₁ W' K₂ Q) := by
  obtain ⟨hymem, ha, hb, hab, _, _⟩ := ht.pair_site hj hnb.above hnb.kids
  obtain ⟨hla, _⟩ := ht.pair_pages hj hnb.above hnb.kids hnb.left hnb.right
  have hpar := (hnb.found ht hj).1
  have hnd := ht.layered.kids_nodup hj hymem
  rw [hnb.kids, names, List.map_append, List.map_append, List.nodup_append, List.nodup_append] at hnd
  have hxW : x ∈ [a, b] := by
    rcases hnb.here with ⟨rfl, _⟩ | rfl
    · simp
    · simp
  have hK₁ : ∀ e ∈ K₁, e.2 ≠ x := by
    rintro e he rfl
    exact hnd.1.2.2 _ (List.mem_map_of_mem he) _ hxW rfl
  have hK₂ : ∀ e ∈ K₂, e.2 ≠ x := by
    rintro e he rfl
    exact hnd.2.2 _ (List.mem_append_right _ hxW) _ (List.mem_map_of_mem he) rfl
  have hy := hf y hymem
  refine hr.fits ht hj hnb.above hnb.kids hsub (fun w hw hwy d hd => ?_) ?_
  · unfold fan at hd
    rw [← List.map_tail] at hd
    obtain ⟨e, he, rfl⟩ := List.mem_map.mp hd
    refine hf w hw e he (fun hex => hwy ?_)
    rw [← hpar, ← hex,
      ht.layered.parent 0 hj w hw e.2 (List.mem_map_of_mem (List.mem_of_mem_tail he))]
  · rw [hr.fan_self ht hj hnb.above hnb.kids hsub]
    refine Fit.window ?_ ?_ (by simpa using hne) ?_ ?_
    · intro d hd
      rw [← List.map_tail] at hd
      obtain ⟨e, he, rfl⟩ := List.mem_map.mp hd
      refine hy e ?_ (hK₁ e (List.mem_of_mem_tail he))
      rw [hnb.kids, List.append_assoc, List.tail_append_of_ne_nil (List.ne_nil_of_mem
        (List.mem_of_mem_tail he))]
      exact List.mem_append_left _ he
    · intro d hd
      obtain ⟨e, he, rfl⟩ := List.mem_map.mp hd
      refine hy e ?_ (hK₂ e he)
      rw [hnb.kids, List.tail_append_of_ne_nil (by simp)]
      exact List.mem_append_right _ he
    · intro d hd
      rw [← List.map_tail] at hd
      obtain ⟨e, he, rfl⟩ := List.mem_map.mp hd
      exact htail e he
    · intro hK d hd
      obtain ⟨e, he, rfl⟩ := List.mem_map.mp hd
      have hK' : K₁ ≠ [] := by simpa using hK
      refine hall hK' ?_ e he
      -- the leaf is the right one, and the separator of the left one is as it was
      have hxb : x = b := by
        rcases hnb.here with ⟨_, h0⟩ | hxb
        · exact absurd h0 hK'
        · exact hxb
      have hlab := hy (ka, a) (by
        rw [hnb.kids, List.append_assoc, List.tail_append_of_ne_nil hK']
        simp) (by rw [hxb]; exact hab)
      rwa [cont_of_leaf (view_of_pages hnb.left) (by exact hla)] at hlab

end

section

variable {na nb : IxNode κ} (hnb : Neighbours c lay 0 x y a b P Q K₁ K₂ ky ka kb na nb)
  (ht : Tree c h lay) (hj : 0 < h) (hl : Listed c h lay) (h1 : 1 ≤ na.numKey)

include hnb ht hj hl h1

/-- Merging two leaves keeps the first entry of every leaf. -/
theorem Neighbours.first_merge (hw : w ∈ names (lay 0)) :
    ((c.merge a b y (K₁.length + 1)).cont w).head? = (c.cont w).head? := by
  obtain ⟨hymem, _⟩ := ht.pair_site hj hnb.above hnb.kids
  obtain ⟨hla, _⟩ := ht.pair_pages hj hnb.above hnb.kids hnb.left hnb.right
  have hlinks := hnb.links ht hj hl
  have hr := ht.reshapes_merged hj hnb.above hnb.kids hnb.left hnb.right h1 hlinks
  by_cases hwa : w = a
  · rw [hwa, cont_of_leaf (hnb.view_merge ht hj hlinks) (by exact hla),
      cont_of_leaf (view_of_pages hnb.left) (by exact hla)]
    show (IxNode.entries _).head? = na.entries.head?
    rw [entries_joined, List.head?_append, IxNode.entries_head h1]
    rfl
  · rw [(hr.agree_other (Nat.zero_le _) hw ?_ (by simpa using hwa)).cont]
    exact ht.layered.ne_of_lt Nat.zero_lt_one hj hw hymem

/-- Next to the leaves, the right one of two nodes and its first child stay. -/
theorem Neighbours.right_merge (hlt : 1 < h) {ny : IxNode κ}
    (hm : Merged c h lay 0 y (c.merge a b y (K₁.length + 1))
      (c.relaid lay 0 P K₁ [(ka, a)] K₂ Q) ny) :
    c.rightOne y ∈ names (lay 1) ∧ ((c.merge a b y (K₁.length + 1)).kids
      ((c.merge a b y (K₁.length + 1)).rightOne y)).head? = (c.kids (c.rightOne y)).head? := by
  obtain ⟨hymem, ha, _⟩ := ht.pair_site hj hnb.above hnb.kids
  have hr := ht.reshapes_merged hj hnb.above hnb.kids hnb.left hnb.right h1 (hnb.links ht hj hl)
  -- above the leaves only `y` lost a child
  have hagree : ∀ i, 1 ≤ i → i ≤ h → ∀ w ∈ names (lay i), w ≠ y →
      Agree c (c.merge a b y (K₁.length + 1)) w := by
    intro i h1 hi w hw hwy
    refine hr.agree_other hi hw hwy (fun hmem => ?_)
    rw [show w = a by simpa using hmem] at hw
    have := ht.layered.apart i 0 hi (Nat.zero_le _) a hw ha
    omega
  obtain ⟨v, hv, _, hkids, _⟩ := hr.parent
  obtain ⟨z, u, w, P', Q', L₁, L₂, kz, ku, kw, nu, nw, hnb', _⟩ :=
    hm.tree.neighbours hm.sizes hlt hm.parent
  have hright := (hnb'.found hm.tree hlt).2.1
  have habove := hnb'.above
  rw [relaid, Function.update_of_ne (by omega)] at habove
  have hzmem : z ∈ names (lay 2) := by
    rw [habove]
    simp
  have hzy : z ≠ y := (ht.layered.ne_of_lt (by omega) hlt hymem hzmem).symm
  have hkz : c.kids z = L₁ ++ [(ku, u), (kw, w)] ++ L₂ :=
    (hagree 2 (by omega) hlt z hzmem hzy).kids.symm.trans hnb'.kids
  obtain ⟨_, hu, hw, _⟩ := ht.pair_site hlt habove hkz
  obtain ⟨mu, hmu, _⟩ := ht.view_some (by omega) hu
  obtain ⟨mw, hmw, _⟩ := ht.view_some (by omega) hw
  have hold : c.rightOne y = w :=
    (Neighbours.found ⟨habove, hkz, hmu, hmw, hnb'.here⟩ ht hlt).2.1
  rw [hright, hold]
  refine ⟨hw, ?_⟩
  by_cases hwy : w = y
  · rw [hwy, kids_of_view hv, hkids, hnb.kids]
    cases K₁ with
    | nil => rfl
    | cons e K₁ => rfl
  · rw [(hagree 1 (Nat.le_refl _) (by omega) w hw hwy).kids]

end

/-! ## The condition before the removal -/

/-- Another node in a leaf changes nothing for nodes that are not its children. -/
theorem neighbor_setLeaf (hpar : (c.setNode x m).par = c.par) (hw : c.par w ≠ x) :
    (c.setNode x m).neighbor w = c.neighbor w := by
  unfold neighbor
  rw [hpar, node_setNode, if_neg hw]

theorem rightOne_setLeaf (hpar : (c.setNode x m).par = c.par) (hw : c.par w ≠ x) :
    (c.setNode x m).rightOne w = c.rightOne w := by
  unfold rightOne
  rw [neighbor_setLeaf hpar hw, hpar, node_setNode, if_neg hw]

variable [LinearOrder κ]

/-- No other leaf has the key. -/
theorem WellFormed.key_once {v : Rid} (hw : WellFormed c h lay) (hx : x ∈ names (lay 0))
    (hn : c.pages x = some n) (hk : (k, v) ∈ n.entries) (hy : y ∈ names (lay 0)) (hxy : y ≠ x) :
    ∀ e ∈ c.cont y, e.1 ≠ k := by
  obtain ⟨A, kx, B, hcut⟩ := split_of_mem_names hx
  have hsorted := hw.sorted
  have hcont : (k, v) ∈ c.cont x := by
    rw [cont_of_leaf (view_of_pages hn) (hw.tree.isLeaf hx hn)]
    exact hk
  unfold stored at hsorted
  rw [hcut, List.flatMap_append, List.flatMap_cons, Increasing.append_iff,
    Increasing.append_iff] at hsorted
  obtain ⟨_, ⟨_, _, hright⟩, hleft⟩ := hsorted
  intro e he
  obtain ⟨f, hf, rfl⟩ := List.mem_map.mp hy
  rw [hcut] at hf
  rcases List.mem_append.mp hf with hf | hf
  · exact ne_of_lt (hleft e (List.mem_flatMap.mpr ⟨f, hf, he⟩) _ (List.mem_append_left _ hcont))
  · rcases List.mem_cons.mp hf with rfl | hf
    · exact absurd rfl hxy
    · exact ne_of_gt (hright _ hcont e (List.mem_flatMap.mpr ⟨f, hf, he⟩))

section

variable {v : Rid} (hw : WellFormed c h lay) (hx : x ∈ names (lay 0)) (hn : c.pages x = some n)
  (hk : (k, v) ∈ n.entries) (hj : 0 < h)

include hw hx hn hk hj

/-- The first key of a leaf after the removal. -/
theorem WellFormed.first_removed (hy : y ∈ names (lay 0)) :
    ((c.setNode x (n.remove k)).cont y).head?.map Prod.fst
      = some ((c.node y).firstBut k) := by
  have hpos := hw.sizes.pos hw.tree hj hx hn
  obtain ⟨L₁, L₂, hent⟩ := List.append_of_mem hk
  obtain ⟨_, hsize⟩ := IxNode.entries_remove (hw.leaf_sorted hx hn) hent
  by_cases hyx : y = x
  · rw [hyx, node_of_some hn, ← IxNode.keys_remove (hw.leaf_sorted hx hn) hpos]
    exact first_leaf setNode_pages_self (IxNode.remove_fields.1.trans (hw.tree.isLeaf hx hn)) (by omega)
  · obtain ⟨m, hm, hml⟩ := hw.tree.view_some (Nat.zero_le _) hy
    have honce := hw.key_once hx hn hk hy hyx
    rw [cont_of_leaf (view_of_pages hm) hml] at honce
    have hposm := hw.sizes.pos hw.tree hj hy hm
    rw [node_of_some hm, ← IxNode.keys_remove (hw.leaf_sorted hy hm) hposm,
      IxNode.remove_of_not_mem honce]
    exact first_leaf ((setNode_pages_of_ne hyx).trans hm) hml (by omega)

/-- The separator of the leaf, if it stays large enough. -/
theorem WellFormed.label_removed (hf : Fits c h lay) :
    (∀ e ∈ (c.kids (c.par x)).tail, e.2 = x → Labelled (e.1, (c.setNode x (n.remove k)).cont e.2))
      ↔ (n.keys 0 = k → (c.node (c.par x)).findChild x = some 0) := by
  obtain ⟨P, ky, Q, K₁, kx, K₂, hy, hK⟩ := hw.tree.layered.locate hj hx
  have hymem : c.par x ∈ names (lay 1) := by
    rw [hy]
    simp
  obtain ⟨ny, hny, hyl⟩ := hw.tree.view_some (by omega) hymem
  have hyl' : ny.isLeaf = false := by
    rw [hyl]
    rfl
  have hnd := hw.tree.layered.kids_nodup hj hymem
  have hyk := kids_of_view (view_of_pages hny)
  have hfind : (c.node (c.par x)).findChild x = some K₁.length := by
    rw [node_of_some hny]
    exact findChild_kids hyl' (hyk.symm.trans hK) (hyk ▸ hnd)
  have hpos := hw.sizes.pos hw.tree hj hx hn
  have hfirst := IxNode.firstBut_eq (k := k) (hw.leaf_sorted hx hn) hpos
  -- the separator was the first key
  have hold : ∀ e ∈ (c.kids (c.par x)).tail, e.2 = x → e.1 = n.keys 0 := by
    intro e he hex
    have := hf hj _ hymem (e.1, c.cont e.2) (by
      unfold fan
      rw [← List.map_tail]
      exact List.mem_map_of_mem (f := fun e => (e.1, c.cont e.2)) he)
    rw [Labelled, hex, first_leaf hn (hw.tree.isLeaf hx hn) (by omega)] at this
    exact (Option.some.inj this).symm
  have hnew : ∀ e : κ × Int, e.2 = x → (Labelled (e.1, (c.setNode x (n.remove k)).cont e.2)
      ↔ n.firstBut k = e.1) := by
    intro e hex
    unfold Labelled
    rw [hex, hw.first_removed hx hn hk hj hx, node_of_some hn, Option.some.injEq]
  rw [hfind, Option.some.injEq]
  constructor
  · intro hall heq
    by_contra hne
    have hmem : (kx, x) ∈ (c.kids (c.par x)).tail := by
      rw [hK, List.tail_append_of_ne_nil (fun hnil => hne (by rw [hnil]; rfl))]
      simp
    have := (hnew (kx, x) rfl).mp (hall _ hmem rfl)
    rw [hold _ hmem rfl] at this
    exact hfirst.mp this heq
  · intro hcond e he hex
    rw [hnew e hex, hold e he hex, hfirst]
    intro heq
    obtain rfl := List.eq_nil_of_length_eq_zero (hcond heq)
    rw [hK] at he hnd
    have hmem : e.2 ∈ names K₂ := List.mem_map_of_mem he
    rw [hex] at hmem
    exact (List.nodup_cons.mp hnd).1 hmem

/-- The first leaf of the right one of the parent and its neighbour. -/
theorem WellFormed.right_removed (hlt : 1 < h) :
    (∀ e, (c.kids (c.rightOne (c.par x))).head? = some e →
        Labelled (e.1, (c.setNode x (n.remove k)).cont e.2))
      ↔ (c.node (c.rightOne (c.par x))).keys 0
        = (c.node ((c.node (c.rightOne (c.par x))).rids 0).pageNo).firstBut k := by
  obtain ⟨P, ky, Q, _, _, _, hy, _⟩ := hw.tree.layered.locate hj hx
  have hymem : c.par x ∈ names (lay 1) := by
    rw [hy]
    simp
  have hs : Sizes c h lay [c.par x] :=
    ⟨hw.sizes.1, fun i hi w hw' _ => hw.sizes.2 i hi w hw' (by simp)⟩
  obtain ⟨z, a, b, P', Q', K₁, K₂, kz, ka, kb, na, nb, hnb, _⟩ := hw.tree.neighbours hs hlt hymem
  obtain ⟨_, _, hb, _⟩ := hw.tree.pair_site hlt hnb.above hnb.kids
  obtain ⟨_, hlb, _⟩ := hw.tree.pair_pages hlt hnb.above hnb.kids hnb.left hnb.right
  have hpos := hw.sizes.pos hw.tree hlt hb hnb.right
  have hhead := first_inner hnb.right (by rw [hlb]; rfl) (by omega)
  have hkid := hw.tree.layered.kid_mem hj hb (List.mem_map_of_mem (List.mem_of_mem_head? hhead))
  rw [(hnb.found hw.tree hlt).2.1, node_of_some hnb.right, hhead]
  have hiff : Labelled (nb.keys 0, (c.setNode x (n.remove k)).cont (nb.rids 0).pageNo)
      ↔ nb.keys 0 = (c.node (nb.rids 0).pageNo).firstBut k := by
    unfold Labelled
    rw [hw.first_removed hx hn hk hj hkid, Option.some.injEq]
    exact eq_comm
  rw [← hiff]
  constructor
  · exact fun hall => hall _ rfl
  · intro hlab e he
    obtain rfl := Option.some.inj he
    exact hlab

end

/-- **The condition after the removal is one on the tree before.** -/
theorem WellFormed.keepsFirst_iff {v : Rid} (hw : WellFormed c h lay) (hx : x ∈ names (lay 0))
    (hn : c.pages x = some n) (hk : (k, v) ∈ n.entries) (hf : Fits c h lay)
    (hsize : (n.remove k).numKey + 1 = n.numKey) :
    (0 < h → (c.hdr.minSize ≤ (n.remove k).numKey →
        ∀ e ∈ ((c.setNode x (n.remove k)).kids ((c.setNode x (n.remove k)).par x)).tail, e.2 = x →
          Labelled (e.1, (c.setNode x (n.remove k)).cont e.2))
      ∧ (((n.remove k).numKey : Int) < c.hdr.minSize →
        ((n.remove k).numKey + (c.setNode x (n.remove k)).size
          ((c.setNode x (n.remove k)).neighbor x) : Int) < c.hdr.minSize * 2 → 1 < h →
        ((c.setNode x (n.remove k)).size ((c.setNode x (n.remove k)).par x) : Int) ≤ c.hdr.minSize →
        ∀ e, ((c.setNode x (n.remove k)).kids ((c.setNode x (n.remove k)).rightOne
          ((c.setNode x (n.remove k)).par x))).head? = some e →
            Labelled (e.1, (c.setNode x (n.remove k)).cont e.2)))
      ↔ KeepsFirst c x k := by
  obtain ⟨hfl, hfp, _, _⟩ := IxNode.remove_fields (n := n) (k := k)
  rw [hw.tree.kids_setLeaf hx hn hfl, par_setLeaf hn hfp]
  unfold KeepsFirst
  rw [hw.tree.layered.ne_root_iff (Nat.zero_le _) hx]
  refine imp_congr_right (fun hj => ?_)
  have hs : Sizes c h lay [x] :=
    ⟨hw.sizes.1, fun i hi w hw' _ => hw.sizes.2 i hi w hw' (by simp)⟩
  obtain ⟨y, a, b, P, Q, K₁, K₂, ky, ka, kb, na, nb, hnb, _⟩ := hw.tree.neighbours hs hj hx
  obtain ⟨hymem, _, _, hab, hay, hby⟩ := hw.tree.pair_site hj hnb.above hnb.kids
  obtain ⟨hpar, _, hnext⟩ := hnb.found hw.tree hj
  -- the removal touches `x` alone: neither its parent nor its neighbour
  have hyx : c.par x ≠ x := by
    rw [hpar]
    rcases hnext with ⟨rfl, _⟩ | ⟨rfl, _⟩
    · exact Ne.symm hay
    · exact Ne.symm hby
  have hnx : c.neighbor x ≠ x := by
    rcases hnext with ⟨rfl, hnext⟩ | ⟨rfl, hnext⟩
    · rw [hnext]
      exact Ne.symm hab
    · rw [hnext]
      exact hab
  have hlt : c.par x ≠ c.hdr.rootPage ↔ 1 < h := by
    rw [hpar]
    exact hw.tree.layered.ne_root_iff hj hymem
  have hpp : 1 < h → c.par (c.par x) ≠ x := by
    intro hlt
    obtain ⟨P', kz, Q', _, _, _, hz, _⟩ := hw.tree.layered.locate hlt (hpar ▸ hymem)
    exact (hw.tree.layered.ne_of_lt (by omega) hlt hx (by rw [hz]; simp)).symm
  rw [neighbor_setLeaf (par_setLeaf hn hfp) hyx, size_setNode, if_neg hnx, size_setNode, if_neg hyx,
    hw.label_removed hx hn hk hj hf, node_of_some hn, size_eq_numKey hn]
  refine and_congr ?_ ?_
  · exact ⟨fun hall hmin => hall (by omega), fun hall hmin => hall (by omega)⟩
  · unfold Cascades
    rw [hlt, size_eq_numKey hn]
    constructor
    · rintro hall ⟨h1, h2, h3, h4⟩
      have hright := hall (by omega) (by omega) h3 h4
      rw [rightOne_setLeaf (par_setLeaf hn hfp) (hpp h3)] at hright
      exact (hw.right_removed hx hn hk hj h3).mp hright
    · intro hall h1 h2 h3 h4
      rw [rightOne_setLeaf (par_setLeaf hn hfp) (hpp h3)]
      exact (hw.right_removed hx hn hk hj h3).mpr (hall ⟨by omega, by omega, h3, h4⟩)

end IxCore

namespace IxIndexHandle

open IxCore

variable {κ : Type} [LinearOrder κ] [Inhabited κ] {c : IxCore κ} {h fuel : Nat}
  {lay : Nat → List (κ × Int)} {x y : Int} {n : IxNode κ} {k : κ}

/-- **`CoalesceOrRedistribute` next to the leaves.** -/
theorem yields_rebalance_one (ht : Tree c h lay) (h1 : 1 ≤ h) (hy : y ∈ names (lay 1))
    (hn : c.pages y = some n) (hs : Sizes c h lay [y]) (hf : Fits c h lay)
    (hlow : 1 < h → c.hdr.minSize ≤ n.numKey + 1) (hpos : 1 ≤ n.numKey)
    (hroom : (n.numKey : Int) ≤ c.hdr.btreeOrder) (hfuel : h + 2 ≤ fuel) :
    Yields (coalesceOrRedistribute fuel y) c (fun _ c' => ∃ h' lay', Tree c' h' lay'
      ∧ Sizes c' h' lay' [] ∧ (Fits c' h' lay' ↔ (1 < h → (n.numKey : Int) < c.hdr.minSize →
        ∀ e, (c.kids (c.rightOne y)).head? = some e → Labelled (e.1, c.cont e.2)))) := by
  obtain ⟨fuel, rfl⟩ : ∃ f, fuel = f + 1 := ⟨fuel - 1, by omega⟩
  have h3 := hs.1
  -- the two nodes have children
  have hkids : ∀ w, w ∈ names (lay 1) → ∀ m, c.pages w = some m → 1 ≤ m.numKey →
      ∃ e, (c.kids w).head? = some e := by
    intro w hw m hm hm1
    obtain ⟨m', hm', hl⟩ := ht.view_some h1 hw
    obtain rfl : m = m' := Option.some.inj (hm.symm.trans hm')
    exact ⟨_, first_inner hm (by rw [hl]; rfl) hm1⟩
  refine yields_round ht h1 hy hn hs (fun h0 => by omega) hlow (by omega) ?_ ?_ ?_ ?_
  · intro henough
    refine ⟨h, lay, ht, hs.settle fun i hi hmem => ?_, fun _ _ hfew => by omega, fun _ => hf⟩
    unfold SizeOk
    rw [size_eq_numKey hn]
    refine ⟨hroom, fun _ => henough, fun _ _ => ?_⟩
    unfold IxFileHdr.minSize IxFileHdr.maxSize at henough
    omega
  · rintro rfl hfew
    obtain rfl := ht.layered.eq_root hy
    refine (yields_adjustRoot_cases ht h1 hn).mono ?_
    rintro _ c' (⟨hone, rfl⟩ | ⟨hone, rfl⟩)
    · exact ⟨0, lay, ht.collapse hn hone, ht.sizes_collapse hn hone hs,
        fun _ hlt => by omega, fun _ h1 => by omega⟩
    · refine ⟨1, lay, ht, hs.settle fun i hi hmem => ?_, fun _ hlt => by omega, fun _ => hf⟩
      unfold SizeOk
      rw [size_eq_numKey hn]
      unfold IxFileHdr.minSize IxFileHdr.maxSize at hfew
      exact ⟨by omega, fun h => absurd rfl h, fun _ _ => by omega⟩
  · intro z a b P Q K₁ K₂ kz ka kb na nb hlt hone hnb hbig
    obtain ⟨_, ha, hb, hab, _, _⟩ := ht.pair_site hlt hnb.above hnb.kids
    obtain ⟨hleafa, _⟩ := ht.pair_pages hlt hnb.above hnb.kids hnb.left hnb.right
    obtain ⟨kb', moved, p, va, vb, hr, hd⟩ := hnb.dealt_of_short ht hs hlt hn hone hbig
    have horder := (framed_shift (c := c) (x := y) (a := a) (b := b) (y := z) (K₁.length + 1)).hdr.same.1
    have hla := hnb.left_pos ht hs hlt hn hone
    obtain ⟨e, he⟩ := hkids b hb nb hnb.right (hnb.right_pos ht hs hlt hn hone)
    obtain ⟨f, hfa⟩ := hkids a ha na hnb.left hla
    obtain ⟨⟨va', hva', hvl, _⟩, _⟩ := hr.nodes a (by simp)
    obtain rfl : va = va' := Option.some.inj (hd.left.symm.trans hva')
    have hnew := size_eq_kids hva' hvl
    rw [size_of_view hva'] at hnew
    have hold := size_eq_kids (view_of_pages hnb.left) (by exact hleafa)
    rw [size_eq_numKey hnb.left] at hold
    refine ⟨h, _, ht.reshape hlt hnb.above hnb.kids hr,
      hnb.sizes_shift ht hs hlt hn hone hr hd horder hbig, ?_⟩
    rw [hr.fits_one ht hlt hnb.above hnb.kids hf (.inr ⟨_, rfl, ?_, ?_⟩) ?_ he,
      (hnb.found ht hlt).2.1]
    · exact ⟨fun hlab _ _ e' he' => Option.some.inj (he.symm.trans he') ▸ hlab,
        fun hall => hall hlt (by omega) e he⟩
    · rcases hd.more with ⟨_, hmore⟩ | ⟨_, hmore⟩
      · omega
      · have := hd.total
        omega
    · intro hnil
      have hhead := hd.firstLeft
      rw [hnil, List.length_nil] at hnew
      rw [List.eq_nil_of_length_eq_zero hnew, IxNode.entries_head hla] at hhead
      exact absurd hhead (by simp)
    · intro hnil
      rw [hnil] at hfa
      exact absurd hfa (by simp)
  · intro z a b P Q K₁ K₂ kz ka kb na nb hlt hone hnb hsmall
    obtain ⟨_, ha, hb, hab, _, _⟩ := ht.pair_site hlt hnb.above hnb.kids
    obtain ⟨_, hlb, _⟩ := ht.pair_pages hlt hnb.above hnb.kids hnb.left hnb.right
    have hlinks : nb.isLeaf = true →
        (c.pages nb.prevLeaf).isSome ∧ (c.pages nb.nextLeaf).isSome := by
      intro hl
      rw [hlb] at hl
      exact absurd hl (by simp)
    have hla := hnb.left_pos ht hs hlt hn hone
    obtain ⟨ny, hm⟩ := hnb.merged ht hs hlt hn hone hlinks hsmall
    have hr := ht.reshapes_merged hlt hnb.above hnb.kids hnb.left hnb.right hla hlinks
    obtain ⟨e, he⟩ := hkids b hb nb hnb.right (hnb.right_pos ht hs hlt hn hone)
    obtain ⟨f, hfa⟩ := hkids a ha na hnb.left hla
    have hfits := hr.fits_one ht hlt hnb.above hnb.kids hf (.inl rfl)
      (fun hnil => by rw [hnil] at hfa; exact absurd hfa (by simp)) he
    -- what is above does not change the two lowest layers
    refine (yields_climb hm.tree (by omega) (by omega) hm.parent hm.page hm.sizes hm.low hm.pos
      hm.room (by omega)).mono (fun _ c' hset => ?_)
    obtain ⟨h', lay', ht', hs', hsame, _⟩ := hset.tree
    obtain ⟨_, _, hzero⟩ := hsame 0 (by omega)
    obtain ⟨h1', hlay, hone'⟩ := hsame 1 (by omega)
    refine ⟨h', lay', ht', hs', ?_⟩
    rw [fits_congr hm.tree h1 h1' hlay hone' hzero, hfits, (hnb.found ht hlt).2.1]
    exact ⟨fun hlab _ _ e' he' => Option.some.inj (he.symm.trans he') ▸ hlab,
      fun hall => hall hlt (by omega) e he⟩

/-- **`CoalesceOrRedistribute` at a leaf** that has lost an entry, in a tree whose separators are
right but for that of the leaf. -/
theorem yields_rebalanceLeaf_fits (hx : Shrunk c h lay x n)
    (hf : 0 < h → ∀ w ∈ names (lay 1), ∀ e ∈ (c.kids w).tail, e.2 ≠ x → Labelled (e.1, c.cont e.2))
    (hfuel : h + 3 ≤ fuel) :
    Yields (coalesceOrRedistribute fuel x) c (fun _ c' => ∃ h' lay', Tree c' h' lay'
      ∧ Sizes c' h' lay' [] ∧ (Fits c' h' lay' ↔ (0 < h →
        (c.hdr.minSize ≤ n.numKey → ∀ e ∈ (c.kids (c.par x)).tail, e.2 = x →
          Labelled (e.1, c.cont e.2))
        ∧ ((n.numKey : Int) < c.hdr.minSize →
          (n.numKey + c.size (c.neighbor x) : Int) < c.hdr.minSize * 2 → 1 < h →
          (c.size (c.par x) : Int) ≤ c.hdr.minSize →
          ∀ e, (c.kids (c.rightOne (c.par x))).head? = some e → Labelled (e.1, c.cont e.2))))) := by
  obtain ⟨fuel, rfl⟩ : ∃ f, fuel = f + 1 := ⟨fuel - 1, by omega⟩
  have ht := hx.tree
  refine yields_round ht (Nat.zero_le _) hx.leaf hx.page hx.sizes hx.links hx.low (by omega)
    ?_ ?_ ?_ ?_
  · intro henough
    refine ⟨h, lay, ht, hx.settle fun _ => henough, ?_⟩
    constructor
    · intro hfit hlt
      refine ⟨fun _ e he _ => hfit hlt (c.par x) ?_ _ ?_, fun hfew => by omega⟩
      · obtain ⟨P, ky, Q, _, _, _, hy, _⟩ := ht.layered.locate hlt hx.leaf
        rw [hy]
        simp
      · unfold fan
        rw [← List.map_tail]
        exact List.mem_map_of_mem (f := fun e => (e.1, c.cont e.2)) he
    · intro hall hlt w hw b hb
      unfold fan at hb
      rw [← List.map_tail] at hb
      obtain ⟨e, he, rfl⟩ := List.mem_map.mp hb
      by_cases hex : e.2 = x
      · refine (hall hlt).1 henough e ?_ hex
        rw [← hex, ht.layered.parent 0 hlt w hw e.2 (List.mem_map_of_mem (List.mem_of_mem_tail he))]
        exact he
      · exact hf hlt w hw e he hex
  · intro h0 _
    exact yields_adjustRoot_leaf hx h0
      (fun hs => ⟨h, lay, ht, hs, fun _ hlt => by omega, fun _ h1 => by omega⟩)
  · intro y a b P Q K₁ K₂ ky ka kb na nb hlt hone hnb hbig
    obtain ⟨hpar, _, hnext⟩ := hnb.found ht hlt
    obtain ⟨kb', moved, p, va, vb, hr, hd⟩ := hnb.dealt_of_short ht hx.sizes hlt hx.page hone hbig
    have horder := (framed_shift (c := c) (x := x) (a := a) (b := b) (y := y)
      (K₁.length + 1)).hdr.same.1
    obtain ⟨⟨va', hva', hvla, _⟩, _⟩ := hr.nodes a (by simp)
    obtain ⟨⟨vb', hvb', hvlb, _⟩, _⟩ := hr.nodes b (by simp)
    obtain rfl : va = va' := Option.some.inj (hd.left.symm.trans hva')
    obtain rfl : vb = vb' := Option.some.inj (hd.right.symm.trans hvb')
    have hright : Labelled (kb', (c.shift x a b y (K₁.length + 1)).cont b) := by
      rw [cont_of_leaf hvb' hvlb]
      exact hd.firstRight
    refine ⟨h, _, ht.reshape hlt hnb.above hnb.kids hr,
      hnb.sizes_shift ht hx.sizes hlt hx.page hone hr hd horder hbig, fun _ _ => ⟨fun h => by omega, ?_⟩,
      fun _ => hnb.fits_rewritten ht hlt (hf hlt) hr (by simp) (by simp) ?_ ?_⟩
    · -- there was enough to borrow
      intro _ hsmall
      rcases hnext with ⟨rfl, hnext⟩ | ⟨rfl, hnext⟩
      · obtain rfl : n = na := Option.some.inj (hx.page.symm.trans hnb.left)
        rw [hnext, size_eq_numKey hnb.right] at hsmall
        omega
      · obtain rfl : n = nb := Option.some.inj (hx.page.symm.trans hnb.right)
        rw [hnext, size_eq_numKey hnb.left] at hsmall
        omega
    · intro e he
      obtain rfl : e = (kb', b) := by simpa using he
      exact hright
    · intro _ hlab e he
      obtain rfl | rfl : e = (ka, a) ∨ e = (kb', b) := by simpa using he
      · show Labelled (ka, _)
        rw [cont_of_leaf hva' hvla, Labelled, hd.firstLeft]
        exact hlab
      · exact hright
  · intro y a b P Q K₁ K₂ ky ka kb na nb hlt hone hnb hsmall
    obtain ⟨hpar, _, hnext⟩ := hnb.found ht hlt
    have hla := hnb.left_pos ht hx.sizes hlt hx.page hone
    have hlk := hnb.links ht hlt hx.listed
    obtain ⟨ny, hm⟩ := hnb.merged ht hx.sizes hlt hx.page hone hlk hsmall
    have hr := ht.reshapes_merged hlt hnb.above hnb.kids hnb.left hnb.right hla hlk
    have hfits := hnb.fits_rewritten ht hlt (hf hlt) hr (by simp) (by simp) (by simp)
      (fun _ hlab e he => by
        obtain rfl : e = (ka, a) := by simpa using he
        obtain ⟨_, ha, _⟩ := ht.pair_site hlt hnb.above hnb.kids
        have hleaf := ht.isLeaf ha hnb.left
        rw [Labelled, hnb.first_merge ht hlt hx.listed hla ha,
          cont_of_leaf (view_of_pages hnb.left) hleaf]
        exact hlab)
    refine (yields_rebalance_one hm.tree hlt hm.parent hm.page hm.sizes hfits hm.low hm.pos hm.room
      (by omega)).mono ?_
    rintro _ c' ⟨h', lay', ht', hs', hiff⟩
    refine ⟨h', lay', ht', hs', hiff.trans ?_⟩
    have hmin : (c.merge a b y (K₁.length + 1)).hdr.minSize = c.hdr.minSize := by
      unfold IxFileHdr.minSize IxFileHdr.maxSize
      rw [hm.order]
    have hsum : (n.numKey + c.size (c.neighbor x) : Int) < c.hdr.minSize * 2 := by
      rcases hnext with ⟨rfl, hnext⟩ | ⟨rfl, hnext⟩
      · obtain rfl : n = na := Option.some.inj (hx.page.symm.trans hnb.left)
        rw [hnext, size_eq_numKey hnb.right]
        exact hsmall
      · obtain rfl : n = nb := Option.some.inj (hx.page.symm.trans hnb.right)
        rw [hnext, size_eq_numKey hnb.left]
        omega
    have hsize := hm.size
    -- the first leaf of the right one has the first entry it had
    have hsame : ∀ e, 1 < h → (c.kids (c.rightOne y)).head? = some e →
        (Labelled (e.1, (c.merge a b y (K₁.length + 1)).cont e.2) ↔ Labelled (e.1, c.cont e.2)) := by
      intro e hlt' he
      have hkid := ht.layered.kid_mem hlt (hnb.right_merge ht hlt hx.listed hla hlt' hm).1
        (List.mem_map_of_mem (List.mem_of_mem_head? he))
      unfold Labelled
      rw [hnb.first_merge ht hlt hx.listed hla hkid]
    rw [hmin, hpar]
    constructor
    · intro hall _
      refine ⟨fun h => by omega, fun _ _ hlt' hfew e he => (hsame e hlt' he).mp ?_⟩
      refine hall hlt' (by omega) e ?_
      rw [(hnb.right_merge ht hlt hx.listed hla hlt' hm).2]
      exact he
    · intro hall hlt' hfew e he
      rw [(hnb.right_merge ht hlt hx.listed hla hlt' hm).2] at he
      exact (hsame e hlt' he).mpr ((hall hlt).2 (by omega) hsum hlt' (by omega) e he)

/-- `leaf->Remove(k)` and `CoalesceOrRedistribute(leaf)` leave the separators equal to the first
keys. -/
def KeepsChecked (c : IxCore κ) (x : Int) (k : κ) : Prop :=
  ∃ rounds, ∀ fuel, rounds ≤ fuel → Yields (removeFromLeaf fuel x k) c (fun _ c' => Checked c')

section

variable {v : Rid} (hw : WellFormed c h lay) (hc : Checked c) (h2 : 2 ≤ (c.stored lay).length)
  (hx : x ∈ names (lay 0)) (hn : c.pages x = some n) (hk : (k, v) ∈ n.entries)

include hw hc h2 hx hn hk

theorem yields_remove_checked (hfuel : h + 3 ≤ fuel) : Yields (removeFromLeaf fuel x k) c
    (fun _ c' => Checked c' ↔ KeepsFirst c x k) := by
  obtain ⟨hsize, hshrunk⟩ := hw.sound.shrunk hx hn (hw.leaf_sorted hx hn) hk (hw.only_leaf h2 hx hn)
  have hf := (hw.tree.checked_iff hw.sizes).mp hc
  obtain ⟨hfl, _⟩ := IxNode.remove_fields (n := n) (k := k)
  refine yields_remove_then hn (by omega)
    ((yields_rebalanceLeaf_fits hshrunk (fun hj w hw' e he hex => ?_) hfuel).mono ?_)
  · rw [hw.tree.kids_setLeaf hx hn hfl] at he
    have hcont : (c.setNode x (n.remove k)).cont e.2 = c.cont e.2 := by
      unfold cont
      rw [view_setNode, if_neg hex]
    rw [hcont]
    refine hf hj w hw' _ ?_
    unfold fan
    rw [← List.map_tail]
    exact List.mem_map_of_mem (f := fun e => (e.1, c.cont e.2)) he
  · rintro _ c' ⟨h', lay', ht', hs', hiff⟩
    rw [ht'.checked_iff hs', hiff]
    exact hw.keepsFirst_iff hx hn hk hf hsize

theorem KeepsChecked.first (hkeeps : KeepsChecked c x k) : KeepsFirst c x k := by
  obtain ⟨rounds, hrun⟩ := hkeeps
  obtain ⟨_, c', hchecked, hiff⟩ := (hrun (rounds + (h + 3)) (by omega)).both
    (yields_remove_checked hw hc h2 hx hn hk (by omega))
  exact hiff.mp hchecked

/-- **When a deletion keeps the separators equal to the first keys.** -/
theorem keepsChecked_iff : KeepsChecked c x k ↔ KeepsFirst c x k := by
  constructor
  · exact KeepsChecked.first hw hc h2 hx hn hk
  · intro hkeeps
    refine ⟨h + 3, fun fuel hfuel => ?_⟩
    refine (yields_remove_checked hw hc h2 hx hn hk hfuel).mono ?_
    exact fun _ c' hiff => hiff.mpr hkeeps

end

theorem sampleTwo_checked : Checked sampleTwo := by
  refine (sampleTwo_tree.checked_iff sampleTwo_wellFormed.sizes).mpr (fun _ y hy b hb => ?_)
  obtain rfl : y = 4 := by simpa [layersTwo] using hy
  have hfan : sampleTwo.fan 4 = [(1, [(1, ⟨1, 0⟩), (2, ⟨1, 1⟩)]),
      (3, [(3, ⟨2, 0⟩), (4, ⟨2, 1⟩), (5, ⟨2, 2⟩)])] := by decide
  rw [hfan] at hb
  obtain rfl := List.mem_singleton.mp hb
  rfl

/-- The key 4 of the leaves `1 2` and `3 4 5`. -/
theorem keepsChecked_iff_sampleTwo :
    (KeepsChecked sampleTwo 3 4 ↔ KeepsFirst sampleTwo 3 4) ∧ KeepsFirst sampleTwo 3 4 := by
  refine ⟨keepsChecked_iff (v := ⟨2, 1⟩) sampleTwo_wellFormed sampleTwo_checked (by decide)
    (by decide) rfl (by decide), fun _ => ⟨fun _ h => absurd h (by decide), fun h => ?_⟩⟩
  exact absurd h.1 (by decide)

/-- **The key 3 of the same leaves**: `key[1]` of the root stays 3. -/
theorem sampleTwo_not_keepsChecked : WellFormed sampleTwo 1 layersTwo ∧ Checked sampleTwo
    ∧ 2 ≤ (sampleTwo.stored layersTwo).length ∧ ¬ KeepsChecked sampleTwo 3 3 := by
  refine ⟨sampleTwo_wellFormed, sampleTwo_checked, by decide, ?_⟩
  intro hkeeps
  have hfirst := KeepsChecked.first (v := ⟨2, 0⟩) sampleTwo_wellFormed sampleTwo_checked (by decide)
    (by decide) rfl (by decide) hkeeps
  exact absurd ((hfirst (by decide)).1 (by decide) (by decide)) (by decide)

end IxIndexHandle

end Rucbase
